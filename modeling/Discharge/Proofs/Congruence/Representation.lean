import Discharge.Proofs.Congruence.Inputs

/-!
What the table, the lists and the records of a model have to do with each other, whatever it was
fed. The table holds the live facts under their keys of now. A fact that is no longer live is
represented by one that is congruent to it. It can be found under its own key as long as the root
of its operator exchanges operands whenever some operator of that class does. If an operator such
as `=` is merged into an older one that keeps its operands in order, a fact whose operands had
been exchanged loses its key, and with it the classes of later applications are not joined.
-/

namespace Discharge.Congruence

/-- Whether the root of an operator exchanges operands if any operator of its class does. -/
def Vocabulary.KeepsExchange (v : Vocabulary) (op : Nat) : Prop :=
  v.Exchanges op → isCommutative (v.rootName op) = true

namespace Model

/-- How the facts of a model are represented between two inputs. -/
structure Represented (m : Model) : Prop where
  pending_eq : m.pending = []
  /-- The table has exactly the keys of now of the live facts. -/
  table_iff : ∀ {k : Application} {i : Nat}, m.table[k]? = some i ↔
    ∃ r : Record, m.records[i]? = some r ∧ r.live = true ∧ r.app.key m.vocabulary = k
  key_eq : ∀ {i : Nat} {r : Record}, m.records[i]? = some r → r.live = true →
    r.key = r.app.key m.vocabulary
  eq_of_key_eq : ∀ {i j : Nat} {r s : Record}, m.records[i]? = some r → m.records[j]? = some s →
    r.live = true → s.live = true → r.app.key m.vocabulary = s.app.key m.vocabulary → i = j
  listed : ∀ {i : Nat} {r : Record}, m.records[i]? = some r → r.live = true →
    ∀ s ∈ r.symbols, i ∈ m.listing (m.root s)
  /-- Every fact ever inserted is congruent to a live one with the same result. -/
  covered : ∀ {i : Nat} {r : Record}, m.records[i]? = some r →
    ∃ (j : Nat) (s : Record), m.records[j]? = some s ∧ s.live = true ∧
      r.app.Congruent m.vocabulary s.app ∧ m.root r.result = m.root s.result
  /-- Every fact ever inserted is found under its key of now, with its result. -/
  found : ∀ {i : Nat} {r : Record}, m.records[i]? = some r →
    m.vocabulary.KeepsExchange r.app.op →
    ∃ (j : Nat) (s : Record), m.table[r.app.key m.vocabulary]? = some j ∧
      m.records[j]? = some s ∧ m.root r.result = m.root s.result
  congruence : ∀ {i j : Nat} {r s : Record}, m.records[i]? = some r → m.records[j]? = some s →
    m.vocabulary.KeepsExchange r.app.op → m.root r.app.op = m.root s.app.op →
    r.app.args.map m.root = s.app.args.map m.root → m.root r.result = m.root s.result
  size_eq : m.size = m.facts.length

section Closed

variable {m : Model} {i j : Nat} {r s : Record}

theorem Closed.key_eq (h : m.Closed) (hr : m.records[i]? = some r) (hl : r.live = true) :
    r.key = r.app.key m.vocabulary := by
  rcases h.filed.key_eq hr hl with hk | ⟨hmem, -⟩
  · exact hk
  · simp at hmem

theorem Closed.table_iff (h : m.Closed) {k : Application} : m.table[k]? = some i ↔
    ∃ r : Record, m.records[i]? = some r ∧ r.live = true ∧ r.app.key m.vocabulary = k := by
  rw [h.filed.table_iff]
  constructor
  · rintro ⟨r, hr, hl, rfl⟩
    exact ⟨r, hr, hl, (h.key_eq hr hl).symm⟩
  · rintro ⟨r, hr, hl, rfl⟩
    exact ⟨r, hr, hl, h.key_eq hr hl⟩

theorem Closed.eq_of_key_eq (h : m.Closed) (hr : m.records[i]? = some r)
    (hs : m.records[j]? = some s) (hl : r.live = true) (hl' : s.live = true)
    (hk : r.app.key m.vocabulary = s.app.key m.vocabulary) : i = j := by
  have hi := h.table_iff.mpr ⟨r, hr, hl, rfl⟩
  have hj := h.table_iff.mpr ⟨s, hs, hl', rfl⟩
  rw [hk, hj] at hi
  exact (Option.some.inj hi).symm

theorem Closed.covered (h : m.Closed) (hr : m.records[i]? = some r) :
    ∃ (j : Nat) (s : Record), m.records[j]? = some s ∧ s.live = true ∧
      r.app.Congruent m.vocabulary s.app ∧ m.root r.result = m.root s.result := by
  obtain ⟨j, s, hs, hl, hc, hj⟩ := h.filed.covered hr
  exact ⟨j, s, hs, hl, hc, hj.root_eq h.pending_eq⟩

theorem Closed.found (h : m.Closed) (hr : m.records[i]? = some r)
    (hx : m.vocabulary.KeepsExchange r.app.op) :
    ∃ (j : Nat) (s : Record), m.table[r.app.key m.vocabulary]? = some j ∧
      m.records[j]? = some s ∧ m.root r.result = m.root s.result := by
  obtain ⟨j, s, hs, hl, hc, hres⟩ := h.covered hr
  exact ⟨j, s, h.table_iff.mpr ⟨s, hs, hl, (hc.key_eq hx).symm⟩, hs, hres⟩

theorem Closed.congruence (h : m.Closed) (hr : m.records[i]? = some r)
    (hs : m.records[j]? = some s) (hx : m.vocabulary.KeepsExchange r.app.op)
    (hop : m.root r.app.op = m.root s.app.op)
    (hargs : r.app.args.map m.root = s.app.args.map m.root) :
    m.root r.result = m.root s.result := by
  change m.vocabulary.root r.app.op = m.vocabulary.root s.app.op at hop
  have hcong : r.app.Congruent m.vocabulary s.app :=
    ⟨hop, List.Perm.of_eq hargs, .inl hargs⟩
  have hx' : m.vocabulary.KeepsExchange s.app.op := by
    intro hs
    rw [Vocabulary.rootName, ← hop]
    exact hx (hs.congr hop.symm)
  obtain ⟨k, t, hk, ht, hres⟩ := h.found hr hx
  obtain ⟨k', t', hk', ht', hres'⟩ := h.found hs hx'
  rw [hcong.key_eq hx, hk'] at hk
  cases hk
  rw [ht'] at ht
  cases ht
  rw [hres, hres']

theorem Closed.keys_perm (h : m.Closed) :
    ((m.records.toList.filter Record.live).map Record.key).Perm m.table.keys := by
  have hnodup : ((m.records.toList.filter Record.live).map Record.key).Nodup := by
    rw [List.Nodup, List.pairwise_map, List.pairwise_filter, List.pairwise_iff_getElem]
    intro a b ha hb hab hla hlb hk
    simp only [Array.length_toList] at ha hb
    simp only [Array.getElem_toList] at hla hlb hk
    have hra : m.records[a]? = some m.records[a] := Array.getElem?_eq_getElem ha
    have hrb : m.records[b]? = some m.records[b] := Array.getElem?_eq_getElem hb
    rw [h.key_eq hra hla, h.key_eq hrb hlb] at hk
    exact Nat.ne_of_lt hab (h.eq_of_key_eq hra hrb hla hlb hk)
  refine (List.perm_ext_iff_of_nodup hnodup ?_).mpr ?_
  · exact Std.TreeMap.nodup_keys
  · intro k
    rw [Std.TreeMap.mem_keys, Std.TreeMap.mem_iff_isSome_getElem?, Option.isSome_iff_exists]
    simp only [h.filed.table_iff, List.mem_map, List.mem_filter, Array.mem_toList_iff,
      Array.mem_iff_getElem?]
    constructor
    · rintro ⟨r, ⟨⟨i, hr⟩, hl⟩, hk⟩
      exact ⟨i, r, hr, hl, hk⟩
    · rintro ⟨i, r, hr, hl, hk⟩
      exact ⟨r, ⟨⟨i, hr⟩, hl⟩, hk⟩

theorem Closed.size_eq (h : m.Closed) : m.size = m.facts.length := by
  rw [size, facts, List.length_map, ← Std.TreeMap.length_keys, ← h.keys_perm.length_eq,
    List.length_map]

end Closed

/-- Whatever a model is fed, its facts are represented. -/
theorem represented_ofInputs (inputs : List Input) : (ofInputs inputs).Represented := by
  have h := closed_ofInputs inputs
  exact ⟨h.pending_eq, h.table_iff, h.key_eq, h.eq_of_key_eq, h.filed.listed, h.covered, h.found,
    h.congruence, h.size_eq⟩

/-- Inputs that merge the operator `=` into an older symbol after a fact about it had its operands
exchanged. -/
def exchangedInputs : List Input :=
  let x (name : Text) : Term := .symbol ⟨name, .boolean, .free⟩
  [.represent (x "f"), .represent (.equal (x "a") (x "c")), .represent (.equal (x "d") (x "a")),
    .assume (.equal (x "d") (x "c")), .assume (.equal (x "f") (x "=")),
    .represent (.equal (x "d") (x "a"))]

/-- The second and the third fact are about the same operator and operands, and yet their results
are in different classes: the second was not found under its key. -/
theorem congruence_lost :
    ((ofInputs exchangedInputs).record 1).app.canonical (ofInputs exchangedInputs).vocabulary =
        ((ofInputs exchangedInputs).record 2).app.canonical (ofInputs exchangedInputs).vocabulary ∧
      (ofInputs exchangedInputs).root ((ofInputs exchangedInputs).record 1).result ≠
        (ofInputs exchangedInputs).root ((ofInputs exchangedInputs).record 2).result := by
  decide +kernel

end Model

end Discharge.Congruence
