import Mathlib.Logic.Relation
import Discharge.Proofs.Congruence.Connectives
import Discharge.Proofs.Congruence.Keys

/-!
How a model files its facts. Between two merges every live fact is filed under its key, is listed
under the classes it mentions, and has had its demands made; every fact that is no longer live has
a live one that it is congruent to. Results and demands agree up to the merges that are still
pending. While the facts about a class that gave way are being refiled, those still to come are
stale: their keys may name a symbol that is no root any more. No key computed in the meantime can
be confused with theirs.
-/

namespace Discharge.Congruence

def Record.symbols (r : Record) : List Nat := r.app.places ++ [r.result]

theorem Record.op_mem_symbols (r : Record) : r.app.op ∈ r.symbols := by
  simp [symbols, Application.places]

theorem Record.arg_mem_symbols {r : Record} {s : Nat} (h : s ∈ r.app.args) : s ∈ r.symbols := by
  simp [symbols, Application.places, h]

theorem Record.result_mem_symbols (r : Record) : r.result ∈ r.symbols := by
  simp [symbols]

theorem Record.place_mem_symbols {r : Record} {s : Nat} (h : s ∈ r.app.places) :
    s ∈ r.symbols := by
  simp [symbols, h]

namespace Model

def Asked (m : Model) (a b : Nat) : Prop := m.root a = m.root b ∨ (a, b) ∈ m.pending

/-- Symbols that are in one class once all pending merges are made. -/
def Joined (m : Model) : Nat → Nat → Prop := Relation.EqvGen m.Asked

def listing (m : Model) (root : Nat) : Array Nat := (m.uses[root]?).getD #[]

/-- The merges that the rule of a fact's operator asks for. -/
def demands (m : Model) (r : Record) : List (Nat × Nat) :=
  consequences (m.vocabulary.rootName r.app.op) (r.app.args.map m.root) (m.root r.result)
    Vocabulary.truth Vocabulary.falsehood

/-- What was ever inserted, oldest first. -/
def history (m : Model) : List (Application × Nat) :=
  m.records.toList.map fun r => (r.app, r.result)

namespace Joined

variable {m n : Model} {a b c : Nat}

theorem refl (m : Model) (a : Nat) : m.Joined a a := Relation.EqvGen.refl a

theorem symm (h : m.Joined a b) : m.Joined b a := Relation.EqvGen.symm _ _ h

theorem trans (h : m.Joined a b) (h' : m.Joined b c) : m.Joined a c :=
  Relation.EqvGen.trans _ _ _ h h'

theorem of_root_eq (h : m.root a = m.root b) : m.Joined a b :=
  Relation.EqvGen.rel _ _ (.inl h)

theorem of_mem_pending (h : (a, b) ∈ m.pending) : m.Joined a b :=
  Relation.EqvGen.rel _ _ (.inr h)

theorem mono (hstep : ∀ a b, m.Asked a b → n.Joined a b) (h : m.Joined a b) : n.Joined a b := by
  induction h with
  | rel a b h => exact hstep a b h
  | refl a => exact refl n a
  | symm a b _ ih => exact ih.symm
  | trans a b c _ _ ih ih' => exact ih.trans ih'

theorem root_eq (hp : m.pending = []) (h : m.Joined a b) : m.root a = m.root b := by
  induction h with
  | rel a b h =>
    rcases h with h | h
    · exact h
    · simp [hp] at h
  | refl a => rfl
  | symm a b _ ih => exact ih.symm
  | trans a b c _ _ ih ih' => exact ih.trans ih'

end Joined

/-- The state of a model while the facts at the stale positions wait to be refiled. -/
structure Filed (m : Model) (stale : List Nat) : Prop where
  vocabulary : m.vocabulary.WellFormed
  symbols_lt : ∀ {i : Nat} {r : Record}, m.records[i]? = some r →
    ∀ s ∈ r.symbols, s < m.vocabulary.size
  pending_lt : ∀ p ∈ m.pending, p.1 < m.vocabulary.size ∧ p.2 < m.vocabulary.size
  table_iff : ∀ {k : Application} {i : Nat}, m.table[k]? = some i ↔
    ∃ r : Record, m.records[i]? = some r ∧ r.live = true ∧ r.key = k
  key_eq : ∀ {i : Nat} {r : Record}, m.records[i]? = some r → r.live = true →
    r.key = r.app.key m.vocabulary ∨ i ∈ stale ∧ ∃ s ∈ r.key.places, m.root s ≠ s
  listed : ∀ {i : Nat} {r : Record}, m.records[i]? = some r → r.live = true →
    ∀ s ∈ r.symbols, i ∈ m.listing (m.root s)
  covered : ∀ {i : Nat} {r : Record}, m.records[i]? = some r →
    ∃ (j : Nat) (r' : Record), m.records[j]? = some r' ∧ r'.live = true ∧
      r.app.Congruent m.vocabulary r'.app ∧ m.Joined r.result r'.result
  contradiction_iff : m.contradiction = true ↔
    m.root Vocabulary.truth = m.root Vocabulary.falsehood
  closed : ∀ {i : Nat} {r : Record}, m.records[i]? = some r → r.live = true → i ∉ stale →
    ∀ p ∈ m.demands r, m.Joined p.1 p.2

section Asking

variable {m : Model} {stale : List Nat}

theorem Filed.setPending (h : m.Filed stale) {pending : List (Nat × Nat)}
    (hlt : ∀ p ∈ pending, p.1 < m.vocabulary.size ∧ p.2 < m.vocabulary.size)
    (hj : ∀ p ∈ m.pending, Joined { m with pending } p.1 p.2) :
    Filed { m with pending } stale := by
  have hmono : ∀ {a b}, m.Joined a b → Joined { m with pending } a b := by
    intro a b
    apply Joined.mono
    rintro a b (hr | hp)
    · exact Joined.of_root_eq hr
    · exact hj (a, b) hp
  refine ⟨h.vocabulary, h.symbols_lt, hlt, h.table_iff, h.key_eq, h.listed, ?_,
    h.contradiction_iff, ?_⟩
  · intro i r hr
    obtain ⟨j, r', hj, hl, hc, hjoin⟩ := h.covered hr
    exact ⟨j, r', hj, hl, hc, hmono hjoin⟩
  · intro i r hr hl hs p hp
    exact hmono (h.closed hr hl hs p hp)

theorem enqueue_eq_self {p : Nat × Nat} (h : m.root p.1 = m.root p.2) : m.enqueue p = m := by
  simp [enqueue, h]

theorem enqueue_of_ne {p : Nat × Nat} (h : m.root p.1 ≠ m.root p.2) :
    m.enqueue p = { m with pending := p :: m.pending } := by
  simp [enqueue, h]

theorem filed_enqueue (h : m.Filed stale) {p : Nat × Nat} (h₁ : p.1 < m.vocabulary.size)
    (h₂ : p.2 < m.vocabulary.size) : (m.enqueue p).Filed stale := by
  by_cases hr : m.root p.1 = m.root p.2
  · rw [enqueue_eq_self hr]
    exact h
  · rw [enqueue_of_ne hr]
    refine h.setPending ?_ ?_
    · intro q hq
      rcases List.mem_cons.mp hq with rfl | hq
      · exact ⟨h₁, h₂⟩
      · exact h.pending_lt q hq
    · intro q hq
      exact Joined.of_mem_pending (List.mem_cons_of_mem _ hq)

theorem joined_enqueue (m : Model) (p : Nat × Nat) : (m.enqueue p).Joined p.1 p.2 := by
  by_cases hr : m.root p.1 = m.root p.2
  · rw [enqueue_eq_self hr]
    exact Joined.of_root_eq hr
  · rw [enqueue_of_ne hr]
    exact Joined.of_mem_pending List.mem_cons_self

/-- The model with other pending merges, of which the given ones are part. -/
structure Asks (m n : Model) : Prop where
  eq : ∃ asked, n = { m with pending := asked ++ m.pending }

theorem Asks.refl (m : Model) : m.Asks m := ⟨[], rfl⟩

theorem Asks.trans {m n o : Model} (h : m.Asks n) (h' : n.Asks o) : m.Asks o := by
  obtain ⟨asked, rfl⟩ := h
  obtain ⟨asked', rfl⟩ := h'
  exact ⟨asked' ++ asked, by simp [List.append_assoc]⟩

theorem asks_enqueue (m : Model) (p : Nat × Nat) : m.Asks (m.enqueue p) := by
  by_cases hr : m.root p.1 = m.root p.2
  · rw [enqueue_eq_self hr]
    exact Asks.refl m
  · rw [enqueue_of_ne hr]
    exact ⟨[p], rfl⟩

theorem asks_foldl_enqueue (ps : List (Nat × Nat)) (m : Model) :
    m.Asks (ps.foldl enqueue m) := by
  induction ps generalizing m with
  | nil => exact Asks.refl m
  | cons p rest ih => exact (asks_enqueue m p).trans (ih _)

theorem asks_check (m : Model) (i : Nat) : m.Asks (m.check i) := asks_foldl_enqueue _ m

theorem Asks.joined {n : Model} (h : m.Asks n) {a b : Nat} (hj : m.Joined a b) :
    n.Joined a b := by
  obtain ⟨asked, rfl⟩ := h
  refine Joined.mono ?_ hj
  rintro a b (hr | hp)
  · exact Joined.of_root_eq hr
  · exact Joined.of_mem_pending (List.mem_append_right _ hp)

theorem joined_foldl_enqueue {ps : List (Nat × Nat)} (m : Model) {p : Nat × Nat} (hp : p ∈ ps) :
    (ps.foldl enqueue m).Joined p.1 p.2 := by
  induction ps generalizing m with
  | nil => simp at hp
  | cons q rest ih =>
    rcases List.mem_cons.mp hp with rfl | hp
    · exact (asks_foldl_enqueue rest _).joined (joined_enqueue m p)
    · exact ih _ hp

theorem filed_foldl_enqueue {ps : List (Nat × Nat)} (h : m.Filed stale)
    (hlt : ∀ p ∈ ps, p.1 < m.vocabulary.size ∧ p.2 < m.vocabulary.size) :
    (ps.foldl enqueue m).Filed stale := by
  induction ps generalizing m with
  | nil => exact h
  | cons p rest ih =>
    have hp := hlt p List.mem_cons_self
    refine ih (filed_enqueue h hp.1 hp.2) ?_
    intro q hq
    obtain ⟨asked, he⟩ := asks_enqueue m p
    rw [he]
    exact hlt q (List.mem_cons_of_mem _ hq)

end Asking

section Checking

variable {m : Model} {stale : List Nat} {i : Nat} {r : Record}

theorem record_eq (h : m.records[i]? = some r) : m.record i = r := by
  simp [record, h]

theorem Filed.op_lt (h : m.Filed stale) (hr : m.records[i]? = some r) :
    r.app.op < m.vocabulary.size := h.symbols_lt hr _ r.op_mem_symbols

theorem Filed.result_lt (h : m.Filed stale) (hr : m.records[i]? = some r) :
    r.result < m.vocabulary.size := h.symbols_lt hr _ r.result_mem_symbols

theorem Filed.places_lt (h : m.Filed stale) (hr : m.records[i]? = some r) :
    ∀ s ∈ r.app.places, s < m.vocabulary.size :=
  fun s hs => h.symbols_lt hr s (Record.place_mem_symbols hs)

theorem Filed.root_truth (h : m.Filed stale) : m.root Vocabulary.truth = Vocabulary.truth :=
  h.vocabulary.root_truth

theorem Filed.root_lt (h : m.Filed stale) {s : Nat} (hs : s < m.vocabulary.size) :
    m.root s < m.vocabulary.size := h.vocabulary.root_lt hs

theorem check_eq (hr : m.records[i]? = some r) :
    m.check i = (consequences (m.vocabulary.rootName r.app.op) (r.app.args.map m.root)
      (m.root r.result) (m.root Vocabulary.truth) (m.root Vocabulary.falsehood)).foldl
        enqueue m := by
  simp only [check, record_eq hr]
  rfl

theorem Filed.demands_subset (h : m.Filed stale) {p : Nat × Nat} (hp : p ∈ m.demands r) :
    p ∈ consequences (m.vocabulary.rootName r.app.op) (r.app.args.map m.root) (m.root r.result)
      (m.root Vocabulary.truth) (m.root Vocabulary.falsehood) := by
  rw [h.root_truth]
  rcases h.vocabulary.root_falsehood with hf | hf
  · change m.root Vocabulary.falsehood = _ at hf
    rw [hf]
    exact hp
  · -- Falsehood has given way to truth, so it is the root of no symbol.
    have hnot : ∀ s, m.root s ≠ Vocabulary.falsehood := by
      intro s hs
      have hroot := h.vocabulary.root_root s
      change m.root (m.root s) = m.root s at hroot
      change m.root Vocabulary.falsehood = Vocabulary.truth at hf
      rw [hs, hf] at hroot
      exact absurd hroot (by decide)
    have hargs : Vocabulary.falsehood ∉ r.app.args.map m.root := by
      intro hmem
      obtain ⟨s, -, hs⟩ := List.mem_map.mp hmem
      exact hnot s hs
    exact mem_consequences_iff.mpr ((mem_consequences_iff.mp hp).of_absent (hnot _) hargs _)

theorem filed_check (h : m.Filed stale) (hr : m.records[i]? = some r) :
    (m.check i).Filed stale := by
  rw [check_eq hr]
  refine filed_foldl_enqueue h ?_
  intro p hp
  have hargs : ∀ a ∈ r.app.args.map m.root, a < m.vocabulary.size := by
    intro a ha
    obtain ⟨s, hs, rfl⟩ := List.mem_map.mp ha
    exact h.root_lt (h.symbols_lt hr s (Record.arg_mem_symbols hs))
  exact (mem_consequences_iff.mp hp).both hargs (h.root_lt (h.result_lt hr))
    (h.root_lt h.vocabulary.truth_lt) (h.root_lt h.vocabulary.falsehood_lt)

theorem joined_check (h : m.Filed stale) (hr : m.records[i]? = some r) :
    ∀ p ∈ m.demands r, (m.check i).Joined p.1 p.2 := by
  intro p hp
  rw [check_eq hr]
  exact joined_foldl_enqueue m (h.demands_subset hp)

/-- A fact that is filed under its key and whose demands were made is not stale any more. -/
theorem Filed.settle (h : m.Filed (i :: stale))
    (hi : ∀ r : Record, m.records[i]? = some r → r.live = true →
      r.key = r.app.key m.vocabulary ∧ ∀ p ∈ m.demands r, m.Joined p.1 p.2) :
    m.Filed stale := by
  refine ⟨h.vocabulary, h.symbols_lt, h.pending_lt, h.table_iff, ?_, h.listed, h.covered,
    h.contradiction_iff, ?_⟩
  · intro j r hr hl
    rcases h.key_eq hr hl with hk | ⟨hmem, hs⟩
    · exact .inl hk
    · rcases List.mem_cons.mp hmem with rfl | hmem
      · exact .inl (hi r hr hl).1
      · exact .inr ⟨hmem, hs⟩
  · intro j r hr hl hj
    by_cases he : j = i
    · subst he
      exact (hi r hr hl).2
    · exact h.closed hr hl (by simp [he, hj])

theorem filed_check_settle (h : m.Filed (i :: stale)) (hr : m.records[i]? = some r)
    (hk : r.key = r.app.key m.vocabulary) : (m.check i).Filed stale := by
  have hjoin := joined_check h hr
  have hfiled := filed_check h hr
  obtain ⟨asked, he⟩ := asks_check m i
  rw [he] at hjoin hfiled ⊢
  refine hfiled.settle ?_
  intro r' hr' _
  rw [show r' = r from Option.some.inj (hr'.symm.trans hr)]
  exact ⟨hk, hjoin⟩

end Checking

section Refiling

variable {m : Model} {stale : List Nat} {i : Nat} {r : Record}

theorem Filed.table_key (h : m.Filed stale) (hr : m.records[i]? = some r) (hl : r.live = true) :
    m.table[r.key]? = some i := h.table_iff.mpr ⟨r, hr, hl, rfl⟩

def rekeyed (m : Model) (i : Nat) (r : Record) : Model := { m with
  table := (m.table.erase r.key).insert (r.app.key m.vocabulary) i
  records := m.records.setIfInBounds i { r with key := r.app.key m.vocabulary } }

def retired (m : Model) (i : Nat) (r : Record) : Model := { m with
  table := m.table.erase r.key
  records := m.records.setIfInBounds i { r with live := false } }

theorem getElem?_set {j : Nat} (hr : m.records[i]? = some r) (s : Record) :
    (m.records.setIfInBounds i s)[j]? = if i = j then some s else m.records[j]? := by
  have hi : i < m.records.size := (Array.getElem?_eq_some_iff.mp hr).choose
  rw [Array.getElem?_setIfInBounds]
  simp [hi]

/-- A fact that is found where a fact is to be filed has the same key, whether stale or not. -/
theorem Filed.key_eq_of_found (h : m.Filed stale) {a : Application} {j : Nat} {s : Record}
    (hs : m.records[j]? = some s) (hl : s.live = true) (hk : s.key = a.key m.vocabulary) :
    a.key m.vocabulary = s.app.key m.vocabulary := by
  rcases h.key_eq hs hl with he | ⟨-, x, hx, hroot⟩
  · rw [← hk, he]
  · -- A stale key names a symbol that is no root, and a new key names roots only.
    rw [hk] at hx
    obtain ⟨y, -, hy⟩ := Application.mem_places_key.mp hx
    refine (hroot ?_).elim
    rw [← hy]
    exact h.vocabulary.root_root y

theorem getElem?_rekeyed (hr : m.records[i]? = some r) :
    (m.rekeyed i r).records[i]? = some { r with key := r.app.key m.vocabulary } := by
  rw [rekeyed, getElem?_set hr, if_pos rfl]

theorem Filed.getElem?_erase_iff (h : m.Filed stale) (hr : m.records[i]? = some r)
    (hl : r.live = true) {k : Application} {x : Nat} :
    (m.table.erase r.key)[k]? = some x ↔
      i ≠ x ∧ ∃ y : Record, m.records[x]? = some y ∧ y.live = true ∧ y.key = k := by
  rw [getElem?_erase, ← h.table_iff]
  split
  · rename_i hk
    subst hk
    rw [h.table_key hr hl]
    simp
  · rename_i hk
    refine ⟨fun hx => ⟨?_, hx⟩, And.right⟩
    rintro rfl
    obtain ⟨y, hy, -, hyk⟩ := h.table_iff.mp hx
    rw [hr] at hy
    cases hy
    exact hk hyk

/-- Ways to refile a fact: one that is not live is left alone, one whose place is free is filed
there and checked, and one whose place is taken is retired in favour of the fact there. -/
inductive Refiles (m : Model) (i : Nat) : Model → Prop where
  | idle (h : ∀ r, m.records[i]? = some r → r.live = false) : Refiles m i m
  | rekey {r : Record} (hr : m.records[i]? = some r) (hl : r.live = true)
      (hfree : (m.table.erase r.key)[r.app.key m.vocabulary]? = none) :
      Refiles m i ((m.rekeyed i r).check i)
  | retire {r s : Record} {j : Nat} (hr : m.records[i]? = some r) (hl : r.live = true)
      (hij : i ≠ j) (hs : m.records[j]? = some s) (hsl : s.live = true)
      (hkey : s.key = r.app.key m.vocabulary) :
      Refiles m i ((m.retired i r).enqueue (r.result, s.result))

theorem Filed.refiles (h : m.Filed stale) (i : Nat) : m.Refiles i (m.refile i) := by
  cases hr : m.records[i]? with
  | none =>
    have hdead : (m.record i).live = false := by
      simp [record, hr]
      rfl
    rw [show m.refile i = m by simp [refile, hdead]]
    exact .idle fun r h => by simp [hr] at h
  | some r =>
    cases hl : r.live with
    | false =>
      rw [show m.refile i = m by simp [refile, record_eq hr, hl]]
      refine .idle fun r' h' => ?_
      rw [← Option.some.inj (hr.symm.trans h'), hl]
    | true =>
      have hk := h.table_key hr hl
      unfold refile
      simp only [record_eq hr, hl, hk, beq_self_eq_true, Bool.not_true, Bool.false_eq_true,
        if_false, if_true]
      cases hj : (m.table.erase r.key)[r.app.key m.vocabulary]? with
      | none => simpa only [rekeyed, hl] using Refiles.rekey hr hl hj
      | some j =>
        obtain ⟨hij, s, hs, hsl, hsk⟩ := (h.getElem?_erase_iff hr hl).mp hj
        have hne : (j == i) = false := beq_eq_false_iff_ne.mpr (Ne.symm hij)
        simp only [hne, Bool.false_eq_true, if_false, record_eq hs]
        exact .retire hr hl hij hs hsl hsk

section Replacing

variable {q : Record} (hr : m.records[i]? = some r) (happ : q.app = r.app)
  (hres : q.result = r.result)
include hr happ hres

theorem exists_of_getElem?_set {k : Nat} {x : Record}
    (hx : (m.records.setIfInBounds i q)[k]? = some x) :
    ∃ y : Record, m.records[k]? = some y ∧ y.app = x.app ∧ y.result = x.result ∧
      y.symbols = x.symbols := by
  rw [getElem?_set hr] at hx
  split at hx
  · rename_i he
    cases hx
    exact ⟨r, he ▸ hr, happ.symm, hres.symm, by simp [Record.symbols, happ, hres]⟩
  · exact ⟨x, hx, rfl, rfl, rfl⟩

theorem Filed.covered_of_set (h : m.Filed stale) {n : Model}
    (hjoin : ∀ {a b}, m.Joined a b → n.Joined a b) {j : Nat} {s : Record}
    (hs : (m.records.setIfInBounds i q)[j]? = some s) (hsl : s.live = true)
    (hcong : r.app.Congruent m.vocabulary s.app) (hnew : n.Joined r.result s.result) {k : Nat}
    {x : Record} (hx : (m.records.setIfInBounds i q)[k]? = some x) :
    ∃ (l : Nat) (y : Record), (m.records.setIfInBounds i q)[l]? = some y ∧ y.live = true ∧
      x.app.Congruent m.vocabulary y.app ∧ n.Joined x.result y.result := by
  obtain ⟨x', hx', hxapp, hxres, -⟩ := exists_of_getElem?_set hr happ hres hx
  obtain ⟨l, y, hy, hyl, hc, hj⟩ := h.covered hx'
  rw [hxapp] at hc
  rw [hxres] at hj
  by_cases hil : i = l
  · subst hil
    rw [hr] at hy
    cases hy
    exact ⟨j, s, hs, hsl, hc.trans hcong, (hjoin hj).trans hnew⟩
  · exact ⟨l, y, by rw [getElem?_set hr, if_neg hil, hy], hyl, hc, hjoin hj⟩

end Replacing

/-- A fact whose place is taken becomes a copy of the one that is there. -/
theorem filed_retire (h : m.Filed (i :: stale)) (hr : m.records[i]? = some r) (hl : r.live = true)
    {j : Nat} {s : Record} (hij : i ≠ j) (hs : m.records[j]? = some s) (hsl : s.live = true)
    (hkey : s.key = r.app.key m.vocabulary) :
    ((m.retired i r).enqueue (r.result, s.result)).Filed stale := by
  have hcong := Application.Congruent.of_key_eq h.vocabulary (h.op_lt hr)
    (h.key_eq_of_found hs hsl hkey)
  let n := m.retired i r
  have hrec : ∀ k, n.records[k]? = if i = k then some { r with live := false }
      else m.records[k]? := fun k => getElem?_set hr _
  -- All live facts are as they were.
  have hold : ∀ {k : Nat} {x : Record}, n.records[k]? = some x → x.live = true →
      i ≠ k ∧ m.records[k]? = some x := by
    intro k x hx hxl
    rw [hrec] at hx
    split at hx
    · cases hx
      simp at hxl
    · exact ⟨‹_›, hx⟩
  have hasks := asks_enqueue n (r.result, s.result)
  have hjoin : ∀ {a b}, m.Joined a b → (n.enqueue (r.result, s.result)).Joined a b := by
    intro a b hab
    exact hasks.joined (Joined.mono (n := n) (fun a b hk => Relation.EqvGen.rel _ _ hk) hab)
  have hnew := joined_enqueue n (r.result, s.result)
  have hlt : ∀ p ∈ (n.enqueue (r.result, s.result)).pending,
      p.1 < m.vocabulary.size ∧ p.2 < m.vocabulary.size := by
    intro p hp
    by_cases he : n.root r.result = n.root s.result
    · rw [enqueue_eq_self he] at hp
      exact h.pending_lt p hp
    · rw [enqueue_of_ne he] at hp
      rcases List.mem_cons.mp hp with rfl | hp
      · exact ⟨h.result_lt hr, h.result_lt hs⟩
      · exact h.pending_lt p hp
  change (n.enqueue (r.result, s.result)).Filed stale
  obtain ⟨asked, he⟩ := hasks
  rw [he] at hjoin hnew hlt ⊢
  refine ⟨h.vocabulary, ?_, hlt, ?_, ?_, ?_, ?_, h.contradiction_iff, ?_⟩
  · intro k x hx y hy
    obtain ⟨x', hx', -, -, hsymbols⟩ := exists_of_getElem?_set (q := { r with live := false }) hr
      rfl rfl hx
    exact h.symbols_lt hx' y (hsymbols ▸ hy)
  · intro k x
    refine (h.getElem?_erase_iff hr hl).trans ⟨?_, ?_⟩
    · rintro ⟨hix, y, hy, hyl, hyk⟩
      exact ⟨y, by rw [hrec, if_neg hix, hy], hyl, hyk⟩
    · rintro ⟨y, hy, hyl, hyk⟩
      obtain ⟨hix, hy⟩ := hold hy hyl
      exact ⟨hix, y, hy, hyl, hyk⟩
  · intro k x hx hxl
    obtain ⟨hik, hx⟩ := hold hx hxl
    rcases h.key_eq hx hxl with hk | ⟨hmem, hbad⟩
    · exact .inl hk
    · exact .inr ⟨(List.mem_cons.mp hmem).resolve_left hik.symm, hbad⟩
  · intro k x hx hxl
    exact h.listed (hold hx hxl).2 hxl
  · intro k x hx
    exact h.covered_of_set (q := { r with live := false }) hr rfl rfl hjoin
      ((hrec j).trans ((if_neg hij).trans hs)) hsl hcong hnew hx
  · intro k x hx hxl hk p hp
    obtain ⟨hik, hx⟩ := hold hx hxl
    exact hjoin (h.closed hx hxl (by simp [Ne.symm hik, hk]) p hp)

theorem filed_rekey (h : m.Filed (i :: stale)) (hr : m.records[i]? = some r) (hl : r.live = true)
    (hfree : (m.table.erase r.key)[r.app.key m.vocabulary]? = none) :
    (m.rekeyed i r).Filed (i :: stale) := by
  let n := m.rekeyed i r
  have hrec : ∀ k, n.records[k]? = if i = k then some { r with key := r.app.key m.vocabulary }
      else m.records[k]? := fun k => getElem?_set hr _
  have hself : n.records[i]? = some { r with key := r.app.key m.vocabulary } := by
    rw [hrec, if_pos rfl]
  refine ⟨h.vocabulary, ?_, h.pending_lt, ?_, ?_, ?_, ?_, h.contradiction_iff, ?_⟩
  · intro k x hx y hy
    obtain ⟨x', hx', -, -, hsymbols⟩ := exists_of_getElem?_set
      (q := { r with key := r.app.key m.vocabulary }) hr rfl rfl hx
    exact h.symbols_lt hx' y (hsymbols ▸ hy)
  · intro k x
    change ((m.table.erase r.key).insert (r.app.key m.vocabulary) i)[k]? = some x ↔
      ∃ y : Record, n.records[x]? = some y ∧ y.live = true ∧ y.key = k
    rw [getElem?_insert, hrec]
    constructor
    · intro hx
      split at hx
      · rename_i hk
        cases hx
        exact ⟨_, if_pos rfl, hl, hk⟩
      · obtain ⟨hix, y, hy, hyl, hyk⟩ := (h.getElem?_erase_iff hr hl).mp hx
        exact ⟨y, by rw [if_neg hix, hy], hyl, hyk⟩
    · rintro ⟨y, hy, hyl, hyk⟩
      split at hy
      · rename_i hix
        cases hy
        rw [if_pos hyk, hix]
      · rename_i hix
        have hx := (h.getElem?_erase_iff hr hl).mpr ⟨hix, y, hy, hyl, hyk⟩
        rw [if_neg, hx]
        rintro rfl
        rw [hfree] at hx
        cases hx
  · intro k x hx hxl
    rw [hrec] at hx
    split at hx
    · cases hx
      exact .inl rfl
    · exact h.key_eq hx hxl
  · intro k x hx hxl
    rw [hrec] at hx
    split at hx
    · rename_i hik
      subst hik
      cases hx
      exact h.listed (r := r) hr hl
    · exact h.listed hx hxl
  · intro k x hx
    exact h.covered_of_set (q := { r with key := r.app.key m.vocabulary }) hr rfl rfl id hself hl
      (.refl _ _) (.refl _ _) hx
  · intro k x hx hxl hk p hp
    rw [hrec] at hx
    split at hx
    · rename_i hik
      exact (hk (by simp [hik])).elim
    · exact h.closed hx hxl hk p hp

/-- Refiling a fact leaves one stale fact fewer. -/
theorem filed_refile (h : m.Filed (i :: stale)) : (m.refile i).Filed stale := by
  have hrefiles := h.refiles i
  generalize m.refile i = n at hrefiles ⊢
  cases hrefiles with
  | idle hdead => exact h.settle fun r hr hl => absurd hl (by simp [hdead r hr])
  | rekey hr hl hfree =>
    exact filed_check_settle (filed_rekey h hr hl hfree) (getElem?_rekeyed hr) rfl
  | retire hr hl hij hs hsl hkey => exact filed_retire h hr hl hij hs hsl hkey

theorem filed_foldl_refile {moved : List Nat} (h : m.Filed moved) :
    (moved.foldl refile m).Filed [] := by
  induction moved generalizing m with
  | nil => exact h
  | cons i rest ih => exact ih (filed_refile h)

end Refiling

end Model

end Discharge.Congruence
