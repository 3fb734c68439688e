import Discharge.Proofs.Congruence.Persistence
import Discharge.Proofs.Term.Writing

/-!
What a model was told is true in it. A term may have been told in other words, those of an earlier
state, or not at all because in these words it was an equation of a term with itself. In either case
it is represented in the class of `true`, as long as `=` and `and` still stand for themselves and the
term has no conjunction without conjuncts: asserting such a conjunction asks for nothing, and
representing it gives a symbol that is not known to be true.
-/

namespace Discharge

open Congruence

namespace Term

mutual

/-- Whether every conjunction among the conjuncts of a term joins something. -/
def conjoins : Term → Bool
  | apply (symbol s) args _ => s.name != "and" || !args.isEmpty && conjoinsAll args
  | _ => true

def conjoinsAll : List Term → Bool
  | [] => true
  | t :: rest => t.conjoins && conjoinsAll rest

end

theorem conjoinsAll_iff {ts : List Term} :
    conjoinsAll ts = true ↔ ∀ t ∈ ts, t.conjoins = true := by
  induction ts with
  | nil => simp [conjoinsAll]
  | cons t rest ih => simp [conjoinsAll, ih]

theorem conjoins_apply_iff {s : Symbol} {args : List Term} {k : Kind} :
    (apply (symbol s) args k).conjoins = true ↔
      (s.name = "and" → args ≠ [] ∧ ∀ a ∈ args, a.conjoins = true) := by
  simp [conjoins, conjoinsAll_iff, Decidable.imp_iff_not_or]

theorem equation?_of_isTrivialEquation {t : Term} (h : t.isTrivialEquation = true) :
    ∃ a b, t.equation? = some (a, b) ∧ a.same b = true := by
  rw [isTrivialEquation, Bool.and_eq_true, beq_iff_eq, Option.any_eq_true] at h
  obtain ⟨hop, ⟨a, b⟩, hsides, hsame⟩ := h
  refine ⟨a, b, ?_, hsame⟩
  change t.operator? = some ("=" : Text) at hop
  rw [equation?, if_pos hop, hsides]

end Term

namespace Congruence

/-- Whether `=` and `and` are the roots of their classes, and operands that were exchanged once can
still be. -/
structure Vocabulary.KeepsConnectives (v : Vocabulary) : Prop where
  exchanges : v.KeepsExchanges
  own : ∀ i < v.size, v.name i = "=" ∨ v.name i = "and" → v.root i = i

instance (v : Vocabulary) : Decidable v.KeepsConnectives :=
  decidable_of_iff (v.KeepsExchanges ∧
    ∀ i < v.size, v.name i = "=" ∨ v.name i = "and" → v.root i = i)
    ⟨fun h => ⟨h.1, h.2⟩, fun h => ⟨h.exchanges, h.own⟩⟩

/-- Whether operands that were exchanged once can still be, and `=` heads a class of its own. -/
structure Vocabulary.KeepsEquations (v : Vocabulary) : Prop where
  exchanges : v.KeepsExchanges
  own : ∀ i < v.size, v.name i = "=" → v.root i = i

instance (v : Vocabulary) : Decidable v.KeepsEquations :=
  decidable_of_iff (v.KeepsExchanges ∧ ∀ i < v.size, v.name i = "=" → v.root i = i)
    ⟨fun h => ⟨h.1, h.2⟩, fun h => ⟨h.exchanges, h.own⟩⟩

theorem Vocabulary.KeepsConnectives.keepsEquations {v : Vocabulary} (h : v.KeepsConnectives) :
    v.KeepsEquations :=
  ⟨h.exchanges, fun i hi hn => h.own i hi (.inl hn)⟩

structure Entry.Tidy (e : Entry) : Prop where
  writable : writableName e.name = true
  created : e.usage = .created → isCommutative e.name = false

namespace Model

/-- A model between two inputs whose symbols are all tidy. -/
structure Orderly (m : Model) : Prop where
  closed : m.Closed
  tidy : m.vocabulary.All Entry.Tidy

variable {m n : Model}

section Keeping

theorem admits_tidy {t : Term} (ht : t.written = true) : Admits Entry.Tidy t.symbols where
  created k _ := by
    refine ⟨?_, fun _ => ?_⟩
    · have hbytes : ("¢c0123456789" : Text).toList.all (!endsName ·) = true := by decide
      refine writableName_iff.mpr ⟨Vocabulary.createdName_ne k, fun byte hbyte => ?_⟩
      simpa using List.all_eq_true.mp hbytes byte (Vocabulary.mem_createdName hbyte)
    · have hstart := startsWith_createdName k
      cases hc : isCommutative (Vocabulary.createdName k) with
      | false => rfl
      | true =>
        simp only [isCommutative, Bool.or_eq_true, beq_iff_eq] at hc
        rcases hc with (hc | hc) | hc <;> rw [hc] at hstart <;> exact absurd hstart (by decide)
  symbol s hs applied := by
    refine ⟨Term.writableName_of_mem_symbols t ht hs, ?_⟩
    intro hu
    change usageOf s applied = .created at hu
    unfold usageOf at hu
    split at hu
    · cases hu
    · split at hu <;> cases hu

theorem orderly_empty : empty.Orderly :=
  ⟨closed_empty, all_empty ⟨by decide, nofun⟩ ⟨by decide, nofun⟩⟩

theorem Orderly.assume (h : m.Orderly) {t : Term} (ht : t.written = true) :
    (m.assume t).2.Orderly :=
  ⟨(closed_assume h.closed t).1,
    all_assume h.tidy (Term.applicative_of_written t ht) (admits_tidy ht)⟩

theorem Orderly.represent (h : m.Orderly) {t : Term} (ht : t.written = true) :
    (m.represent t).2.Orderly :=
  ⟨(closed_represent h.closed t).1,
    all_represent h.tidy (Term.applicative_of_written t ht) (admits_tidy ht)⟩

theorem Orderly.writable (h : m.Orderly) {i : Nat} (hi : i < m.vocabulary.size) :
    writableName (m.vocabulary.name i) = true := (h.tidy.entry hi).writable

theorem Orderly.keepsConnectives_represent (h : m.Orderly) (hcon : m.contradiction = false)
    (hk : m.vocabulary.KeepsConnectives) {t : Term} (ht : t.written = true) :
    (m.represent t).2.vocabulary.KeepsConnectives := by
  have hcons := conserves_represent h.closed hcon t
  have hn := h.represent ht
  generalize (m.represent t).2 = n at hcons hn ⊢
  -- A connective that is new was not created, so it is its own root.
  have hnew : ∀ {i : Nat}, m.vocabulary.size ≤ i → i < n.vocabulary.size →
      isCommutative (n.vocabulary.name i) = true → n.vocabulary.root i = i := by
    intro i hi hlt hc
    refine hcons.fresh hi hlt fun hu => ?_
    have hnot := (hn.tidy.entry hlt).created hu
    change isCommutative (n.vocabulary.name i) = false at hnot
    rw [hc] at hnot
    contradiction
  have hold : ∀ {i : Nat}, i < m.vocabulary.size → n.vocabulary.root i = m.vocabulary.root i :=
    fun hi => hcons.root_eq hi
  have hname : ∀ {i : Nat}, i < m.vocabulary.size → n.vocabulary.name i = m.vocabulary.name i :=
    fun hi => hcons.vocabulary.name_eq hi
  refine ⟨?_, ?_⟩
  · intro i hlt hc
    by_cases hi : i < m.vocabulary.size
    · rw [hname hi] at hc
      rw [Vocabulary.rootName, hold hi, hname (h.closed.filed.vocabulary.root_lt hi)]
      exact hk.exchanges i hi hc
    · rw [Vocabulary.rootName, hnew (Nat.le_of_not_lt hi) hlt hc]
      exact hc
  · intro i hlt hop
    by_cases hi : i < m.vocabulary.size
    · rw [hname hi] at hop
      rw [hold hi]
      exact hk.own i hi hop
    · refine hnew (Nat.le_of_not_lt hi) hlt ?_
      rcases hop with hop | hop <;> rw [hop] <;> decide

end Keeping

section Simplifying

theorem simplifyAll_eq_map (m : Model) (ts : List Term) :
    m.simplifyAll ts = ts.map m.simplify := by
  induction ts with
  | nil => rfl
  | cons t rest ih => rw [simplifyAll, ih, List.map_cons]

theorem simplify_symbol_cases (m : Model) (s : Symbol) : m.simplify (.symbol s) = .symbol s ∨
    ∃ r k, m.vocabulary.rootOf? s.name = some r ∧
      m.simplify (.symbol s) = .symbol ⟨m.vocabulary.name r, k, .free⟩ := by
  rw [simplify]
  split
  · exact .inl rfl
  · rename_i r hr
    split
    · exact .inr ⟨r, _, hr, rfl⟩
    · exact .inl rfl

theorem simplify_apply_cases (m : Model) (fn : Term) (args : List Term) (k : Kind) :
    m.simplify (.apply fn args k) = .apply fn (args.map m.simplify) k ∨
    ∃ r l, m.find? (.apply fn (args.map m.simplify) k) = some r ∧
      m.simplify (.apply fn args k) = .symbol ⟨m.vocabulary.name r, l, .free⟩ := by
  rw [simplify, simplifyAll_eq_map]
  dsimp only
  split
  · exact .inl rfl
  · rename_i r hr
    split
    · exact .inr ⟨r, _, hr, rfl⟩
    · exact .inl rfl

theorem lt_of_find? (hm : m.Closed) {t : Term} {r : Nat} (h : m.find? t = some r) :
    r < m.vocabulary.size := by
  have hlt := (advances_place t hm.filed).2
  rw [place_of_find? t h] at hlt
  exact hlt

/-- What is found for a term is found for it in every later state, in its class of then. -/
theorem find?_of_extends (hm : m.Closed) (hn : n.Closed) (hx : n.vocabulary.KeepsExchanges)
    (hext : m.Extends n) {t : Term} {r : Nat} (h : m.find? t = some r) :
    n.find? t = some (n.root r) := by
  have hplace := place_of_find? t h
  have hfound := find?_place t hm.filed hn hx (by rw [hplace]; exact hext)
  rw [hplace] at hfound
  exact hfound

theorem findAll?_congr {ts us : List Term}
    (h : List.Forall₂ (fun t u => n.find? t = n.find? u) ts us) :
    n.findAll? ts = n.findAll? us := by
  induction h with
  | nil => rfl
  | cons hd _ ih => rw [findAll?, findAll?, hd, ih]

theorem find?_simplify (hm : m.Closed) (hn : n.Closed) (hx : n.vocabulary.KeepsExchanges)
    (hext : m.Extends n) (t : Term) (ht : t.written = true) :
    n.find? (m.simplify t) = n.find? t := by
  induction t, ht using Term.written_induction with
  | name s _ =>
    rcases m.simplify_symbol_cases s with he | ⟨r, k, hr, he⟩
    · rw [he]
    · have hknown := (find?_symbol m s).trans hr
      rw [he, find?_of_extends hm hn hx hext hknown]
      exact find?_name hext hn (lt_of_find? hm hknown) k .free
  | application s args k h ih =>
    have hargs := (Term.written_apply_iff.mp h).2
    have hall : n.findAll? (args.map m.simplify) = n.findAll? args := by
      refine findAll?_congr (List.forall₂_map_left_iff.mpr ?_)
      exact List.forall₂_same.mpr fun a ha => ih a ha (hargs a ha)
    have hsame : n.find? (.apply (.symbol s) (args.map m.simplify) k) =
        n.find? (.apply (.symbol s) args k) := by
      rw [find?_apply_eq hn, find?_apply_eq hn, hall]
    rcases m.simplify_apply_cases (.symbol s) args k with he | ⟨r, l, hr, he⟩
    · rw [he]
      exact hsame
    · rw [he, ← hsame, find?_of_extends hm hn hx hext hr]
      exact find?_name hext hn (lt_of_find? hm hr) l .free

theorem Orderly.written_simplify (h : m.Orderly) (t : Term) (ht : t.written = true) :
    (m.simplify t).written = true := by
  induction t, ht using Term.written_induction with
  | name s hs =>
    rcases m.simplify_symbol_cases s with he | ⟨r, k, hr, he⟩
    · rw [he]
      exact hs
    · rw [he]
      obtain ⟨i, hi, rfl⟩ := Option.map_eq_some_iff.mp hr
      exact h.writable (h.closed.filed.root_lt (h.closed.filed.vocabulary.lt_of_lookup? hi))
  | application s args k hw ih =>
    obtain ⟨hs, hargs⟩ := Term.written_apply_iff.mp hw
    rcases m.simplify_apply_cases (.symbol s) args k with he | ⟨r, l, hr, he⟩
    · rw [he]
      refine Term.written_apply_iff.mpr ⟨hs, ?_⟩
      exact List.forall_mem_map.mpr fun a ha => ih a ha (hargs a ha)
    · rw [he]
      exact h.writable (lt_of_find? h.closed hr)

theorem conjoins_simplify (m : Model) (t : Term) (ht : t.written = true)
    (hc : t.conjoins = true) : (m.simplify t).conjoins = true := by
  induction t, ht using Term.written_induction with
  | name s _ =>
    rcases m.simplify_symbol_cases s with he | ⟨r, k, -, he⟩
    · rw [he]
      rfl
    · rw [he]
      rfl
  | application s args k hw ih =>
    have hargs := (Term.written_apply_iff.mp hw).2
    rcases m.simplify_apply_cases (.symbol s) args k with he | ⟨r, l, -, he⟩
    · rw [he]
      refine Term.conjoins_apply_iff.mpr fun hs => ?_
      obtain ⟨hne, hall⟩ := Term.conjoins_apply_iff.mp hc hs
      exact ⟨by simpa using hne,
        List.forall_mem_map.mpr fun a ha => ih a ha (hargs a ha) (hall a ha)⟩
    · rw [he]
      rfl

end Simplifying

section Telling

mutual

theorem find?_bare (m : Model) (t : Term) : m.find? t.bare = m.find? t := by
  match t with
  | .symbol s => rw [Term.bare, find?_symbol, find?_symbol]
  | .apply fn args k =>
    rw [Term.bare, find?_apply, find?_apply, findOperator?_bare m fn, findAll?_bare m args]
  | .lambda params body k => rfl
  | .cases branches otherwise k => rfl

theorem findOperator?_bare (m : Model) (fn : Term) :
    m.findOperator? fn.bare = m.findOperator? fn := by
  match fn with
  | .symbol s => rfl
  | .apply fn args k => exact find?_bare m (.apply fn args k)
  | .lambda params body k => rfl
  | .cases branches otherwise k => rfl

theorem findAll?_bare (m : Model) (ts : List Term) :
    m.findAll? (Term.bareAll ts) = m.findAll? ts := by
  match ts with
  | [] => rfl
  | t :: rest => rw [Term.bareAll, findAll?, findAll?, find?_bare m t, findAll?_bare m rest]

end

theorem find?_of_same (m : Model) {a b : Term} (ha : a.written = true) (hb : b.written = true)
    (h : a.same b = true) : m.find? a = m.find? b := by
  rw [← find?_bare m a, ← find?_bare m b, Term.bare_eq_of_same ha hb h]

theorem name_of_find?_operator (hm : m.Closed) {s : Symbol}
    (hown : ∀ i < m.vocabulary.size, m.vocabulary.name i = s.name → m.vocabulary.root i = i)
    {op : Nat} (h : m.find? (.symbol s) = some op) :
    m.root op = op ∧ m.vocabulary.name op = s.name := by
  have hv := hm.filed.vocabulary
  rw [find?_symbol] at h
  obtain ⟨i, hi, rfl⟩ := Option.map_eq_some_iff.mp h
  have hname := hv.name_of_lookup? hi
  have hroot := hown i (hv.lt_of_lookup? hi) hname
  rw [hroot]
  exact ⟨hroot, hname⟩

theorem truth_of_find?_equation (hm : m.Closed) (hk : m.vocabulary.KeepsEquations) {s : Symbol}
    (hs : s.name = "=") {a b : Term} {k : Kind} (hsides : m.find? a = m.find? b) {i : Nat}
    (h : m.find? (.apply (.symbol s) [a, b] k) = some i) : i = m.root Vocabulary.truth := by
  rw [find?_apply_eq hm] at h
  obtain ⟨op, hop, h⟩ := Option.bind_eq_some_iff.mp h
  obtain ⟨is, his, h⟩ := Option.bind_eq_some_iff.mp h
  obtain ⟨hroot, hname⟩ := name_of_find?_operator hm (hs ▸ hk.own) hop
  simp only [findAll?, bind, pure, Option.bind_eq_some_iff, Option.some.injEq] at his
  obtain ⟨r, hr, js, ⟨r', hr', ls, rfl, rfl⟩, rfl⟩ := his
  obtain rfl : r = r' := Option.some.inj (hr.symm.trans (hsides.trans hr'))
  obtain ⟨f, hf, rfl, hfop, hperm, -⟩ := hm.exists_fact h
  have hargs : f.app.args = List.replicate 2 (m.root r) := List.perm_replicate.mp hperm
  refine ((hm.saturated hf).equal ?_ _ _ hargs).mp rfl
  rw [hfop, hroot, hname, hs]

theorem findAll?_of_truth {ts : List Term}
    (hall : ∀ t ∈ ts, ∀ i, m.find? t = some i → i = m.root Vocabulary.truth) {is : List Nat}
    (h : m.findAll? ts = some is) : is = List.replicate ts.length (m.root Vocabulary.truth) := by
  induction ts generalizing is with
  | nil =>
    cases h
    rfl
  | cons t rest ih =>
    obtain ⟨ht, hrest⟩ := List.forall_mem_cons.mp hall
    simp only [findAll?, bind, pure, Option.bind_eq_some_iff, Option.some.injEq] at h
    obtain ⟨r, hr, js, hjs, rfl⟩ := h
    rw [ih hrest hjs, ht r hr]
    rfl

theorem truth_of_find?_conjunction (hm : m.Closed) (hk : m.vocabulary.KeepsConnectives)
    {s : Symbol} (hs : s.name = "and") {args : List Term} {k : Kind} (hne : args ≠ [])
    (hall : ∀ a ∈ args, ∀ i, m.find? a = some i → i = m.root Vocabulary.truth) {i : Nat}
    (h : m.find? (.apply (.symbol s) args k) = some i) : i = m.root Vocabulary.truth := by
  rw [find?_apply_eq hm] at h
  obtain ⟨op, hop, h⟩ := Option.bind_eq_some_iff.mp h
  obtain ⟨is, his, h⟩ := Option.bind_eq_some_iff.mp h
  obtain ⟨hroot, hname⟩ := name_of_find?_operator hm
    (fun i hi hn => hk.own i hi (.inr (hn.trans hs))) hop
  rw [findAll?_of_truth hall his] at h
  obtain ⟨f, hf, rfl, hfop, hperm, -⟩ := hm.exists_fact h
  have hargs : f.app.args = List.replicate args.length (m.root Vocabulary.truth) := by
    rw [List.map_replicate, root, root, hm.filed.vocabulary.root_root] at hperm
    exact List.perm_replicate.mp hperm
  refine (hm.saturated hf).conjuncts ?_ ?_ ?_
  · rw [hfop, hroot, hname, hs]
  · rw [hargs]
    simpa using hne
  · rw [hargs]
    exact fun a ha => List.eq_of_mem_replicate ha

/-- A term that is held and known is known to be true, if its conjunctions join something. -/
theorem truth_of_holds (hm : m.Closed) (hk : m.vocabulary.KeepsConnectives) (t : Term)
    (hc : t.conjoins = true) (h : m.Holds t) {i : Nat} (hi : m.find? t = some i) :
    i = m.root Vocabulary.truth := by
  revert hc h i
  refine Term.splitOn_induction (P := fun t ps => t.conjoins = true → (∀ c ∈ ps, m.HoldsPart c) →
    ∀ {i : Nat}, m.find? t = some i → i = m.root Vocabulary.truth) "and" ?_ ?_ t
  · intro t _ _ h i hi
    have hpart := h t (List.mem_singleton_self t)
    cases he : t.equation? with
    | none => exact Option.some.inj (hi.symm.trans (hpart.other he))
    | some sides =>
      obtain ⟨s, k, hs, rfl⟩ := Term.eq_of_equation? he
      obtain ⟨r, ha, hb⟩ := hpart.equation he
      exact truth_of_find?_equation hm hk.keepsEquations hs (ha.trans hb.symm) hi
  · intro s args k hs ih hc h i hi
    obtain ⟨hne, hall⟩ := Term.conjoins_apply_iff.mp hc hs
    refine truth_of_find?_conjunction hm hk hs hne ?_ hi
    intro a ha j hj
    exact ih a ha (hall a ha) (fun c hca => h c (List.mem_flatMap.mpr ⟨a, ha, hca⟩)) hj

/-- Whether a model was told a term: at an earlier state it was assumed as it is or in the words of
that state, or it said nothing in these words. -/
inductive Told (m : Model) (t : Term) : Prop where
  | assumed {o : Model} (ho : o.Orderly) (h : (o.assume t).2.Extends m)
  | restated {o : Model} (ho : o.Orderly) (h : (o.assume (o.simplify t)).2.Extends m)
  | trivial {o : Model} (ho : o.Orderly) (h : o.Extends m)
      (ht : (o.simplify t).isTrivialEquation = true)

theorem Told.of_extends {t : Term} (h : m.Told t) (hext : m.Extends n) : n.Told t := by
  cases h with
  | assumed ho h => exact .assumed ho (h.trans hext)
  | restated ho h => exact .restated ho (h.trans hext)
  | trivial ho h ht => exact .trivial ho (h.trans hext) ht

theorem Told.truth (hm : m.Closed) (hk : m.vocabulary.KeepsConnectives) {t : Term}
    (ht : t.written = true) (hc : t.conjoins = true) (h : m.Told t) {i : Nat}
    (hi : m.find? t = some i) : i = m.root Vocabulary.truth := by
  cases h with
  | assumed ho h =>
    exact truth_of_holds hm hk t hc (holds_of_assume ho.closed hm hk.exchanges h) hi
  | @restated o ho h =>
    have hearlier := (closed_assume ho.closed (o.simplify t)).2.trans h
    rw [← find?_simplify ho.closed hm hk.exchanges hearlier t ht] at hi
    exact truth_of_holds hm hk _ (o.conjoins_simplify t ht hc)
      (holds_of_assume ho.closed hm hk.exchanges h) hi
  | @trivial o ho h htriv =>
    rw [← find?_simplify ho.closed hm hk.exchanges h t ht] at hi
    obtain ⟨a, b, he, hsame⟩ := Term.equation?_of_isTrivialEquation htriv
    have hw := ho.written_simplify t ht
    obtain ⟨s, k, hs, hsimple⟩ := Term.eq_of_equation? he
    rw [hsimple] at hi hw
    have hargs := (Term.written_apply_iff.mp hw).2
    exact truth_of_find?_equation hm hk.keepsEquations hs
      (m.find?_of_same (hargs a (by simp)) (hargs b (by simp)) hsame) hi

/-- Whether a term is represented in the class of `true`. -/
def Confirms (m : Model) (t : Term) : Prop :=
  (m.represent t).1 = (m.represent t).2.root Vocabulary.truth

theorem confirms_of_find? (hm : m.Orderly) (hcon : m.contradiction = false)
    (hk : m.vocabulary.KeepsConnectives) {t : Term} (ht : t.written = true)
    (h : ∀ n : Model, n.Closed → m.Extends n → n.vocabulary.KeepsConnectives →
      ∀ i, n.find? t = some i → i = n.root Vocabulary.truth) : m.Confirms t := by
  obtain ⟨hn, hext, -⟩ := closed_represent hm.closed t
  have hk' := hm.keepsConnectives_represent hcon hk ht
  have hfound := find?_represent hm.closed hn hk'.exchanges (.refl _)
  have hroot : (m.represent t).2.root (m.represent t).1 = (m.represent t).1 :=
    hn.filed.vocabulary.root_root _
  rw [hroot] at hfound
  exact h _ hn hext hk' _ hfound

/-- What a model was told is represented in the class of `true`, also in the words of the model. -/
theorem Told.confirms (hm : m.Orderly) (hcon : m.contradiction = false)
    (hk : m.vocabulary.KeepsConnectives) {t : Term} (ht : t.written = true)
    (hc : t.conjoins = true) (h : m.Told t) : m.Confirms t ∧ m.Confirms (m.simplify t) := by
  refine ⟨confirms_of_find? hm hcon hk ht ?_,
    confirms_of_find? hm hcon hk (hm.written_simplify t ht) ?_⟩
  · intro n hn hext hk' i hi
    exact (h.of_extends hext).truth hn hk' ht hc hi
  · intro n hn hext hk' i hi
    rw [find?_simplify hm.closed hn hk'.exchanges hext t ht] at hi
    exact (h.of_extends hext).truth hn hk' ht hc hi

end Telling

end Model

end Congruence

end Discharge
