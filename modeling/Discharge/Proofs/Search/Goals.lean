import Discharge.Proofs.Congruence.Operands
import Discharge.Proofs.Congruence.Telling
import Discharge.Proofs.Search.Verdicts
import Discharge.Proofs.Success

/-!
The goals of a new obligation. A goal follows the disjuncts of its conclusion: whatever is assumed
later, it is met exactly when one of them is known to be true. A conclusion that is assumed as well
is met at once, unless it is a disjunction: to assume that tells nothing of its disjuncts.
-/

namespace Discharge

open Congruence

namespace Term

variable {op : Text} {t : Term}

theorem splitOn_of_ne (h : t.operator? ≠ some op) : t.splitOn op = [t] := by
  cases t with
  | apply fn args k => rw [splitOn_apply, if_neg h]
  | symbol s => rfl
  | lambda params body k => rfl
  | cases branches otherwise k => rfl

theorem operator?_of_mem_splitOn {p : Term} (h : p ∈ t.splitOn op) : p.operator? ≠ some op := by
  revert h
  refine splitOn_induction (P := fun _ ps => p ∈ ps → p.operator? ≠ some op) op ?_ ?_ t
  · intro t ht hp
    rwa [List.mem_singleton.mp hp]
  · intro s args k _ ih hp
    obtain ⟨a, ha, hpa⟩ := List.mem_flatMap.mp hp
    exact ih a ha hpa

/-- Whether connectives are operators only. -/
abbrev Operational (t : Term) : Prop := t.Applied fun _ _ => True

theorem operational_of_mem_splitOn {p : Term} (h : t.Operational) (hp : p ∈ t.splitOn op) :
    p.Operational := by
  revert h hp
  refine splitOn_induction (P := fun t ps => t.Operational → p ∈ ps → p.Operational) op ?_ ?_ t
  · intro t _ h hp
    rwa [List.mem_singleton.mp hp]
  · intro s args k _ ih h hp
    obtain ⟨a, ha, hpa⟩ := List.mem_flatMap.mp hp
    exact ih a ha ((applied_apply_iff.mp h).2 a ha) hpa

theorem operational_call {name : Text} {k : Kind} {args : List Term}
    (h : ∀ a ∈ args, a.Operational) : (call name k args).Operational :=
  applied_apply_iff.mpr ⟨fun _ _ => trivial, h⟩

theorem operational_pair {name : Text} {k : Kind} {a b : Term} (ha : a.Operational)
    (hb : b.Operational) : (call name k [a, b]).Operational :=
  operational_call (List.forall_mem_cons.mpr ⟨ha, List.forall_mem_singleton.mpr hb⟩)

theorem operational_symbol {s : Symbol} (h : Connective.named? s.name = none) :
    (symbol s).Operational := h

theorem operational_strictLess (n : Normalizer) {a b : Term} (ha : a.Operational)
    (hb : b.Operational) : (n.strictLess a b).Operational := by
  unfold Normalizer.strictLess
  split
  · exact operational_pair (operational_pair ha (operational_symbol (by decide))) hb
  · exact operational_pair ha hb

theorem operational_reduce (n : Normalizer) {fn : Term} {args : List Term} {k : Kind}
    (h : (apply fn args k).Operational) : (n.reduce fn args k).Operational := by
  have hargs := (applied_apply_iff.mp h).2
  have hfalse : falsehood.Operational := operational_symbol (by decide)
  unfold Normalizer.reduce
  split
  · rename_i a _
    split
    · exact operational_pair (hargs a (by simp)) hfalse
    · exact h
  · rename_i a b _
    have ha := hargs a (by simp)
    have hb := hargs b (by simp)
    split
    · exact operational_pair (operational_pair ha hb) hfalse
    · split
      · exact operational_pair hb ha
      · split
        · exact operational_strictLess n hb ha
        · split
          · exact operational_strictLess n ha hb
          · exact h
  · exact h

theorem operational_normalize (n : Normalizer) (t : Term) (h : t.Operational) :
    (n.normalize t).Operational := by
  match t with
  | symbol s =>
    rw [Normalizer.normalize]
    exact h
  | apply fn args k =>
    obtain ⟨hfn, hargs⟩ := applied_apply_iff.mp h
    rw [Normalizer.normalize, normalizeAll_eq_map]
    refine operational_reduce n (applied_apply_iff.mpr ⟨?_, ?_⟩)
    · rwa [List.length_map]
    · exact List.forall_mem_map.mpr fun a ha => operational_normalize n a (hargs a ha)
  | lambda params body k =>
    rw [Normalizer.normalize]
    exact trivial
  | cases branches otherwise k =>
    rw [Normalizer.normalize]
    exact trivial

end Term

namespace Congruence.Model

variable {m : Model}

/-- Whether a model knows a term to be true, or one of its disjuncts if it is a disjunction. -/
def Grants (m : Model) (t : Term) : Prop :=
  ∃ d ∈ t.disjuncts, m.find? d = some (m.root Vocabulary.truth)

theorem grants_of_holds (hm : m.Closed) (hk : m.vocabulary.KeepsEquations) {t : Term}
    (hand : t.operator? ≠ some ("and" : Text)) (hor : t.operator? ≠ some ("or" : Text))
    (h : m.Holds t) (hknown : ∃ r, m.find? t = some r) : m.Grants t := by
  have hpart : m.HoldsPart t := h t (by simp [Term.conjuncts, Term.splitOn_of_ne hand])
  refine ⟨t, by simp [Term.disjuncts, Term.splitOn_of_ne hor], ?_⟩
  cases he : t.equation? with
  | none => exact hpart.other he
  | some sides =>
    obtain ⟨s, k, hs, rfl⟩ := Term.eq_of_equation? he
    obtain ⟨r, ha, hb⟩ := hpart.equation he
    obtain ⟨i, hi⟩ := hknown
    rw [hi, truth_of_find?_equation hm hk hs (ha.trans hb.symm) hi]

end Congruence.Model

namespace Search.Obligation

variable {m o : Model} {ob : Obligation} {n : Normalizer} {c : Condition}

section Following

theorem rootOf?_rootName (hm : m.Closed) (ho : o.Closed) (hext : m.Extends o) {i : Nat}
    (hi : i < m.vocabulary.size) :
    o.vocabulary.rootOf? (m.vocabulary.rootName i) = some (o.root i) := by
  have hfound := Model.find?_name hext ho (hm.filed.vocabulary.root_lt hi) .boolean .free
  rw [Model.find?_symbol] at hfound
  exact hfound.trans (congrArg some (hext.root_root hm.filed hi))

/-- Terms that were represented are found later in the classes that they were placed in. -/
theorem find?_representAll (ts : List Term) (hm : m.Closed) (ho : o.Closed)
    (hx : o.vocabulary.KeepsExchanges) (hext : (representAll ts m).2.Extends o) :
    (representAll ts m).1.map (fun i => some (o.root i)) = ts.map o.find? := by
  induction ts generalizing m with
  | nil => rfl
  | cons t rest ih =>
    obtain ⟨hc, -⟩ := Model.closed_represent hm t
    obtain ⟨-, hrest⟩ := closed_representAll rest hc
    simp only [representAll, List.map_cons] at hext ⊢
    rw [ih hc hext, Model.find?_represent hm ho hx (hrest.trans hext)]

theorem lt_of_mem_representAll (ts : List Term) (hm : m.Closed) :
    ∀ i ∈ (representAll ts m).1, i < (representAll ts m).2.vocabulary.size := by
  induction ts generalizing m with
  | nil => simp [representAll]
  | cons t rest ih =>
    obtain ⟨hc, -, hlt⟩ := Model.closed_represent hm t
    obtain ⟨-, hrest⟩ := closed_representAll rest hc
    refine List.forall_mem_cons.mpr ⟨?_, ih hc⟩
    exact hrest.lt hlt

structure Follows (m : Model) (goal : List Text) (ts : List Term) : Prop where
  known : ∀ {o : Model}, o.Closed → o.vocabulary.KeepsExchanges → m.Extends o →
    ∀ d ∈ ts, ∃ r, o.find? d = some r
  named : ∀ {o : Model}, o.Closed → o.vocabulary.KeepsExchanges → m.Extends o →
    ∀ r, (∃ g ∈ goal, o.vocabulary.rootOf? g = some r) ↔ ∃ d ∈ ts, o.find? d = some r

theorem Follows.of_extends {goal : List Text} {ts : List Term} (h : Follows m goal ts)
    (hext : m.Extends o) : Follows o goal ts :=
  ⟨fun hp hx he => h.known hp hx (hext.trans he), fun hp hx he => h.named hp hx (hext.trans he)⟩

theorem follows_addConjunct (hm : ob.model.Closed) (t : Term) :
    ∃ goal, (ob.addConjunct t).goals = ob.goals ++ [goal] ∧
      Follows (ob.addConjunct t).model goal t.disjuncts := by
  obtain ⟨hc, -⟩ := closed_representAll t.disjuncts hm
  have hlt := lt_of_mem_representAll t.disjuncts hm
  -- The indices of the disjuncts are what both sides are compared with.
  have hterm : ∀ {o : Model}, o.Closed → o.vocabulary.KeepsExchanges →
      (ob.addConjunct t).model.Extends o → ∀ x, (∃ d ∈ t.disjuncts, o.find? d = x) ↔
        ∃ i ∈ (representAll t.disjuncts ob.model).1, some (o.root i) = x := by
    intro o ho hx hext x
    rw [← List.mem_map (f := fun i => some (o.root i)), ← List.mem_map (f := o.find?),
      find?_representAll t.disjuncts hm ho hx hext]
  refine ⟨_, rfl, ?_, ?_⟩
  · intro o ho hx hext d hd
    obtain ⟨i, -, hi⟩ := (hterm ho hx hext (o.find? d)).mp ⟨d, hd, rfl⟩
    exact ⟨_, hi.symm⟩
  · intro o ho hx hext r
    rw [hterm ho hx hext]
    constructor
    · rintro ⟨g, hg, hr⟩
      obtain ⟨i, hi, rfl⟩ := List.mem_map.mp (Text.mem_distinct.mp hg)
      rw [rootOf?_rootName hc ho hext (hlt i hi)] at hr
      exact ⟨i, hi, hr⟩
    · rintro ⟨i, hi, hr⟩
      refine ⟨_, Text.mem_distinct.mpr (List.mem_map_of_mem hi), ?_⟩
      rw [rootOf?_rootName hc ho hext (hlt i hi), hr]

theorem follows_foldl_addConjunct (ts : List Term) {cs : List Term} (hm : ob.model.Closed)
    (h : List.Forall₂ (fun goal t => Follows ob.model goal t.disjuncts) ob.goals cs) :
    List.Forall₂ (fun goal t => Follows (ts.foldl addConjunct ob).model goal t.disjuncts)
      (ts.foldl addConjunct ob).goals (cs ++ ts) := by
  induction ts generalizing ob cs with
  | nil => simpa using h
  | cons t rest ih =>
    obtain ⟨hc, hext⟩ := closed_representAll t.disjuncts hm
    obtain ⟨goal, hgoals, hfollows⟩ := follows_addConjunct hm t
    have hold : List.Forall₂ (fun goal u => Follows (ob.addConjunct t).model goal u.disjuncts)
        ob.goals cs := h.imp fun _ _ hf => hf.of_extends hext
    have hfirst : List.Forall₂
        (fun goal u => Follows (ob.addConjunct t).model goal u.disjuncts)
        (ob.addConjunct t).goals (cs ++ [t]) := by
      rw [hgoals]
      exact List.rel_append hold (.cons hfollows .nil)
    have hrest := ih hc hfirst
    simpa using hrest

theorem new_spec (n : Normalizer) (c : Condition) : ∃ m : Model,
    new n c = { registered n c with model := m } ∧ m.Closed ∧ (assumed n c).Extends m := by
  have hm := closed_foldl_assume seedAxioms (closed_assumed n c).1
  exact ⟨_, new_eq n c, hm⟩

theorem closed_new (n : Normalizer) (c : Condition) :
    (new n c).model.Closed ∧ (assumed n c).Extends (new n c).model := by
  obtain ⟨m, he, hm⟩ := new_spec n c
  rw [he]
  exact hm

theorem follows_new (n : Normalizer) (c : Condition) :
    List.Forall₂ (fun goal t => Follows (new n c).model goal t.disjuncts) (new n c).goals
      (conclusions n c) := by
  have hregistered : List.Forall₂
      (fun goal t => Follows (registered n c).model goal t.disjuncts) (registered n c).goals
      (conclusions n c) :=
    @follows_foldl_addConjunct ⟨c, .empty, []⟩ _ [] Model.closed_empty .nil
  obtain ⟨m, he, -, hext⟩ := new_spec n c
  rw [he]
  exact hregistered.imp fun _ _ hf => hf.of_extends ((closed_assumed n c).2.trans hext)

theorem known_of_mem_conclusions (hx : (new n c).model.vocabulary.KeepsExchanges) {t d : Term}
    (ht : t ∈ conclusions n c) (hd : d ∈ t.disjuncts) : ∃ r, (new n c).model.find? d = some r := by
  obtain ⟨goal, -, hf⟩ := exists_of_mem_forall₂ (follows_new n c) ht
  exact hf.known (closed_new n c).1 hx (.refl _) d hd

/-- A goal is met when a disjunct of its conclusion is known to be true. -/
theorem Follows.isMet_iff {goal : List Text} {t : Term} (h : Follows ob.model goal t.disjuncts)
    (hm : ob.model.Closed) (hx : ob.model.vocabulary.KeepsExchanges) :
    ob.isMet goal = true ↔ ob.model.Grants t := by
  rw [isMet, List.any_eq_true]
  simp only [beq_iff_eq]
  exact h.named hm hx (.refl _) _

end Following

section Feeding

/-- A model that is reached by assuming and representing terms of one sort. -/
def Fed (P : Term → Prop) (m : Model) : Prop :=
  ∃ inputs : List Model.Input, m = Model.ofInputs inputs ∧ ∀ i ∈ inputs, P i.term

variable {P : Term → Prop}

theorem Fed.feed (h : Fed P m) {i : Model.Input} (hi : P i.term) : Fed P (m.feed i) := by
  obtain ⟨inputs, rfl, hall⟩ := h
  refine ⟨inputs ++ [i], by simp [Model.ofInputs], ?_⟩
  simpa [or_imp, forall_and] using ⟨hall, hi⟩

theorem Fed.representAll (ts : List Term) (h : Fed P m) (hts : ∀ t ∈ ts, P t) :
    Fed P (Obligation.representAll ts m).2 := by
  induction ts generalizing m with
  | nil => exact h
  | cons t rest ih =>
    obtain ⟨ht, hrest⟩ := List.forall_mem_cons.mp hts
    exact ih (h.feed (i := .represent t) ht) hrest

theorem Fed.assumeAll (ts : List Term) (h : Fed P m) (hts : ∀ t ∈ ts, P t) :
    Fed P (ts.foldl (fun m t => (m.assume t).2) m) :=
  List.foldlRecOn ts _ h fun _ hm t ht => hm.feed (i := .assume t) (hts t ht)

theorem Fed.assumeUntilFalse (ts : List Term) (h : Fed P m) (hts : ∀ t ∈ ts, P t) :
    Fed P (Obligation.assumeUntilFalse ts m) := by
  obtain ⟨us, hus, heq, -⟩ := exists_prefix_assumeUntilFalse ts m
  rw [heq]
  exact h.assumeAll us fun t ht => hts t (hus.subset ht)

theorem fed_registered (h : ∀ t ∈ conclusions n c, ∀ d ∈ t.disjuncts, P d) :
    Fed P (registered n c).model :=
  List.foldlRecOn (motive := fun ob => Fed P ob.model) (conclusions n c) addConjunct
    ⟨[], rfl, by simp⟩ fun _ hob t ht => hob.representAll _ (h t ht)

theorem fed_new (hright : ∀ t ∈ conclusions n c, ∀ d ∈ t.disjuncts, P d)
    (hleft : ∀ t ∈ c.sequent.left, ∀ p ∈ (n.normalize t).conjuncts, P p)
    (hseeds : ∀ t ∈ seedAxioms, P t) : Fed P (new n c).model := by
  have hassumed : Fed P (assumed n c) :=
    List.foldlRecOn _ _ (fed_registered hright) fun m hm t ht =>
      hm.assumeUntilFalse _ (hleft t ht)
  have hmodel := congrArg Obligation.model (new_eq n c)
  dsimp only at hmodel
  rw [hmodel]
  exact hassumed.assumeAll seedAxioms hseeds

theorem keepsEquations_new (n : Normalizer) (c : Condition)
    (h : ∀ t ∈ c.sequent.left ++ c.sequent.right, t.Operational) :
    (new n c).model.vocabulary.KeepsEquations := by
  have hnormal : ∀ t ∈ c.sequent.left ++ c.sequent.right, (n.normalize t).Operational :=
    fun t ht => Term.operational_normalize n t (h t ht)
  have hseeds : ∀ t ∈ seedAxioms, t.Operational := by
    intro t ht
    refine Term.applied_of_wellApplied (fun _ _ _ => trivial) t ?_
    revert t
    decide
  have hright : ∀ t ∈ conclusions n c, ∀ d ∈ t.disjuncts, d.Operational := by
    intro t ht d hd
    obtain ⟨u, hu, htu⟩ := List.mem_flatMap.mp ht
    exact Term.operational_of_mem_splitOn (Term.operational_of_mem_splitOn
      (hnormal u (List.mem_append_right _ hu)) htu) hd
  obtain ⟨inputs, he, hin⟩ := fed_new hright
    (fun t ht p hp => Term.operational_of_mem_splitOn (hnormal t (List.mem_append_left _ ht)) hp)
    hseeds
  have hconfined : (new n c).model.ConfinedTo fun _ _ => True :=
    he ▸ Model.confined_foldl_feed inputs Model.confined_empty Model.closed_empty hin
  have hv := (closed_new n c).1.filed.vocabulary
  refine ⟨hconfined.keepsExchanges hv, fun i _ hi => hconfined.root_connective hv ?_⟩
  rw [Vocabulary.Joinable, hi]
  decide

end Feeding

section Status

/-- What the status of a new obligation says. -/
theorem status_new_iff (hx : (new n c).model.vocabulary.KeepsExchanges) :
    (new n c).status = .proved ↔ (new n c).model.contradiction = false ∧
      conclusions n c ≠ [] ∧ ∀ t ∈ conclusions n c, (new n c).model.Grants t := by
  have hfollows := follows_new n c
  have hmet : (new n c).goals.all (new n c).isMet = true ↔
      ∀ t ∈ conclusions n c, (new n c).model.Grants t := by
    rw [List.all_eq_true]
    constructor
    · intro h t ht
      obtain ⟨goal, hgoal, hf⟩ := exists_of_mem_forall₂ hfollows ht
      exact (hf.isMet_iff (closed_new n c).1 hx).mp (h goal hgoal)
    · intro h goal hgoal
      obtain ⟨t, ht, hf⟩ := exists_of_mem_forall₂ hfollows.flip hgoal
      exact (hf.isMet_iff (closed_new n c).1 hx).mpr (h t ht)
  have hempty : (new n c).goals.isEmpty = false ↔ conclusions n c ≠ [] := by
    rw [← List.length_pos_iff, ← hfollows.length_eq, List.length_pos_iff]
    simp
  rw [← hmet, ← hempty, status]
  cases (new n c).model.contradiction with
  | true => simp
  | false =>
    cases (new n c).goals.isEmpty <;> cases (new n c).goals.all (new n c).isMet <;> simp

theorem contradiction_of_extends (hm : m.Closed) (ho : o.Closed) (hext : m.Extends o)
    (h : o.contradiction = false) : m.contradiction = false := by
  cases hc : m.contradiction with
  | false => rfl
  | true =>
    have hjoined := hext.joined (.of_root_eq (hm.filed.contradiction_iff.mp hc))
    rw [ho.filed.contradiction_iff.mpr (hjoined.root_eq ho.pending_eq)] at h
    cases h

theorem exists_of_mem_assumeUntilFalse {ts : List Term} {t : Term} (ht : t ∈ ts) (hm : m.Closed)
    (hcon : (assumeUntilFalse ts m).contradiction = false) :
    ∃ o : Model, o.Closed ∧ (o.assume t).2.Extends (assumeUntilFalse ts m) := by
  obtain ⟨us, -, heq, hall⟩ := exists_prefix_assumeUntilFalse ts m
  obtain rfl := hall hcon
  rw [heq]
  exact Model.exists_step_of_mem (P := Model.Closed) (fun t _ _ hm => Model.closed_assume hm t) ht
    hm

theorem holds_of_mem_left {t p : Term} (ht : t ∈ c.sequent.left)
    (hp : p ∈ (n.normalize t).conjuncts) (hx : (new n c).model.vocabulary.KeepsExchanges)
    (hcon : (new n c).model.contradiction = false) : (new n c).model.Holds p := by
  obtain ⟨o, ho, hext⟩ := Model.exists_step_of_mem (P := Model.Closed)
    (f := fun m t => assumeUntilFalse (n.normalize t).conjuncts m)
    (fun t _ _ hm => closed_assumeUntilFalse (n.normalize t).conjuncts hm) ht (closed_registered n c)
  have hlater : (assumeUntilFalse (n.normalize t).conjuncts o).Extends (new n c).model :=
    hext.trans (closed_new n c).2
  obtain ⟨hc, -⟩ := closed_assumeUntilFalse (n.normalize t).conjuncts ho
  obtain ⟨o', ho', hext'⟩ := exists_of_mem_assumeUntilFalse hp ho
    (contradiction_of_extends hc (closed_new n c).1 hlater hcon)
  exact Model.holds_of_assume ho' (closed_new n c).1 hx (hext'.trans hlater)

/-- If every conclusion is an assumption as well, all but the disjunctions among the conjuncts of
the conclusions are proved at once. A disjunction is as soon as one of its disjuncts is known to be
true, and to assume it does not make it so. -/
theorem status_of_assumed_conclusions (n : Normalizer) (c : Condition)
    (hne : conclusions n c ≠ []) (hmem : ∀ t ∈ c.sequent.right, t ∈ c.sequent.left)
    (hk : (new n c).model.vocabulary.KeepsEquations) :
    (new n c).status = .falseAssumption ∨
      ((new n c).status = .proved ↔ ∀ t ∈ conclusions n c,
        t.operator? = some ("or" : Text) → (new n c).model.Grants t) := by
  have hm := (closed_new n c).1
  cases hcon : (new n c).model.contradiction with
  | true => exact .inl (by simp [status, hcon])
  | false =>
    right
    rw [status_new_iff hk.exchanges]
    refine ⟨fun h t ht _ => h.2.2 t ht, fun h => ⟨hcon, hne, ?_⟩⟩
    intro t ht
    by_cases hor : t.operator? = some ("or" : Text)
    · exact h t ht hor
    obtain ⟨u, hu, hpart⟩ := List.mem_flatMap.mp ht
    have hself : t ∈ t.disjuncts := by simp [Term.disjuncts, Term.splitOn_of_ne hor]
    exact Model.grants_of_holds hm hk (Term.operator?_of_mem_splitOn hpart) hor
      (holds_of_mem_left (hmem u hu) hpart hk.exchanges hcon)
      (known_of_mem_conclusions hk.exchanges ht hself)

/-- One conjunct of the conclusion is an equation, the other a disjunction that has the equation as
a disjunct. -/
def groundedCondition : Condition :=
  let x (name : Text) : Term := .symbol ⟨name, .entity, .free⟩
  let t : Term := .conj (.equal (x "a") (x "b")) (.disj (.equal (x "a") (x "b")) (x "c"))
  { id := 1, sequent := ⟨[t], [t]⟩ }

theorem status_groundedCondition :
    let n : Normalizer := ⟨false⟩
    (∀ t ∈ groundedCondition.sequent.right, t ∈ groundedCondition.sequent.left) ∧
      (new n groundedCondition).status = .proved ∧
      ∀ t ∈ conclusions n groundedCondition, t.operator? = some ("or" : Text) →
        (new n groundedCondition).model.Grants t := by
  intro n
  have hne : conclusions n groundedCondition ≠ [] := by decide +kernel
  have hmem : ∀ t ∈ groundedCondition.sequent.right, t ∈ groundedCondition.sequent.left :=
    fun t ht => ht
  have hk : (new n groundedCondition).model.vocabulary.KeepsEquations := by decide +kernel
  have hproved : (new n groundedCondition).status = .proved := by decide +kernel
  refine ⟨hmem, hproved, ?_⟩
  rcases status_of_assumed_conclusions n groundedCondition hne hmem hk with h | h
  · rw [hproved] at h
    cases h
  · exact h.mp hproved

/-- To assume a disjunction meets no goal. -/
theorem assumed_disjunction_open :
    ¬ ∀ (n : Normalizer) (c : Condition), c.sequent.right ≠ [] →
      (∀ t ∈ c.sequent.right, t ∈ c.sequent.left) →
      (new n c).status = .proved ∨ (new n c).status = .falseAssumption := by
  intro h
  let x (name : Text) : Term := .symbol ⟨name, .boolean, .free⟩
  let t : Term := .disj (x "a") (x "b")
  have hstatus : (new ⟨false⟩ { id := 1, sequent := ⟨[t], [t]⟩ }).status = .evaluating := by
    decide +kernel
  rcases h ⟨false⟩ { id := 1, sequent := ⟨[t], [t]⟩ } (by simp) (fun _ ht => ht) with hp | hp <;>
    rw [hstatus] at hp <;> cases hp

end Status

end Search.Obligation

end Discharge
