import Discharge.Proofs.Congruence.Applications

/-!
Two-valued interpretations. The classical connectives are given on truth values only, but a model
applies its rules whatever the operands are. A connective can be completed to all values so that
the rules hold: what the truth values do not decide is true or false as suits them. An
interpretation that is completed in this way is lawful, and it is what it was wherever connectives
are applied to truth values.
-/

namespace Discharge.Congruence

universe u

variable {D : Type u}

theorem Connective.eq_of_name_eq {c d : Connective} (h : c.name = d.name) : c = d := by
  have hc := named?_name c
  rw [h, named?_name] at hc
  exact (Option.some.inj hc).symm

open scoped Classical in
/-- A connective on all values, given the two truth values. -/
noncomputable def Connective.complete (t f : D) (c : Connective) (args : List D) : D :=
  match c, args with
  | equality, [a, b] => if a = b then t else f
  | equality, _ => f
  | conjunction, _ => if ∀ a ∈ args, a = t then t else f
  | disjunction, _ => if ∀ a ∈ args, a = f then f else t
  | implication, [a, b] => if a = t ∧ b ≠ t then f else t
  | implication, _ => f

/-- A completed connective grants what the rules demand. -/
theorem Connective.eq_of_demand_complete {t f : D} (hne : t ≠ f) {c : Connective} {args : List D}
    {p : D × D} (h : Demand c.name args (c.complete t f args) t f p) : p.1 = p.2 := by
  cases h with
  | equal hop ha =>
    cases eq_of_name_eq (d := .equality) hop
    simp [ha, complete]
  | equation hop ha hr =>
    cases eq_of_name_eq (d := .equality) hop
    subst ha
    simpa [complete, hne.symm] using hr
  | conjunct hop hr ha =>
    cases eq_of_name_eq (d := .conjunction) hop
    simp only [complete] at hr
    split at hr
    · rename_i hall
      exact hall _ ha
    · exact (hne hr.symm).elim
  | refuted hop hf =>
    cases eq_of_name_eq (d := .conjunction) hop
    simp only [complete]
    rw [if_neg fun hall => hne (hall f hf).symm]
  | conjuncts hop _ hall =>
    cases eq_of_name_eq (d := .conjunction) hop
    simp only [complete]
    rw [if_pos hall]
  | disjunct hop ht =>
    cases eq_of_name_eq (d := .disjunction) hop
    simp only [complete]
    rw [if_neg fun hall => hne (hall t ht)]
  | refutes hop hr ha =>
    cases eq_of_name_eq (d := .disjunction) hop
    simp only [complete] at hr
    split at hr
    · rename_i hall
      exact hall _ ha
    · exact (hne hr).elim
  | disjuncts hop _ hall =>
    cases eq_of_name_eq (d := .disjunction) hop
    simp only [complete]
    rw [if_pos hall]
  | detached hop ha hr =>
    cases eq_of_name_eq (d := .implication) hop
    subst ha
    by_contra hb
    simp only [complete] at hr
    rw [if_pos ⟨rfl, hb⟩] at hr
    exact hne hr.symm
  | vacuous hop ha =>
    cases eq_of_name_eq (d := .implication) hop
    simp [ha, complete, hne.symm]
  | concluded hop ha =>
    cases eq_of_name_eq (d := .implication) hop
    simp [ha, complete]

theorem Connective.complete_perm {t f : D} {c : Connective} (hc : c ≠ .implication)
    {args args' : List D} (hp : args.Perm args') : c.complete t f args = c.complete t f args' := by
  classical
  cases c with
  | equality =>
    exact eq_of_perm_of_pair (f := equality.complete t f) (fun a b => if_congr eq_comm rfl rfl)
      (fun _ _ _ _ _ _ _ _ => rfl) hp
  | conjunction => exact if_congr (by simp only [hp.mem_iff]) rfl rfl
  | disjunction => exact if_congr (by simp only [hp.mem_iff]) rfl rfl
  | implication => exact (hc rfl).elim

namespace Interpretation

variable {I : Interpretation D}

theorem lawful_of_demand
    (hd : ∀ (c : Connective) (args : List D) (p : D × D),
      Demand c.name args (I.apply (I.value c.name) args) I.truth I.falsehood p → p.1 = p.2)
    (hx : ∀ op args args', isCommutative op = true → args.Perm args' →
      I.apply (I.value op) args = I.apply (I.value op) args') : I.Lawful where
  equal a b := by
    constructor
    · exact fun h => hd .equality [a, b] (a, b) (.equation rfl rfl h)
    · rintro rfl
      exact hd .equality [a, a] (_, _) (.equal rfl rfl)
  conjunct args h a ha := hd .conjunction args (a, _) (.conjunct rfl h ha)
  conjuncts args hne h := hd .conjunction args (_, _) (.conjuncts rfl hne h)
  refuted args h := hd .conjunction args (_, _) (.refuted rfl h)
  disjunct args h := hd .disjunction args (_, _) (.disjunct rfl h)
  disjuncts args hne h := hd .disjunction args (_, _) (.disjuncts rfl hne h)
  refutes args h a ha := hd .disjunction args (a, _) (.refutes rfl h ha)
  detached b h := hd .implication [_, b] (b, _) (.detached rfl rfl h)
  vacuous b := hd .implication [_, b] (_, _) (.vacuous rfl rfl)
  concluded a := hd .implication [a, _] (_, _) (.concluded rfl rfl)
  exchange := hx

def TruthValue (I : Interpretation D) (d : D) : Prop := d = I.truth ∨ d = I.falsehood

instance [DecidableEq D] (I : Interpretation D) (d : D) : Decidable (I.TruthValue d) :=
  inferInstanceAs (Decidable (_ ∨ _))

/-- The truth values differ, `=` is identity, and the other connectives are classical on truth
values. What `=` says of other than two values does not depend on their order. -/
structure Boolean (I : Interpretation D) : Prop where
  distinct : I.truth ≠ I.falsehood
  equal : ∀ a, I.apply (I.value "=") [a, a] = I.truth
  unequal : ∀ a b, a ≠ b → I.apply (I.value "=") [a, b] = I.falsehood
  exchange : ∀ args args' : List D, args.Perm args' →
    I.apply (I.value "=") args = I.apply (I.value "=") args'
  conjunction : ∀ args, (∀ a ∈ args, I.TruthValue a) → I.TruthValue (I.apply (I.value "and") args) ∧
    (I.apply (I.value "and") args = I.truth ↔ ∀ a ∈ args, a = I.truth)
  disjunction : ∀ args, (∀ a ∈ args, I.TruthValue a) → I.TruthValue (I.apply (I.value "or") args) ∧
    (I.apply (I.value "or") args = I.truth ↔ ∃ a ∈ args, a = I.truth)
  implication : ∀ a b, I.TruthValue a → I.TruthValue b →
    I.TruthValue (I.apply (I.value "implies") [a, b]) ∧
      (I.apply (I.value "implies") [a, b] = I.truth ↔ (a = I.truth → b = I.truth))

/-- Whether connectives other than `=` are applied to truth values only. -/
def Decided (I : Interpretation D) (fn : D) (args : List D) : Prop :=
  fn = I.value "and" ∨ fn = I.value "or" ∨ fn = I.value "implies" → ∀ a ∈ args, I.TruthValue a

def TwoValued (I : Interpretation D) (t : Term) : Prop := I.Throughout I.Decided t

instance [DecidableEq D] (I : Interpretation D) (t : Term) : Decidable (I.TwoValued t) :=
  inferInstanceAs (Decidable (∀ u ∈ t.applications, (I.read u.1 = I.value "and" ∨
    I.read u.1 = I.value "or" ∨ I.read u.1 = I.value "implies" →
      ∀ a ∈ u.2.map I.read, I.TruthValue a)))

/-- The interpretation whose connectives are completed where operands are no truth values. -/
noncomputable def completed (I : Interpretation D) : Interpretation D where
  value := I.value
  apply fn args :=
    open scoped Classical in
    if ∀ a ∈ args, I.TruthValue a then I.apply fn args
    else if fn = I.value "and" then Connective.conjunction.complete I.truth I.falsehood args
    else if fn = I.value "or" then Connective.disjunction.complete I.truth I.falsehood args
    else if fn = I.value "implies" then Connective.implication.complete I.truth I.falsehood args
    else I.apply fn args

theorem completed_of_truthValues {fn : D} {args : List D} (h : ∀ a ∈ args, I.TruthValue a) :
    I.completed.apply fn args = I.apply fn args := if_pos h

theorem sameWhere_completed (I : Interpretation D) : I.SameWhere I.Decided I.completed := by
  refine ⟨rfl, ?_⟩
  intro fn args hq
  by_cases h : ∀ a ∈ args, I.TruthValue a
  · exact completed_of_truthValues h
  · have hand : fn ≠ I.value "and" := fun he => h (hq (.inl he))
    have hor : fn ≠ I.value "or" := fun he => h (hq (.inr (.inl he)))
    have himp : fn ≠ I.value "implies" := fun he => h (hq (.inr (.inr he)))
    simp only [completed, if_neg h, if_neg hand, if_neg hor, if_neg himp]

theorem TruthValue.eq_of_iff {d e : D} (hd : I.TruthValue d) (he : I.TruthValue e)
    (h : d = I.truth ↔ e = I.truth) : d = e := by
  by_cases ht : d = I.truth
  · rw [ht, h.mp ht]
  · rw [hd.resolve_left ht, he.resolve_left fun hte => ht (h.mpr hte)]

namespace Boolean

/-- No two connectives have one value, since they differ on truth values. -/
theorem value_injective (h : I.Boolean) {c d : Connective}
    (hv : I.value c.name = I.value d.name) : c = d := by
  have hne := h.distinct
  have hfalse : ∀ c : Connective, I.apply (I.value c.name) [I.falsehood, I.falsehood] = I.truth ↔
      c = .equality ∨ c = .implication := by
    have hargs : ∀ a ∈ [I.falsehood, I.falsehood], I.TruthValue a := by simp [TruthValue]
    intro c
    cases c with
    | equality => simp [Connective.name, h.equal]
    | conjunction => simp [Connective.name, (h.conjunction _ hargs).2, hne.symm]
    | disjunction => simp [Connective.name, (h.disjunction _ hargs).2, hne]
    | implication =>
      simp [Connective.name, (h.implication I.falsehood I.falsehood (.inr rfl) (.inr rfl)).2]
  have hmixed : ∀ c : Connective, I.apply (I.value c.name) [I.falsehood, I.truth] = I.truth ↔
      c = .disjunction ∨ c = .implication := by
    have hargs : ∀ a ∈ [I.falsehood, I.truth], I.TruthValue a := by simp [TruthValue]
    intro c
    cases c with
    | equality => simp [Connective.name, h.unequal _ _ hne.symm, hne.symm]
    | conjunction => simp [Connective.name, (h.conjunction _ hargs).2, hne.symm]
    | disjunction => simp [Connective.name, (h.disjunction _ hargs).2]
    | implication =>
      simp [Connective.name, (h.implication I.falsehood I.truth (.inr rfl) (.inl rfl)).2]
  have hf := hfalse c
  have hm := hmixed c
  rw [hv, hfalse d] at hf
  rw [hv, hmixed d] at hm
  cases c <;> cases d <;> simp_all

theorem eq_of_demand (h : I.Boolean) {c : Connective} {args : List D}
    (hargs : c = .equality ∨ ∀ a ∈ args, I.TruthValue a) {p : D × D}
    (hd : Demand c.name args (I.apply (I.value c.name) args) I.truth I.falsehood p) :
    p.1 = p.2 := by
  have hand : c.name = Connective.conjunction.name → c = .conjunction ∧
      I.TruthValue (I.apply (I.value "and") args) ∧
        (I.apply (I.value "and") args = I.truth ↔ ∀ a ∈ args, a = I.truth) := by
    intro hop
    cases Connective.eq_of_name_eq hop
    exact ⟨rfl, h.conjunction args (hargs.resolve_left (by simp))⟩
  have hor : c.name = Connective.disjunction.name → c = .disjunction ∧
      I.TruthValue (I.apply (I.value "or") args) ∧
        (I.apply (I.value "or") args = I.truth ↔ ∃ a ∈ args, a = I.truth) := by
    intro hop
    cases Connective.eq_of_name_eq hop
    exact ⟨rfl, h.disjunction args (hargs.resolve_left (by simp))⟩
  have himp : ∀ a b, c.name = Connective.implication.name → args = [a, b] → c = .implication ∧
      (I.apply (I.value "implies") [a, b] = I.truth ↔ (a = I.truth → b = I.truth)) := by
    rintro a b hop rfl
    cases Connective.eq_of_name_eq hop
    have hvals := hargs.resolve_left (by simp)
    exact ⟨rfl, (h.implication a b (hvals a (by simp)) (hvals b (by simp))).2⟩
  cases hd with
  | equal hop ha =>
    subst ha
    cases Connective.eq_of_name_eq (d := .equality) hop
    exact h.equal _
  | @equation a b hop ha hr =>
    subst ha
    cases Connective.eq_of_name_eq (d := .equality) hop
    by_contra hab
    exact h.distinct (hr.symm.trans (h.unequal a b hab))
  | conjunct hop hr ha =>
    obtain ⟨rfl, -, hiff⟩ := hand hop
    exact hiff.mp hr _ ha
  | refuted hop hf =>
    obtain ⟨rfl, hval, hiff⟩ := hand hop
    exact hval.resolve_left fun ht => h.distinct (hiff.mp ht _ hf).symm
  | conjuncts hop _ hall =>
    obtain ⟨rfl, -, hiff⟩ := hand hop
    exact hiff.mpr hall
  | disjunct hop ht =>
    obtain ⟨rfl, -, hiff⟩ := hor hop
    exact hiff.mpr ⟨_, ht, rfl⟩
  | @refutes a hop hr ha =>
    obtain ⟨rfl, -, hiff⟩ := hor hop
    have hval := hargs.resolve_left (by simp) a ha
    exact hval.resolve_left fun ht => h.distinct ((hiff.mpr ⟨a, ha, ht⟩).symm.trans hr)
  | disjuncts hop _ hall =>
    obtain ⟨rfl, hval, hiff⟩ := hor hop
    refine hval.resolve_left fun ht => ?_
    obtain ⟨a, ha, hta⟩ := hiff.mp ht
    exact h.distinct (hta.symm.trans (hall a ha))
  | detached hop ha hr =>
    obtain ⟨rfl, hiff⟩ := himp _ _ hop ha
    subst ha
    exact hiff.mp hr rfl
  | vacuous hop ha =>
    obtain ⟨rfl, hiff⟩ := himp _ _ hop ha
    subst ha
    exact hiff.mpr fun hf => (h.distinct hf.symm).elim
  | concluded hop ha =>
    obtain ⟨rfl, hiff⟩ := himp _ _ hop ha
    subst ha
    exact hiff.mpr fun _ => rfl

theorem apply_perm (h : I.Boolean) {c : Connective} (hc : c ≠ .implication) {args args' : List D}
    (hargs : ∀ a ∈ args, I.TruthValue a) (hp : args.Perm args') :
    I.apply (I.value c.name) args = I.apply (I.value c.name) args' := by
  have hargs' : ∀ a ∈ args', I.TruthValue a := fun a ha => hargs a (hp.mem_iff.mpr ha)
  cases c with
  | equality => exact h.exchange args args' hp
  | conjunction =>
    obtain ⟨hval, hiff⟩ := h.conjunction args hargs
    obtain ⟨hval', hiff'⟩ := h.conjunction args' hargs'
    exact hval.eq_of_iff hval' (hiff.trans (Iff.trans (by simp only [hp.mem_iff]) hiff'.symm))
  | disjunction =>
    obtain ⟨hval, hiff⟩ := h.disjunction args hargs
    obtain ⟨hval', hiff'⟩ := h.disjunction args' hargs'
    exact hval.eq_of_iff hval' (hiff.trans (Iff.trans (by simp only [hp.mem_iff]) hiff'.symm))
  | implication => exact (hc rfl).elim

theorem decided_equal (h : I.Boolean) (args : List D) : I.Decided (I.value "=") args := by
  rintro (hv | hv | hv)
  · exact absurd (h.value_injective (c := .equality) (d := .conjunction) hv) (by simp)
  · exact absurd (h.value_injective (c := .equality) (d := .disjunction) hv) (by simp)
  · exact absurd (h.value_injective (c := .equality) (d := .implication) hv) (by simp)

theorem completed_equal (h : I.Boolean) (args : List D) :
    I.completed.apply (I.completed.value "=") args = I.apply (I.value "=") args :=
  (sameWhere_completed I).apply_eq _ _ (h.decided_equal args)

theorem completed_of_not_truthValues (h : I.Boolean) {c : Connective} (hc : c ≠ .equality)
    {args : List D} (hargs : ¬ ∀ a ∈ args, I.TruthValue a) :
    I.completed.apply (I.completed.value c.name) args =
      c.complete I.truth I.falsehood args := by
  have hor : I.value "or" ≠ I.value "and" := fun hv =>
    absurd (h.value_injective (c := .disjunction) (d := .conjunction) hv) (by simp)
  have himp : I.value "implies" ≠ I.value "and" := fun hv =>
    absurd (h.value_injective (c := .implication) (d := .conjunction) hv) (by simp)
  have himp' : I.value "implies" ≠ I.value "or" := fun hv =>
    absurd (h.value_injective (c := .implication) (d := .disjunction) hv) (by simp)
  cases c with
  | equality => exact (hc rfl).elim
  | conjunction => simp only [completed, Connective.name, if_neg hargs, if_true]
  | disjunction => simp only [completed, Connective.name, if_neg hargs, if_neg hor, if_true]
  | implication =>
    simp only [completed, Connective.name, if_neg hargs, if_neg himp, if_neg himp', if_true]

theorem lawful_completed (h : I.Boolean) : I.completed.Lawful := by
  refine lawful_of_demand ?_ ?_
  · intro c args p hd
    by_cases hc : c = .equality
    · subst hc
      rw [Connective.name, h.completed_equal] at hd
      exact h.eq_of_demand (.inl rfl) hd
    · by_cases hargs : ∀ a ∈ args, I.TruthValue a
      · rw [completed_of_truthValues hargs] at hd
        exact h.eq_of_demand (.inr hargs) hd
      · rw [h.completed_of_not_truthValues hc hargs] at hd
        exact Connective.eq_of_demand_complete h.distinct hd
  · intro op args args' hop hp
    obtain ⟨c, rfl, hc⟩ := exists_connective_of_isCommutative hop
    by_cases heq : c = .equality
    · subst heq
      rw [Connective.name, h.completed_equal, h.completed_equal]
      exact h.exchange args args' hp
    · by_cases hargs : ∀ a ∈ args, I.TruthValue a
      · have hargs' : ∀ a ∈ args', I.TruthValue a := fun a ha => hargs a (hp.mem_iff.mpr ha)
        rw [completed_of_truthValues hargs, completed_of_truthValues hargs']
        exact h.apply_perm hc hargs hp
      · have hargs' : ¬ ∀ a ∈ args', I.TruthValue a :=
          fun hall => hargs fun a ha => hall a (hp.mem_iff.mp ha)
        rw [h.completed_of_not_truthValues heq hargs, h.completed_of_not_truthValues heq hargs',
          Connective.complete_perm hc hp]

theorem standard_completed (h : I.Boolean) : I.completed.Standard := by
  refine ⟨h.lawful_completed, h.distinct, ?_⟩
  intro a b hab
  rw [h.completed_equal]
  exact h.unequal a b hab

end Boolean

theorem boolean_classical (call : Text → List Sense → Sense) (value : Text → Sense) :
    (classical call value).Boolean := by
  have hstandard := standard_classical call value
  have hlaw := hstandard.toLawful
  refine ⟨hstandard.distinct, fun a => (hlaw.equal a a).mpr rfl, hstandard.unequal,
    fun args args' hp => hlaw.exchange "=" args args' (by decide) hp, ?_, ?_, ?_⟩
  · intro args hargs
    by_cases hf : (classical call value).falsehood ∈ args
    · rw [hlaw.refuted args hf]
      exact ⟨.inr rfl, fun h => (hstandard.distinct h.symm).elim,
        fun h => (hstandard.distinct (h _ hf).symm).elim⟩
    · have hall : ∀ a ∈ args, a = (classical call value).truth := fun a ha =>
        (hargs a ha).resolve_right fun h => hf (h ▸ ha)
      have hand : (classical call value).apply ((classical call value).value "and") args =
          (classical call value).truth := (if_neg hf).trans (if_pos hall)
      rw [hand]
      exact ⟨.inl rfl, fun _ => hall, fun _ => rfl⟩
  · intro args hargs
    by_cases ht : (classical call value).truth ∈ args
    · rw [hlaw.disjunct args ht]
      exact ⟨.inl rfl, fun _ => ⟨_, ht, rfl⟩, fun _ => rfl⟩
    · have hall : ∀ a ∈ args, a = (classical call value).falsehood := fun a ha =>
        (hargs a ha).resolve_left fun h => ht (h ▸ ha)
      have hor : (classical call value).apply ((classical call value).value "or") args =
          (classical call value).falsehood := (if_neg ht).trans (if_pos hall)
      rw [hor]
      exact ⟨.inr rfl, fun h => (hstandard.distinct h.symm).elim,
        fun ⟨a, ha, hat⟩ => (ht (hat ▸ ha)).elim⟩
  · rintro a b (rfl | rfl) (rfl | rfl)
    all_goals simp [classical_implies, Sense.connect, TruthValue, truth_classical,
      falsehood_classical]

end Interpretation

end Discharge.Congruence
