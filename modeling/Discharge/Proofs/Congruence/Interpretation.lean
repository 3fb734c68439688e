import Discharge.Proofs.Congruence.Connectives

/-!
Interpretations. A domain with an application function and a value for every name gives every term
a value once its universally quantified symbols have values. The connectives are lawful if their
values obey the rules that models are closed under, which the classical connectives do.
-/

namespace Discharge.Congruence

universe u

/-- A domain with an application function and a value for every name. -/
structure Interpretation (D : Type u) where
  apply : D → List D → D
  value : Text → D

namespace Interpretation

variable {D : Type u} (I : Interpretation D)

def truth : D := I.value "true"

def falsehood : D := I.value "false"

mutual

/-- The value of a term under an assignment to its quantified symbols. Anonymous functions and
definitions by cases are constants named by their written form. -/
def denote (σ : Text → D) : Term → D
  | .symbol s => if s.quantifier = .universal then σ s.name else I.value s.name
  | .apply fn args _ => I.apply (denote σ fn) (denoteAll σ args)
  | .lambda params body k => I.value (Term.lambda params body k).render
  | .cases branches otherwise k => I.value (Term.cases branches otherwise k).render

def denoteAll (σ : Text → D) : List Term → List D
  | [] => []
  | t :: rest => denote σ t :: denoteAll σ rest

end

/-- The value of a term whose quantified symbols are read as constants. -/
def read (t : Term) : D := I.denote I.value t

/-- The rules of the connectives, and that the operands of `=`, `and` and `or` may be exchanged. -/
structure Lawful : Prop where
  equal : ∀ a b, I.apply (I.value "=") [a, b] = I.truth ↔ a = b
  conjunct : ∀ args, I.apply (I.value "and") args = I.truth → ∀ a ∈ args, a = I.truth
  conjuncts : ∀ args, args ≠ [] → (∀ a ∈ args, a = I.truth) →
    I.apply (I.value "and") args = I.truth
  refuted : ∀ args, I.falsehood ∈ args → I.apply (I.value "and") args = I.falsehood
  disjunct : ∀ args, I.truth ∈ args → I.apply (I.value "or") args = I.truth
  disjuncts : ∀ args, args ≠ [] → (∀ a ∈ args, a = I.falsehood) →
    I.apply (I.value "or") args = I.falsehood
  refutes : ∀ args, I.apply (I.value "or") args = I.falsehood → ∀ a ∈ args, a = I.falsehood
  detached : ∀ b, I.apply (I.value "implies") [I.truth, b] = I.truth → b = I.truth
  vacuous : ∀ b, I.apply (I.value "implies") [I.falsehood, b] = I.truth
  concluded : ∀ a, I.apply (I.value "implies") [a, I.truth] = I.truth
  exchange : ∀ op args args', isCommutative op = true → args.Perm args' →
    I.apply (I.value op) args = I.apply (I.value op) args'

/-- The laws of the classical connectives: the truth values differ, and every equation has one. -/
structure Standard : Prop extends I.Lawful where
  distinct : I.truth ≠ I.falsehood
  unequal : ∀ a b, a ≠ b → I.apply (I.value "=") [a, b] = I.falsehood

variable {I}

theorem Lawful.eq_of_demand (h : I.Lawful) {op : Text} {args : List D} {p : D × D}
    (hd : Demand op args (I.apply (I.value op) args) I.truth I.falsehood p) : p.1 = p.2 := by
  cases hd with
  | equal hop ha =>
    subst hop ha
    exact (h.equal _ _).mpr rfl
  | equation hop ha hr =>
    subst hop ha
    exact (h.equal _ _).mp hr
  | conjunct hop hr ha =>
    subst hop
    exact h.conjunct args hr _ ha
  | refuted hop hf =>
    subst hop
    exact h.refuted args hf
  | conjuncts hop hne hall =>
    subst hop
    exact h.conjuncts args hne hall
  | disjunct hop ht =>
    subst hop
    exact h.disjunct args ht
  | refutes hop hr ha =>
    subst hop
    exact h.refutes args hr _ ha
  | disjuncts hop hne hall =>
    subst hop
    exact h.disjuncts args hne hall
  | detached hop ha hr =>
    subst hop ha
    exact h.detached _ hr
  | vacuous hop ha =>
    subst hop ha
    exact h.vacuous _
  | concluded hop ha =>
    subst hop ha
    exact h.concluded _

theorem read_symbol (s : Symbol) : I.read (.symbol s) = I.value s.name := by
  simp [read, denote]

theorem denoteAll_eq_map (σ : Text → D) (ts : List Term) :
    I.denoteAll σ ts = ts.map (I.denote σ) := by
  induction ts with
  | nil => rfl
  | cons t rest ih => simp [denoteAll, ih]

theorem read_apply (fn : Term) (args : List Term) (k : Kind) :
    I.read (.apply fn args k) = I.apply (I.read fn) (args.map I.read) := by
  rw [read, denote, denoteAll_eq_map]
  rfl

theorem read_lambda (params : List Symbol) (body : Term) (k : Kind) :
    I.read (.lambda params body k) = I.value (Term.lambda params body k).render := by
  rw [read, denote]

theorem read_cases (branches : List (Term × Term)) (otherwise : Term) (k : Kind) :
    I.read (.cases branches otherwise k) = I.value (Term.cases branches otherwise k).render := by
  rw [read, denote]

/-- Values of a plain kind: the two truth values, and whatever else a name may stand for. -/
inductive Sense where
  | decided (b : Bool)
  | named (name : Text)
  deriving DecidableEq

/-- The connectives on senses. Whatever the truth values do not decide is the sense of no name. -/
def Sense.connect (c : Connective) (args : List Sense) : Sense :=
  match c, args with
  | .equality, [a, b] => .decided (a == b)
  | .conjunction, _ =>
    if .decided false ∈ args then .decided false
    else if ∀ a ∈ args, a = .decided true then .decided true else .named .empty
  | .disjunction, _ =>
    if .decided true ∈ args then .decided true
    else if ∀ a ∈ args, a = .decided false then .decided false else .named .empty
  | .implication, [a, b] =>
    if a = .decided false ∨ b = .decided true then .decided true
    else if a = .decided true ∧ b = .decided false then .decided false else .named .empty
  | _, _ => .named .empty

def classical (call : Text → List Sense → Sense) (value : Text → Sense) : Interpretation Sense where
  apply fn args :=
    match fn with
    | .decided _ => .named .empty
    | .named op =>
      match Connective.named? op with
      | some c => Sense.connect c args
      | none => call op args
  value name :=
    if name == "true" then .decided true
    else if name == "false" then .decided false
    else if (Connective.named? name).isSome then .named name
    else value name

section Classical

variable {call : Text → List Sense → Sense} {value : Text → Sense}

theorem classical_connective (c : Connective) (args : List Sense) : (classical call value).apply
    ((classical call value).value c.name) args = Sense.connect c args := by
  cases c <;> rfl

theorem classical_equal (args : List Sense) : (classical call value).apply
    ((classical call value).value "=") args = Sense.connect .equality args := rfl

theorem classical_and (args : List Sense) : (classical call value).apply
    ((classical call value).value "and") args = Sense.connect .conjunction args := rfl

theorem classical_or (args : List Sense) : (classical call value).apply
    ((classical call value).value "or") args = Sense.connect .disjunction args := rfl

theorem classical_implies (args : List Sense) : (classical call value).apply
    ((classical call value).value "implies") args = Sense.connect .implication args := rfl

theorem Sense.connect_perm {c : Connective} (hc : c ≠ .implication) {args args' : List Sense}
    (hp : args.Perm args') : connect c args = connect c args' := by
  cases c with
  | equality =>
    refine eq_of_perm_of_pair (fun a b => ?_) (fun _ _ _ _ _ _ _ _ => rfl) hp
    rw [connect, connect, Bool.beq_comm]
  | conjunction => simp only [connect, hp.mem_iff]
  | disjunction => simp only [connect, hp.mem_iff]
  | implication => exact (hc rfl).elim

theorem truth_classical : (classical call value).truth = .decided true := rfl

theorem falsehood_classical : (classical call value).falsehood = .decided false := rfl

theorem lawful_classical (call : Text → List Sense → Sense) (value : Text → Sense) :
    (classical call value).Lawful := by
  have hexchange : ∀ op args args', isCommutative op = true → args.Perm args' →
      (classical call value).apply ((classical call value).value op) args =
        (classical call value).apply ((classical call value).value op) args' := by
    intro op args args' h hp
    obtain ⟨c, rfl, hc⟩ := exists_connective_of_isCommutative h
    rw [classical_connective, classical_connective]
    exact Sense.connect_perm hc hp
  refine ⟨?_, ?_, ?_, ?_, ?_, ?_, ?_, ?_, ?_, ?_, hexchange⟩
  all_goals simp only [classical_equal, classical_and, classical_or, classical_implies,
    truth_classical, falsehood_classical, Sense.connect]
  · intro a b
    simp
  · intro args h
    split at h
    · simp at h
    · split at h
      · assumption
      · simp at h
  · intro args _ h
    have hf : .decided false ∉ args := fun hf => by simpa using h _ hf
    rw [if_neg hf, if_pos h]
  · intro args h
    rw [if_pos h]
  · intro args h
    rw [if_pos h]
  · intro args _ h
    have ht : .decided true ∉ args := fun ht => by simpa using h _ ht
    rw [if_neg ht, if_pos h]
  · intro args h
    split at h
    · simp at h
    · split at h
      · assumption
      · simp at h
  · intro b h
    split at h
    · simp_all
    · split at h <;> simp at h
  · intro b
    simp
  · intro a
    simp

theorem standard_classical (call : Text → List Sense → Sense) (value : Text → Sense) :
    (classical call value).Standard := by
  refine ⟨lawful_classical call value, by simp [truth_classical, falsehood_classical], ?_⟩
  intro a b hne
  rw [classical_equal, falsehood_classical, Sense.connect, beq_eq_false_iff_ne.mpr hne]

end Classical

end Interpretation

end Discharge.Congruence
