import Discharge.Library
import Discharge.Proofs.Search.Rules

namespace Discharge

universe u

variable {D : Type u} {I : Congruence.Interpretation D}

namespace Congruence.Model

mutual

theorem quantifier_simplify (m : Model) (t : Term) {s : Symbol}
    (hs : s ∈ (m.simplify t).symbols) : s.quantifier = .free ∨ s ∈ t.symbols := by
  have hconstant : ∀ {name : Text} {k : Kind}, s ∈ (Term.symbol ⟨name, k, .free⟩).symbols →
      s.quantifier = .free := by
    intro name k h
    rw [List.mem_singleton.mp h]
  match t with
  | .symbol s' =>
    rw [simplify] at hs
    split at hs
    · exact .inr hs
    · split at hs
      · exact .inl (hconstant hs)
      · exact .inr hs
  | .apply fn args k =>
    have happ : s ∈ (Term.apply fn (m.simplifyAll args) k).symbols →
        s.quantifier = .free ∨ s ∈ (Term.apply fn args k).symbols := by
      intro h
      rw [Term.symbols] at h ⊢
      rcases List.mem_append.mp h with h | h
      · exact .inr (List.mem_append_left _ h)
      · exact (quantifier_simplifyAll m args h).imp_right (List.mem_append_right _)
    rw [simplify] at hs
    dsimp only at hs
    split at hs
    · exact happ hs
    · split at hs
      · exact .inl (hconstant hs)
      · exact happ hs
  | .lambda params body k =>
    rw [simplify] at hs
    · exact .inr hs
    · simp
    · simp
  | .cases branches otherwise k =>
    rw [simplify] at hs
    · exact .inr hs
    · simp
    · simp

theorem quantifier_simplifyAll (m : Model) (ts : List Term) {s : Symbol}
    (hs : s ∈ Term.symbolsAll (m.simplifyAll ts)) :
    s.quantifier = .free ∨ s ∈ Term.symbolsAll ts := by
  match ts with
  | [] => exact .inr hs
  | t :: rest =>
    rw [simplifyAll, Term.symbolsAll] at hs
    rw [Term.symbolsAll]
    rcases List.mem_append.mp hs with hs | hs
    · exact (quantifier_simplify m t hs).imp_right (List.mem_append_left _)
    · exact (quantifier_simplifyAll m rest hs).imp_right (List.mem_append_right _)

end

end Congruence.Model

namespace Search

open Congruence

namespace Rule

variable {r : Rule} {m : Model} {c : Candidate}

theorem exists_binding_of_draw (pending : List Offer) (taken : List Text)
    (h : (r.draw m pending taken).1 = some c) : ∃ b, c.term = r.instantiate m b := by
  induction pending generalizing taken with
  | nil => simp [draw] at h
  | cons o rest ih =>
    unfold draw at h
    dsimp only at h
    split at h
    · exact ih _ h
    · cases h
      exact ⟨o.binding, rfl⟩

/-- A rule proposes an instance of what it inserts, and that itself if it has no variables. -/
theorem candidate_cases {o : Offers} (h : (r.next m o).1 = some c) :
    r.entire.vars = [] ∧ c.term = r.insert ∨ ∃ b, c.term = r.instantiate m b := by
  unfold next at h
  split at h
  · rename_i hground
    split at h
    · cases h
    · cases h
      exact .inl ⟨List.isEmpty_iff.mp hground, rfl⟩
  · exact .inr (exists_binding_of_draw _ _ h)

/-- Whether a rule inserts the assertion that it follows from. -/
structure Restates (r : Rule) (A : Term) : Prop where
  entire_eq : r.entire = A
  insert_eq : r.insert = A

section Instances

variable {A : Term}

theorem quantifier_instantiate (hA : A.Substitutable) (hr : r.insert = A) (b : Binding)
    {s : Symbol} (hs : s ∈ (r.instantiate m b).symbols) :
    s.quantifier = .free ∨ s.quantifier = .existential ∧ s ∈ A.symbols := by
  subst hr
  rcases m.quantifier_simplify _ hs with h | h
  · exact .inl h
  · exact Term.quantifier_substitute _ hA.applicative (hA.instantiates (r.valueOf b)) h

/-- No binding is so bad that an instance would not follow: even where a variable is unbound, or has
a value that the model does not know, the instance is the assertion for the value of some name. -/
theorem read_instantiate (hA : A.Substitutable) (hr : r.insert = A) (hm : m.Closed)
    (hI : m.Upheld I) (b : Binding) :
    I.read (r.instantiate m b) = I.denote (fun name => I.value (r.valueOf b name)) A := by
  subst hr
  rw [instantiate, hI.read_simplify hm]
  exact Term.read_substitute _ hA.applicative (hA.instantiates (r.valueOf b))

theorem Restates.quantifier_of_candidate (hr : r.Restates A) (hA : A.Substitutable) {o : Offers}
    (h : (r.next m o).1 = some c) {s : Symbol} (hs : s ∈ c.term.symbols) :
    s.quantifier = .free ∨ s.quantifier = .existential ∧ s ∈ A.symbols := by
  rcases candidate_cases h with ⟨hground, hterm⟩ | ⟨b, hterm⟩
  · rw [hterm, hr.insert_eq] at hs
    rw [hr.entire_eq] at hground
    cases hq : s.quantifier with
    | free => exact .inl rfl
    | universal =>
      obtain ⟨v, hv, -⟩ := Term.exists_mem_vars hs hq
      rw [hground] at hv
      cases hv
    | existential => exact .inr ⟨rfl, hs⟩
  · rw [hterm] at hs
    exact quantifier_instantiate hA hr.insert_eq b hs

theorem Restates.read_candidate (hr : r.Restates A) (hA : A.Substitutable) (hm : m.Closed)
    (hI : m.Upheld I) (hT : I.Holds A) {o : Offers} (h : (r.next m o).1 = some c) :
    I.read c.term = I.truth := by
  rcases candidate_cases h with ⟨-, hterm⟩ | ⟨b, hterm⟩
  · rw [hterm, hr.insert_eq]
    exact hT I.value
  · rw [hterm, read_instantiate hA hr.insert_eq hm hI b]
    exact hT _

end Instances

end Rule

/-- An assertion has rules if its equations are binary, and all of them insert it unless it is an
implication with variables. -/
theorem restates_rulesOf (name : Text) (A : Term) (allowNew : Bool)
    (hbinary : A.operator? = some ("=" : Text) → ∃ sides, A.sides? = some sides)
    (himp : A.operator? = some ("implies" : Text) → A.vars = []) :
    ∃ rules, rulesOf name A allowNew = .ok rules ∧ ∀ r ∈ rules, r.Restates A := by
  obtain ⟨rules, hrules⟩ := exists_rulesOf name allowNew hbinary
    fun hvars hop => (hvars (himp hop)).elim
  refine ⟨rules, hrules, ?_⟩
  intro r hr
  cases stems_of_rulesOf hrules hr with
  | whole => exact ⟨rfl, rfl⟩
  | equation => exact ⟨rfl, rfl⟩
  | backward hvars hop => exact (hvars (himp hop)).elim
  | forward hvars hop => exact (hvars (himp hop)).elim

/-- Whatever a rule of an equation or of a whole assertion proposes is true, in every interpretation
that makes the assertion true for all values of its variables and the model of the obligation
true. -/
theorem candidate_valid (n : Normalizer) (T : Theorem) (allowNew : Bool)
    (hA : (n.normalize T.assertion).Substitutable)
    (hbinary : (n.normalize T.assertion).operator? = some ("=" : Text) →
      ∃ sides, (n.normalize T.assertion).sides? = some sides)
    (himp : (n.normalize T.assertion).operator? = some ("implies" : Text) →
      (n.normalize T.assertion).vars = []) :
    ∃ rules, rulesOf T.name (n.normalize T.assertion) allowNew = .ok rules ∧
      ∀ r ∈ rules, ∀ (inputs : List Model.Input) (o : Offers) (c : Candidate),
        (r.next (Model.ofInputs inputs) o).1 = some c →
          (∀ s ∈ c.term.symbols, s.quantifier = .free ∨
            s.quantifier = .existential ∧ s ∈ (n.normalize T.assertion).symbols) ∧
          ∀ (D : Type u) (I : Interpretation D), I.Holds (n.normalize T.assertion) →
            (Model.ofInputs inputs).Upheld I → I.read c.term = I.truth := by
  obtain ⟨rules, hok, hrules⟩ := restates_rulesOf T.name _ allowNew hbinary himp
  refine ⟨rules, hok, ?_⟩
  intro r hr inputs o c hc
  refine ⟨?_, ?_⟩
  · intro s hs
    exact (hrules r hr).quantifier_of_candidate hA hc hs
  · intro D I hT hI
    exact (hrules r hr).read_candidate hA (Model.closed_ofInputs inputs) hI hT hc

def firstCandidate? (A : Term) (inputs : List Model.Input) (b : Binding) : Option Candidate :=
  (rulesOf "T" A false).toOption.bind fun rules => rules.head?.bind fun r =>
    (r.next (Model.ofInputs inputs) { pending := [⟨b, .empty, 0⟩] }).1

theorem exists_of_firstCandidate {A : Term} {inputs : List Model.Input} {b : Binding}
    {c : Candidate} (h : firstCandidate? A inputs b = some c) :
    ∃ rules, rulesOf "T" A false = .ok rules ∧ ∃ r ∈ rules,
      (r.next (Model.ofInputs inputs) { pending := [⟨b, .empty, 0⟩] }).1 = some c := by
  unfold firstCandidate? at h
  cases hrules : rulesOf "T" A false with
  | error f => simp [hrules, Except.toOption] at h
  | ok rules =>
    rw [hrules, Except.toOption, Option.bind_some] at h
    obtain ⟨r, hr, hnext⟩ := Option.bind_eq_some_iff.mp h
    exact ⟨rules, rfl, r, List.mem_of_mem_head? hr, hnext⟩

def identityTheorem : Theorem where
  name := "T"
  module := .empty
  assertion :=
    let x : Term := .universal "x" .entity
    .equal (.call "f" .entity [x]) x

def mergedInputs : List Model.Input :=
  let constant (name : Text) : Term := .symbol ⟨name, .entity, .free⟩
  [.represent (constant "a"), .represent (.call "f" .entity [constant "b"]),
    .assume (.equal (constant "b") (constant "a"))]

/-- The value that is offered has given way since it was found; the candidate is about the symbol
in its place. -/
theorem candidate_identityTheorem :
    let I := Interpretation.classical (fun _ args => args.headD (.named .empty))
      (fun name => if name == "f" then .named name else .named .empty)
    ∃ c, firstCandidate? (Normalizer.normalize {} identityTheorem.assertion) mergedInputs
      ⟨[("x", "b")]⟩ = some c ∧ c.term.render = "f(a) = a" ∧ I.read c.term = I.truth := by
  intro I
  have hdrawn : (firstCandidate? (Normalizer.normalize {} identityTheorem.assertion) mergedInputs
      ⟨[("x", "b")]⟩).map (fun c => c.term.render) = some "f(a) = a" := by
    decide +kernel
  obtain ⟨c, hfirst, hrender⟩ := Option.map_eq_some_iff.mp hdrawn
  obtain ⟨rules, hok, r, hr, hc⟩ := exists_of_firstCandidate hfirst
  obtain ⟨rules', hok', hall⟩ := candidate_valid {} identityTheorem false (by decide +kernel)
    (fun _ => ⟨_, rfl⟩) (fun h => absurd h (by decide +kernel))
  obtain rfl : rules = rules' := Except.ok.inj (hok.symm.trans hok')
  have hholds : I.Holds (Normalizer.normalize {} identityTheorem.assertion) := by
    intro σ
    change Interpretation.Sense.connect .equality [σ "x", σ "x"] = .decided true
    simp [Interpretation.Sense.connect]
  have hclasses : ∀ i < (Model.ofInputs mergedInputs).vocabulary.size,
      ∀ j < (Model.ofInputs mergedInputs).vocabulary.size,
        (Model.ofInputs mergedInputs).root i = (Model.ofInputs mergedInputs).root j →
          (Model.ofInputs mergedInputs).vocabulary.value I i =
            (Model.ofInputs mergedInputs).vocabulary.value I j := by
    decide +kernel
  have hupheld : (Model.ofInputs mergedInputs).Upheld I :=
    ⟨⟨fun hi hj => hclasses _ hi _ hj⟩, by decide +kernel,
      (Interpretation.lawful_classical _ _).exchange⟩
  exact ⟨c, hfirst, hrender, (hall r hr mergedInputs _ c hc).2 _ I hholds hupheld⟩

def mistakenAssertion : Term :=
  let constant (name : Text) : Term := .symbol ⟨name, .entity, .free⟩
  .equal (.call "f" .entity [.universal "a = b" .entity])
    (.call "g" .entity [.equal (constant "a") (constant "b")])

/-- The equation is taken for the variable, and the candidate need not be true. -/
theorem candidate_mistakenAssertion :
    let I := Interpretation.classical
      (fun op args => if op == "g" && args != [.decided false] then .named "d" else .named "c")
      Interpretation.Sense.named
    ¬ mistakenAssertion.Substitutable ∧ I.Holds mistakenAssertion ∧ (Model.ofInputs []).Upheld I ∧
      ∃ c, firstCandidate? mistakenAssertion [] ⟨[("a = b", "e")]⟩ = some c ∧
        c.term.render = "f(e) = g(e)" ∧ I.read c.term = I.falsehood := by
  intro I
  have hdrawn : (firstCandidate? mistakenAssertion [] ⟨[("a = b", "e")]⟩).map
      (fun c => (c.term.render, I.read c.term)) = some (("f(e) = g(e)" : Text), I.falsehood) := by
    decide +kernel
  obtain ⟨c, hfirst, hc⟩ := Option.map_eq_some_iff.mp hdrawn
  obtain ⟨hrender, hread⟩ := Prod.mk.inj hc
  have hclasses : ∀ i < (Model.ofInputs []).vocabulary.size,
      ∀ j < (Model.ofInputs []).vocabulary.size,
        (Model.ofInputs []).root i = (Model.ofInputs []).root j →
          (Model.ofInputs []).vocabulary.value I i = (Model.ofInputs []).vocabulary.value I j := by
    decide +kernel
  exact ⟨by decide +kernel, fun _ => rfl, ⟨⟨fun hi hj => hclasses _ hi _ hj⟩, by decide +kernel,
    (Interpretation.lawful_classical _ _).exchange⟩, c, hfirst, hrender, hread⟩

end Search

end Discharge
