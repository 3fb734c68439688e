import Discharge.Proofs.Congruence.Inputs

/-!
Models are closed under the rules of the connectives. A rule is tried only for the facts about a
class that gave way. No rule is missed for that: what has become equal to a truth value gave way
to it, unless the two truth values themselves were merged. A contradictory model may therefore
miss the rules that tell `false` from `true`, and no others.
-/

namespace Discharge.Congruence.Model

/-- The rules of the connectives at a fact that is given through roots. -/
structure Saturated (m : Model) (f : Fact) : Prop where
  equal : m.vocabulary.name f.app.op = "=" → ∀ a b, f.app.args = [a, b] →
    (a = b ↔ f.result = m.root Vocabulary.truth)
  conjunct : m.vocabulary.name f.app.op = "and" → f.result = m.root Vocabulary.truth →
    ∀ a ∈ f.app.args, a = m.root Vocabulary.truth
  conjuncts : m.vocabulary.name f.app.op = "and" → f.app.args ≠ [] →
    (∀ a ∈ f.app.args, a = m.root Vocabulary.truth) → f.result = m.root Vocabulary.truth
  refuted : m.contradiction = false → m.vocabulary.name f.app.op = "and" →
    m.root Vocabulary.falsehood ∈ f.app.args → f.result = m.root Vocabulary.falsehood
  disjunct : m.vocabulary.name f.app.op = "or" → m.root Vocabulary.truth ∈ f.app.args →
    f.result = m.root Vocabulary.truth
  disjuncts : m.vocabulary.name f.app.op = "or" → f.app.args ≠ [] →
    (∀ a ∈ f.app.args, a = m.root Vocabulary.falsehood) → f.result = m.root Vocabulary.falsehood
  refutes : m.contradiction = false → m.vocabulary.name f.app.op = "or" →
    f.result = m.root Vocabulary.falsehood → ∀ a ∈ f.app.args, a = m.root Vocabulary.falsehood
  detached : m.vocabulary.name f.app.op = "implies" → ∀ a b, f.app.args = [a, b] →
    f.result = m.root Vocabulary.truth → a = m.root Vocabulary.truth → b = m.root Vocabulary.truth
  concluded : m.vocabulary.name f.app.op = "implies" → ∀ a b, f.app.args = [a, b] →
    b = m.root Vocabulary.truth → f.result = m.root Vocabulary.truth
  vacuous : m.contradiction = false → m.vocabulary.name f.app.op = "implies" →
    ∀ a b, f.app.args = [a, b] → a = m.root Vocabulary.falsehood →
    f.result = m.root Vocabulary.truth

section Closed

variable {m : Model} {f : Fact}

theorem Closed.root_result (h : m.Closed) (hf : f ∈ m.facts) : m.root f.result = f.result := by
  obtain ⟨i, r, -, -, rfl⟩ := mem_facts.mp hf
  exact h.filed.vocabulary.root_root _

theorem Closed.root_arg (h : m.Closed) (hf : f ∈ m.facts) {a : Nat} (ha : a ∈ f.app.args) :
    m.root a = a := by
  obtain ⟨i, r, -, -, rfl⟩ := mem_facts.mp hf
  obtain ⟨s, -, rfl⟩ := List.mem_map.mp ha
  exact h.filed.vocabulary.root_root s

/-- All that the rules demand of the live facts has been granted. -/
theorem Closed.root_eq_of_demand (h : m.Closed) (hf : f ∈ m.facts) {p : Nat × Nat}
    (hd : Demand (m.vocabulary.name f.app.op) f.app.args f.result Vocabulary.truth
      Vocabulary.falsehood p) : m.root p.1 = m.root p.2 := by
  obtain ⟨i, r, hr, hl, rfl⟩ := mem_facts.mp hf
  have hmem : p ∈ m.demands r := mem_consequences_iff.mpr hd
  exact (h.filed.closed hr hl (by simp) p hmem).root_eq h.pending_eq

theorem Filed.root_falsehood_of_consistent {stale : List Nat} (h : m.Filed stale)
    (hc : m.contradiction = false) : m.root Vocabulary.falsehood = Vocabulary.falsehood := by
  rcases h.vocabulary.root_falsehood with hf | hf
  · exact hf
  · have htrue : m.contradiction = true := by
      rw [h.contradiction_iff, h.root_truth]
      exact hf.symm
    rw [hc] at htrue
    contradiction

theorem Closed.root_falsehood_of_consistent (h : m.Closed) (hc : m.contradiction = false) :
    m.root Vocabulary.falsehood = Vocabulary.falsehood :=
  h.filed.root_falsehood_of_consistent hc

theorem Closed.root_falsehood_of_contradiction (h : m.Closed) (hc : m.contradiction = true) :
    m.root Vocabulary.falsehood = m.root Vocabulary.truth :=
  (h.filed.contradiction_iff.mp hc).symm

theorem Closed.saturated (h : m.Closed) (hf : f ∈ m.facts) : m.Saturated f := by
  have hdemand := @Closed.root_eq_of_demand m f h hf
  have hres := h.root_result hf
  have harg := fun {a : Nat} => @Closed.root_arg m f h hf a
  have ht : m.root Vocabulary.truth = Vocabulary.truth := h.filed.root_truth
  have hdisjunct : m.vocabulary.name f.app.op = "or" → m.root Vocabulary.truth ∈ f.app.args →
      f.result = m.root Vocabulary.truth := by
    intro hop hmem
    rw [ht] at hmem
    rw [← hres]
    exact hdemand (.disjunct hop hmem)
  refine ⟨?_, ?_, ?_, ?_, hdisjunct, ?_, ?_, ?_, ?_, ?_⟩
  · intro hop a b hargs
    constructor
    · rintro rfl
      rw [← hres]
      exact hdemand (.equal hop hargs)
    · intro he
      rw [ht] at he
      rw [← harg (a := a) (by simp [hargs]), ← harg (a := b) (by simp [hargs])]
      exact hdemand (.equation hop hargs he)
  · intro hop he a ha
    rw [ht] at he
    rw [← harg ha]
    exact hdemand (.conjunct hop he ha)
  · intro hop hne hall
    rw [ht] at hall
    rw [← hres]
    exact hdemand (.conjuncts hop hne hall)
  · intro hc hop hmem
    rw [h.root_falsehood_of_consistent hc] at hmem
    rw [← hres]
    exact hdemand (.refuted hop hmem)
  · intro hop hne hall
    cases hc : m.contradiction with
    | true =>
      -- The operands are true as well, and then the result is.
      rw [h.root_falsehood_of_contradiction hc] at hall ⊢
      obtain ⟨a, ha⟩ := List.exists_mem_of_ne_nil _ hne
      exact hdisjunct hop (hall a ha ▸ ha)
    | false =>
      rw [h.root_falsehood_of_consistent hc] at hall
      rw [← hres]
      exact hdemand (.disjuncts hop hne hall)
  · intro hc hop he a ha
    rw [h.root_falsehood_of_consistent hc] at he
    rw [← harg ha]
    exact hdemand (.refutes hop he ha)
  · intro hop a b hargs he hta
    rw [ht] at he hta
    subst hta
    rw [← harg (a := b) (by simp [hargs])]
    exact hdemand (.detached hop hargs he)
  · intro hop a b hargs htb
    rw [ht] at htb
    subst htb
    rw [← hres]
    exact hdemand (.concluded hop hargs)
  · intro hc hop a b hargs hfa
    rw [h.root_falsehood_of_consistent hc] at hfa
    subst hfa
    rw [← hres]
    exact hdemand (.vacuous hop hargs)

end Closed

/-- Whatever a model is fed, the rules hold at every live fact. -/
theorem saturated_ofInputs (inputs : List Input) :
    ∀ f ∈ (ofInputs inputs).facts, (ofInputs inputs).Saturated f :=
  fun _ hf => (closed_ofInputs inputs).saturated hf

/-- The rules at a conjunction that became true only through its operands. -/
theorem saturated_conjunction :
    ⟨⟨2, [0, 0]⟩, 0⟩ ∈ (ofInputs
        [.represent (.conj (.symbol ⟨"x", .boolean, .free⟩) (.symbol ⟨"y", .boolean, .free⟩)),
          .assume (.symbol ⟨"x", .boolean, .free⟩),
          .assume (.symbol ⟨"y", .boolean, .free⟩)]).facts ∧
      (ofInputs
        [.represent (.conj (.symbol ⟨"x", .boolean, .free⟩) (.symbol ⟨"y", .boolean, .free⟩)),
          .assume (.symbol ⟨"x", .boolean, .free⟩),
          .assume (.symbol ⟨"y", .boolean, .free⟩)]).Saturated ⟨⟨2, [0, 0]⟩, 0⟩ := by
  have hmem : ⟨⟨2, [0, 0]⟩, 0⟩ ∈ (ofInputs
      [.represent (.conj (.symbol ⟨"x", .boolean, .free⟩) (.symbol ⟨"y", .boolean, .free⟩)),
        .assume (.symbol ⟨"x", .boolean, .free⟩),
        .assume (.symbol ⟨"y", .boolean, .free⟩)]).facts := by
    decide +kernel
  exact ⟨hmem, saturated_ofInputs _ _ hmem⟩

def contradictoryInputs : List Input :=
  [.represent (.conj .truth (.symbol ⟨"x", .boolean, .free⟩)), .assume .falsehood]

/-- In a contradictory model a conjunction may have a false operand and a result that is not
false. -/
theorem conjunction_not_refuted : ∃ f ∈ (ofInputs contradictoryInputs).facts,
    (ofInputs contradictoryInputs).vocabulary.name f.app.op = "and" ∧
      (ofInputs contradictoryInputs).root Vocabulary.falsehood ∈ f.app.args ∧
      f.result ≠ (ofInputs contradictoryInputs).root Vocabulary.falsehood := by
  decide +kernel

end Discharge.Congruence.Model
