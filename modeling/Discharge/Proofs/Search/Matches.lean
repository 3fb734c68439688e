import Discharge.Search.Offers

namespace Discharge.Search

open Congruence

namespace Reach

variable {reach rest : Reach} {facts : List Fact}

theorem first_subset (reach : Reach) (facts : List Fact) : reach.first facts ⊆ facts := by
  cases reach with
  | all => exact List.Subset.refl _
  | only n => exact List.take_subset n facts

theorem first_eq_of_after (h : reach.after facts.length = some rest) :
    reach.first facts = facts := by
  cases reach with
  | all => rfl
  | only n =>
    rw [after] at h
    split at h
    · cases h
    · exact List.take_of_length_le (by omega)

end Reach

/-- A match that finds something has joined all required facts, and narrowed by some of the optional
ones. -/
theorem Rule.exists_of_mem_findMatches {r : Rule} {ob : Obligation} {reach : Reach} {b : Binding}
    (hb : b ∈ r.findMatches ob reach) : ∃ optional ⊆ r.optional,
      b ∈ optional.foldl (r.narrow ob.model)
        (r.required.foldl (ob.model.join r.pattern) (r.startBindings ob)) := by
  unfold findMatches at hb
  dsimp only at hb
  split at hb
  · simp at hb
  · rename_i rest hrest
    rw [Reach.first_eq_of_after hrest] at hb
    exact ⟨_, rest.first_subset r.optional, hb⟩

end Discharge.Search
