import Mathlib.Data.List.Basic
import Discharge.ProofText.Diff

namespace Discharge.ProofText

theorem flatMap_linesOf (line cs : List UInt8) :
    (linesOf line cs).flatMap Text.toList = line.reverse ++ cs := by
  induction cs generalizing line with
  | nil =>
    rw [linesOf]
    split
    · rename_i hline
      rw [List.isEmpty_iff.mp hline]
      rfl
    · simp
  | cons b rest ih =>
    rw [linesOf]
    split
    · rw [List.flatMap_cons, ih]
      simp
    · rw [ih]
      simp

theorem linesOf_injective {cs cs' : List UInt8} (h : linesOf [] cs = linesOf [] cs') :
    cs = cs' := by
  have hflat := congrArg (List.flatMap Text.toList) h
  rwa [flatMap_linesOf, flatMap_linesOf] at hflat

def Edit.isChange : Edit → Bool
  | .keep _ => false
  | .remove _ | .add _ => true

theorem eq_of_editsFrom {table : Array (Array Nat)} {xs ys : List Text} {i j : Nat}
    (h : ∀ e ∈ editsFrom table xs ys i j, e.isChange = false) : xs = ys := by
  fun_induction editsFrom table xs ys i j with
  | case1 i j ys =>
    cases ys with
    | nil => rfl
    | cons y ys => exact absurd (h (.add y) (by simp)) (by simp [Edit.isChange])
  | case2 i j xs hne =>
    cases xs with
    | nil => rfl
    | cons x xs => exact absurd (h (.remove x) (by simp)) (by simp [Edit.isChange])
  | case3 x xs y ys i j heq ih =>
    rw [beq_iff_eq.mp heq, ih fun e he => h e (List.mem_cons_of_mem _ he)]
  | case4 x xs y ys i j entry hne hle ih =>
    exact absurd (h (.remove x) (by simp)) (by simp [Edit.isChange])
  | case5 x xs y ys i j entry hne hle ih =>
    exact absurd (h (.add y) (by simp)) (by simp [Edit.isChange])

theorem mem_changes {e : Edit} (he : e.isChange = true) {added es : List Edit}
    (h : e ∈ added ∨ e ∈ es) : e ∈ changes added es := by
  induction es generalizing added with
  | nil =>
    rw [changes]
    simpa using h
  | cons x rest ih =>
    cases x with
    | keep l =>
      rw [changes, List.mem_append, List.mem_reverse]
      rcases h with h | h
      · exact .inl h
      · rcases List.mem_cons.mp h with rfl | h
        · contradiction
        · exact .inr (ih (.inr h))
    | remove l =>
      rw [changes, List.mem_cons]
      rcases h with h | h
      · exact .inr (ih (.inl h))
      · exact (List.mem_cons.mp h).imp_right fun h => ih (.inr h)
    | add l =>
      rw [changes]
      refine ih ?_
      rcases h with h | h
      · exact .inl (List.mem_cons_of_mem _ h)
      · rcases List.mem_cons.mp h with rfl | h
        · exact .inl List.mem_cons_self
        · exact .inr h

theorem render_ne_nil {e : Edit} (h : e.isChange = true) (colours : Bool) :
    (e.render colours).toList ≠ [] := by
  have hend : ("\n" : Text).toList ≠ [] := by decide
  cases e with
  | keep l => contradiction
  | remove l | add l =>
    rw [Edit.render, Text.toList_append]
    exact List.append_ne_nil_of_right_ne_nil _ hend

/-- What is shown is empty if there was no text before, or the stable forms are the same, and only
then. -/
theorem diff_eq_empty_iff (colours : Bool) (previous current : Text) :
    diff colours previous current = "" ↔
      previous.isEmpty = true ∨ stable previous = stable current := by
  rw [diff]
  split
  · rename_i hempty
    exact iff_of_true rfl (.inl hempty)
  · rename_i hempty
    dsimp only
    split
    · rename_i hsame
      exact iff_of_true rfl (.inr (beq_iff_eq.mp hsame))
    · rename_i hdiffer
      refine iff_of_false ?_ (not_or.mpr ⟨hempty, fun he => hdiffer (beq_iff_eq.mpr he)⟩)
      intro hnothing
      have hempty : ("" : Text).toList = [] := rfl
      have hbytes := congrArg Text.toList hnothing
      rw [Text.toList_join, List.flatMap_map, hempty, List.flatMap_eq_nil_iff] at hbytes
      have hkept : ∀ e ∈ edits (linesOf [] (stable previous).toList)
          (linesOf [] (stable current).toList), e.isChange = false := by
        intro e he
        refine Bool.eq_false_iff.mpr fun hchange => ?_
        exact render_ne_nil hchange colours (hbytes e (mem_changes hchange (.inr he)))
      unfold edits at hkept
      exact hdiffer (beq_iff_eq.mpr (Text.ext (linesOf_injective (eq_of_editsFrom hkept))))

end Discharge.ProofText
