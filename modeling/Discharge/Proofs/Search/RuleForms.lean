import Discharge.Search.Rule
import Discharge.Proofs.Congruence.Connectives
import Discharge.Proofs.Success

namespace Discharge.Search

open Congruence

variable {name : Text} {A : Term} {allowNew : Bool} {rules : List Rule} {r : Rule}

theorem sides_eq_ok {sides : Term × Term} : A.sides = .ok sides ↔ A.sides? = some sides := by
  unfold Term.sides
  split <;> simp_all

theorem operator?_of_connective {c : Connective}
    (h : A.operator?.bind Connective.named? = some c) : A.operator? = some c.name := by
  obtain ⟨op, hop, hname⟩ := Option.bind_eq_some_iff.mp h
  rw [hop, Connective.name_of_named? hname]

/-- The forms of rules: one that inserts the assertion as a whole, one that finds a side of an
equation and inserts the equation, and two that work backwards and forwards with an implication. -/
inductive Rule.Stems (name : Text) (A : Term) (allowNew : Bool) : Rule → Prop where
  | whole : Stems name A allowNew (rulesOf.whole name A allowNew)
  | equation (label : Text) (find other : Term) (smallEnd : Bool) : Stems name A allowNew
      { (Draft.mk label A find other A false allowNew true).rule with smallEnd }
  | backward {premise conclusion : Term} (hvars : A.vars ≠ [])
      (hop : A.operator? = some ("implies" : Text)) (hs : A.sides? = some (premise, conclusion)) :
      Stems name A allowNew (goalRule (name ++ "_goalSearch") A premise conclusion allowNew)
  | forward {premise conclusion : Term} (hvars : A.vars ≠ [])
      (hop : A.operator? = some ("implies" : Text)) (hs : A.sides? = some (premise, conclusion)) :
      Stems name A allowNew (Draft.mk name A premise conclusion conclusion true allowNew false).rule

theorem stems_of_equationRule {label : Text} {find other : Term}
    (h : equationRule label A find other allowNew = some r) : r.Stems name A allowNew := by
  unfold equationRule at h
  split at h
  · cases h
  · cases h
    exact .equation label find other _

theorem stems_of_rulesOf (h : rulesOf name A allowNew = .ok rules) (hr : r ∈ rules) :
    r.Stems name A allowNew := by
  unfold rulesOf at h
  split at h
  · cases h
    rw [List.mem_singleton.mp hr]
    exact .whole
  · rename_i hvars
    have hne : A.vars ≠ [] := fun he => hvars (by rw [he]; rfl)
    split at h
    · obtain ⟨⟨a, b⟩, -, h⟩ := bind_eq_ok.mp h
      cases h
      rcases List.mem_append.mp hr with hr | hr
      · exact stems_of_equationRule (Option.mem_toList.mp hr)
      · exact stems_of_equationRule (Option.mem_toList.mp hr)
    · rename_i hop
      obtain ⟨⟨premise, conclusion⟩, hsides, h⟩ := bind_eq_ok.mp h
      cases h
      have hop := operator?_of_connective hop
      have hs := sides_eq_ok.mp hsides
      rcases List.mem_cons.mp hr with rfl | hr
      · exact .backward hne hop hs
      · rw [List.mem_singleton.mp hr]
        exact .forward hne hop hs
    · cases h
      rw [List.mem_singleton.mp hr]
      exact .whole

/-- An assertion has rules if its equations and its implications with variables are binary. -/
theorem exists_rulesOf (name : Text) (allowNew : Bool)
    (hequation : A.operator? = some ("=" : Text) → ∃ sides, A.sides? = some sides)
    (himp : A.vars ≠ [] → A.operator? = some ("implies" : Text) →
      ∃ sides, A.sides? = some sides) : ∃ rules, rulesOf name A allowNew = .ok rules := by
  unfold rulesOf
  split
  · exact ⟨_, rfl⟩
  · rename_i hvars
    split
    · rename_i hop
      obtain ⟨sides, hs⟩ := hequation (operator?_of_connective hop)
      exact ⟨_, bind_eq_ok.mpr ⟨sides, sides_eq_ok.mpr hs, rfl⟩⟩
    · rename_i hop
      obtain ⟨sides, hs⟩ := himp (fun he => hvars (by rw [he]; rfl)) (operator?_of_connective hop)
      exact ⟨_, bind_eq_ok.mpr ⟨sides, sides_eq_ok.mpr hs, rfl⟩⟩
    · exact ⟨_, rfl⟩

end Discharge.Search
