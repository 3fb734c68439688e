import Discharge.Proofs.Library.Reachability

namespace Discharge.Library

variable {l : Library} {m : Module} {scope : Scope} {name : Text}

abbrev Sited := Text × Declaration

def Visible.declared (v : Visible) : List Sited :=
  v.modules.flatMap fun m => m.theorems.map (m.name, ·)

def Unstated (before : List Sited) (name : Text) : Prop :=
  ∀ x ∈ before, x.2.name = name → x.2.assertion = none

/-- Whether a theorem is the first of its name that has an assertion. -/
def IsFirst (declared : List Sited) (t : Theorem) : Prop :=
  ∃ before after, declared = before ++ (t.module, ⟨t.name, some t.assertion⟩) :: after ∧
    Unstated before t.name

/-- What becomes of a theorem that is declared behind others: it is kept, or there is a cause why it
is not. -/
inductive Fate (before : List Sited) : Sited → Theorem ⊕ Cause → Prop where
  | kept {module name : Text} {assertion : Term} (h : Unstated before name) :
    Fate before (module, ⟨name, some assertion⟩) (.inl ⟨name, module, assertion⟩)
  | unstated {module name : Text} :
    Fate before (module, ⟨name, none⟩) (.inr (.missingAssertion module name))
  | shadowed {module : Text} {assertion : Term} {t : Theorem} (h : IsFirst before t) :
    Fate before (module, ⟨t.name, some assertion⟩)
      (.inr (.shadowedTheorem t.name t.module module))

inductive Fates : List Sited → List (Theorem ⊕ Cause) → Prop where
  | nil : Fates [] []
  | snoc {before : List Sited} {fates : List (Theorem ⊕ Cause)} {x : Sited}
    {fate : Theorem ⊕ Cause} (h : Fates before fates) (hx : Fate before x fate) :
    Fates (before ++ [x]) (fates ++ [fate])

section First

variable {before : List Sited} {x : Sited} {t : Theorem}

theorem isFirst_snoc : IsFirst (before ++ [x]) t ↔ IsFirst before t ∨
    x = (t.module, ⟨t.name, some t.assertion⟩) ∧ Unstated before t.name := by
  constructor
  · rintro ⟨front, after, hsplit, hfront⟩
    rcases List.eq_nil_or_concat after with rfl | ⟨after, y, rfl⟩
    · obtain ⟨rfl, hx⟩ := List.append_inj' hsplit rfl
      exact .inr ⟨List.singleton_inj.mp hx, hfront⟩
    · rw [List.concat_eq_append, ← List.cons_append, ← List.append_assoc] at hsplit
      exact .inl ⟨front, after, (List.append_inj' hsplit rfl).1, hfront⟩
  · rintro (⟨front, after, rfl, hfront⟩ | ⟨rfl, hbefore⟩)
    · exact ⟨front, after ++ [x], by simp, hfront⟩
    · exact ⟨before, [], rfl, hbefore⟩

theorem unstated_snoc : Unstated (before ++ [x]) name ↔
    Unstated before name ∧ (x.2.name = name → x.2.assertion = none) := by
  simp only [Unstated, List.mem_append, List.mem_singleton, or_imp, forall_and, forall_eq]

theorem IsFirst.not_unstated (h : IsFirst before t) : ¬ Unstated before t.name := by
  obtain ⟨front, after, rfl, -⟩ := h
  intro hnone
  cases hnone (t.module, ⟨t.name, some t.assertion⟩) (by simp) rfl

theorem Fate.not_first {cause : Cause} (h : Fate before x (.inr cause)) :
    ¬ (x = (t.module, ⟨t.name, some t.assertion⟩) ∧ Unstated before t.name) := by
  rintro ⟨hx, hbefore⟩
  cases h with
  | unstated => cases congrArg (fun y : Sited => y.2.assertion) hx
  | @shadowed _ _ u hfirst =>
    have hname : u.name = t.name := congrArg (fun y : Sited => y.2.name) hx
    exact hfirst.not_unstated (hname ▸ hbefore)

/-- If no theorem is the first of a name, none of the name has an assertion. -/
theorem unstated_of_forall_isFirst (h : ∀ t, IsFirst before t → t.name ≠ name) :
    Unstated before name := by
  induction before using List.reverseRecOn with
  | nil => exact fun x hx => absurd hx List.not_mem_nil
  | append_singleton before x ih =>
    have hbefore := ih fun t ht => h t (isFirst_snoc.mpr (.inl ht))
    refine unstated_snoc.mpr ⟨hbefore, fun hname => ?_⟩
    obtain ⟨module, _, assertion⟩ := x
    cases assertion with
    | none => rfl
    | some a =>
      subst hname
      exact (h ⟨_, module, a⟩ (isFirst_snoc.mpr (.inr ⟨rfl, hbefore⟩)) rfl).elim

end First

structure Collects (earlier : List Error) (declared : List Sited) (c : Collected) : Prop where
  nodup : (c.theorems.map Theorem.name).Nodup
  mem_iff : ∀ t, t ∈ c.theorems ↔ IsFirst declared t
  fates : ∃ fates, Fates declared fates ∧ c.theorems = fates.filterMap Sum.getLeft? ∧
    c.errors = earlier ++ (fates.filterMap Sum.getRight?).map .because

section Collecting

variable {earlier : List Error} {before : List Sited} {c : Collected} {module : Text}
  {assertion : Term} {t : Theorem}

theorem collects_nothing (earlier : List Error) : Collects earlier [] ⟨[], earlier⟩ where
  nodup := List.nodup_nil
  mem_iff t := by simp [IsFirst]
  fates := ⟨[], .nil, rfl, by simp⟩

theorem Collects.report (h : Collects earlier before c) {x : Sited} {cause : Cause}
    (hx : Fate before x (.inr cause)) :
    Collects earlier (before ++ [x]) { c with errors := c.errors ++ [.because cause] } where
  nodup := h.nodup
  mem_iff t := by
    rw [isFirst_snoc, or_iff_left hx.not_first, h.mem_iff]
  fates := by
    obtain ⟨fates, hfates, htheorems, herrors⟩ := h.fates
    refine ⟨fates ++ [.inr cause], .snoc hfates hx, ?_, ?_⟩
    · rw [htheorems, List.filterMap_append]
      simp
    · rw [herrors, List.filterMap_append]
      simp

theorem Collects.keep (h : Collects earlier before c) (hfirst : Unstated before name) :
    Collects earlier (before ++ [(module, ⟨name, some assertion⟩)])
      { c with theorems := c.theorems ++ [⟨name, module, assertion⟩] } where
  nodup := by
    rw [List.map_append, List.map_singleton, List.nodup_append_comm, List.singleton_append,
      List.nodup_cons]
    refine ⟨fun hmem => ?_, h.nodup⟩
    obtain ⟨t, ht, rfl⟩ := List.mem_map.mp hmem
    exact ((h.mem_iff t).mp ht).not_unstated hfirst
  mem_iff t := by
    rw [isFirst_snoc, List.mem_append, h.mem_iff, List.mem_singleton]
    refine or_congr_right ⟨?_, ?_⟩
    · rintro rfl
      exact ⟨rfl, hfirst⟩
    · rintro ⟨he, -⟩
      cases he
      rfl
  fates := by
    obtain ⟨fates, hfates, htheorems, herrors⟩ := h.fates
    refine ⟨fates ++ [.inl ⟨name, module, assertion⟩], .snoc hfates (.kept hfirst), ?_, ?_⟩
    · rw [htheorems, List.filterMap_append]
      rfl
    · rw [herrors, List.filterMap_append]
      simp

theorem Collects.add (h : Collects earlier before c) (x : Sited) :
    Collects earlier (before ++ [x]) (Collected.add x.1 c x.2) := by
  obtain ⟨module, name, assertion⟩ := x
  unfold Collected.add
  cases assertion with
  | none => exact h.report .unstated
  | some a =>
    dsimp only
    cases hkept : c.theorems.find? fun t => t.name == name with
    | some t =>
      have hname := List.find?_some hkept
      obtain rfl : t.name = name := beq_iff_eq.mp hname
      exact h.report (.shadowed ((h.mem_iff t).mp (List.mem_of_find?_eq_some hkept)))
    | none =>
      rw [List.find?_eq_none] at hkept
      refine h.keep (unstated_of_forall_isFirst fun t ht => ?_)
      simpa using hkept t ((h.mem_iff t).mpr ht)

theorem Collects.foldl (h : Collects earlier before c) (xs : List Sited) :
    Collects earlier (before ++ xs) (xs.foldl (fun c x => Collected.add x.1 c x.2) c) := by
  induction xs generalizing before c with
  | nil => rwa [List.append_nil]
  | cons x rest ih =>
    rw [List.append_cons]
    exact ih (h.add x)

end Collecting

theorem theorems_eq (h : l.get? name = some m) (scope : Scope) : l.theorems name scope =
    (l.visible m scope).declared.foldl (fun c x => Collected.add x.1 c x.2)
      ⟨[], (l.visible m scope).error?.toList⟩ := by
  rw [Visible.declared, List.foldl_flatMap, theorems, h]
  simp only [List.foldl_map]

/-- Whether nothing that is in scope of a module went unnoticed when its theorems were collected. -/
structure Accounted (l : Library) (m : Module) (scope : Scope) (c : Collected) : Prop where
  nodup : (c.theorems.map Theorem.name).Nodup
  mem_iff : ∀ t, t ∈ c.theorems ↔ IsFirst (l.visible m scope).declared t
  /-- Each theorem declared is one of those collected, or is told of by one cause; before these
  stands one for each import that is missing. -/
  reported : ∃ (missing : List (Text × Text)) (fates : List (Theorem ⊕ Cause)),
    Fates (l.visible m scope).declared fates ∧
    c.theorems = fates.filterMap Sum.getLeft? ∧
    Error.reported (Error.join c.errors) =
      missing.map (fun (name, importer) => .missingImport name importer) ++
        fates.filterMap Sum.getRight? ∧
    (missing.map Prod.fst).Nodup ∧
    ∀ name, name ∈ missing.map Prod.fst ↔
      l.get? name = none ∧ ∃ a ∈ l.followed m scope, name ∈ l.importsOf a

/-- Every theorem that is visible from a module is available or reported once, and every import that
is missing is reported once. Of a module that is not loaded, just that is reported. -/
theorem theorems_accounted (l : Library) (name : Text) (scope : Scope) :
    (∀ m, l.get? name = some m → l.Accounted m scope (l.theorems name scope)) ∧
    (l.get? name = none → (l.theorems name scope).theorems = [] ∧
      Error.reported (Error.join (l.theorems name scope).errors) = [.noSuchModule name]) := by
  refine ⟨fun m hm => ?_, fun hnone => ?_⟩
  · have hloaded : l.get? m.name = some m := by rw [name_of_get? hm, hm]
    obtain ⟨position, hexplored, htake⟩ := explored_scope hloaded scope
    have hcollects :=
      (collects_nothing (l.visible m scope).error?.toList).foldl (l.visible m scope).declared
    rw [List.nil_append, ← theorems_eq hm] at hcollects
    obtain ⟨fates, hfates, htheorems, herrors⟩ := hcollects.fates
    refine ⟨hcollects.nodup, hcollects.mem_iff, _, fates, hfates, htheorems, ?_,
      hexplored.missing_nodup, fun n => ?_⟩
    · rw [herrors, Error.reported_join_append, Visible.reported_error?]
    · rw [hexplored.mem_missing_iff, htake]
  · rw [theorems, hnone]
    exact ⟨rfl, rfl⟩

/-- A module with theorems that have no assertion, one of which a good one of the same name
follows, and that imports another theorem of this name. -/
def clashingModule : Module where
  name := "Dup"
  imports := ["Integer", "Ghost"]
  theorems := [⟨"Zero", none⟩, ⟨"Zero", some .truth⟩, ⟨"Broken", none⟩]

def clashingLibrary : Library where
  modules := [clashingModule,
    { name := "Integer", theorems := [⟨"Zero", some .falsehood⟩, ⟨"Mult", some .truth⟩] }]

theorem theorems_accounted_clashingLibrary :
    (clashingLibrary.get? "Dup" = some clashingModule ∧
      clashingLibrary.Accounted clashingModule .transitive
        (clashingLibrary.theorems "Dup" .transitive)) ∧
    clashingLibrary.get? "Ghost" = none ∧ (clashingLibrary.theorems "Ghost" .own).theorems = [] :=
  ⟨⟨rfl, (theorems_accounted _ _ _).1 _ rfl⟩, rfl, ((theorems_accounted _ _ _).2 rfl).1⟩

example : Error.reported (Error.join (clashingLibrary.theorems "Dup" .transitive).errors) =
    [.missingImport "Ghost" "Dup", .missingAssertion "Dup" "Zero", .missingAssertion "Dup" "Broken",
      .shadowedTheorem "Zero" "Dup" "Integer"] := by decide

end Discharge.Library
