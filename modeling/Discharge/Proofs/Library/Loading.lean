import Discharge.Proofs.Library.Needed
import Discharge.Proofs.Library.Visibility

namespace Discharge

/-- The names that modules import, by name or by default, and that none of them bears. -/
def wanting (defaults : List Text) (found : List Located) : List Text :=
  (found.flatMap fun l => l.source.imports ++ defaults).filter fun name =>
    !(found.map fun l => l.source.name).contains name

namespace Library

variable {l l' : Library} {S : Text → Prop} {m : Module} {x : Located} {name path : Text}
  {files files' : Tree}

theorem defaults_putAll (l : Library) (ms : List Module) : (l.putAll ms).defaults = l.defaults := by
  induction ms generalizing l with
  | nil => rfl
  | cons m rest ih => exact ih (l.put m)

theorem get?_putAll_congr {ms : List Module} (h : ∀ name, S name → name ∉ ms.map Module.name →
      l.get? name = l'.get? name) :
    ∀ name, S name → (l.putAll ms).get? name = (l'.putAll ms).get? name := by
  induction ms generalizing l l' with
  | nil => exact fun name hname => h name hname (by simp)
  | cons m rest ih =>
    refine ih fun name hname hnot => ?_
    rw [get?_put, get?_put]
    split
    · rfl
    · rename_i hne
      exact h name hname (by simp [hne, hnot])

theorem agrees_putAll (hdefaults : l.defaults = l'.defaults) {ms : List Module}
    (hnone : ∀ name, S name → name ∉ ms.map Module.name → l.get? name = none ∧ l'.get? name = none)
    (hS : ∀ m ∈ ms, ∀ i ∈ m.imports ++ l.defaults, S i) :
    (l.putAll ms).Agrees (l'.putAll ms) S where
  defaults := by rw [defaults_putAll, defaults_putAll, hdefaults]
  get? := get?_putAll_congr fun name hname hnot => by
    obtain ⟨hl, hl'⟩ := hnone name hname hnot
    rw [hl, hl']
  closed := by
    intro name m hname hm i hi
    rw [importsOf, defaults_putAll] at hi
    rcases get?_putAll_cases hm with hmem | ⟨hnot, hget⟩
    · exact hS m hmem i hi
    · rw [(hnone name hname hnot).1] at hget
      cases hget

theorem Agrees.put (h : l.Agrees l' S) (hm : ∀ i ∈ m.imports ++ l.defaults, S i) :
    (l.put m).Agrees (l'.put m) S where
  defaults := h.defaults
  get? name hname := by rw [get?_put, get?_put, h.get? name hname]
  closed name n hname hn i hi := by
    rw [get?_put] at hn
    split at hn
    · exact hm i (Option.some.inj hn ▸ hi)
    · exact h.closed name n hname hn i hi

theorem complete_ok (h : l.complete x = .ok m) :
    m.name = x.source.name ∧ m.imports = x.source.imports := by
  unfold complete inStage at h
  split at h
  · rename_i m' hm'
    obtain rfl := Except.ok.inj h
    dsimp only at hm'
    cases htheorems : ModuleSource.readTheorems (l.kinds x.source.name) [] x.source.theorems with
    | error e => rw [htheorems] at hm'; cases hm'
    | ok theorems =>
      rw [htheorems] at hm'
      cases hconditions : x.source.conditions.mapM
          (ModuleSource.readConditionOf (l.kinds x.source.name) x.path) with
      | error e => rw [hconditions] at hm'; cases hm'
      | ok conditions =>
        rw [hconditions] at hm'
        rw [← Except.ok.inj hm']
        exact ⟨rfl, rfl⟩
  · cases h

theorem Agrees.complete (h : l.Agrees l' S) (hx : S x.source.name) :
    l.complete x = l'.complete x := by
  unfold Library.complete
  rw [h.kinds hx]

theorem Agrees.completeAll (h : l.Agrees l' S) (xs : List Located)
    (hS : ∀ x ∈ xs, S x.source.name ∧ ∀ i ∈ x.source.imports ++ l.defaults, S i) :
    (l.completeAll xs).1 = (l'.completeAll xs).1 ∧
      (l.completeAll xs).2.Agrees (l'.completeAll xs).2 S := by
  induction xs generalizing l l' with
  | nil => exact ⟨rfl, h⟩
  | cons x rest ih =>
    obtain ⟨hx, himports⟩ := hS x List.mem_cons_self
    have hrest := fun y hy => hS y (List.mem_cons_of_mem _ hy)
    rw [Library.completeAll, Library.completeAll, ← h.complete hx]
    cases hcomplete : l.complete x with
    | error e =>
      obtain ⟨herrors, hagrees⟩ := ih h hrest
      exact ⟨congrArg (e :: ·) herrors, hagrees⟩
    | ok m =>
      obtain ⟨-, hm⟩ := complete_ok hcomplete
      exact ih (h.put (by rw [hm]; exact himports)) hrest

theorem load_eq (l : Library) (files : Tree) (path : Text) : l.load files path =
    match neededOf files l.defaults path with
    | .error r => (.error r, l)
    | .ok (name, found) =>
      let (errors, l) := (l.putAll (found.map Located.declaration)).completeAll found
      match Error.join errors with
      | some e => (.error (.error e), l)
      | none => ((l.module name).mapError .error, l) := rfl

theorem get?_completeAll_cases {xs : List Located} (h : (l.completeAll xs).2.get? name = some m) :
    (l.get? name).isSome ∨ name ∈ xs.map fun x => x.source.name := by
  induction xs generalizing l with
  | nil => exact .inl (by rw [completeAll] at h; rw [h]; rfl)
  | cons x rest ih =>
    rw [List.map_cons, List.mem_cons]
    rw [completeAll] at h
    cases hcomplete : l.complete x with
    | error e =>
      rw [hcomplete] at h
      exact (ih h).imp_right .inr
    | ok n =>
      rw [hcomplete] at h
      rcases ih h with hget | hrest
      · rw [get?_put] at hget
        split at hget
        · rename_i hname
          exact .inr (.inl (hname.trans (complete_ok hcomplete).1))
        · exact .inl hget
      · exact .inr (.inr hrest)

theorem defaults_completeAll (l : Library) (xs : List Located) :
    (l.completeAll xs).2.defaults = l.defaults := by
  induction xs generalizing l with
  | nil => rfl
  | cons x rest ih =>
    rw [completeAll]
    cases l.complete x with
    | error e => exact ih l
    | ok m => exact ih (l.put m)

theorem defaults_load (l : Library) (files : Tree) (path : Text) :
    (l.load files path).2.defaults = l.defaults := by
  rw [load_eq]
  split
  · rfl
  · dsimp only
    split <;> rw [defaults_completeAll, defaults_putAll]

/-- A library has what it had and what the files that it loaded need. -/
theorem get?_load_cases (h : (l.load files path).2.get? name = some m) : (l.get? name).isSome ∨
    ∃ root found, neededOf files l.defaults path = .ok (root, found) ∧
      name ∈ found.map fun x => x.source.name := by
  rw [load_eq] at h
  split at h
  · exact .inl (by rw [h]; rfl)
  · rename_i root found hfound
    have hget : ∃ n, ((l.putAll (found.map Located.declaration)).completeAll found).2.get? name =
        some n := by
      dsimp only at h
      split at h <;> exact ⟨m, h⟩
    obtain ⟨n, hn⟩ := hget
    rcases get?_completeAll_cases hn with hput | hmem
    · obtain ⟨n', hn'⟩ := Option.isSome_iff_exists.mp hput
      rcases get?_putAll_cases hn' with hmem | ⟨-, hold⟩
      · obtain ⟨x, hx, rfl⟩ := List.mem_map.mp hmem
        exact .inr ⟨root, found, hfound, List.mem_map.mpr ⟨x, hx, name_of_get? hn'⟩⟩
      · exact .inl (by rw [hold]; rfl)
    · exact .inr ⟨root, found, hfound, hmem⟩

/-- Whether a module sees the same theorems and sorts in two libraries. -/
structure ShowsSame (l l' : Library) (name : Text) : Prop where
  theorems : l.theorems name .transitive = l'.theorems name .transitive
  hasIntegerSorts : l.hasIntegerSorts name = l'.hasIntegerSorts name

/-- Libraries that have nothing that a file asks for in vain load it alike. -/
theorem load_agree (hdefaults : l.defaults = l'.defaults)
    (hneeded : AgreeUpToError (neededOf files l.defaults path) (neededOf files' l'.defaults path))
    (hwanting : ∀ name found, neededOf files l.defaults path = .ok (name, found) →
      ∀ n ∈ wanting l.defaults found, l.get? n = none ∧ l'.get? n = none) :
    AgreeUpToError (l.load files path).1 (l'.load files' path).1 ∧
      ∀ m, (l.load files path).1 = .ok m →
        ShowsSame (l.load files path).2 (l'.load files' path).2 m.name := by
  rw [load_eq, load_eq]
  rcases hneeded with hsame | ⟨e, e', he, he'⟩
  · rw [← hsame]
    cases hfound : neededOf files l.defaults path with
    | error r => exact ⟨.inl rfl, fun m hm => by cases hm⟩
    | ok needed =>
      obtain ⟨name, found⟩ := needed
      let S : Text → Prop := fun n => n ∈ found.map (fun l => l.source.name) ∨
        n ∈ found.flatMap fun x => x.source.imports ++ l.defaults
      have hS : ∀ x ∈ found, S x.source.name ∧ ∀ i ∈ x.source.imports ++ l.defaults, S i := by
        intro x hx
        exact ⟨.inl (List.mem_map_of_mem hx), fun i hi => .inr (List.mem_flatMap.mpr ⟨x, hx, hi⟩)⟩
      have hput : (l.putAll (found.map Located.declaration)).Agrees
          (l'.putAll (found.map Located.declaration)) S := by
        refine agrees_putAll hdefaults ?_ ?_
        · intro n hn hnot
          rw [List.map_map] at hnot
          refine hwanting name found hfound n ?_
          rw [wanting, List.mem_filter]
          refine ⟨hn.resolve_left hnot, ?_⟩
          rw [Bool.not_eq_true', ← Bool.not_eq_true, List.contains_iff_mem]
          exact hnot
        · intro m hm
          obtain ⟨x, hx, rfl⟩ := List.mem_map.mp hm
          exact (hS x hx).2
      obtain ⟨herrors, hagrees⟩ := hput.completeAll found
        (by rw [defaults_putAll]; exact hS)
      dsimp only
      rw [← herrors]
      cases Error.join ((l.putAll (found.map Located.declaration)).completeAll found).1 with
      | some e => exact ⟨.inl rfl, fun m hm => by cases hm⟩
      | none =>
        have hname : S name := .inl (name_mem_of_neededOf hfound)
        have hmodule := hagrees.get? name hname
        unfold Library.module
        rw [← hmodule]
        refine ⟨.inl rfl, fun m hm => ?_⟩
        cases hget : ((l.putAll (found.map Located.declaration)).completeAll found).2.get? name with
        | none => rw [hget] at hm; cases hm
        | some n =>
          rw [hget] at hm
          obtain rfl : n = m := Except.ok.inj hm
          rw [name_of_get? hget]
          exact ⟨hagrees.theorems hname, hagrees.hasIntegerSorts hname⟩
  · rw [he, he']
    exact ⟨.inr ⟨e, e', rfl, rfl⟩, fun m hm => by cases hm⟩

end Library

end Discharge
