import Discharge.Proofs.Library.Completion

namespace Discharge

theorem Error.join_eq_none_iff {errors : List Error} : join errors = none ↔ errors = [] := by
  cases errors <;> simp [join]

namespace Library

variable {l l' : Library} {m : Module} {x : Located} {name path : Text} {found ds xs : List Located}
  {files : Tree}

theorem get?_putAll_of_not_mem {ms : List Module} (h : name ∉ ms.map Module.name) :
    (l.putAll ms).get? name = l.get? name := by
  induction ms generalizing l with
  | nil => rfl
  | cons m rest ih =>
    rw [List.map_cons, List.mem_cons, not_or] at h
    exact (ih h.2).trans (by rw [get?_put, if_neg h.1])

theorem get?_putAll_of_mem {ms : List Module} (hnodup : (ms.map Module.name).Nodup) (hm : m ∈ ms) :
    (l.putAll ms).get? m.name = some m := by
  induction ms generalizing l with
  | nil => cases hm
  | cons n rest ih =>
    obtain ⟨hnot, hrest⟩ := List.nodup_cons.mp hnodup
    rcases List.mem_cons.mp hm with rfl | hm
    · exact (get?_putAll_of_not_mem hnot).trans (by rw [get?_put, if_pos rfl])
    · exact ih hrest hm

/-- A library in which the modules that were found are declared. -/
def declaring (l : Library) (found : List Located) : Library :=
  l.putAll (found.map Located.declaration)

theorem names_declaration (found : List Located) :
    (found.map Located.declaration).map Module.name = found.map fun x => x.source.name := by
  rw [List.map_map]
  rfl

theorem get?_declaring_of_not_mem (h : name ∉ found.map fun x => x.source.name) :
    (l.declaring found).get? name = l.get? name :=
  get?_putAll_of_not_mem (by rwa [names_declaration])

theorem declares_declaring (l : Library) (hnodup : (found.map fun x => x.source.name).Nodup) :
    (l.declaring found).Declares found :=
  ⟨hnodup, fun _ hx => get?_putAll_of_mem (by rwa [names_declaration]) (List.mem_map_of_mem hx)⟩

theorem get?_declaring_perm (hnodup : (found.map fun x => x.source.name).Nodup)
    (hperm : ds.Perm found) (name : Text) :
    (l.declaring ds).get? name = (l.declaring found).get? name := by
  by_cases hname : name ∈ found.map fun x => x.source.name
  · obtain ⟨x, hx, rfl⟩ := List.mem_map.mp hname
    rw [(l.declares_declaring hnodup).declared x hx, (l.declares_declaring
      ((hperm.map _).nodup_iff.mpr hnodup)).declared x (hperm.mem_iff.mpr hx)]
  · rw [get?_declaring_of_not_mem hname,
      get?_declaring_of_not_mem fun hmem => hname ((hperm.map _).mem_iff.mp hmem)]

theorem sameOutlines_declaring_perm (hnodup : (found.map fun x => x.source.name).Nodup)
    (hperm : ds.Perm found) : (l.declaring ds).SameOutlines (l.declaring found) where
  defaults := by rw [declaring, declaring, defaults_putAll, defaults_putAll]
  get? name := by rw [get?_declaring_perm hnodup hperm]

/-- Modules that are completed see each other afterwards as they did before. -/
theorem Declares.sameOutlines (h : l.Declares xs) : l.SameOutlines (l.completeAll xs).2 where
  defaults := h.completes.defaults.symm
  get? name := by
    by_cases hname : name ∈ xs.map fun x => x.source.name
    · obtain ⟨x, hx, rfl⟩ := List.mem_map.mp hname
      rw [h.declared x hx, h.completes.completed x hx, Option.map_some, Option.map_some,
        outline_completed]
      rfl
    · rw [h.completes.others name hname]

/-- The order in which modules are declared and completed matters for the order of the errors
alone. -/
theorem completeAll_perm (l : Library) (hnodup : (found.map fun x => x.source.name).Nodup)
    (hds : ds.Perm found) (hxs : xs.Perm found) :
    ((l.declaring ds).completeAll xs).1.Perm ((l.declaring found).completeAll found).1 ∧
    ∀ name, ((l.declaring ds).completeAll xs).2.get? name =
      ((l.declaring found).completeAll found).2.get? name := by
  have hdeclares := l.declares_declaring hnodup
  have hsame := sameOutlines_declaring_perm (l := l) hnodup hds
  have hdeclares' : (l.declaring ds).Declares xs :=
    ⟨(hxs.map _).nodup_iff.mpr hnodup, fun x hx => by
      rw [get?_declaring_perm hnodup hds, hdeclares.declared x (hxs.mem_iff.mp hx)]⟩
  have hcompletes := hdeclares.completes
  have hcompletes' := hdeclares'.completes
  constructor
  · rw [hcompletes.errors, hcompletes'.errors]
    have hrefusals : (l.declaring ds).refusal? = (l.declaring found).refusal? := by
      funext x
      rw [refusal?, refusal?, hsame.complete]
    rw [hrefusals]
    exact hxs.filterMap _
  · intro name
    by_cases hname : name ∈ found.map fun x => x.source.name
    · obtain ⟨x, hx, rfl⟩ := List.mem_map.mp hname
      rw [hcompletes.completed x hx, hcompletes'.completed x (hxs.mem_iff.mpr hx),
        hsame.completed]
    · rw [hcompletes.others name hname, get?_declaring_of_not_mem hname,
        hcompletes'.others name fun hmem => hname ((hxs.map _).mem_iff.mp hmem),
        get?_declaring_of_not_mem fun hmem => hname ((hds.map _).mem_iff.mp hmem)]

theorem load_eq_refused {r : Refused} (h : neededOf files l.defaults path = .error r) :
    l.load files path = (.error r, l) := by
  rw [load_eq, h]

theorem load_snd (h : neededOf files l.defaults path = .ok (name, found)) :
    (l.load files path).2 = ((l.declaring found).completeAll found).2 := by
  rw [load_eq, h]
  dsimp only
  split <;> rfl

theorem load_fst (h : neededOf files l.defaults path = .ok (name, found)) :
    (l.load files path).1 = (match Error.join ((l.declaring found).completeAll found).1 with
      | some e => .error (.error e)
      | none => ((l.load files path).2.module name).mapError .error) := by
  rw [load_snd h, load_eq, h]
  dsimp only [declaring]
  cases Error.join ((l.putAll (found.map Located.declaration)).completeAll found).1 <;> rfl

theorem load_states (h : neededOf files l.defaults path = .ok (name, found))
    (hnodup : (found.map fun x => x.source.name).Nodup) (hx : x ∈ found)
    (hnone : (l.declaring found).refusal? x = none) :
    ∃ m, (l.load files path).2.get? x.source.name = some m ∧
      x.States (l.load files path).2 m := by
  have hdeclares := l.declares_declaring hnodup
  refine ⟨_, by rw [load_snd h, hdeclares.completes.completed x hx],
    (states_completed hnone).congr ?_⟩
  rw [load_snd h, hdeclares.sameOutlines.kinds]

theorem load_others (h : neededOf files l.defaults path = .ok (name, found))
    (hnodup : (found.map fun x => x.source.name).Nodup) {other : Text}
    (hother : other ∉ found.map fun x => x.source.name) :
    (l.load files path).2.get? other = l.get? other := by
  rw [load_snd h, (l.declares_declaring hnodup).completes.others other hother,
    get?_declaring_of_not_mem hother]

/-- What a library has after a file was loaded without errors. -/
structure Loads (files : Tree) (l : Library) (root : Located) (found : List Located)
    (l' : Library) : Prop where
  ends : ∃ c, c.found = found ∧
    Closure.Explores files l.defaults 0 ⟨[root], [root.source.name]⟩ (.ok c)
  closed : Closure.Closed files l.defaults root found
  /-- All modules that chains of imports lead to are found, if those that import a name agree
  about it. -/
  reached : Closure.Unequivocal files l.defaults found → ∀ name place,
    Closure.Seeks files l.defaults root name place →
      ∃ x ∈ found, x.source.name = name ∧ x.path = place
  /-- What was found is in the library as its files state it, each formula read with the symbols
  that the library shows in the end. -/
  stated : ∀ x ∈ found, ∃ m, l'.get? x.source.name = some m ∧ x.States l' m
  others : ∀ name, name ∉ found.map (fun x => x.source.name) → l'.get? name = l.get? name
  /-- The modules may be declared in any order, and completed in any order. -/
  unordered : ∀ ds xs, ds.Perm found → xs.Perm found →
    ((l.declaring ds).completeAll xs).1 = [] ∧
    ∀ name, ((l.declaring ds).completeAll xs).2.get? name = l'.get? name

/-- A file that is loaded brings all that it needs into the library. -/
theorem load_closes (h : (l.load files path).1 = .ok m) : ∃ root found, root.path = path ∧
    ModuleSource.ofFile files path = .ok root.source ∧
    neededOf files l.defaults path = .ok (root.source.name, found) ∧
    (l.load files path).2.get? root.source.name = some m ∧
    Loads files l root found (l.load files path).2 := by
  cases hneeded : neededOf files l.defaults path with
  | error r =>
    rw [load_eq_refused hneeded] at h
    cases h
  | ok needed =>
    obtain ⟨name, found⟩ := needed
    obtain ⟨root, rfl, rfl, hread, hfound⟩ := exists_root hneeded
    obtain ⟨hclosed, hends⟩ := Closure.closed_needed hread hfound
    have hcompletes := (l.declares_declaring hclosed.nodup).completes
    have herrors : ((l.declaring found).completeAll found).1 = [] := by
      rw [load_fst hneeded] at h
      split at h
      · cases h
      · exact Error.join_eq_none_iff.mp ‹_›
    refine ⟨root, found, rfl, hread, rfl, ?_, hends, hclosed,
      fun hagree name place => hclosed.mem_of_seeks hagree, ?stated,
      fun _ => load_others hneeded hclosed.nodup, ?unordered⟩
    · rw [load_fst hneeded, herrors] at h
      unfold module Error.join at h
      dsimp only at h
      cases hget : (l.load files root.path).2.get? root.source.name with
      | none => rw [hget] at h; cases h
      | some n =>
        rw [hget] at h
        exact congrArg some (Except.ok.inj h)
    case stated =>
      intro x hx
      have hnone : (l.declaring found).refusal? x = none := by
        rw [hcompletes.errors] at herrors
        by_contra hsome
        obtain ⟨e, he⟩ := Option.ne_none_iff_exists'.mp hsome
        have hmem := List.mem_filterMap.mpr ⟨x, hx, he⟩
        rw [herrors] at hmem
        cases hmem
      exact load_states hneeded hclosed.nodup hx hnone
    case unordered =>
      intro ds xs hds hxs
      obtain ⟨hperm, hget⟩ := l.completeAll_perm hclosed.nodup hds hxs
      rw [herrors] at hperm
      exact ⟨hperm.eq_nil, fun name => by rw [hget, load_snd hneeded]⟩

/-- Modules that import each other and one that is missing. The formulas of both name symbols of the
other one and of a module that is imported by default. -/
def cyclicFiles : Tree := Tree.empty.putAll [
  ("Root.vc", "module: Root\nimports: [Stack]\nsymbols: \x7bf: Z\x7d\nvcs:\n  - id: 1\n" ++
    "    left: [\"top == o\"]\n    right: [\"f(top) == f(o)\"]\n"),
  ("Stack.vc", "module: Stack\nimports: [Root, Ghost]\nsymbols: \x7btop: Z\x7d\ntheorems:\n" ++
    "  - name: Fixed\n    forall: \x7bx: Z\x7d\n    assertion: f(x) == o\n"),
  ("Basics.vc", "module: Basics\nsymbols: \x7bo: Z\x7d\n")]

def basicLibrary : Library where
  defaults := ["Basics"]

theorem load_closes_cyclicFiles : ∃ root found m,
    (basicLibrary.load cyclicFiles "Root.vc").1 = .ok m ∧
    Loads cyclicFiles basicLibrary root found (basicLibrary.load cyclicFiles "Root.vc").2 ∧
    Closure.Unequivocal cyclicFiles basicLibrary.defaults found ∧
    found.map Located.path = [("Root.vc" : Text), "Stack.vc", "Basics.vc"] := by
  have hloads : (basicLibrary.load cyclicFiles "Root.vc").1.toOption.isSome = true := by
    decide +kernel
  have hneeded : ((neededOf cyclicFiles basicLibrary.defaults "Root.vc").toOption.any fun n =>
      decide (Closure.Unequivocal cyclicFiles basicLibrary.defaults n.2) &&
        decide (n.2.map Located.path = [("Root.vc" : Text), "Stack.vc", "Basics.vc"])) = true := by
    decide +kernel
  cases hload : (basicLibrary.load cyclicFiles "Root.vc").1 with
  | error r => rw [hload] at hloads; cases hloads
  | ok m =>
    obtain ⟨root, found, -, -, hfound, -, h⟩ := load_closes hload
    rw [hfound] at hneeded
    obtain ⟨hagree, hpaths⟩ := Bool.and_eq_true_iff.mp hneeded
    exact ⟨root, found, m, rfl, h, of_decide_eq_true hagree, of_decide_eq_true hpaths⟩

/-- A module that two others need is kept beside one of them. The one that is met first looks for it
elsewhere, and so the other one does not look for it. -/
def strandedFiles : Tree := Tree.empty.putAll [
  ("Root.vc", "module: Root\nimports: [Queue, lib/Stack]\n"),
  ("lib/Stack.vc", "module: lib/Stack\nimports: [Queue]\n"),
  ("lib/Queue.vc", "module: Queue\nsymbols: \x7bPush: Z\x7d\n")]

example : (Library.load {} strandedFiles "Root.vc").1.toOption.isSome = true ∧
    (Library.load {} strandedFiles "Root.vc").2.modules.map Module.name =
      [("lib/Stack" : Text), "Root"] ∧
    Closure.locate strandedFiles "lib" "Queue" = some ("lib/Queue.vc" : Text) := by
  decide +kernel

/-- What a library has after a formula of a file, or of a module that it needs, was wrong. -/
structure FailsIn (l : Library) (found : List Located) (e : Error) (l' : Library) : Prop where
  reported : Error.join (found.filterMap (l.declaring found).refusal?) = some e
  refused : ∃ x ∈ found, ((l.declaring found).refusal? x).isSome
  /-- A module that is refused stays as it was declared, whatever the library had of its name. -/
  declared : ∀ x ∈ found, ((l.declaring found).refusal? x).isSome →
    l'.get? x.source.name = some x.declaration
  stated : ∀ x ∈ found, (l.declaring found).refusal? x = none →
    ∃ m, l'.get? x.source.name = some m ∧ x.States l' m
  others : ∀ name, name ∉ found.map (fun x => x.source.name) → l'.get? name = l.get? name

/-- A file that is refused leaves the library as it was if it, or a module that it needs, could not
be read at all. If just a formula is wrong, what the file needs is in the library all the same, and
the modules with wrong formulas have no theorems and conditions. -/
theorem load_fails {r : Refused} (h : (l.load files path).1 = .error r) :
    neededOf files l.defaults path = .error r ∧ (l.load files path).2 = l ∨
    ∃ root found e, root.path = path ∧ r = .error e ∧
      neededOf files l.defaults path = .ok (root.source.name, found) ∧
      Closure.Closed files l.defaults root found ∧ FailsIn l found e (l.load files path).2 := by
  cases hneeded : neededOf files l.defaults path with
  | error r' =>
    rw [load_eq_refused hneeded] at h ⊢
    exact .inl ⟨congrArg _ (Except.error.inj h), rfl⟩
  | ok needed =>
    obtain ⟨name, found⟩ := needed
    obtain ⟨root, rfl, rfl, hread, hfound⟩ := exists_root hneeded
    obtain ⟨hclosed, -⟩ := Closure.closed_needed hread hfound
    have hcompletes := (l.declares_declaring hclosed.nodup).completes
    rw [load_fst hneeded] at h
    cases hjoin : Error.join ((l.declaring found).completeAll found).1 with
    | none =>
      -- The module that was asked for is in the library then, so nothing was refused.
      have hroot := hcompletes.completed root (List.mem_of_mem_head? hclosed.first)
      rw [hjoin, load_snd hneeded, module, hroot] at h
      cases h
    | some e =>
      rw [hjoin] at h
      refine .inr ⟨root, found, e, rfl, (Except.error.inj h).symm, rfl, hclosed, ?_⟩
      rw [hcompletes.errors] at hjoin
      refine ⟨hjoin, ?refused, ?declared,
        fun x hx => load_states hneeded hclosed.nodup hx,
        fun _ => load_others hneeded hclosed.nodup⟩
      case refused =>
        have hne : found.filterMap (l.declaring found).refusal? ≠ [] := fun hnil => by
          rw [Error.join_eq_none_iff.mpr hnil] at hjoin
          cases hjoin
        obtain ⟨e', he'⟩ := List.exists_mem_of_ne_nil _ hne
        obtain ⟨x, hx, hrefusal⟩ := List.mem_filterMap.mp he'
        exact ⟨x, hx, by rw [hrefusal]; rfl⟩
      case declared =>
        intro x hx hrefusal
        rw [load_snd hneeded, hcompletes.completed x hx, completed_of_refusal hrefusal]

def brokenFiles : Tree := Tree.empty.putAll [
  ("Stack.vc", "module: Stack\nsymbols: \x7bp: B\x7d\ntheorems:\n  - name: Given\n" ++
    "    assertion: p\n"),
  ("draft/Queue.vc", "module: Queue\nimports: [Stack]\n"),
  ("draft/Stack.vc", "module: Stack\nsymbols: \x7bp: B\x7d\ntheorems:\n  - name: Given\n" ++
    "    assertion: p ==\n")]

def stackLibrary : Library := (Library.load {} brokenFiles "Stack.vc").2

/-- The theorem that was there is gone after the other file was refused. -/
theorem load_fails_brokenFiles : (∃ r root found e,
      (stackLibrary.load brokenFiles "draft/Queue.vc").1 = .error r ∧
      neededOf brokenFiles stackLibrary.defaults "draft/Queue.vc" = .ok (root, found) ∧
      FailsIn stackLibrary found e (stackLibrary.load brokenFiles "draft/Queue.vc").2) ∧
    (stackLibrary.theorems "Stack" .own).theorems.map Theorem.name = [("Given" : Text)] ∧
    ((stackLibrary.load brokenFiles "draft/Queue.vc").2.theorems "Stack" .own).theorems.map
      Theorem.name = [] := by
  have hbefore : (stackLibrary.theorems "Stack" .own).theorems.map Theorem.name =
      [("Given" : Text)] := by
    decide +kernel
  have hafter : ((stackLibrary.load brokenFiles "draft/Queue.vc").2.theorems
      "Stack" .own).theorems.map Theorem.name = [] := by
    decide +kernel
  have hfails : (stackLibrary.load brokenFiles "draft/Queue.vc").1.toOption.isNone = true := by
    decide +kernel
  refine ⟨?_, hbefore, hafter⟩
  cases hload : (stackLibrary.load brokenFiles "draft/Queue.vc").1 with
  | ok m => rw [hload] at hfails; cases hfails
  | error r =>
    rcases load_fails hload with ⟨-, hsame⟩ | ⟨root, found, e, -, -, hfound, -, h⟩
    · -- The library is not the same: the theorem is gone.
      rw [hsame, hbefore] at hafter
      cases hafter
    · exact ⟨r, _, found, e, rfl, hfound, h⟩

end Library

end Discharge
