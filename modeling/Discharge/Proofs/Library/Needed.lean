import Discharge.Library.Closure
import Discharge.Proofs.Files.Places
import Discharge.Proofs.Success
import Mathlib.Data.List.Find
import Mathlib.Data.List.Nodup
import Mathlib.Data.List.Perm.Subperm

namespace Discharge

open Document.Filler

theorem Path.moduleNameOf_lastName {path : Text} (h : Tree.isFileName (Path.lastName path) = true) :
    moduleNameOf (Path.lastName path) = moduleNameOf path := by
  have hname := (Path.isFileName_iff.mp h).1
  have hlast := Path.lastName_of_isName (Path.isName_lastName path)
  rw [moduleNameOf, moduleNameOf, Path.base_eq hname, Path.base_eq (by rwa [hlast]), hlast]

/-- Whether two readings came to the same, or both to an error. -/
def AgreeUpToError {α : Type} (x y : Except Refused α) : Prop :=
  x = y ∨ ∃ e e', x = .error (.error e) ∧ y = .error (.error e')

namespace AgreeUpToError

variable {α : Type} {x y z : Except Refused α}

theorem symm (h : AgreeUpToError x y) : AgreeUpToError y x := by
  rcases h with rfl | ⟨e, e', hx, hy⟩
  · exact .inl rfl
  · exact .inr ⟨e', e, hy, hx⟩

theorem ok {a : α} (h : AgreeUpToError x y) (hx : x = .ok a) : y = .ok a := by
  rcases h with rfl | ⟨e, e', hx', hy⟩
  · exact hx
  · rw [hx'] at hx
    cases hx

theorem trans (h : AgreeUpToError x y) (h' : AgreeUpToError y z) : AgreeUpToError x z := by
  rcases h with rfl | ⟨e, e', hx, hy⟩
  · exact h'
  · rcases h' with rfl | ⟨d, d', hy', hz⟩
    · exact .inr ⟨e, e', hx, hy⟩
    · exact .inr ⟨e, d', hx, hz⟩

end AgreeUpToError

namespace ModuleSource

variable {files : Tree} {path content : Text}

/-- How a text is read as a module depends only on the last name of its path. -/
theorem ofText_lastName (h : Tree.isFileName (Path.lastName path) = true) (text : Text) :
    ofText (Path.lastName path) text = ofText path text := by
  unfold ofText
  rw [Path.moduleNameOf_lastName h]

theorem ofFile_of_read? (h : files.read? path = some content) :
    ofFile files path = (ofText path content).mapError (.during (.decoding path)) := by
  unfold Tree.read? at h
  unfold ofFile
  split at h
  · rename_i u hu
    rw [hu, Option.some.inj h]
  · cases h

theorem ofFile_of_read?_eq_none (h : files.read? path = none) :
    ∃ e, ofFile files path = .error (.error e) := by
  unfold Tree.read? at h
  unfold ofFile
  split at h
  · cases h
  · cases hlookup : files.lookup path with
    | error f => exact ⟨_, rfl⟩
    | ok u =>
      cases u with
      | file content => simp_all
      | directory es => exact ⟨_, rfl⟩

theorem ofFile_sources (hfiles : files.ordered = true) (hpath : Path.isProof path = false) :
    AgreeUpToError (ofFile files.sources path) (ofFile files path) := by
  have hread := Tree.read?_sources hfiles hpath
  cases hcontent : files.read? path with
  | some content =>
    rw [hcontent] at hread
    rw [ofFile_of_read? hread, ofFile_of_read? hcontent]
    exact .inl rfl
  | none =>
    rw [hcontent] at hread
    obtain ⟨e, he⟩ := ofFile_of_read?_eq_none hread
    obtain ⟨e', he'⟩ := ofFile_of_read?_eq_none hcontent
    exact .inr ⟨e, e', he, he'⟩

end ModuleSource

namespace Closure

variable {files : Tree} {defaults : List Text} {dir name : Text} {c c' : Closure}

theorem isProof_of_locate {path : Text} (h : locate files dir name = some path) :
    Path.isProof path = false ∧ ∃ content, files.read? path = some content := by
  have hmem := List.mem_of_find?_eq_some h
  obtain ⟨ext, hext, rfl⟩ := List.mem_map.mp hmem
  refine ⟨Path.isProof_of_isModuleFile (Path.isModuleFile_join dir name hext), ?_⟩
  have hsome := List.find?_some (p := fun path => (files.read? path).isSome) h
  exact Option.isSome_iff_exists.mp hsome

theorem locate_sources (hfiles : files.ordered = true) (dir name : Text) :
    locate files.sources dir name = locate files dir name := by
  refine List.find?_congr fun path hpath => ?_
  obtain ⟨ext, hext, rfl⟩ := List.mem_map.mp hpath
  rw [Tree.read?_sources hfiles
    (Path.isProof_of_isModuleFile (Path.isModuleFile_join dir name hext))]

theorem meet_sources (hfiles : files.ordered = true) (dir : Text) (c : Closure) (name : Text) :
    meet files.sources dir c name = meet files dir c name := by
  unfold meet
  rw [locate_sources hfiles]
  split
  · rfl
  · dsimp only
    split
    · rfl
    · rename_i path hpath
      obtain ⟨hproof, content, hread⟩ := isProof_of_locate hpath
      rw [ModuleSource.ofFile_of_read? hread, ModuleSource.ofFile_of_read?
        ((Tree.read?_sources hfiles hproof).trans hread)]

theorem explore_sources (hfiles : files.ordered = true) (fuel position : Nat) (c : Closure) :
    explore files.sources defaults fuel position c = explore files defaults fuel position c := by
  have hmeet : meet files.sources = meet files := by
    funext dir c name
    exact meet_sources hfiles dir c name
  induction fuel generalizing position c with
  | zero => rfl
  | succ fuel ih =>
    unfold explore
    rw [hmeet]
    split
    · rfl
    · refine congrArg _ (funext fun c => ih (position + 1) c)

def nameIn (leaf : Text × Text) : Text :=
  ((ModuleSource.ofText leaf.1 leaf.2).toOption.map ModuleSource.name).getD ""

/-- Whether the modules that were found have different names, and all but the first come from
files. -/
structure Found (files : Tree) (c : Closure) : Prop where
  nonempty : c.found ≠ []
  nodup : (c.found.map fun l => l.source.name).Nodup
  met : ∀ l ∈ c.found, l.source.name ∈ c.names
  filed : ∀ l ∈ c.found.tail, l.source.name ∈ (files.leaves "").map nameIn

theorem Found.meet (h : Found files c) (hmeet : Closure.meet files dir c name = .ok c') :
    Found files c' := by
  unfold Closure.meet at hmeet
  split at hmeet
  · rwa [← Except.ok.inj hmeet]
  · rename_i hseen
    rw [List.contains_iff_mem] at hseen
    dsimp only at hmeet
    split at hmeet
    · obtain rfl := Except.ok.inj hmeet
      exact ⟨h.nonempty, h.nodup, fun l hl => List.mem_cons_of_mem _ (h.met l hl), h.filed⟩
    · rename_i path hpath
      obtain ⟨-, content, hread⟩ := isProof_of_locate hpath
      split at hmeet
      · cases hmeet
      · rename_i source hsource
        split at hmeet
        · rename_i hname
          obtain rfl := Except.ok.inj hmeet
          have hsame : source.name = name := beq_iff_eq.mp hname
          have hleaf : source.name ∈ (files.leaves "").map nameIn := by
            obtain ⟨hmem, hfile⟩ := Tree.mem_leaves_of_read? hread ""
            refine List.mem_map.mpr ⟨_, hmem, ?_⟩
            rw [ModuleSource.ofFile_of_read? hread] at hsource
            rw [nameIn, ModuleSource.ofText_lastName hfile]
            cases htext : ModuleSource.ofText path content with
            | error r => rw [htext] at hsource; cases hsource
            | ok s =>
              rw [htext] at hsource
              rw [← Except.ok.inj hsource]
              rfl
          refine ⟨by simp, ?_, ?_, ?_⟩
          · rw [List.map_append, List.map_singleton, List.nodup_append]
            refine ⟨h.nodup, List.nodup_singleton _, ?_⟩
            rintro a ha b hb rfl
            obtain ⟨l, hl, hl'⟩ := List.mem_map.mp ha
            rw [List.mem_singleton.mp hb, hsame] at hl'
            exact hseen (hl' ▸ h.met l hl)
          · intro l hl
            rcases List.mem_append.mp hl with hl | hl
            · exact List.mem_cons_of_mem _ (h.met l hl)
            · rw [List.mem_singleton.mp hl, hsame]
              exact List.mem_cons_self
          · intro l hl
            rw [List.tail_append_of_ne_nil h.nonempty] at hl
            rcases List.mem_append.mp hl with hl | hl
            · exact h.filed l hl
            · rw [List.mem_singleton.mp hl]
              exact hleaf
        · cases hmeet

theorem Found.meets (h : Found files c) {names : List Text}
    (hmeets : names.foldlM (Closure.meet files dir) c = .ok c') : Found files c' := by
  induction names generalizing c with
  | nil => exact Except.ok.inj hmeets ▸ h
  | cons name rest ih =>
    rw [List.foldlM_cons] at hmeets
    cases hmeet : Closure.meet files dir c name with
    | error r => rw [hmeet] at hmeets; cases hmeets
    | ok c'' =>
      rw [hmeet] at hmeets
      exact ih (h.meet hmeet) hmeets

theorem Found.length_le (h : Found files c) : c.found.length ≤ (files.paths ".").length + 1 := by
  obtain ⟨l, rest, hrest⟩ := List.exists_cons_of_ne_nil h.nonempty
  have hnodup := h.nodup
  have hfiled := h.filed
  rw [hrest] at hnodup hfiled ⊢
  have hsub : (rest.map fun l => l.source.name) ⊆ (files.leaves "").map nameIn := by
    intro name hname
    obtain ⟨l', hl', rfl⟩ := List.mem_map.mp hname
    exact hfiled l' hl'
  have hle := ((List.nodup_cons.mp hnodup).2.subperm hsub).length_le
  rw [List.length_map, List.length_map, ← Tree.length_paths "" "."] at hle
  simpa using hle

/-- It does not matter how often one may go on if that is often enough. -/
theorem Found.explore_eq (h : Found files c) {fuel position : Nat} (fuel' : Nat)
    (hfuel : (files.paths ".").length + 1 ≤ fuel + position)
    (hfuel' : (files.paths ".").length + 1 ≤ fuel' + position) :
    explore files defaults fuel position c = explore files defaults fuel' position c := by
  induction fuel generalizing fuel' position c with
  | zero =>
    have hnone : c.found[position]? = none :=
      List.getElem?_eq_none (by have := h.length_le; omega)
    cases fuel' with
    | zero => rfl
    | succ fuel' => rw [explore, explore, hnone]
  | succ fuel ih =>
    cases fuel' with
    | zero =>
      have hnone : c.found[position]? = none :=
        List.getElem?_eq_none (by have := h.length_le; omega)
      rw [explore, explore, hnone]
    | succ fuel' =>
      rw [explore, explore]
      split
      · rfl
      · rename_i l hl
        cases hmeets : (l.source.imports ++ defaults).foldlM
            (Closure.meet files (Path.directory l.path)) c with
        | error r => rfl
        | ok c' => exact ih (h.meets hmeets) fuel' (by omega) (by omega)

theorem needed_sources (hfiles : files.ordered = true) (l : Located) :
    needed files.sources defaults l = needed files defaults l := by
  have hfound : Found files.sources ⟨[l], [l.source.name]⟩ := ⟨by simp, by simp, by simp, by simp⟩
  have hcount := Tree.length_paths_sources "." files
  unfold needed
  rw [hfound.explore_eq ((files.paths ".").length + 1) (by omega) (by omega),
    explore_sources hfiles]

theorem mem_of_meets {l : Located} (h : l ∈ c.found) {names : List Text}
    (hmeets : names.foldlM (meet files dir) c = .ok c') : l ∈ c'.found := by
  induction names generalizing c with
  | nil => exact Except.ok.inj hmeets ▸ h
  | cons name rest ih =>
    rw [List.foldlM_cons] at hmeets
    cases hmeet : meet files dir c name with
    | error r => rw [hmeet] at hmeets; cases hmeets
    | ok c'' =>
      rw [hmeet] at hmeets
      refine ih ?_ hmeets
      unfold meet at hmeet
      grind

theorem mem_of_explore {l : Located} {fuel position : Nat} (h : l ∈ c.found)
    (hexplore : explore files defaults fuel position c = .ok c') : l ∈ c'.found := by
  induction fuel generalizing position c with
  | zero => exact Except.ok.inj hexplore ▸ h
  | succ fuel ih =>
    rw [explore] at hexplore
    split at hexplore
    · exact Except.ok.inj hexplore ▸ h
    · rename_i l' hl'
      cases hmeets : (l'.source.imports ++ defaults).foldlM (meet files (Path.directory l'.path)) c
        with
      | error r => rw [hmeets] at hexplore; cases hexplore
      | ok c'' =>
        rw [hmeets] at hexplore
        exact ih (mem_of_meets h hmeets) hexplore

theorem mem_of_needed {l : Located} {found : List Located}
    (h : needed files defaults l = .ok found) : l ∈ found := by
  unfold needed at h
  cases hexplore : explore files defaults ((files.paths ".").length + 1) 0
      ⟨[l], [l.source.name]⟩ with
  | error r => rw [hexplore] at h; cases h
  | ok c =>
    rw [hexplore] at h
    exact Except.ok.inj h ▸ mem_of_explore List.mem_cons_self hexplore

end Closure

def neededOf (files : Tree) (defaults : List Text) (path : Text) :
    Except Refused (Text × List Located) := do
  let source ← ModuleSource.ofFile files path
  return (source.name, ← Closure.needed files defaults ⟨path, source⟩)

section Needed

variable {files : Tree} {defaults : List Text} {path name : Text} {found : List Located}

theorem neededOf_sources (hfiles : files.ordered = true) (hpath : Path.isProof path = false) :
    AgreeUpToError (neededOf files.sources defaults path) (neededOf files defaults path) := by
  unfold neededOf
  rcases ModuleSource.ofFile_sources hfiles hpath with hsame | ⟨e, e', he, he'⟩
  · rw [hsame]
    refine .inl (congrArg _ (funext fun source => ?_))
    rw [Closure.needed_sources hfiles]
  · rw [he, he']
    exact .inr ⟨e, e', rfl, rfl⟩

theorem exists_root (h : neededOf files defaults path = .ok (name, found)) :
    ∃ root : Located, root.path = path ∧ root.source.name = name ∧
      ModuleSource.ofFile files root.path = .ok root.source ∧
      Closure.needed files defaults root = .ok found := by
  obtain ⟨source, hsource, h⟩ := bind_eq_ok.mp h
  obtain ⟨ls, hneeded, h⟩ := bind_eq_ok.mp h
  cases h
  exact ⟨⟨path, source⟩, rfl, rfl, hsource, hneeded⟩

theorem name_mem_of_neededOf (h : neededOf files defaults path = .ok (name, found)) :
    name ∈ found.map fun l => l.source.name := by
  obtain ⟨root, -, rfl, -, hneeded⟩ := exists_root h
  exact List.mem_map.mpr ⟨root, Closure.mem_of_needed hneeded, rfl⟩

end Needed

end Discharge
