import Discharge.Proofs.Library.Needed

/-!
Where the modules that a file needs are found. The search comes to an end by itself. A name is
looked for once, beside the first of the modules that import it: if there is no file for it, the
others look no more.
-/

namespace Discharge

namespace Located

def imports (defaults : List Text) (x : Located) : List Text := x.source.imports ++ defaults

def sibling? (files : Tree) (x : Located) (name : Text) : Option Text :=
  Closure.locate files (Path.directory x.path) name

end Located

namespace Closure

variable {files : Tree} {defaults : List Text} {root x : Located} {name path : Text}
  {c c' : Closure} {found : List Located} {position : Nat}

inductive Explores (files : Tree) (defaults : List Text) :
    Nat → Closure → Except Refused Closure → Prop where
  | ended {position : Nat} {c : Closure} (h : c.found[position]? = none) :
    Explores files defaults position c (.ok c)
  | refused {position : Nat} {c : Closure} {x : Located} {r : Refused}
    (hx : c.found[position]? = some x)
    (hmeets : (x.imports defaults).foldlM (Closure.meet files (Path.directory x.path)) c =
      .error r) :
    Explores files defaults position c (.error r)
  | next {position : Nat} {c c' : Closure} {x : Located} {result : Except Refused Closure}
    (hx : c.found[position]? = some x)
    (hmeets : (x.imports defaults).foldlM (Closure.meet files (Path.directory x.path)) c = .ok c')
    (h : Explores files defaults (position + 1) c' result) :
    Explores files defaults position c result

theorem Found.explores (h : Found files c) {fuel : Nat}
    (hfuel : (files.paths ".").length + 1 ≤ fuel + position) :
    Explores files defaults position c (explore files defaults fuel position c) := by
  induction fuel generalizing position c with
  | zero => exact .ended (List.getElem?_eq_none (by have := h.length_le; omega))
  | succ fuel ih =>
    rw [explore]
    split
    · exact .ended ‹_›
    · rename_i x hx
      cases hmeets : (x.imports defaults).foldlM (Closure.meet files (Path.directory x.path)) c
        with
      | error r =>
        rw [Located.imports] at hmeets
        rw [hmeets]
        exact .refused hx hmeets
      | ok c' =>
        have hrest : Explores files defaults (position + 1) c'
            (explore files defaults fuel (position + 1) c') := ih (h.meets hmeets) (by omega)
        rw [Located.imports] at hmeets
        rw [hmeets]
        exact .next hx hmeets hrest

/-- The first of the modules found that imports a name. -/
def importer? (defaults : List Text) (found : List Located) (name : Text) : Option Located :=
  found.find? fun x => (x.imports defaults).contains name

def place? (found : List Located) (name : Text) : Option Text :=
  (found.find? fun x => x.source.name == name).map Located.path

/-- The modules that chains of imports lead to, each looked for beside the one that imports it. The
name of the first module stands for its own file. -/
inductive Seeks (files : Tree) (defaults : List Text) (root : Located) : Text → Text → Prop where
  | start : Seeks files defaults root root.source.name root.path
  | next {name path : Text} {source : ModuleSource} {i place : Text}
    (h : Seeks files defaults root name path)
    (hsource : ModuleSource.ofFile files path = .ok source)
    (hi : i ∈ source.imports ++ defaults) (hne : i ≠ root.source.name)
    (hplace : (⟨path, source⟩ : Located).sibling? files i = some place) :
    Seeks files defaults root i place

/-- Whether all modules that import a name find the same file for it, or all of them none. -/
def Unequivocal (files : Tree) (defaults : List Text) (found : List Located) : Prop :=
  ∀ x ∈ found, ∀ y ∈ found, ∀ i ∈ x.imports defaults, i ∈ y.imports defaults →
    x.sibling? files i = y.sibling? files i

instance (files : Tree) (defaults : List Text) (found : List Located) :
    Decidable (Unequivocal files defaults found) :=
  inferInstanceAs (Decidable (∀ x ∈ found, ∀ y ∈ found, ∀ i ∈ x.imports defaults,
    i ∈ y.imports defaults → x.sibling? files i = y.sibling? files i))

theorem unequivocal_of_directory {dir : Text} (h : ∀ x ∈ found, Path.directory x.path = dir) :
    Unequivocal files defaults found := by
  intro x hx y hy i _ _
  rw [Located.sibling?, Located.sibling?, h x hx, h y hy]

/-- What is known of a search in which the imports of the modules before a position were met, and
maybe some of that position. -/
structure Searched (files : Tree) (defaults : List Text) (root : Located) (position : Nat)
    (c : Closure) : Prop where
  found : Found files c
  first : c.found.head? = some root
  read : ∀ x ∈ c.found, ModuleSource.ofFile files x.path = .ok x.source
  sought : ∀ x ∈ c.found, Seeks files defaults root x.source.name x.path
  met : ∀ x ∈ c.found.take position, ∀ i ∈ x.imports defaults, i ∈ c.names
  settled : ∀ i ∈ c.names, i = root.source.name ∨
    ∃ y, importer? defaults c.found i = some y ∧ place? c.found i = y.sibling? files i

theorem place?_append (found later : List Located) (name : Text) :
    place? (found ++ later) name = (place? found name).or (place? later name) := by
  rw [place?, List.find?_append, place?, place?]
  cases found.find? fun x => x.source.name == name <;> rfl

theorem place?_eq_none_iff : place? found name = none ↔ ∀ x ∈ found, x.source.name ≠ name := by
  simp [place?]

theorem importer?_append_of_some {y : Located} (h : importer? defaults found name = some y)
    (later : List Located) : importer? defaults (found ++ later) name = some y := by
  unfold importer? at h ⊢
  rw [List.find?_append, h, Option.some_or]

theorem importer?_eq_none_iff :
    importer? defaults found name = none ↔ ∀ x ∈ found, name ∉ x.imports defaults := by
  simp [importer?]

theorem importer?_of_getElem? (hx : found[position]? = some x) (hname : name ∈ x.imports defaults)
    (hbefore : ∀ y ∈ found.take position, name ∉ y.imports defaults) :
    importer? defaults found name = some x := by
  have hsplit : found = found.take position ++ x :: found.drop (position + 1) := by
    obtain ⟨hlt, rfl⟩ := List.getElem?_eq_some_iff.mp hx
    rw [← List.drop_eq_getElem_cons, List.take_append_drop]
  have hnone := importer?_eq_none_iff.mpr hbefore
  rw [importer?] at hnone
  rw [hsplit, importer?, List.find?_append, hnone]
  simp [hname]

theorem meet_cases {dir : Text} (h : meet files dir c name = .ok c') :
    name ∈ c.names ∧ c' = c ∨
    name ∉ c.names ∧ (locate files dir name = none ∧ c' = ⟨c.found, name :: c.names⟩ ∨
      ∃ x : Located, locate files dir name = some x.path ∧
        ModuleSource.ofFile files x.path = .ok x.source ∧ x.source.name = name ∧
        c' = ⟨c.found ++ [x], name :: c.names⟩) := by
  unfold meet at h
  split at h
  · rename_i hseen
    exact .inl ⟨List.contains_iff_mem.mp hseen, (Except.ok.inj h).symm⟩
  · rename_i hseen
    refine .inr ⟨fun hmem => hseen (List.contains_iff_mem.mpr hmem), ?_⟩
    dsimp only at h
    split at h
    · rename_i hnone
      exact .inl ⟨hnone, (Except.ok.inj h).symm⟩
    · rename_i path hpath
      split at h
      · cases h
      · rename_i source hsource
        split at h
        · rename_i hname
          exact .inr ⟨⟨path, source⟩, hpath, hsource, beq_iff_eq.mp hname,
            (Except.ok.inj h).symm⟩
        · cases h

namespace Searched

theorem start (hread : ModuleSource.ofFile files root.path = .ok root.source) :
    Searched files defaults root 0 ⟨[root], [root.source.name]⟩ where
  found := ⟨by simp, by simp, by simp, by simp⟩
  first := rfl
  read := by simpa using hread
  sought := by simpa using Seeks.start
  met := by simp
  settled i hi := .inl (List.mem_singleton.mp hi)

variable (h : Searched files defaults root position c)

include h

theorem root_mem : root ∈ c.found := List.mem_of_mem_head? h.first

theorem place?_of_not_mem (hname : name ∉ c.names) : place? c.found name = none :=
  place?_eq_none_iff.mpr fun y hy he => hname (he ▸ h.found.met y hy)

theorem importer?_of_not_mem (hx : c.found[position]? = some x)
    (hi : name ∈ x.imports defaults) (hname : name ∉ c.names) :
    importer? defaults c.found name = some x :=
  importer?_of_getElem? hx hi fun y hy hi' => hname (h.met y hy name hi')

theorem meet (hx : c.found[position]? = some x) (hi : name ∈ x.imports defaults)
    (hmeet : Closure.meet files (Path.directory x.path) c name = .ok c') :
    Searched files defaults root position c' ∧ c'.found[position]? = some x ∧
      c.names ⊆ c'.names ∧ name ∈ c'.names := by
  have hfound := h.found.meet hmeet
  have hlt : position < c.found.length := (List.getElem?_eq_some_iff.mp hx).1
  -- The name was met before, or `x` is the first to import it, with or without a file beside it.
  rcases meet_cases hmeet with ⟨hmem, rfl⟩ | ⟨hnot, ⟨hnone, rfl⟩ | ⟨y, hplace, hread, hname, rfl⟩⟩
  · exact ⟨h, hx, List.Subset.refl _, hmem⟩
  · refine ⟨⟨hfound, h.first, h.read, h.sought, ?_, ?_⟩, hx, List.subset_cons_self _ _,
      List.mem_cons_self⟩
    · exact fun z hz i hi => List.mem_cons_of_mem _ (h.met z hz i hi)
    · intro i himem
      rcases List.mem_cons.mp himem with rfl | himem
      · exact .inr ⟨x, h.importer?_of_not_mem hx hi hnot,
          (h.place?_of_not_mem hnot).trans hnone.symm⟩
      · exact h.settled i himem
  · have hroot : name ≠ root.source.name := fun he =>
      hnot (he ▸ h.found.met root h.root_mem)
    refine ⟨⟨hfound, ?first, ?read, ?sought, ?met, ?settled⟩,
      by rw [List.getElem?_append_left hlt, hx], List.subset_cons_self _ _, List.mem_cons_self⟩
    case first => rw [List.head?_append, h.first, Option.some_or]
    case read =>
      intro z hz
      rcases List.mem_append.mp hz with hz | hz
      · exact h.read z hz
      · rw [List.mem_singleton.mp hz, hread]
    case sought =>
      intro z hz
      rcases List.mem_append.mp hz with hz | hz
      · exact h.sought z hz
      · have hxmem := List.mem_of_getElem? hx
        rw [List.mem_singleton.mp hz, hname]
        exact .next (h.sought x hxmem) (h.read x hxmem) hi hroot hplace
    case met =>
      intro z hz i hi
      rw [List.take_append_of_le_length hlt.le] at hz
      exact List.mem_cons_of_mem _ (h.met z hz i hi)
    case settled =>
      intro i himem
      rcases List.mem_cons.mp himem with rfl | himem
      · refine .inr ⟨x, importer?_append_of_some (h.importer?_of_not_mem hx hi hnot) _, ?_⟩
        rw [place?_append, h.place?_of_not_mem hnot, Option.none_or, Located.sibling?, hplace]
        simp [place?, hname]
      · refine (h.settled i himem).imp_right fun ⟨z, hz, hsame⟩ =>
          ⟨z, importer?_append_of_some hz _, ?_⟩
        have hne : place? [y] i = none := by
          rw [place?_eq_none_iff]
          intro u hu he
          rw [List.mem_singleton.mp hu, hname] at he
          exact hnot (he ▸ himem)
        rw [place?_append, hne, Option.or_none, hsame]

theorem meets (hx : c.found[position]? = some x) {names : List Text}
    (hnames : names ⊆ x.imports defaults)
    (hmeets : names.foldlM (Closure.meet files (Path.directory x.path)) c = .ok c') :
    Searched files defaults root position c' ∧ c'.found[position]? = some x ∧
      c.names ⊆ c'.names ∧ names ⊆ c'.names := by
  induction names generalizing c with
  | nil => exact Except.ok.inj hmeets ▸ ⟨h, hx, List.Subset.refl _, List.nil_subset _⟩
  | cons name rest ih =>
    rw [List.foldlM_cons] at hmeets
    obtain ⟨hname, hrest⟩ := List.cons_subset.mp hnames
    cases hmeet : Closure.meet files (Path.directory x.path) c name with
    | error r => rw [hmeet] at hmeets; cases hmeets
    | ok c₁ =>
      rw [hmeet] at hmeets
      obtain ⟨h₁, hx₁, hsub, hmem⟩ := h.meet hx hname hmeet
      obtain ⟨h', hx', hsub', hrest'⟩ := ih h₁ hx₁ hrest hmeets
      exact ⟨h', hx', List.Subset.trans hsub hsub', List.cons_subset.mpr ⟨hsub' hmem, hrest'⟩⟩

theorem next (hx : c.found[position]? = some x)
    (hmeets : (x.imports defaults).foldlM (Closure.meet files (Path.directory x.path)) c =
      .ok c') : Searched files defaults root (position + 1) c' := by
  obtain ⟨h', hx', -, hnames⟩ := h.meets hx (List.Subset.refl _) hmeets
  refine { h' with met := fun y hy i hi => ?_ }
  rw [List.take_add_one, hx'] at hy
  rcases List.mem_append.mp hy with hy | hy
  · exact h'.met y hy i hi
  · obtain rfl : y = x := by simpa using hy
    exact hnames hi

theorem explores {result : Except Refused Closure}
    (hexplores : Explores files defaults position c result) (hresult : result = .ok c') :
    ∃ bound, Searched files defaults root bound c' ∧ c'.found.length ≤ bound := by
  induction hexplores with
  | ended hnone =>
    obtain rfl := Except.ok.inj hresult
    exact ⟨_, h, List.getElem?_eq_none_iff.mp hnone⟩
  | refused => cases hresult
  | next hx hmeets _ ih => exact ih (h.next hx hmeets) hresult

end Searched

structure Closed (files : Tree) (defaults : List Text) (root : Located) (found : List Located) :
    Prop where
  first : found.head? = some root
  nodup : (found.map fun x => x.source.name).Nodup
  read : ∀ x ∈ found, ModuleSource.ofFile files x.path = .ok x.source
  sought : ∀ x ∈ found, Seeks files defaults root x.source.name x.path
  /-- A module is found just if the first module that imports it finds a file for it, and then in
  this file. -/
  settled : ∀ name, name ≠ root.source.name → place? found name =
    (importer? defaults found name).bind fun x => x.sibling? files name

theorem Searched.closed {bound : Nat} (h : Searched files defaults root bound c)
    (hbound : c.found.length ≤ bound) : Closed files defaults root c.found where
  first := h.first
  nodup := h.found.nodup
  read := h.read
  sought := h.sought
  settled name hne := by
    by_cases hname : name ∈ c.names
    · obtain ⟨y, hy, hsame⟩ := (h.settled name hname).resolve_left hne
      rw [hy, hsame, Option.bind_some]
    · -- The imports of all modules were met, so none of them imports this name.
      have hnone : importer? defaults c.found name = none :=
        importer?_eq_none_iff.mpr fun x hx hi =>
          hname (h.met x (by rwa [List.take_of_length_le hbound]) name hi)
      rw [hnone, Option.bind_none, h.place?_of_not_mem hname]

namespace Closed

variable (h : Closed files defaults root found)

include h

/-- Where the modules that import a name agree about it, it is found as each of them would. -/
theorem place?_eq (hagree : Unequivocal files defaults found) (hx : x ∈ found)
    (hi : name ∈ x.imports defaults) (hne : name ≠ root.source.name) :
    place? found name = x.sibling? files name := by
  rw [h.settled name hne]
  cases hy : importer? defaults found name with
  | none => exact absurd hi (importer?_eq_none_iff.mp hy x hx)
  | some y =>
    have hyi : name ∈ y.imports defaults := by
      have himports := List.find?_some hy
      exact List.contains_iff_mem.mp himports
    rw [Option.bind_some, hagree x hx y (List.mem_of_find?_eq_some hy) name hi hyi]

/-- Every module that chains of imports lead to is found, if all that import a name agree about
it. -/
theorem mem_of_seeks (hagree : Unequivocal files defaults found)
    (hseeks : Seeks files defaults root name path) :
    ∃ x ∈ found, x.source.name = name ∧ x.path = path := by
  induction hseeks with
  | start => exact ⟨root, List.mem_of_mem_head? h.first, rfl, rfl⟩
  | @next name path source i place _ hsource hi hne hplace ih =>
    obtain ⟨x, hx, -, rfl⟩ := ih
    obtain rfl : x.source = source := Except.ok.inj ((h.read x hx).symm.trans hsource)
    have hfound := (h.place?_eq hagree hx hi hne).trans hplace
    obtain ⟨y, hy, rfl⟩ := Option.map_eq_some_iff.mp hfound
    have hname := List.find?_some hy
    exact ⟨y, List.mem_of_find?_eq_some hy, beq_iff_eq.mp hname, rfl⟩

end Closed

/-- The search for what a file needs ends, with all that its first importers found. -/
theorem closed_needed (hread : ModuleSource.ofFile files root.path = .ok root.source)
    (hneeded : needed files defaults root = .ok found) :
    Closed files defaults root found ∧ ∃ c, c.found = found ∧
      Explores files defaults 0 ⟨[root], [root.source.name]⟩ (.ok c) := by
  have hstart : Searched files defaults root 0 ⟨[root], [root.source.name]⟩ := .start hread
  have hexplores : Explores files defaults 0 ⟨[root], [root.source.name]⟩
      (explore files defaults ((files.paths ".").length + 1) 0 ⟨[root], [root.source.name]⟩) :=
    hstart.found.explores le_rfl
  unfold needed at hneeded
  cases hresult : explore files defaults ((files.paths ".").length + 1) 0
      ⟨[root], [root.source.name]⟩ with
  | error r => rw [hresult] at hneeded; cases hneeded
  | ok c =>
    rw [hresult] at hneeded hexplores
    obtain rfl := Except.ok.inj hneeded
    obtain ⟨bound, hsearched, hbound⟩ := hstart.explores hexplores rfl
    exact ⟨hsearched.closed hbound, c, rfl, hexplores⟩

end Closure

end Discharge
