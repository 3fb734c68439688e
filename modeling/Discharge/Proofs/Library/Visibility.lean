import Discharge.Library.Loading
import Mathlib.Data.List.Nodup
import Mathlib.Data.List.Perm.Subperm

namespace Discharge.Library

variable {l l' : Library} {m : Module} {name : Text}

theorem get?_put (l : Library) (m : Module) (name : Text) :
    (l.put m).get? name = if name = m.name then some m else l.get? name := by
  unfold put get?
  rw [List.find?_cons, List.find?_filter]
  by_cases h : name = m.name
  · simp [h]
  · have hne : (m.name == name) = false := beq_eq_false_iff_ne.mpr fun he => h he.symm
    rw [hne, if_neg h]
    refine congrArg (fun p => l.modules.find? p) (funext fun n => ?_)
    by_cases hn : n.name = name
    · simp [hn, h]
    · simp [hn]

theorem name_of_get? (h : l.get? name = some m) : m.name = name := by
  have hfound := List.find?_some h
  exact beq_iff_eq.mp hfound

theorem get?_putAll_cases {ms : List Module} (h : (l.putAll ms).get? name = some m) :
    m ∈ ms ∨ name ∉ ms.map Module.name ∧ l.get? name = some m := by
  induction ms generalizing l with
  | nil => exact .inr ⟨by simp, h⟩
  | cons n rest ih =>
    rcases ih h with hmem | ⟨hnot, hget⟩
    · exact .inl (List.mem_cons_of_mem _ hmem)
    · rw [get?_put] at hget
      split at hget
      · exact .inl (by rw [Option.some.inj hget]; exact List.mem_cons_self)
      · rename_i hne
        exact .inr ⟨by simp [hnot, hne], hget⟩

/-- Whether two libraries have the same modules under some names, which is all that these modules
reach. -/
structure Agrees (l l' : Library) (S : Text → Prop) : Prop where
  defaults : l.defaults = l'.defaults
  get? : ∀ name, S name → l.get? name = l'.get? name
  closed : ∀ name m, S name → l.get? name = some m → ∀ i ∈ l.importsOf m, S i

structure Visible.Found (l : Library) (v : Visible) : Prop where
  nodup : (v.modules.map Module.name).Nodup
  seen : ∀ m ∈ v.modules, m.name ∈ v.seen
  loaded : ∀ m ∈ v.modules, l.get? m.name = some m

namespace Visible.Found

variable {v : Visible}

theorem meet (h : v.Found l) (importer name : Text) : (Visible.meet l importer v name).Found l := by
  unfold Visible.meet
  split
  · exact h
  · rename_i hseen
    rw [List.contains_iff_mem] at hseen
    split
    · rename_i m hm
      have hname := name_of_get? hm
      refine ⟨?_, ?_, ?_⟩
      · rw [List.map_append, List.map_singleton, List.nodup_append]
        refine ⟨h.nodup, List.nodup_singleton _, ?_⟩
        rintro a ha b hb rfl
        obtain ⟨n, hn, hn'⟩ := List.mem_map.mp ha
        rw [List.mem_singleton.mp hb, hname] at hn'
        exact hseen (hn' ▸ h.seen n hn)
      · intro n hn
        rcases List.mem_append.mp hn with hn | hn
        · exact List.mem_cons_of_mem _ (h.seen n hn)
        · rw [List.mem_singleton.mp hn, hname]
          exact List.mem_cons_self
      · intro n hn
        rcases List.mem_append.mp hn with hn | hn
        · exact h.loaded n hn
        · rw [List.mem_singleton.mp hn, hname, hm]
    · exact ⟨h.nodup, fun n hn => List.mem_cons_of_mem _ (h.seen n hn), h.loaded⟩

theorem meets (h : v.Found l) (importer : Text) (names : List Text) :
    (names.foldl (Visible.meet l importer) v).Found l := by
  induction names generalizing v with
  | nil => exact h
  | cons name rest ih => exact ih (h.meet importer name)

theorem length_le (h : v.Found l) : v.modules.length ≤ l.modules.length := by
  have hsub : v.modules.map Module.name ⊆ l.modules.map Module.name := by
    intro name hname
    obtain ⟨m, hm, rfl⟩ := List.mem_map.mp hname
    exact List.mem_map_of_mem (List.mem_of_find?_eq_some (h.loaded m hm))
  simpa using (h.nodup.subperm hsub).length_le

theorem explore_eq (h : v.Found l) {fuel fuel' position : Nat}
    (hfuel : l.modules.length ≤ fuel + position) (hfuel' : l.modules.length ≤ fuel' + position) :
    v.explore l fuel position = v.explore l fuel' position := by
  induction fuel generalizing fuel' position v with
  | zero =>
    have hnone : v.modules[position]? = none :=
      List.getElem?_eq_none (by have := h.length_le; omega)
    cases fuel' with
    | zero => rfl
    | succ fuel' => rw [Visible.explore, Visible.explore, hnone]
  | succ fuel ih =>
    cases fuel' with
    | zero =>
      have hnone : v.modules[position]? = none :=
        List.getElem?_eq_none (by have := h.length_le; omega)
      rw [Visible.explore, Visible.explore, hnone]
    | succ fuel' =>
      rw [Visible.explore, Visible.explore]
      split
      · rfl
      · exact ih (h.meets _ _) (by omega) (by omega)

end Visible.Found

theorem found_start (h : l.get? m.name = some m) : (⟨[m], [m.name], []⟩ : Visible).Found l :=
  ⟨by simp, by simp, by simpa using h⟩

section Agreeing

variable {S : Text → Prop} {v : Visible}

theorem Agrees.importsOf (h : l.Agrees l' S) (m : Module) : l.importsOf m = l'.importsOf m := by
  rw [Library.importsOf, Library.importsOf, h.defaults]

theorem Agrees.meets (h : l.Agrees l' S) (importer : Text) {names : List Text}
    (hnames : ∀ n ∈ names, S n) (hv : ∀ m ∈ v.modules, ∀ i ∈ l.importsOf m, S i) :
    names.foldl (Visible.meet l importer) v = names.foldl (Visible.meet l' importer) v ∧
      ∀ m ∈ (names.foldl (Visible.meet l importer) v).modules, ∀ i ∈ l.importsOf m, S i := by
  induction names generalizing v with
  | nil => exact ⟨rfl, hv⟩
  | cons name rest ih =>
    have hname := hnames name List.mem_cons_self
    have hmeet : Visible.meet l importer v name = Visible.meet l' importer v name := by
      unfold Visible.meet
      rw [h.get? name hname]
    rw [List.foldl_cons, List.foldl_cons, ← hmeet]
    refine ih (fun n hn => hnames n (List.mem_cons_of_mem _ hn)) ?_
    unfold Visible.meet
    split
    · exact hv
    · split
      · rename_i m hm
        intro n hn
        rcases List.mem_append.mp hn with hn | hn
        · exact hv n hn
        · rw [List.mem_singleton.mp hn]
          exact h.closed name m hname hm
      · exact hv

theorem Agrees.explore (h : l.Agrees l' S) (fuel position : Nat)
    (hv : ∀ m ∈ v.modules, ∀ i ∈ l.importsOf m, S i) :
    v.explore l fuel position = v.explore l' fuel position := by
  induction fuel generalizing position v with
  | zero => rfl
  | succ fuel ih =>
    rw [Visible.explore, Visible.explore]
    split
    · rfl
    · rename_i m hm
      obtain ⟨hmeets, hfound⟩ := h.meets m.name (hv m (List.mem_of_getElem? hm)) hv
      rw [← h.importsOf, ← hmeets]
      exact ih (position + 1) hfound

/-- A module on which two libraries agree sees the same in both. -/
theorem Agrees.visible (h : l.Agrees l' S) (hname : S name) (hm : l.get? name = some m) :
    l.visible m .transitive = l'.visible m .transitive := by
  have hsame := name_of_get? hm
  have hm' : l'.get? name = some m := (h.get? name hname).symm.trans hm
  have hstart := found_start (hsame.symm ▸ hm)
  have hstart' := found_start (hsame.symm ▸ hm')
  let start : Visible := ⟨[m], [m.name], []⟩
  calc l.visible m .transitive
      = start.explore l (l.modules.length + l'.modules.length) 0 :=
        hstart.explore_eq (by omega) (by omega)
    _ = start.explore l' (l.modules.length + l'.modules.length) 0 :=
        h.explore _ _ (by simpa [start] using h.closed name m hname hm)
    _ = l'.visible m .transitive := hstart'.explore_eq (by omega) (by omega)

theorem Agrees.theorems (h : l.Agrees l' S) (hname : S name) :
    l.theorems name .transitive = l'.theorems name .transitive := by
  unfold Library.theorems
  rw [← h.get? name hname]
  cases hm : l.get? name with
  | none => rfl
  | some m =>
    dsimp only
    rw [h.visible hname hm]

theorem Agrees.kinds (h : l.Agrees l' S) (hname : S name) : l.kinds name = l'.kinds name := by
  unfold Library.kinds Library.symbols
  rw [← h.get? name hname]
  cases hm : l.get? name with
  | none => rfl
  | some m =>
    dsimp only
    rw [h.visible hname hm]

theorem Agrees.hasIntegerSorts (h : l.Agrees l' S) (hname : S name) :
    l.hasIntegerSorts name = l'.hasIntegerSorts name := by
  have hsymbol : ∀ s, l.symbol? name s = l'.symbol? name s := by
    intro s
    unfold symbol?
    rw [← h.get? name hname]
    cases hm : l.get? name with
    | none => rfl
    | some m =>
      simp only [Option.bind_eq_bind, Option.bind_some]
      rw [h.visible hname hm]
  unfold Library.hasIntegerSorts
  rw [hsymbol, hsymbol]

end Agreeing

end Discharge.Library
