import Discharge.Proofs.Library.Closure
import Discharge.Proofs.Library.Loading
import Discharge.Proofs.Success

namespace Discharge

def Module.outline (m : Module) : Module := { m with theorems := [], conditions := [] }

namespace Library

variable {l l' : Library} {m : Module} {x : Located} {name : Text} {xs ys : List Located}

section Outlines

def outline (l : Library) : Library := { l with modules := l.modules.map Module.outline }

def Visible.outline (v : Visible) : Visible := { v with modules := v.modules.map Module.outline }

theorem get?_outline (l : Library) (name : Text) :
    l.outline.get? name = (l.get? name).map Module.outline := by
  unfold get? Library.outline
  rw [List.find?_map]
  rfl

theorem meet_outline (l : Library) (importer : Text) (v : Visible) (name : Text) :
    Visible.meet l.outline importer v.outline name = (Visible.meet l importer v name).outline := by
  by_cases hseen : v.seen.contains name = true
  · rw [Visible.meet, Visible.meet, if_pos hseen]
    exact if_pos hseen
  · have hseen' : ¬ v.outline.seen.contains name = true := hseen
    rw [Visible.meet, Visible.meet, if_neg hseen, if_neg hseen', get?_outline]
    cases l.get? name with
    | none => rfl
    | some m => simp [Visible.outline]

theorem explore_outline (l : Library) (fuel position : Nat) (v : Visible) :
    v.outline.explore l.outline fuel position = (v.explore l fuel position).outline := by
  induction fuel generalizing position v with
  | zero => rfl
  | succ fuel ih =>
    rw [Visible.explore, Visible.explore]
    have hat : v.outline.modules[position]? = v.modules[position]?.map Module.outline :=
      List.getElem?_map
    rw [hat]
    cases v.modules[position]? with
    | none => rfl
    | some m =>
      have hmeets : (l.importsOf m).foldl (Visible.meet l.outline m.name) v.outline =
          ((l.importsOf m).foldl (Visible.meet l m.name) v).outline :=
        List.foldl_hom Visible.outline fun v name => meet_outline l m.name v name
      exact (congrArg _ hmeets).trans (ih (position + 1) _)

theorem kinds_outline (l : Library) (name : Text) : l.outline.kinds name = l.kinds name := by
  unfold kinds symbols
  rw [get?_outline]
  cases l.get? name with
  | none => rfl
  | some m =>
    have hvisible : l.outline.visible m.outline .transitive =
        (l.visible m .transitive).outline := by
      unfold visible
      rw [← explore_outline, outline, List.length_map]
      rfl
    simp only [Option.map_some, hvisible]
    rw [Visible.outline, List.foldr_map]
    rfl

structure SameOutlines (l l' : Library) : Prop where
  defaults : l.defaults = l'.defaults
  get? : ∀ name, (l.get? name).map Module.outline = (l'.get? name).map Module.outline

theorem SameOutlines.refl (l : Library) : l.SameOutlines l := ⟨rfl, fun _ => rfl⟩

theorem SameOutlines.symm (h : l.SameOutlines l') : l'.SameOutlines l :=
  ⟨h.defaults.symm, fun name => (h.get? name).symm⟩

theorem SameOutlines.kinds (h : l.SameOutlines l') (name : Text) :
    l.kinds name = l'.kinds name := by
  have hagrees : l.outline.Agrees l'.outline fun _ => True :=
    ⟨h.defaults, fun n _ => by rw [get?_outline, get?_outline, h.get?], fun _ _ _ _ _ _ => trivial⟩
  rw [← kinds_outline l, ← kinds_outline l', hagrees.kinds trivial]

theorem SameOutlines.complete (h : l.SameOutlines l') (x : Located) :
    l.complete x = l'.complete x := by
  unfold Library.complete
  rw [h.kinds]

theorem sameOutlines_put {n : Module} (hn : l.get? m.name = some n)
    (hsame : m.outline = n.outline) : l.SameOutlines (l.put m) := by
  refine ⟨rfl, fun name => ?_⟩
  rw [get?_put]
  split
  · rename_i hname
    rw [hname, hn, Option.map_some, Option.map_some, hsame]
  · rfl

end Outlines

end Library

section Readings

open ModuleSource

def Formula.States (sig : Formula.Signature) (text : Text) (t : Term) : Prop :=
  Formula.read sig text = .ok t

/-- Whether a theorem is what its source states: its assertion is read with the symbols, and with
its own variables before them. -/
structure TheoremSource.States (symbols : List (Text × Kind)) (t : TheoremSource)
    (d : Declaration) : Prop where
  name : d.name = t.name
  assertion : ∃ a, d.assertion = some a ∧
    Formula.States ⟨symbols, t.vars.map fun (name, k) => (name, ⟨k⟩)⟩ t.assertion a

structure ConditionSource.States (symbols : List (Text × Kind)) (path : Text) (s : ConditionSource)
    (c : Condition) : Prop where
  id : c.id = s.id
  explanation : c.explanation = s.explanation
  location : c.location =
    { s.location with file := if s.location.file.isEmpty then path else s.location.file }
  left : s.left.Forall₂ (Formula.States ⟨symbols, []⟩) c.sequent.left
  right : s.right.Forall₂ (Formula.States ⟨symbols, []⟩) c.sequent.right

/-- Whether a module is what its file states, with the symbols that it sees in a library. -/
structure Located.States (l : Library) (x : Located) (m : Module) : Prop where
  outline : m.outline = x.declaration
  distinct : (x.source.theorems.map TheoremSource.name).Nodup
  theorems : x.source.theorems.Forall₂ (TheoremSource.States (l.kinds x.source.name)) m.theorems
  conditions : x.source.conditions.Forall₂
    (ConditionSource.States (l.kinds x.source.name) x.path) m.conditions

variable {symbols : List (Text × Kind)} {path : Text}

theorem inStage_eq_ok {α : Type} {stage : Stage} {y : Except Error α} {a : α} :
    inStage stage y = .ok a ↔ y = .ok a := by
  cases y <;> simp [inStage]

theorem readFormula_eq_ok {sig : Formula.Signature} {text : Text} {t : Term} :
    readFormula sig text = .ok t ↔ Formula.States sig text t := by
  unfold readFormula Formula.States
  split <;> simp_all

theorem forall₂_of_readFormulas {sig : Formula.Signature} {texts : List Text} {terms : List Term}
    (h : texts.mapM (readFormula sig) = .ok terms) :
    texts.Forall₂ (Formula.States sig) terms :=
  (mapM_eq_ok_iff.mp h).imp fun _ _ ht => readFormula_eq_ok.mp ht

theorem readTheorems_states {seen : List Text} {ts : List TheoremSource} {ds : List Declaration}
    (h : readTheorems symbols seen ts = .ok ds) :
    ts.Forall₂ (TheoremSource.States symbols) ds ∧ (ts.map TheoremSource.name).Nodup ∧
      ∀ t ∈ ts, t.name ∉ seen := by
  induction ts generalizing seen ds with
  | nil =>
    obtain rfl := Except.ok.inj h
    exact ⟨.nil, List.nodup_nil, by simp⟩
  | cons t rest ih =>
    rw [readTheorems] at h
    split at h
    · cases h
    · rename_i hseen
      rw [List.contains_iff_mem] at hseen
      obtain ⟨a, ha, h⟩ := bind_eq_ok.mp h
      obtain ⟨ds', hds, h⟩ := bind_eq_ok.mp h
      obtain rfl := Except.ok.inj h
      obtain ⟨hstates, hnodup, hnot⟩ := ih hds
      refine ⟨.cons ⟨rfl, a, rfl, readFormula_eq_ok.mp (inStage_eq_ok.mp ha)⟩ hstates, ?_, ?_⟩
      · rw [List.map_cons, List.nodup_cons]
        refine ⟨fun hmem => ?_, hnodup⟩
        obtain ⟨u, hu, hname⟩ := List.mem_map.mp hmem
        exact hnot u hu (hname ▸ List.mem_cons_self)
      · intro u hu
        rcases List.mem_cons.mp hu with rfl | hu
        · exact hseen
        · exact fun hmem => hnot u hu (List.mem_cons_of_mem _ hmem)

theorem readConditionOf_states {s : ConditionSource} {c : Condition}
    (h : readConditionOf symbols path s = .ok c) : s.States symbols path c := by
  obtain ⟨left, hleft, h⟩ := bind_eq_ok.mp (inStage_eq_ok.mp h)
  obtain ⟨right, hright, h⟩ := bind_eq_ok.mp h
  obtain rfl := Except.ok.inj h
  exact ⟨rfl, rfl, rfl, forall₂_of_readFormulas hleft, forall₂_of_readFormulas hright⟩

theorem Library.complete_states {l : Library} {x : Located} {m : Module}
    (h : l.complete x = .ok m) : x.States l m := by
  have h := inStage_eq_ok.mp h
  obtain ⟨theorems, htheorems, h⟩ := bind_eq_ok.mp h
  obtain ⟨conditions, hconditions, h⟩ := bind_eq_ok.mp h
  obtain rfl := Except.ok.inj h
  obtain ⟨hstates, hnodup, -⟩ := readTheorems_states htheorems
  exact ⟨rfl, hnodup, hstates,
    (mapM_eq_ok_iff.mp hconditions).imp fun _ _ hc => readConditionOf_states hc⟩

theorem Located.States.congr {l l' : Library} {x : Located} {m : Module} (h : x.States l m)
    (hkinds : l.kinds x.source.name = l'.kinds x.source.name) : x.States l' m :=
  ⟨h.outline, h.distinct, hkinds ▸ h.theorems, hkinds ▸ h.conditions⟩

end Readings

namespace Library

variable {l l' : Library} {m : Module} {x : Located} {name : Text} {xs ys : List Located}

def refusal? (l : Library) (x : Located) : Option Error :=
  match l.complete x with
  | .ok _ => none
  | .error e => some e

/-- What becomes of a module: it is completed, or stays as it was declared. -/
def completed (l : Library) (x : Located) : Module := (l.complete x).toOption.getD x.declaration

structure Declares (l : Library) (xs : List Located) : Prop where
  nodup : (xs.map fun x => x.source.name).Nodup
  declared : ∀ x ∈ xs, l.get? x.source.name = some x.declaration

theorem completed_of_refusal (h : (l.refusal? x).isSome) : l.completed x = x.declaration := by
  unfold refusal? at h
  unfold completed
  cases hcomplete : l.complete x with
  | error e => rfl
  | ok m => rw [hcomplete] at h; cases h

theorem states_completed (h : l.refusal? x = none) : x.States l (l.completed x) := by
  unfold refusal? at h
  unfold completed
  cases hcomplete : l.complete x with
  | error e => rw [hcomplete] at h; cases h
  | ok m => exact complete_states hcomplete

theorem outline_completed (l : Library) (x : Located) :
    (l.completed x).outline = x.declaration := by
  unfold completed
  cases h : l.complete x with
  | error e => rfl
  | ok m => exact (complete_states h).outline

theorem name_completed (l : Library) (x : Located) : (l.completed x).name = x.source.name :=
  congrArg Module.name (outline_completed l x)

theorem SameOutlines.completed (h : l.SameOutlines l') (x : Located) :
    l.completed x = l'.completed x := by
  unfold Library.completed
  rw [h.complete]

/-- What completing modules comes to: each of them becomes what its file states with the symbols
that were there, and the others are left as they are. -/
structure Completes (l : Library) (xs : List Located) (errors : List Error) (l' : Library) :
    Prop where
  errors : errors = xs.filterMap l.refusal?
  defaults : l'.defaults = l.defaults
  completed : ∀ x ∈ xs, l'.get? x.source.name = some (l.completed x)
  others : ∀ name, name ∉ xs.map (fun x => x.source.name) → l'.get? name = l.get? name

theorem completeAll_cons (l : Library) (x : Located) (xs : List Located) :
    l.completeAll (x :: xs) = (match l.refusal? x with
      | none => (l.put (l.completed x)).completeAll xs
      | some e => (e :: (l.completeAll xs).1, (l.completeAll xs).2)) := by
  rw [completeAll, refusal?, completed]
  cases l.complete x <;> rfl

theorem Declares.completes (h : l.Declares xs) :
    l.Completes xs (l.completeAll xs).1 (l.completeAll xs).2 := by
  induction xs generalizing l with
  | nil => exact ⟨rfl, rfl, by simp, fun _ _ => rfl⟩
  | cons x rest ih =>
    obtain ⟨hnot, hnodup⟩ := List.nodup_cons.mp h.nodup
    obtain ⟨hx, hrest⟩ := List.forall_mem_cons.mp h.declared
    have hne : ∀ y ∈ rest, y.source.name ≠ x.source.name := fun y hy he =>
      hnot (List.mem_map.mpr ⟨y, hy, he⟩)
    rw [completeAll_cons]
    cases hrefusal : l.refusal? x with
    | some e =>
      obtain ⟨herrors, hdefaults, hcompleted, hothers⟩ := ih ⟨hnodup, hrest⟩
      -- The library stays as it is, with the module as it was declared.
      have hleft : l.completed x = x.declaration :=
        completed_of_refusal (by rw [hrefusal]; rfl)
      refine ⟨?_, hdefaults, ?_, ?_⟩
      · rw [List.filterMap_cons, hrefusal, herrors]
      · refine List.forall_mem_cons.mpr ⟨?_, hcompleted⟩
        rw [hothers _ hnot, hx, hleft]
      · intro name hname
        exact hothers name fun hmem => hname (List.mem_cons_of_mem _ hmem)
    | none =>
      -- The rest is completed by outlines, and these do not change.
      have hsame : l.SameOutlines (l.put (l.completed x)) :=
        sameOutlines_put (n := x.declaration) (by rw [name_completed, hx]) (outline_completed l x)
      have hget : ∀ name, name ≠ x.source.name →
          (l.put (l.completed x)).get? name = l.get? name := fun name hname => by
        rw [get?_put, if_neg (by rwa [name_completed])]
      obtain ⟨herrors, hdefaults, hcompleted, hothers⟩ :=
        ih (l := l.put (l.completed x)) ⟨hnodup, fun y hy => by rw [hget _ (hne y hy), hrest y hy]⟩
      refine ⟨?_, hdefaults, ?_, ?_⟩
      · rw [List.filterMap_cons, hrefusal, herrors]
        refine List.filterMap_congr fun y _ => ?_
        rw [refusal?, refusal?, hsame.complete]
      · refine List.forall_mem_cons.mpr ⟨?_, fun y hy => ?_⟩
        · rw [hothers _ hnot, get?_put, if_pos (name_completed l x).symm]
        · rw [hcompleted y hy, hsame.completed y]
      · intro name hname
        rw [List.map_cons, List.mem_cons, not_or] at hname
        rw [hothers name hname.2, hget name hname.1]

end Library

end Discharge
