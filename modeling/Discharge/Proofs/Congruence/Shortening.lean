import Discharge.Proofs.Congruence.Forest
import Discharge.Proofs.Congruence.Simplification

namespace Discharge.Congruence

namespace Forest

variable {f g h : Forest} {α β : Type}

structure Reshapes (f g : Forest) : Prop where
  entries_eq : g.entries = f.entries
  index_eq : g.index = f.index
  members_eq : g.members = f.members
  created_eq : g.created = f.created
  top_eq : ∀ i, g.top i = f.top i

theorem Reshapes.refl (f : Forest) : f.Reshapes f := ⟨rfl, rfl, rfl, rfl, fun _ => rfl⟩

theorem Reshapes.trans (hfg : f.Reshapes g) (hgh : g.Reshapes h) : f.Reshapes h where
  entries_eq := hgh.entries_eq.trans hfg.entries_eq
  index_eq := hgh.index_eq.trans hfg.index_eq
  members_eq := hgh.members_eq.trans hfg.members_eq
  created_eq := hgh.created_eq.trans hfg.created_eq
  top_eq i := (hgh.top_eq i).trans (hfg.top_eq i)

theorem Reshapes.vocabulary_eq (hfg : f.Reshapes g) : g.vocabulary = f.vocabulary :=
  Forest.vocabulary_eq hfg.entries_eq hfg.index_eq hfg.created_eq hfg.top_eq

theorem reshapes_find (f : Forest) (i : Nat) : f.Reshapes (f.find i).2 := by
  obtain ⟨he, hx, hm, hc, ht⟩ := compress_keeps (f := f) (i := i) rfl
  exact ⟨he, hx, hm, hc, ht⟩

abbrev Query (α : Type) := StateM Forest α

/-- Whether a question is answered by what the forest stands for, and leaves it in another shape at
most. -/
def Query.Reads (q : Query α) (answer : Vocabulary → α) : Prop :=
  ∀ f, (q.run f).1 = answer f.vocabulary ∧ f.Reshapes (q.run f).2

namespace Query

theorem reads_pure (a : α) : Reads (pure a) fun _ => a :=
  fun f => ⟨rfl, .refl f⟩

theorem Reads.bind {q : Query α} {k : α → Query β} {a : Vocabulary → α} {b : α → Vocabulary → β}
    (hq : q.Reads a) (hk : ∀ x, (k x).Reads (b x)) : (q >>= k).Reads fun v => b (a v) v := by
  intro f
  obtain ⟨hanswer, hshape⟩ := hq f
  obtain ⟨hanswer', hshape'⟩ := hk (q.run f).1 (q.run f).2
  refine ⟨?_, hshape.trans hshape'⟩
  change ((k (q.run f).1).run (q.run f).2).1 = _
  rw [hanswer', hshape.vocabulary_eq, hanswer]

theorem Reads.congr {q : Query α} {a b : Vocabulary → α} (hq : q.Reads a) (h : ∀ v, a v = b v) :
    q.Reads b := by
  rwa [← funext h]

theorem Reads.bind_some {q : OptionT Query α} {k : α → OptionT Query β} {a : Vocabulary → Option α}
    {b : α → Vocabulary → Option β} (hq : Reads q.run a) (hk : ∀ x, Reads (k x).run (b x)) :
    Reads (q >>= k).run fun v => (a v).bind fun x => b x v := by
  have hrest : ∀ o : Option α, Reads (o.elim (pure none) fun x => (k x).run)
      fun v => o.bind fun x => b x v := by
    intro o
    cases o with
    | none => exact reads_pure none
    | some x => exact hk x
  rw [OptionT.run_bind]
  exact hq.bind hrest

theorem Reads.lift {q : Query α} {a : Vocabulary → α} (hq : q.Reads a) :
    Reads (liftM q : OptionT Query α).run fun v => some (a v) :=
  hq.bind fun x => reads_pure (some x)

theorem Reads.mapM {q : α → Query β} {a : α → Vocabulary → β} (hq : ∀ x, (q x).Reads (a x))
    (xs : List α) : Reads (xs.mapM q) fun v => xs.map fun x => a x v := by
  induction xs with
  | nil => exact reads_pure []
  | cons x rest ih =>
    rw [List.mapM_cons]
    exact (hq x).bind fun y => ih.bind fun ys => reads_pure (y :: ys)

end Query

def rootOver (i : Nat) : Query Nat := fun f => f.find i

def entryOver (i : Nat) : Query Entry := do return (← get).entry i

def lookupOver (name : Text) : Query (Option Nat) := do return (← get).index[name]?

def keyOver (a : Application) : Query Application := do
  let args ← a.args.mapM rootOver
  let op ← rootOver a.op
  let e ← entryOver op
  return if isCommutative e.name then ⟨op, inOrder args⟩ else ⟨op, args⟩

theorem reads_rootOver (i : Nat) : (rootOver i).Reads fun v => v.root i :=
  fun f => ⟨(root_vocabulary f i).symm, reshapes_find f i⟩

theorem reads_entryOver (i : Nat) : (entryOver i).Reads fun v => v.entry i :=
  fun f => ⟨rfl, .refl f⟩

theorem reads_lookupOver (name : Text) : (lookupOver name).Reads fun v => v.lookup? name :=
  fun f => ⟨rfl, .refl f⟩

theorem reads_keyOver (a : Application) : (keyOver a).Reads fun v => a.key v :=
  (Query.Reads.mapM reads_rootOver a.args).bind fun args =>
    (reads_rootOver a.op).bind fun op => (reads_entryOver op).bind fun e =>
      Query.reads_pure
        (if isCommutative e.name then Application.mk op (inOrder args) else ⟨op, args⟩)

section Hanging

variable {v : Vocabulary}

def filed (v : Vocabulary) (is : List Nat) : Std.TreeMap Nat (List Nat) :=
  is.foldr (fun i filed => filed.insert (v.root i) (v.members (v.root i))) ∅

theorem getElem?_filed (v : Vocabulary) (is : List Nat) (r : Nat) :
    (filed v is)[r]? = if r ∈ is.map v.root then some (v.members r) else none := by
  induction is with
  | nil => simp [filed]
  | cons i rest ih =>
    have hstep : filed v (i :: rest) =
        (filed v rest).insert (v.root i) (v.members (v.root i)) := rfl
    rw [hstep, getElem?_insert, ih]
    by_cases hr : v.root i = r
    · simp [hr]
    · simp [hr, Ne.symm hr]

/-- A vocabulary as a forest in which every symbol hangs directly below its root. -/
def ofVocabulary (v : Vocabulary) (hv : v.WellFormed) : Forest where
  entries := v.entries
  parents := v.roots
  index := v.index
  members := filed v (List.range v.size)
  created := v.created
  parents_size := hv.roots_size
  climbs := by
    intro i p hp hne
    have hi : i < v.size := hv.roots_size ▸ (Array.getElem?_eq_some_iff.mp hp).1
    have hroot : v.root i = p := by rw [Vocabulary.root, hp, Option.getD_some]
    subst hroot
    refine ⟨hv.root_lt hi, (before_or_before v.entries hne).resolve_right fun hbefore => ?_⟩
    have hbest := hv.root_best hi
    rw [(before_iff v _ _).mp hbefore] at hbest
    contradiction

variable (hv : v.WellFormed)

theorem top_ofVocabulary (i : Nat) : (ofVocabulary v hv).top i = v.root i := by
  have hparent : ∀ j, (ofVocabulary v hv).parent j = v.root j := fun _ => rfl
  rw [← top_parent, hparent]
  exact top_of_parent_eq (hv.root_root i)

theorem vocabulary_ofVocabulary : (ofVocabulary v hv).vocabulary = v := by
  have hroots : (ofVocabulary v hv).vocabulary.roots = v.roots := by
    apply Array.ext
    · simp [vocabulary, hv.roots_size, size, ofVocabulary, Vocabulary.size]
    · intro i _ hi
      simp [vocabulary, top_ofVocabulary, Vocabulary.root, hi]
  change { v with roots := (ofVocabulary v hv).vocabulary.roots } = v
  rw [hroots]

theorem getElem?_members_ofVocabulary {r : Nat} {l : List Nat} :
    (ofVocabulary v hv).members[r]? = some l ↔ (r < v.size ∧ v.root r = r) ∧ v.members r = l := by
  have hmem : r ∈ (List.range v.size).map v.root ↔ r < v.size ∧ v.root r = r := by
    simp only [List.mem_map, List.mem_range]
    refine ⟨?_, fun h => ⟨r, h⟩⟩
    rintro ⟨i, hi, rfl⟩
    exact ⟨hv.root_lt hi, hv.root_root i⟩
  change (filed v (List.range v.size))[r]? = some l ↔ _
  rw [getElem?_filed, ← hmem]
  split <;> simp_all

theorem gathered_ofVocabulary : (ofVocabulary v hv).Gathered where
  mem_iff {r l} hl i := by
    obtain ⟨-, rfl⟩ := (getElem?_members_ofVocabulary hv).mp hl
    rw [top_ofVocabulary]
    change i ∈ v.members r ↔ i < v.size ∧ v.root i = r
    simp [Vocabulary.members]
  nodup hl := by
    obtain ⟨-, rfl⟩ := (getElem?_members_ofVocabulary hv).mp hl
    exact List.nodup_range.filter _
  key_iff {r} := by
    rw [top_ofVocabulary]
    change _ ↔ r < v.size ∧ v.root r = r
    simp [getElem?_members_ofVocabulary]

end Hanging

end Forest

namespace Model

open Forest

def withVocabulary (m : Model) (v : Vocabulary) : Model := { m with vocabulary := v }

mutual

def findOver (m : Model) : Term → OptionT Query Nat
  | .apply fn args _ => do
    let op ← match fn with
      | .symbol s => OptionT.mk (lookupOver s.name)
      | fn => findOver m fn
    let args ← findAllOver m args
    let key ← keyOver ⟨op, args⟩
    let i ← OptionT.mk (pure m.table[key]?)
    rootOver (m.record i).result
  | t => do
    let i ← OptionT.mk (lookupOver t.render)
    rootOver i

def findAllOver (m : Model) : List Term → OptionT Query (List Nat)
  | [] => return []
  | t :: rest => do
    let i ← findOver m t
    return i :: (← findAllOver m rest)

end

mutual

def simplifyOver (m : Model) : Term → Query Term
  | .symbol s => do
    match ← lookupOver s.name with
    | none => return .symbol s
    | some i =>
      let e ← entryOver (← rootOver i)
      return if e.usage == .literal then .symbol ⟨e.name, s.kind, .free⟩ else .symbol s
  | .apply fn args k => do
    let t := Term.apply fn (← simplifyAllOver m args) k
    match ← (findOver m t).run with
    | none => return t
    | some r =>
      let e ← entryOver r
      return if e.usage == .literal then .symbol ⟨e.name, e.kind, .free⟩ else t
  | t => return t

def simplifyAllOver (m : Model) : List Term → Query (List Term)
  | [] => return []
  | t :: rest => do
    let t ← simplifyOver m t
    return t :: (← simplifyAllOver m rest)

end

variable {m : Model}

theorem reads_findOver_constant (m : Model) {t : Term} (ht : ∀ fn args k, t ≠ .apply fn args k) :
    Query.Reads (findOver m t).run fun v => (m.withVocabulary v).find? t := by
  rw [findOver]
  · refine (Query.Reads.bind_some (reads_lookupOver t.render)
      fun i => (reads_rootOver i).lift).congr fun v => ?_
    rw [find?_of_not_apply ht, Vocabulary.rootOf?, Option.map_eq_bind]
    rfl
  · exact ht

def operatorOver (m : Model) : Term → OptionT Query Nat
  | .symbol s => OptionT.mk (lookupOver s.name)
  | fn => findOver m fn

theorem findOver_apply (m : Model) (fn : Term) (args : List Term) (k : Kind) :
    findOver m (.apply fn args k) = (do
      let op ← operatorOver m fn
      let args ← findAllOver m args
      let key ← keyOver ⟨op, args⟩
      let i ← OptionT.mk (pure m.table[key]?)
      rootOver (m.record i).result) := by
  cases fn with
  | symbol s =>
    rw [findOver]
    rfl
  | apply fn args' k' =>
    rw [findOver]
    · rfl
    · simp
  | lambda params body k' =>
    rw [findOver]
    · rfl
    · simp
  | cases branches otherwise k' =>
    rw [findOver]
    · rfl
    · simp

mutual

theorem reads_findOver (m : Model) (t : Term) :
    Query.Reads (findOver m t).run fun v => (m.withVocabulary v).find? t := by
  match t with
  | .apply fn args k =>
    have hfn : Query.Reads (operatorOver m fn).run
        fun v => (m.withVocabulary v).findOperator? fn := by
      match fn with
      | .symbol s => exact reads_lookupOver s.name
      | .apply fn args k => exact reads_findOver m (.apply fn args k)
      | .lambda params body k => exact reads_findOver m (.lambda params body k)
      | .cases branches otherwise k => exact reads_findOver m (.cases branches otherwise k)
    rw [findOver_apply]
    refine (hfn.bind_some fun op => (reads_findAllOver m args).bind_some fun args =>
      (reads_keyOver ⟨op, args⟩).lift.bind_some fun key =>
        (Query.reads_pure m.table[key]?).bind_some fun i =>
          (reads_rootOver (m.record i).result).lift).congr fun v => ?_
    rw [find?_apply]
    rfl
  | .symbol s => exact reads_findOver_constant m (by simp)
  | .lambda params body k => exact reads_findOver_constant m (by simp)
  | .cases branches otherwise k => exact reads_findOver_constant m (by simp)

theorem reads_findAllOver (m : Model) (ts : List Term) :
    Query.Reads (findAllOver m ts).run fun v => (m.withVocabulary v).findAll? ts := by
  match ts with
  | [] =>
    rw [findAllOver]
    exact Query.reads_pure (some [])
  | t :: rest =>
    rw [findAllOver]
    refine ((reads_findOver m t).bind_some fun i => (reads_findAllOver m rest).bind_some fun is =>
      Query.reads_pure (some (i :: is))).congr fun v => ?_
    rw [findAll?]
    rfl

end

theorem reads_replacing (kind : Entry → Kind) (t : Term) (r : Nat) :
    Query.Reads (do
        let e ← entryOver r
        return if e.usage == .literal then .symbol ⟨e.name, kind e, .free⟩ else t)
      fun v => if v.usage r == .literal then .symbol ⟨v.name r, kind (v.entry r), .free⟩ else t :=
  (reads_entryOver r).bind fun e => Query.reads_pure
    (if e.usage == .literal then .symbol ⟨e.name, kind e, .free⟩ else t)

mutual

theorem reads_simplifyOver (m : Model) (t : Term) :
    Query.Reads (simplifyOver m t) fun v => (m.withVocabulary v).simplify t := by
  match t with
  | .symbol s =>
    rw [simplifyOver]
    refine ((reads_lookupOver s.name).bind (b := fun i? v => (i?.map v.root).elim (.symbol s)
      fun r => if v.usage r == .literal then .symbol ⟨v.name r, s.kind, .free⟩ else .symbol s)
      fun i? => ?_).congr fun v => ?_
    · cases i? with
      | none => exact Query.reads_pure _
      | some i =>
        exact (reads_rootOver i).bind fun r => reads_replacing (fun _ => s.kind) (.symbol s) r
    · rw [simplify, Vocabulary.rootOf?]
      change _ = match (v.lookup? s.name).map v.root with
        | none => _
        | some r => _
      cases v.lookup? s.name <;> rfl
  | .apply fn args k =>
    rw [simplifyOver]
    refine ((reads_simplifyAllOver m args).bind fun args =>
      (reads_findOver m (.apply fn args k)).bind (b := fun r? v => r?.elim (.apply fn args k)
        fun r => if v.usage r == .literal then .symbol ⟨v.name r, (v.entry r).kind, .free⟩
          else .apply fn args k) fun r? => ?_).congr fun v => ?_
    · cases r? with
      | none => exact Query.reads_pure _
      | some r => exact reads_replacing Entry.kind (.apply fn args k) r
    · rw [simplify]
      dsimp only
      cases (m.withVocabulary v).find? (.apply fn ((m.withVocabulary v).simplifyAll args) k) <;> rfl
  | .lambda params body k =>
    rw [simplifyOver]
    · refine (Query.reads_pure (Term.lambda params body k)).congr fun v => ?_
      rw [simplify] <;> simp
    all_goals simp
  | .cases branches otherwise k =>
    rw [simplifyOver]
    · refine (Query.reads_pure (Term.cases branches otherwise k)).congr fun v => ?_
      rw [simplify] <;> simp
    all_goals simp

theorem reads_simplifyAllOver (m : Model) (ts : List Term) :
    Query.Reads (simplifyAllOver m ts) fun v => (m.withVocabulary v).simplifyAll ts := by
  match ts with
  | [] =>
    rw [simplifyAllOver]
    exact (Query.reads_pure []).congr fun v => by rw [simplifyAll]
  | t :: rest =>
    rw [simplifyAllOver]
    refine ((reads_simplifyOver m t).bind fun t => (reads_simplifyAllOver m rest).bind fun ts =>
      Query.reads_pure (t :: ts)).congr fun v => ?_
    rw [simplifyAll]

end

/-- Simplifying a term over trees gives what it gives in the model, and moves no root. -/
theorem simplifyOver_spec (m : Model) (t : Term) {f : Forest} (hf : f.vocabulary = m.vocabulary) :
    ((simplifyOver m t).run f).1 = m.simplify t ∧ f.Reshapes ((simplifyOver m t).run f).2 := by
  obtain ⟨hanswer, hshape⟩ := reads_simplifyOver m t f
  refine ⟨hanswer.trans ?_, hshape⟩
  rw [hf]
  rfl

end Model

end Discharge.Congruence
