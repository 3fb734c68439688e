import Discharge.Proofs.Congruence.Calls
import Discharge.Proofs.Congruence.Matching
import Discharge.Proofs.Congruence.Telling
import Discharge.Proofs.Success

/-!
Models with every lookup checked. A symbol that is asked for by its name has to be there, and one
that is asked for by its index has to be in range; otherwise the whole operation fails. The
operations are written down once more with their lookups as they may fail; the loops of a search
exist once and take them in either form.

On a model that is filed no lookup fails: the operators of all facts are symbols of its vocabulary,
and that is all the lookups rely on.
-/

namespace Discharge.Congruence

namespace Vocabulary

variable {v : Vocabulary} {i : Nat}

def nameAt (v : Vocabulary) (i : Nat) : Except Fault Text := return (← v.entryAt i).name

def usageAt (v : Vocabulary) (i : Nat) : Except Fault Usage := return (← v.entryAt i).usage

def usageOf (v : Vocabulary) (name : Text) : Except Fault Usage :=
  return v.usage (← v.indexOf name)

def rootNameOf (v : Vocabulary) (name : Text) : Except Fault Text :=
  return v.rootName (← v.indexOf name)

theorem entryAt_eq (hi : i < v.size) : v.entryAt i = .ok (v.entry i) := by
  have he : v.entries[i]? = some (v.entry i) := by
    simp [entry, Array.getElem?_eq_getElem (hi : i < v.entries.size)]
  simp [entryAt, he]

theorem nameAt_eq (hi : i < v.size) : v.nameAt i = .ok (v.name i) := by
  rw [nameAt, entryAt_eq hi]
  rfl

theorem usageAt_eq (hi : i < v.size) : v.usageAt i = .ok (v.usage i) := by
  rw [usageAt, entryAt_eq hi]
  rfl

theorem indexOf_eq {name : Text} (h : v.lookup? name = some i) : v.indexOf name = .ok i := by
  rw [indexOf, h]

theorem usageOf_eq {name : Text} (h : v.lookup? name = some i) :
    v.usageOf name = .ok (v.usage i) := by
  rw [usageOf, indexOf_eq h]
  rfl

theorem rootNameOf_eq {name : Text} (h : v.lookup? name = some i) :
    v.rootNameOf name = .ok (v.rootName i) := by
  rw [rootNameOf, indexOf_eq h]
  rfl

theorem contains_eq (v : Vocabulary) (name : Text) : v.contains name = (v.lookup? name).isSome :=
  Std.TreeMap.contains_eq_isSome_getElem?

theorem WellFormed.entryOf_name (h : v.WellFormed) {e : Entry} (he : e ∈ v.entries.toList) :
    v.entryOf e.name = e := by
  obtain ⟨i, hi, rfl⟩ := List.mem_iff_getElem.mp he
  have hentry : v.entry i = v.entries.toList[i] := by
    simp [entry, Array.getElem?_eq_getElem (hi : i < v.entries.size)]
  have hlookup := h.lookup?_name (hi : i < v.size)
  rw [name, hentry] at hlookup
  rw [entryOf, hlookup, ← hentry]
  rfl

/-- The quantified symbols are those variables that are quantified, each asked by its name. -/
theorem filter_vars (h : v.WellFormed) :
    v.vars.filter (fun name => (v.entryOf name).usage.isQuantified) =
      v.namesWhere Usage.isQuantified := by
  rw [vars, namesWhere, namesWhere, List.filter_map, List.filter_filter]
  refine congrArg (List.map Entry.name) (List.filter_congr fun e he => ?_)
  rw [Function.comp_apply, h.entryOf_name he]
  cases e.usage <;> rfl

end Vocabulary

namespace Checked

section Definitions

def key (v : Vocabulary) (a : Application) : Except Fault Application := do
  let c := a.canonical v
  return if isCommutative (← v.nameAt c.op) then ⟨c.op, inOrder c.args⟩ else c

def check (m : Model) (i : Nat) : Except Fault Model := do
  let r := m.record i
  let c := r.app.canonical m.vocabulary
  return (consequences (← m.vocabulary.nameAt c.op) c.args (m.root r.result)
    (m.root Vocabulary.truth) (m.root Vocabulary.falsehood)).foldl Model.enqueue m

def insert (m : Model) (app : Application) (result : Nat) : Except Fault Model := do
  let i := m.records.size
  let key ← key m.vocabulary app
  let m := { m with
    records := m.records.push ⟨app, result, key, true⟩
    table := m.table.insert key i }
  check ((app.places ++ [result]).foldl (fun m s => m.use i s) m) i

def refile (m : Model) (i : Nat) : Except Fault Model :=
  let r := m.record i
  if !r.live then .ok m
  else do
    let table := if m.table[r.key]? == some i then m.table.erase r.key else m.table
    let key ← key m.vocabulary r.app
    match table[key]? with
    | some j =>
      if j == i then
        check { m with
          table := table.insert key i
          records := m.records.setIfInBounds i { r with key } } i
      else
        return { m with table, records := m.records.setIfInBounds i { r with live := false }
          }.enqueue (r.result, (m.record j).result)
    | none =>
      check { m with
        table := table.insert key i
        records := m.records.setIfInBounds i { r with key } } i

def unite (m : Model) (a b : Nat) : Except Fault Model :=
  let ra := m.root a
  let rb := m.root b
  if ra == rb then .ok m
  else
    let (winner, v) := m.vocabulary.merge ra rb
    let loser := if winner == rb then ra else rb
    let moved := (m.uses[loser]?).getD #[]
    let kept := (m.uses[winner]?).getD #[]
    moved.toList.foldlM refile { m with
      vocabulary := v
      merges := m.merges + 1
      contradiction := m.contradiction || v.related Vocabulary.truth Vocabulary.falsehood
      uses := (m.uses.erase loser).insert winner (kept ++ moved) }

def propagateWithin : (fuel : Nat) → Model → Except Fault Model
  | 0, m => .ok m.settled
  | fuel + 1, m =>
    match m.settled.pending with
    | [] => .ok m.settled
    | p :: rest => do
      propagateWithin fuel (← unite { m.settled with pending := rest } p.1 p.2)

def propagate (m : Model) : Except Fault Model := propagateWithin m.vocabulary.size m

def placeApplication (m : Model) (app : Application) (kind : Kind) : Except Fault (Nat × Model) := do
  match m.table[← key m.vocabulary app]? with
  | some i => return (m.root (m.record i).result, m)
  | none =>
    let (made, v) := m.vocabulary.create kind
    let result ← v.indexOf (v.name made)
    let m ← propagate (← insert { m with vocabulary := v } app result)
    return (m.root result, m)

mutual

def place : Term → Model → Except Fault (Nat × Model)
  | .symbol s, m =>
    let (i, m) := m.addSymbol s.name s.kind (Model.usageOf s false)
    .ok (m.root i, m)
  | .apply (.symbol s) args k, m => do
    let (op, m) := m.addSymbol s.name s.kind (Model.usageOf s true)
    let (args, m) ← placeAll args m
    placeApplication m ⟨op, args⟩ k
  | .apply fn args k, m => do
    let (op, m) ← place fn m
    let (args, m) ← placeAll args m
    placeApplication m ⟨op, args⟩ k
  | .lambda params body k, m => .ok (m.placeConstant (.lambda params body k))
  | .cases branches otherwise k, m => .ok (m.placeConstant (.cases branches otherwise k))

def placeAll : List Term → Model → Except Fault (List Nat × Model)
  | [], m => .ok ([], m)
  | t :: rest, m => do
    let (i, m) ← place t m
    let (is, m) ← placeAll rest m
    return (i :: is, m)

end

mutual

def assert : Term → Model → Except Fault Model
  | .apply (.symbol s) args k, m =>
    if s.name == "and" then assertAll args m
    else match s.name == "=", args with
      | true, [a, b] => do
        let (l, m) ← place a m
        let (r, m) ← place b m
        return m.enqueue (l, r)
      | _, _ => do
        let (i, m) ← place (.apply (.symbol s) args k) m
        return m.enqueue (i, Vocabulary.truth)
  | t, m =>
    if t.isTruth then .ok m
    else if t.isFalsehood then .ok (m.enqueue (Vocabulary.truth, Vocabulary.falsehood))
    else do
      let (i, m) ← place t m
      return m.enqueue (i, Vocabulary.truth)

def assertAll : List Term → Model → Except Fault Model
  | [], m => .ok m
  | t :: rest, m => do assertAll rest (← assert t m)

end

def assume (m : Model) (t : Term) : Except Fault (Change × Model) := do
  let n ← propagate (← assert t m)
  return (⟨n.records.size - m.records.size, n.merges - m.merges⟩, n)

def represent (m : Model) (t : Term) : Except Fault (Nat × Model) := do
  let (i, m) ← place t m
  let m ← propagate m
  return (m.root i, m)

mutual

def find? (m : Model) : Term → Except Fault (Option Nat)
  | .apply fn args _ => do
    let op ← match fn with
      | .symbol s => .ok (m.vocabulary.lookup? s.name)
      | fn => find? m fn
    match op with
    | none => return none
    | some op =>
      match ← findAll? m args with
      | none => return none
      | some args =>
        let key ← key m.vocabulary ⟨op, args⟩
        return (m.table[key]?).map fun i => m.root (m.record i).result
  | t => .ok (m.vocabulary.rootOf? t.render)

def findAll? (m : Model) : List Term → Except Fault (Option (List Nat))
  | [] => .ok (some [])
  | t :: rest => do
    match ← find? m t with
    | none => return none
    | some i => return (← findAll? m rest).map fun is => i :: is

end

mutual

def simplify (m : Model) : Term → Except Fault Term
  | .symbol s =>
    match m.vocabulary.rootOf? s.name with
    | none => .ok (.symbol s)
    | some r => do
      if (← m.vocabulary.usageAt r) == .literal then
        return .symbol ⟨← m.vocabulary.nameAt r, s.kind, .free⟩
      else return .symbol s
  | .apply fn args k => do
    let t := Term.apply fn (← simplifyAll m args) k
    match ← find? m t with
    | none => return t
    | some r =>
      let e ← m.vocabulary.entryAt r
      return if e.usage == .literal then .symbol ⟨e.name, e.kind, .free⟩ else t
  | t => .ok t

def simplifyAll (m : Model) : List Term → Except Fault (List Term)
  | [] => .ok []
  | t :: rest => do
    let first ← simplify m t
    return first :: (← simplifyAll m rest)

end

def names (v : Vocabulary) (a : Application) : Except Fault (List Text) :=
  a.places.mapM fun i => v.nameAt (v.root i)

def quantifiers (v : Vocabulary) (a : Application) : Except Fault Nat :=
  return (← a.places.mapM fun i => v.usageAt (v.root i)).countP Usage.isQuantified

def byQuantifiers (v : Vocabulary) (facts : List Fact) : Except Fault (List Fact) := do
  let counted ← facts.mapM fun f => return (f, ← quantifiers v f.app)
  return (counted.mergeSort fun f g => f.2 ≤ g.2).map Prod.fst

def renderApplication (v : Vocabulary) (a : Application) : Except Fault Text := do
  let args ← a.args.mapM fun i => v.nameAt (v.root i)
  return (← v.nameAt (v.root a.op)) ++ "(" ++ Text.intercalate ", " args ++ ")"

def renderFact (v : Vocabulary) (f : Fact) : Except Fault Text :=
  return (← renderApplication v f.app) ++ " = " ++ (← v.nameAt f.result)

def labelFact (v : Vocabulary) (f : Fact) : Except Fault Text :=
  return (← renderApplication v f.app) ++ "=" ++ (← v.nameAt f.result)

def render (m : Model) : Except Fault Text := do
  let facts ← m.facts.mapM (renderFact m.vocabulary)
  return Text.intercalate "\n" (Text.sorted facts)

end Definitions

end Checked

structure Model.Ranged (m : Model) : Prop where
  vocabulary : m.vocabulary.WellFormed
  op_lt : ∀ i, (m.record i).app.op < m.vocabulary.size

namespace Model

variable {m n : Model}

theorem Filed.ranged {stale : List Nat} (h : m.Filed stale) : m.Ranged where
  vocabulary := h.vocabulary
  op_lt i := by
    cases hr : m.records[i]? with
    | none =>
      have hd : m.record i = default := by simp [record, hr]
      rw [hd]
      exact h.vocabulary.truth_lt
    | some r =>
      rw [record_eq hr]
      exact h.op_lt hr

theorem record_app_eq (h : n.history = m.history) (i : Nat) :
    (n.record i).app = (m.record i).app := by
  have hi : (n.history[i]?).map Prod.fst = (m.history[i]?).map Prod.fst := by rw [h]
  simp only [history, List.getElem?_map, Array.getElem?_toList, Option.map_map] at hi
  unfold record
  cases hn : n.records[i]? with
  | none => cases hm : m.records[i]? <;> simp_all
  | some r => cases hm : m.records[i]? <;> simp_all

theorem Ranged.of_frame (h : m.Ranged) (hv : n.vocabulary = m.vocabulary)
    (hh : n.history = m.history) : n.Ranged :=
  ⟨by rw [hv]; exact h.vocabulary, fun i => by rw [hv, record_app_eq hh]; exact h.op_lt i⟩

theorem Ranged.root_op_lt (h : m.Ranged) (i : Nat) :
    m.vocabulary.root (m.record i).app.op < m.vocabulary.size := h.vocabulary.root_lt (h.op_lt i)

end Model

namespace Checked

section Filing

variable {m : Model}

theorem key_eq {v : Vocabulary} {a : Application} (h : v.root a.op < v.size) :
    key v a = .ok (a.key v) := by
  rw [key, Vocabulary.nameAt_eq (i := (a.canonical v).op) h]
  rfl

theorem check_eq (h : m.Ranged) (i : Nat) : check m i = .ok (m.check i) := by
  rw [check, Vocabulary.nameAt_eq (i := ((m.record i).app.canonical m.vocabulary).op)
    (h.root_op_lt i)]
  rfl

theorem insert_eq (h : m.Ranged) {app : Application} (happ : app.op < m.vocabulary.size)
    (result : Nat) : insert m app result = .ok (m.insert app result) := by
  rw [insert, key_eq (h.vocabulary.root_lt happ)]
  refine check_eq (m := m.entered app result) ⟨?_, ?_⟩ _
  · rw [Model.vocabulary_entered]
    exact h.vocabulary
  · intro i
    rw [Model.vocabulary_entered, Model.record, Model.records_entered, Array.getElem?_push]
    split
    · exact happ
    · exact h.op_lt i

theorem refile_eq (h : m.Ranged) (i : Nat) : refile m i = .ok (m.refile i) := by
  unfold refile Model.refile
  dsimp only
  split
  · rfl
  · rw [key_eq (h.root_op_lt i)]
    have hset (table : Std.TreeMap Application Nat) (key : Application) :
        ({ m with
          table
          records := m.records.setIfInBounds i { m.record i with key } } : Model).Ranged :=
      h.of_frame rfl (Model.history_setIfInBounds rfl rfl)
    dsimp only [bind, Except.bind]
    generalize (if m.table[(m.record i).key]? == some i then m.table.erase (m.record i).key
      else m.table) = table
    cases table[(m.record i).app.key m.vocabulary]? with
    | none => exact check_eq (hset _ _) i
    | some j =>
      dsimp only
      split
      · exact check_eq (hset _ _) i
      · rfl

theorem unite_eq (h : m.Ranged) {a b : Nat} (ha : a < m.vocabulary.size)
    (hb : b < m.vocabulary.size) : unite m a b = .ok (m.unite a b) := by
  unfold unite Model.unite
  dsimp only
  split
  · rfl
  · rw [← Array.foldl_toList]
    refine foldlM_eq_ok (P := Model.Ranged) (fun n hn i _ => ?_) ⟨?_, fun i => ?_⟩
    · obtain ⟨hvocabulary, hhistory, -⟩ := Model.refile_frame n i
      exact ⟨refile_eq hn i, hn.of_frame hvocabulary hhistory⟩
    · exact Vocabulary.wellFormed_merge h.vocabulary (h.vocabulary.root_lt ha)
        (h.vocabulary.root_lt hb)
    · have hsize : (m.vocabulary.merge (m.root a) (m.root b)).2.size = m.vocabulary.size :=
        congrArg Array.size (Vocabulary.entries_merge ..)
      exact Nat.lt_of_lt_of_eq (h.op_lt i) hsize.symm

theorem propagateWithin_eq (fuel : Nat) {m : Model} (h : m.Filed []) :
    propagateWithin fuel m = .ok (Model.propagateWithin fuel m) := by
  induction fuel generalizing m with
  | zero => rfl
  | succ fuel ih =>
    unfold propagateWithin Model.propagateWithin
    cases hp : m.settled.pending with
    | nil => rfl
    | cons p rest =>
      have hs := Model.filed_settled h
      obtain ⟨ha, hb⟩ := hs.pending_lt p (by simp [hp])
      obtain ⟨hfiled, -⟩ := Model.unite_front hs hp (Model.root_ne_of_settled (m := m) hp)
      have hr : ({ m.settled with pending := rest } : Model).Ranged := hs.ranged.of_frame rfl rfl
      dsimp only
      rw [unite_eq hr ha hb]
      exact ih hfiled

theorem propagate_eq (h : m.Filed []) : propagate m = .ok m.propagate := propagateWithin_eq _ h

end Filing

section Placing

theorem placeApplication_eq {m : Model} (h : m.Filed []) {app : Application} (kind : Kind)
    (happ : ∀ s ∈ app.places, s < m.vocabulary.size) :
    placeApplication m app kind = .ok (m.placeApplication app kind) := by
  have hop := happ app.op Application.op_mem_places
  unfold placeApplication
  rw [key_eq (h.root_lt hop)]
  cases hfound : m.table[app.key m.vocabulary]? with
  | some i =>
    rw [Model.placeApplication_of_some hfound]
    simp only [bind, Except.bind, hfound]
    rfl
  | none =>
    have hwf := Vocabulary.wellFormed_create h.vocabulary kind
    have hgrows := Vocabulary.grows_create h.vocabulary kind
    have hmade : (m.vocabulary.create kind).1 < (m.vocabulary.create kind).2.size := by
      rw [Vocabulary.create_fst h.vocabulary, Vocabulary.size_create h.vocabulary]
      omega
    have hfiled : ({ m with vocabulary := (m.vocabulary.create kind).2 } : Model).Filed [] :=
      Model.filed_setVocabulary h hwf hgrows (Vocabulary.root_create h.vocabulary kind)
    have hinsert : insert { m with vocabulary := (m.vocabulary.create kind).2 } app
        (m.vocabulary.create kind).1 = .ok (m.define app kind) :=
      insert_eq hfiled.ranged (Nat.lt_of_lt_of_le hop hgrows.size_le) (m.vocabulary.create kind).1
    have hdefined := (Model.advances_define h app kind happ hfound).1.filed
    rw [Model.placeApplication_of_none hfound]
    simp only [bind, Except.bind, hfound, Vocabulary.indexOf_eq (hwf.lookup?_name hmade), hinsert,
      propagate_eq hdefined]
    rfl

def placeOperator : Term → Model → Except Fault (Nat × Model)
  | .symbol s, m => .ok (m.addSymbol s.name s.kind (Model.usageOf s true))
  | fn, m => place fn m

theorem place_apply (fn : Term) (args : List Term) (k : Kind) (m : Model) :
    place (.apply fn args k) m = (do
      let (op, m) ← placeOperator fn m
      let (args, m) ← placeAll args m
      placeApplication m ⟨op, args⟩ k) := by
  cases fn <;> rfl

mutual

theorem place_eq (t : Term) {m : Model} (h : m.Filed []) : place t m = .ok (Model.place t m) := by
  cases t with
  | symbol s => rw [place, Model.place]
  | apply fn args k =>
    obtain ⟨-, hargs, hplaces⟩ := Model.advances_parts fn args h
    rw [place_apply, placeOperator_eq fn h, Model.place_apply]
    dsimp only [bind, Except.bind]
    rw [placeAll_eq args (Model.advances_placeOperator fn h).1.filed]
    exact placeApplication_eq hargs.filed k hplaces
  | lambda params body k => rw [place, Model.place]
  | cases branches otherwise k => rw [place, Model.place]

theorem placeOperator_eq (fn : Term) {m : Model} (h : m.Filed []) :
    placeOperator fn m = .ok (Model.placeOperator fn m) := by
  match fn with
  | .symbol s => rfl
  | .apply fn args k => exact place_eq (.apply fn args k) h
  | .lambda params body k => exact place_eq (.lambda params body k) h
  | .cases branches otherwise k => exact place_eq (.cases branches otherwise k) h

theorem placeAll_eq (ts : List Term) {m : Model} (h : m.Filed []) :
    placeAll ts m = .ok (Model.placeAll ts m) := by
  cases ts with
  | nil => rw [placeAll, Model.placeAll]
  | cons t rest =>
    rw [placeAll, Model.placeAll, place_eq t h]
    dsimp only [bind, Except.bind]
    rw [placeAll_eq rest (Model.advances_place t h).1.filed]
    rfl

end

theorem assert_of_place {t : Term} {m : Model} (h : m.Filed []) :
    (do let (i, m) ← place t m; return m.enqueue (i, Vocabulary.truth)) =
      (.ok ((Model.place t m).2.enqueue ((Model.place t m).1, Vocabulary.truth)) :
        Except Fault Model) := by
  rw [place_eq t h]
  rfl

theorem assert_other_eq {t : Term} (ht : ∀ s args k, t ≠ .apply (.symbol s) args k) {m : Model}
    (h : m.Filed []) : assert t m = .ok (Model.assert t m) := by
  rw [assert, Model.assert]
  any_goals exact ht
  split
  · rfl
  · split
    · rfl
    · exact assert_of_place h

mutual

theorem assert_eq (t : Term) {m : Model} (h : m.Filed []) : assert t m = .ok (Model.assert t m) := by
  match t with
  | .apply (.symbol s) args k =>
    unfold assert Model.assert
    split
    · exact assertAll_eq args h
    · generalize (s.name == ("=" : Text)) = isEquation
      match isEquation, args with
      | true, [a, b] =>
        dsimp only
        rw [place_eq a h]
        dsimp only [bind, Except.bind]
        rw [place_eq b (Model.advances_place a h).1.filed]
        rfl
      | true, [] | true, [_] | true, _ :: _ :: _ :: _ | false, _ => exact assert_of_place h
  | .symbol s => exact assert_other_eq (by simp) h
  | .apply (.apply _ _ _) _ _ => exact assert_other_eq (by simp) h
  | .apply (.lambda _ _ _) _ _ => exact assert_other_eq (by simp) h
  | .apply (.cases _ _ _) _ _ => exact assert_other_eq (by simp) h
  | .lambda _ _ _ => exact assert_other_eq (by simp) h
  | .cases _ _ _ => exact assert_other_eq (by simp) h

theorem assertAll_eq (ts : List Term) {m : Model} (h : m.Filed []) :
    assertAll ts m = .ok (Model.assertAll ts m) := by
  cases ts with
  | nil => rw [assertAll, Model.assertAll]
  | cons t rest =>
    rw [assertAll, Model.assertAll, assert_eq t h]
    exact assertAll_eq rest (Model.advances_assert t h).filed

end

end Placing

section Asking

variable {m : Model}

theorem assume_eq (h : m.Filed []) (t : Term) : assume m t = .ok (m.assume t) := by
  rw [assume, assert_eq t h]
  dsimp only [bind, Except.bind]
  rw [propagate_eq (Model.advances_assert t h).filed]
  rfl

theorem represent_eq (h : m.Filed []) (t : Term) : represent m t = .ok (m.represent t) := by
  rw [represent, place_eq t h]
  dsimp only [bind, Except.bind]
  rw [propagate_eq (Model.advances_place t h).1.filed]
  rfl

def findOperator? (m : Model) : Term → Except Fault (Option Nat)
  | .symbol s => .ok (m.vocabulary.lookup? s.name)
  | fn => find? m fn

theorem lt_of_findOperator? (hm : m.Closed) {fn : Term} {op : Nat}
    (h : m.findOperator? fn = some op) : op < m.vocabulary.size := by
  cases fn with
  | symbol s => exact hm.filed.vocabulary.lt_of_lookup? h
  | apply fn args k => exact Model.lt_of_find? hm h
  | lambda params body k => exact Model.lt_of_find? hm h
  | cases branches otherwise k => exact Model.lt_of_find? hm h

mutual

theorem find?_eq (hm : m.Closed) (t : Term) : find? m t = .ok (m.find? t) := by
  cases t with
  | symbol s => rfl
  | apply fn args k =>
    have hop : find? m (.apply fn args k) = (do
        match ← findOperator? m fn with
        | none => return none
        | some op =>
          match ← findAll? m args with
          | none => return none
          | some args =>
            let key ← key m.vocabulary ⟨op, args⟩
            return (m.table[key]?).map fun i => m.root (m.record i).result) := by
      cases fn <;> rfl
    rw [hop, findOperator?_eq hm fn, Model.find?_apply]
    dsimp only [bind, Except.bind]
    cases hfound : m.findOperator? fn with
    | none => rfl
    | some op =>
      dsimp only [Option.bind]
      rw [findAll?_eq hm args]
      cases m.findAll? args with
      | none => rfl
      | some is =>
        dsimp only
        rw [key_eq (hm.filed.root_lt (lt_of_findOperator? hm hfound))]
        dsimp only
        cases m.table[(⟨op, is⟩ : Application).key m.vocabulary]? <;> rfl
  | lambda params body k => rfl
  | cases branches otherwise k => rfl

theorem findOperator?_eq (hm : m.Closed) (fn : Term) :
    findOperator? m fn = .ok (m.findOperator? fn) := by
  match fn with
  | .symbol s => rfl
  | .apply fn args k => exact find?_eq hm (.apply fn args k)
  | .lambda params body k => exact find?_eq hm (.lambda params body k)
  | .cases branches otherwise k => exact find?_eq hm (.cases branches otherwise k)

theorem findAll?_eq (hm : m.Closed) (ts : List Term) : findAll? m ts = .ok (m.findAll? ts) := by
  cases ts with
  | nil => rfl
  | cons t rest =>
    rw [findAll?, Model.findAll?, find?_eq hm t]
    dsimp only [bind, Except.bind]
    cases m.find? t with
    | none => rfl
    | some i =>
      dsimp only [Option.bind]
      rw [findAll?_eq hm rest]
      cases m.findAll? rest <;> rfl

end

mutual

theorem simplify_eq (hm : m.Closed) (t : Term) : simplify m t = .ok (m.simplify t) := by
  cases t with
  | symbol s =>
    rw [simplify, Model.simplify]
    cases hr : m.vocabulary.rootOf? s.name with
    | none => rfl
    | some r =>
      have hlt := Model.lt_of_find? hm (t := .symbol s) hr
      dsimp only
      rw [Vocabulary.usageAt_eq hlt, Vocabulary.nameAt_eq hlt]
      dsimp only [bind, Except.bind]
      split <;> rfl
  | apply fn args k =>
    rw [simplify, Model.simplify, simplifyAll_eq hm args]
    dsimp only [bind, Except.bind]
    rw [find?_eq hm]
    cases hr : m.find? (.apply fn (m.simplifyAll args) k) with
    | none => rfl
    | some r =>
      dsimp only
      rw [Vocabulary.entryAt_eq (Model.lt_of_find? hm hr)]
      rfl
  | lambda params body k => rfl
  | cases branches otherwise k => rfl

theorem simplifyAll_eq (hm : m.Closed) (ts : List Term) :
    simplifyAll m ts = .ok (m.simplifyAll ts) := by
  cases ts with
  | nil => rfl
  | cons t rest =>
    rw [simplifyAll, Model.simplifyAll, simplify_eq hm t]
    dsimp only [bind, Except.bind]
    rw [simplifyAll_eq hm rest]
    rfl

end

end Asking

section Describing

variable {v : Vocabulary} {a : Application} {f : Fact}

theorem names_eq (h : v.WellFormed) (ha : ∀ s ∈ a.places, s < v.size) :
    names v a = .ok (a.names v) :=
  mapM_eq_ok fun s hs => Vocabulary.nameAt_eq (h.root_lt (ha s hs))

theorem quantifiers_eq (h : v.WellFormed) (ha : ∀ s ∈ a.places, s < v.size) :
    quantifiers v a = .ok (a.quantifiers v) := by
  rw [quantifiers, mapM_eq_ok fun s hs => Vocabulary.usageAt_eq (h.root_lt (ha s hs))]
  refine congrArg Except.ok ?_
  rw [List.countP_map]
  rfl

theorem byQuantifiers_eq (h : v.WellFormed) {facts : List Fact}
    (hf : ∀ f ∈ facts, ∀ s ∈ f.app.places, s < v.size) :
    byQuantifiers v facts = .ok (Fact.byQuantifiers v facts) := by
  have hcounted : ∀ f ∈ facts, (do return (f, ← quantifiers v f.app) : Except Fault (Fact × Nat)) =
      .ok (f, f.app.quantifiers v) := fun f hmem => by
    rw [quantifiers_eq h (hf f hmem)]
    rfl
  rw [byQuantifiers, mapM_eq_ok hcounted]
  refine congrArg Except.ok ?_
  rw [Fact.byQuantifiers, List.map_mergeSort (s := fun f g : Fact =>
    decide (f.app.quantifiers v ≤ g.app.quantifiers v)), List.map_map]
  · simp [Function.comp_def]
  · simp

theorem renderApplication_eq (h : v.WellFormed) (ha : ∀ s ∈ a.places, s < v.size) :
    renderApplication v a = .ok (a.render v) := by
  obtain ⟨hop, hargs⟩ := List.forall_mem_cons.mp ha
  rw [renderApplication, mapM_eq_ok fun s hs => Vocabulary.nameAt_eq (h.root_lt (hargs s hs)),
    Vocabulary.nameAt_eq (h.root_lt hop)]
  rfl

theorem renderFact_eq (h : v.WellFormed) (hf : ∀ s ∈ f.app.places ++ [f.result], s < v.size) :
    renderFact v f = .ok (f.render v) := by
  rw [renderFact, renderApplication_eq h fun s hs => hf s (List.mem_append_left _ hs),
    Vocabulary.nameAt_eq (hf f.result (by simp))]
  rfl

theorem labelFact_eq (h : v.WellFormed) (hf : ∀ s ∈ f.app.places ++ [f.result], s < v.size) :
    labelFact v f = .ok (f.label v) := by
  rw [labelFact, renderApplication_eq h fun s hs => hf s (List.mem_append_left _ hs),
    Vocabulary.nameAt_eq (hf f.result (by simp))]
  rfl

theorem render_eq {m : Model} (hm : m.Closed) : render m = .ok m.render := by
  rw [render, mapM_eq_ok fun f hf => renderFact_eq hm.filed.vocabulary (hm.symbols_fact_lt hf)]
  rfl

end Describing

end Checked

end Discharge.Congruence
