import Discharge.Document.Scalar
import Discharge.Error
import Discharge.Time.Duration

/-!
Steps that read nodes into fields. A node of the wrong kind is a misfit, which is remembered while
the rest is read; some things are so wrong that nothing more is read. A node that is null gives
nothing, which leaves a field as it is; a null list is an empty one.

References are followed, but a document that consists of little else is refused.
-/

namespace Discharge.Document

inductive Halt where
  | refused
  | unfitKey
  deriving DecidableEq, Repr, Inhabited

structure Filler.State where
  read : Nat := 1
  repeated : Nat := 0
  following : List Nat := []
  closed : Option (List Value) := none
  misfit : Bool := false
  deriving Inhabited

/-- Whether too much of a document is read in following references: of up to 400,000 nodes 99 in a
hundred may be, of 4,000,000 and more 10 in a hundred, and between these in proportion. -/
def Filler.State.isExcessive (s : Filler.State) : Bool :=
  s.repeated > 100 && s.read > 1000 &&
    s.repeated * 360000000 > (356400000 - 89 * min (s.read - 400000) 3600000) * s.read

/-- A step that reads nodes of a document. -/
abbrev Filler := ReaderT Document (StateT Filler.State (Except Halt))

namespace Filler

def misfit {α : Type} : Filler (Option α) := do
  modify fun s => { s with misfit := true }
  return none

/-- Counts a node. -/
def count : Filler Unit := do
  modify fun s =>
    { s with
      read := s.read + 1
      repeated := if s.following.isEmpty then s.repeated else s.repeated + 1 }
  if (← get).isExcessive then throw .refused

/-- Reads a node, or the one that it refers to. What a reference leads to may hold the reference
itself, which is not to be followed again. -/
def visit {α : Type} (read : Node → Filler α) : Node → Filler α
  | .reference _ number anchor => do
    count
    let following := (← get).following
    if following.contains number then throw .refused
    modify fun s => { s with following := number :: following }
    count
    let a ← read ((← readThe Document).node anchor)
    modify fun s => { s with following }
    return a
  | n => do
    count
    read n

def resolve (s : String) (tag : Tag) : Filler Value :=
  match Value.resolve? s tag with
  | some v => return v
  | none => throw .refused

def readScalar {α : Type} (read : Value → String → Option α) : Node → Filler (Option α) :=
  visit fun
    | .scalar s tag => do
      match ← resolve s tag with
      | .null => return none
      | v =>
        match read v s with
        | some a => return some a
        | none => misfit
    | _ => misfit

def readText : Node → Filler (Option Text) := readScalar fun v s =>
  match v with
  | .text t => some t
  | _ => some s

def readInt : Node → Filler (Option Int) := readScalar fun v _ =>
  match v with
  | .whole n => if Decimal.fitsWord n then some n else none
  | .decimal word => word
  | _ => none

def readBool : Node → Filler (Option Bool) := readScalar fun v _ =>
  match v with
  | .truth b => some b
  | .text t => switchOf? t
  | _ => none

/-- A duration is a text with units; a plain number is none. -/
def readDuration : Node → Filler (Option Int) := readScalar fun v _ =>
  match v with
  | .text t => (Time.readDuration t.toString).toOption
  | _ => none

def readList {α : Type} (item : Node → Filler (Option α)) : Node → Filler (Option (List α)) :=
  visit fun
    | .sequence items => do return some ((← items.mapM item).filterMap id)
    | .scalar s tag => do
      match ← resolve s tag with
      | .null => return some []
      | _ => misfit
    | _ => misfit

end Filler

end Discharge.Document
