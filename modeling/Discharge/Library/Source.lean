import Discharge.Condition
import Discharge.Document.Field
import Discharge.Files.Module
import Discharge.Files.Tree

namespace Discharge

open Document.Filler

structure TheoremSource where
  name : Text := ""
  vars : List (Text × Text) := []
  assertion : Text := ""
  deriving DecidableEq, Repr, Inhabited

structure ConditionSource where
  id : Int := 0
  explanation : Text := ""
  location : Location := {}
  left : List Text := []
  right : List Text := []
  deriving DecidableEq, Repr, Inhabited

structure ModuleSource where
  name : Text := ""
  imports : List Text := []
  symbols : List (Text × Text) := []
  theorems : List TheoremSource := []
  conditions : List ConditionSource := []
  deriving DecidableEq, Repr, Inhabited

namespace ModuleSource

def locationFields : List (FieldReader Location) :=
  [.of "file" readText fun l file => { l with file },
    .of "line" readInt fun l line => { l with line },
    .of "column" readInt fun l column => { l with column }]

def theoremFields : List (FieldReader TheoremSource) :=
  [.of "name" readText fun t name => { t with name },
    .of "forall" readTable fun t vars => { t with vars },
    .of "assertion" readText fun t assertion => { t with assertion }]

def conditionFields : List (FieldReader ConditionSource) :=
  [.of "id" readInt fun c id => { c with id },
    .of "explanation" readText fun c explanation => { c with explanation },
    .of "location" (readRecord locationFields {}) fun c location => { c with location },
    .of "left" (readList readText) fun c left => { c with left },
    .of "right" (readList readText) fun c right => { c with right }]

def fields : List (FieldReader ModuleSource) :=
  [.of "module" readText fun m name => { m with name },
    .of "imports" (readList readText) fun m imports => { m with imports },
    .of "symbols" readTable fun m symbols => { m with symbols },
    .of "theorems" (readList (readRecord theoremFields {})) fun m theorems => { m with theorems },
    .of "vcs" (readList (readRecord conditionFields {})) fun m conditions => { m with conditions }]

def ofText (path text : Text) : Except Refused ModuleSource := do
  let source := (← Document.read (readRecord fields {}) text).getD {}
  return if source.name.isEmpty then { source with name := moduleNameOf path } else source

def ofFile (files : Tree) (path : Text) : Except Refused ModuleSource :=
  match files.lookup path with
  | .error fault => .error (.error (.during .openingModule (.because (.file "open" path fault))))
  | .ok (.directory _) => .error (.error (.during (.decoding path) (.because .document)))
  | .ok (.file text) => (ofText path text).mapError (.during (.decoding path))

end ModuleSource

end Discharge
