import Discharge.Engine
import Discharge.Files.Module
import Discharge.Report.Text

namespace Discharge

inductive FileChange where
  | created
  | written
  | removed
  | renamed
  | modeChanged
  deriving DecidableEq, Repr, Inhabited

namespace Engine

def watch (e : Engine) (paths : List Text) : Except Error Engine :=
  if e.isWatching then .error (.because .alreadyWatching)
  else
    let missing := paths.findSome? fun path =>
      match e.files.lookup path with
      | .ok _ => none
      | .error fault => some (path, fault)
    match missing with
    | some (path, fault) => .error (.during .watching (.because (.file "lstat" path fault)))
    | none => .ok { e with isWatching := true }

def unwatch (e : Engine) : Engine := { e with isWatching := false }

/-- Whether changes of a file call for another proof. -/
def concerns (path : Text) (changes : List FileChange) : Bool :=
  (changes.contains .written || changes.contains .created) && isModuleFile path

def react (e : Engine) (path : Text) (changes : List FileChange) :
    Option (Except Fault Outcome) × Engine :=
  if concerns path changes then
    let (o, e) := e.prove none path
    (some o, e)
  else (none, e)

end Engine

def FileChange.between (earlier t : Tree) : List (Text × FileChange) :=
  (earlier.updates t).map fun (path, _) =>
    (path, if (earlier.read? path).isSome then written else created)

def Outcome.render (colours : Bool) (o : Outcome) : Text :=
  (match o.error with
    | some e => "error: " ++ e.message ++ "\n"
    | none => "") ++
  match o.report with
    | some r => r.render colours ++ r.renderDiff colours
    | none => ""

end Discharge
