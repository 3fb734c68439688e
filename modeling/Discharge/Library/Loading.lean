import Discharge.Library
import Discharge.Library.Closure

/-!
Modules loaded into a library. The symbols of all modules that a file needs are declared first, so
that each formula can be read with what its module sees.
-/

namespace Discharge

namespace Located

def declaration (l : Located) : Module where
  name := l.source.name
  path := l.path
  imports := l.source.imports
  symbols := l.source.symbols.map fun (name, k) => (name, ⟨k⟩)

end Located

def readFormula (sig : Formula.Signature) (source : Text) : Except Error Term :=
  match Formula.read sig source with
  | .ok t => .ok t
  | .error r => .error (.because (.formula source r))

def inStage {α : Type} (stage : Stage) : Except Error α → Except Error α
  | .ok a => .ok a
  | .error e => .error (.during stage e)

namespace ModuleSource

def readTheorems (symbols : List (Text × Kind)) : (seen : List Text) → List TheoremSource →
    Except Error (List Declaration)
  | _, [] => .ok []
  | seen, t :: rest => do
    if seen.contains t.name then throw (.because (.repeatedTheorem t.name))
    let sig : Formula.Signature := ⟨symbols, t.vars.map fun (name, k) => (name, ⟨k⟩)⟩
    let assertion ← inStage (.inTheorem t.name) (readFormula sig t.assertion)
    return ⟨t.name, some assertion⟩ :: (← readTheorems symbols (t.name :: seen) rest)

/-- A condition; one without a place in a program text has its place in the module file. -/
def readConditionOf (symbols : List (Text × Kind)) (path : Text) (c : ConditionSource) :
    Except Error Condition :=
  inStage (.inCondition c.id) do
    let left ← c.left.mapM (readFormula ⟨symbols, []⟩)
    let right ← c.right.mapM (readFormula ⟨symbols, []⟩)
    let file := if c.location.file.isEmpty then path else c.location.file
    return ⟨c.id, c.explanation, { c.location with file }, ⟨left, right⟩⟩

end ModuleSource

namespace Library

def kinds (l : Library) (module : Text) : List (Text × Kind) :=
  (l.symbols module).map fun s => (s.name, s.kind)

def complete (l : Library) (m : Located) : Except Error Module :=
  inStage (.inFile m.path) do
    let symbols := l.kinds m.source.name
    let theorems ← ModuleSource.readTheorems symbols [] m.source.theorems
    let conditions ← m.source.conditions.mapM (ModuleSource.readConditionOf symbols m.path)
    return { m.declaration with theorems, conditions }

def completeAll (l : Library) : List Located → List Error × Library
  | [] => ([], l)
  | m :: rest =>
    match l.complete m with
    | .error e =>
      let (errors, l) := l.completeAll rest
      (e :: errors, l)
    | .ok m => (l.put m).completeAll rest

/-- Loads a module file with all that it needs. A file that cannot be read leaves the library as it
was; a formula that cannot be read leaves its module without theorems and conditions. -/
def load (l : Library) (files : Tree) (path : Text) : Except Refused Module × Library :=
  let needed : Except Refused (Text × List Located) := do
    let source ← ModuleSource.ofFile files path
    return (source.name, ← Closure.needed files l.defaults ⟨path, source⟩)
  match needed with
  | .error r => (.error r, l)
  | .ok (name, needed) =>
    let (errors, l) := (l.putAll (needed.map Located.declaration)).completeAll needed
    match Error.join errors with
    | some e => (.error (.error e), l)
    | none => ((l.module name).mapError .error, l)

end Library

end Discharge
