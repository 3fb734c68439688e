import Discharge.Library.Source

/-!
The modules that a module file needs: those that it imports and those imported by default, and what
they need in turn. A module is looked for beside the file that names it.
-/

namespace Discharge

structure Located where
  path : Text
  source : ModuleSource
  deriving DecidableEq, Repr, Inhabited

structure Closure where
  found : List Located
  /-- The names met so far, found or not. -/
  names : List Text
  deriving DecidableEq, Repr, Inhabited

namespace Closure

def locate (files : Tree) (dir name : Text) : Option Text :=
  (moduleExtensions.map fun e => Path.join dir (name ++ e)).find? fun path =>
    (files.read? path).isSome

/-- Meets a name in a file of a directory. A module that cannot be found is passed over; one that
is found has to bear the name it was looked for by. -/
def meet (files : Tree) (dir : Text) (c : Closure) (name : Text) : Except Refused Closure :=
  if c.names.contains name then .ok c
  else
    let c := { c with names := name :: c.names }
    match locate files dir name with
    | none => .ok c
    | some path =>
      match ModuleSource.ofFile files path with
      | .error r => .error (r.during (.importing name))
      | .ok source =>
        if source.name == name then .ok { c with found := c.found ++ [⟨path, source⟩] }
        else .error (.ofCause (.misnamedModule path source.name name))

def explore (files : Tree) (defaults : List Text) : (fuel position : Nat) → Closure →
    Except Refused Closure
  | 0, _, c => .ok c
  | fuel + 1, position, c =>
    match c.found[position]? with
    | none => .ok c
    | some l => do
      let c ← (l.source.imports ++ defaults).foldlM (meet files (Path.directory l.path)) c
      explore files defaults fuel (position + 1) c

/-- All modules that a module needs, itself first. Each comes from a file of its own, so there are
no more of them than files. -/
def needed (files : Tree) (defaults : List Text) (l : Located) : Except Refused (List Located) := do
  let c ← explore files defaults ((files.paths ".").length + 1) 0 ⟨[l], [l.source.name]⟩
  return c.found

end Closure

end Discharge
