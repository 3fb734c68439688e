import Discharge.Error
import Discharge.Files.Path

/-!
Trees of files, and what a path in one leads to. Paths are followed from the root name by name; a
path that starts with a slash leads out of the tree, and so do two dots at the root. Of what is
there only the directory itself is known.
-/

namespace Discharge

inductive Tree where
  | file (content : Text)
  | directory (entries : List (Text × Tree))
  deriving Inhabited

namespace Tree

def empty : Tree := directory []

def isDirectory : Tree → Bool
  | file _ => false
  | directory _ => true

def entries : Tree → List (Text × Tree)
  | file _ => []
  | directory entries => entries

/-- Follows names from a tree; `above` are the directories that it is in, the nearest first. -/
def follow : (above : List Tree) → Tree → List Text → Except FileFault Tree
  | _, t, [] => .ok t
  | _, file _, _ :: _ => .error .notDirectory
  | above, directory entries, name :: rest =>
    if name.isEmpty || name == "." then follow above (directory entries) rest
    else if name == ".." then
      match above with
      | [] => follow [] (directory []) rest
      | t :: above => follow above t rest
    else if name.length > 255 then .error .nameTooLong
    else
      match entries.lookup name with
      | none => .error .notFound
      | some t => follow (directory entries :: above) t rest

/-- What is wrong with a path wherever it is followed from. A path has at most 4095 bytes, none of
which is null. -/
def pathFault? (path : Text) : Option FileFault :=
  if path.isEmpty then some .notFound
  else if path.toList.contains 0 then some .invalidPath
  else if path.length > 4095 then some .nameTooLong
  else none

def lookup (t : Tree) (path : Text) : Except FileFault Tree :=
  match pathFault? path with
  | some fault => .error fault
  | none => follow [] (if Path.isRooted path then empty else t) (Path.names path)

def insertEntry (name : Text) (t : Tree) : List (Text × Tree) → List (Text × Tree)
  | [] => [(name, t)]
  | (n, u) :: rest =>
    if n < name then (n, u) :: insertEntry name t rest
    else if n == name then (name, t) :: rest
    else (name, t) :: (n, u) :: rest

def alter (change : Option Tree → Tree) : List Text → Option Tree → Tree
  | [], t => change t
  | name :: rest, t =>
    let entries := (t.map entries).getD []
    directory (insertEntry name (alter change rest (entries.lookup name)) entries)

def namesOf (path : Text) : List Text :=
  ((Path.names path).foldl (Path.step true) []).reverse

def putFile (t : Tree) (path content : Text) : Tree :=
  alter (fun _ => file content) (namesOf path) (some t)

def putDirectory (t : Tree) (path : Text) : Tree :=
  alter (fun u => u.getD empty) (namesOf path) (some t)

/-- Puts paths into a tree; those that end in a slash are directories. -/
def putAll (t : Tree) (files : List (Text × Text)) : Tree :=
  files.foldl (fun t (path, content) =>
    if Path.endsInSlash path then t.putDirectory path else t.putFile path content) t

def isFileName (name : Text) : Bool := !name.isOneOf ["", ".", ".."]

/-- Writes a file, whose directory has to be there. A name with a slash behind it can only be that
of a directory. -/
def write (t : Tree) (path content : Text) : Except FileFault Tree :=
  let bare := Path.trimmed path
  if bare != path && isFileName (Path.lastName bare) then
    match pathFault? path with
    | some fault => .error fault
    | none => (t.lookup (Path.parent bare)).bind fun _ => .error .isDirectory
  else match t.lookup path with
    | .ok (directory _) => .error .isDirectory
    | .ok (file _) => .ok (t.putFile path content)
    | .error .notFound =>
      if isFileName (Path.lastName path) && !Path.leadsOut path then
        (t.lookup (Path.parent path)).map fun _ => t.putFile path content
      else .error .notFound
    | .error fault => .error fault

def read? (t : Tree) (path : Text) : Option Text :=
  match t.lookup path with
  | .ok (file content) => some content
  | _ => none

mutual

def paths (path : Text) : Tree → List Text
  | file _ => [path]
  | directory entries => pathsOf path entries

def pathsOf (path : Text) : List (Text × Tree) → List Text
  | [] => []
  | (name, t) :: rest => t.paths (Path.join path name) ++ pathsOf path rest

end

/-- The files of a tree with their texts, except those that an earlier tree has just so. -/
def updates (earlier t : Tree) : List (Text × Text) :=
  (t.paths ".").filterMap fun path => do
    let content ← t.read? path
    if earlier.read? path == some content then none else some (path, content)

end Tree

end Discharge
