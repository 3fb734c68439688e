import Discharge.Text

namespace Discharge.Path

def slash : UInt8 := '/'.toUInt8

def dot : UInt8 := '.'.toUInt8

def splitLast (b : UInt8) (bytes : List UInt8) : List UInt8 × List UInt8 :=
  ((bytes.reverse.dropWhile (· != b)).reverse, (bytes.reverse.takeWhile (· != b)).reverse)

def before (path : Text) : Text := .ofList (splitLast slash path.toList).1

def lastName (path : Text) : Text := .ofList (splitLast slash path.toList).2

def extension (path : Text) : Text :=
  let name := (lastName path).toList
  if name.contains dot then .ofList (dot :: (splitLast dot name).2) else ""

def stem (path : Text) : Text :=
  .ofList (path.toList.take (path.length - (extension path).length))

def namesFrom : (name : List UInt8) → List UInt8 → List Text
  | name, [] => [.ofList name.reverse]
  | name, b :: rest =>
    if b == slash then .ofList name.reverse :: namesFrom [] rest else namesFrom (b :: name) rest

def names (path : Text) : List Text := namesFrom [] path.toList

def isRooted (path : Text) : Bool := path.toList.head? == some slash

/-- Removes what a name leaves undone: `.` and empty names say nothing, and `..` takes back the name
before it. -/
def step (rooted : Bool) (done : List Text) (name : Text) : List Text :=
  if name.isEmpty || name == "." then done
  else if name == ".." then
    match done with
    | last :: rest => if last == ".." then ".." :: done else rest
    | [] => if rooted then [] else [".."]
  else name :: done

/-- The shortest path of the same meaning. -/
def clean (path : Text) : Text :=
  let text := Text.intercalate "/" ((names path).foldl (step (isRooted path)) []).reverse
  if isRooted path then "/" ++ text
  else if text.isEmpty then "."
  else text

/-- Whether a path leads out of the directory that it is followed from. -/
def leadsOut (path : Text) : Bool :=
  isRooted path || (names (clean path)).head? == some ".."

def join (dir name : Text) : Text :=
  if dir.isEmpty then (if name.isEmpty then "" else clean name)
  else if name.isEmpty then clean dir
  else clean (dir ++ "/" ++ name)

def directory (path : Text) : Text := clean (before path)

def parent (path : Text) : Text :=
  if (before path).isEmpty then "." else before path

def trimmed (path : Text) : Text :=
  .ofList ((path.toList.reverse.dropWhile (· == slash)).reverse)

def endsInSlash (path : Text) : Bool := path.toList.getLast? == some slash

def base (path : Text) : Text :=
  if path.isEmpty then "."
  else if (trimmed path).isEmpty then "/"
  else lastName (trimmed path)

end Discharge.Path
