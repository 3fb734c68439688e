import Discharge.ProofText.Stable
import Discharge.Report.Style

/-!
The lines that changed between two proof texts, dates and times disregarded: a shortest list of
removals and additions, and in each changed place the removals first.
-/

namespace Discharge.ProofText

inductive Edit where
  | keep (line : Text)
  | remove (line : Text)
  | add (line : Text)
  deriving DecidableEq, Repr, Inhabited

def linesOf : (line : List UInt8) → List UInt8 → List Text
  | line, [] => if line.isEmpty then [] else [.ofList line.reverse]
  | line, b :: rest =>
    if b == newline then .ofList (b :: line).reverse :: linesOf [] rest
    else linesOf (b :: line) rest

/-- For a line `x` in front of `xs`: the lengths of the longest common subsequences with each ending
of `ys`, given those of `xs`. -/
def lengthsRow (x : Text) : (ys : List Text) → (below : List Nat) → List Nat
  | [], _ => [0]
  | y :: ys, below =>
    let row := lengthsRow x ys below.tail
    let best := if x == y then below.tail.headD 0 + 1 else max (below.headD 0) (row.headD 0)
    best :: row

/-- The lengths of the longest common subsequences of all endings. -/
def lengths : (xs ys : List Text) → List (List Nat)
  | [], ys => [ys.map (fun _ => 0) ++ [0]]
  | x :: xs, ys =>
    let rows := lengths xs ys
    lengthsRow x ys (rows.headD []) :: rows

/-- A shortest list of edits that turns the lines from `i` on into those from `j` on. -/
def editsFrom (table : Array (Array Nat)) : (xs ys : List Text) → (i j : Nat) → List Edit
  | [], ys, _, _ => ys.map .add
  | xs, [], _, _ => xs.map .remove
  | x :: xs, y :: ys, i, j =>
    let entry (i j : Nat) : Nat := ((table[i]?).bind (·[j]?)).getD 0
    if x == y then .keep x :: editsFrom table xs ys (i + 1) (j + 1)
    else if entry (i + 1) j ≥ entry i (j + 1) then
      .remove x :: editsFrom table xs (y :: ys) (i + 1) j
    else .add y :: editsFrom table (x :: xs) ys i (j + 1)
  termination_by xs ys => xs.length + ys.length

def edits (xs ys : List Text) : List Edit :=
  editsFrom ((lengths xs ys).map List.toArray).toArray xs ys 0 0

/-- The changes in order; in each changed place the removals come before the additions. -/
def changes : (added : List Edit) → List Edit → List Edit
  | added, [] => added.reverse
  | added, .keep _ :: rest => added.reverse ++ changes [] rest
  | added, .remove l :: rest => .remove l :: changes added rest
  | added, .add l :: rest => changes (.add l :: added) rest

def withoutNewline (line : Text) : Text :=
  .ofList (line.toList.filter (· != newline))

def Edit.render (colours : Bool) : Edit → Text
  | .keep _ => ""
  | .remove l =>
    (Report.Style.mk .red false).paint colours ("- " ++ withoutNewline l) ++ "\n"
  | .add l =>
    (Report.Style.mk .green false).paint colours ("+ " ++ withoutNewline l) ++ "\n"

/-- What changed from one proof text to the next; nothing if there was none before. -/
def diff (colours : Bool) (previous current : Text) : Text :=
  if previous.isEmpty then ""
  else
    let before := stable previous
    let after := stable current
    if before == after then ""
    else Text.join ((changes [] (edits (linesOf [] before.toList) (linesOf [] after.toList))).map
      (Edit.render colours))

end Discharge.ProofText
