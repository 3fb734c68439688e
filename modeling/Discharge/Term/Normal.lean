import Discharge.Term.Parts

/-!
The reduced set of operators that proofs are about: negation and disequality become equations with
`false`, and the greater-than family is turned round. With the integer sorts at hand a strict
comparison of numbers `a < b` becomes `a + 1 <= b`.
-/

namespace Discharge

structure Normalizer where
  /-- Whether the sorts of the integers and of the natural numbers are both known. -/
  integerSorts : Bool := false
  deriving DecidableEq, Repr, Inhabited

namespace Normalizer

open Term

def strictLess (n : Normalizer) (a b : Term) : Term :=
  if n.integerSorts && a.kind.numeric && b.kind.numeric then
    call "<=" .boolean [call "+" a.kind [a, symbol ⟨"1", .integer, .free⟩], b]
  else call "<" .boolean [a, b]

def reduce (n : Normalizer) (fn : Term) (args : List Term) (k : Kind) : Term :=
  match (apply fn args k).operator?, args with
  | some op, [a] => if op == "not" then equal a falsehood else apply fn args k
  | some op, [a, b] =>
    if op == "/=" then equal (equal a b) falsehood
    else if op == ">=" then call "<=" .boolean [b, a]
    else if op == ">" then n.strictLess b a
    else if op == "<" then n.strictLess a b
    else apply fn args k
  | _, _ => apply fn args k

mutual

def normalize (n : Normalizer) : Term → Term
  | symbol s => symbol s
  | apply fn args k => n.reduce fn (n.normalizeAll args) k
  | lambda params body k => lambda params (n.normalize body) k
  | cases branches otherwise k => cases (n.normalizeBranches branches) (n.normalize otherwise) k

def normalizeAll (n : Normalizer) : List Term → List Term
  | [] => []
  | t :: rest => n.normalize t :: n.normalizeAll rest

def normalizeBranches (n : Normalizer) : List (Term × Term) → List (Term × Term)
  | [] => []
  | (result, condition) :: rest =>
    (n.normalize result, n.normalize condition) :: n.normalizeBranches rest

end

end Normalizer

end Discharge
