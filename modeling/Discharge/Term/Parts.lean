import Discharge.Term.Printer

namespace Discharge.Term

def operator? : Term → Option Text
  | apply (symbol s) _ _ => some s.name
  | _ => none

def arguments : Term → List Term
  | apply _ args _ => args
  | _ => []

def isApplication (t : Term) : Bool := !t.arguments.isEmpty

def subterms : Term → List Term
  | symbol _ => []
  | apply _ args _ => args
  | lambda _ body _ => [body]
  | cases branches otherwise _ => branches.flatMap (fun b => [b.1, b.2]) ++ [otherwise]

mutual

/-- The terms that nested applications of one operator join. -/
def splitOn (op : Text) : Term → List Term
  | apply fn args k =>
    if (apply fn args k).operator? == some op then splitAll op args else [apply fn args k]
  | t => [t]

def splitAll (op : Text) : List Term → List Term
  | [] => []
  | t :: rest => t.splitOn op ++ splitAll op rest

end

def conjuncts (t : Term) : List Term := t.splitOn "and"
def disjuncts (t : Term) : List Term := t.splitOn "or"

def isTruth : Term → Bool
  | symbol s => s.name == "true" && s.quantifier == .free
  | _ => false

def isFalsehood : Term → Bool
  | symbol s => s.name == "false" && s.quantifier == .free
  | _ => false

def sides? : Term → Option (Term × Term)
  | apply _ [a, b] _ => some (a, b)
  | _ => none

/-- An equation whose two sides are written alike. -/
def isTrivialEquation (t : Term) : Bool :=
  t.operator? == some "=" && t.sides?.any fun (a, b) => a.same b

mutual

/-- The symbols of a term as they stand in it, function positions included and the parameters of
anonymous functions left out. -/
def symbols : Term → List Symbol
  | symbol s => [s]
  | apply fn args _ => fn.symbols ++ symbolsAll args
  | lambda _ body _ => body.symbols
  | cases branches otherwise _ => symbolsBranches branches ++ otherwise.symbols

def symbolsAll : List Term → List Symbol
  | [] => []
  | t :: rest => t.symbols ++ symbolsAll rest

def symbolsBranches : List (Term × Term) → List Symbol
  | [] => []
  | (result, condition) :: rest => result.symbols ++ condition.symbols ++ symbolsBranches rest

end

def firstOfName (symbols : List Symbol) : List Symbol :=
  symbols.foldl
    (fun seen s => if seen.any (fun t => t.name == s.name) then seen else seen ++ [s]) []

def vars (t : Term) : List Symbol :=
  firstOfName (t.symbols.filter fun s => s.quantifier == .universal)

def names (t : Term) : List Text :=
  Text.distinct (t.symbols.map Symbol.name)

end Discharge.Term
