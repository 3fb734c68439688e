import Discharge.Congruence.Vocabulary

namespace Discharge.Congruence

structure Application where
  op : Nat
  args : List Nat
  deriving DecidableEq, Repr, Inhabited

namespace Application

def order : Application → Application → Ordering := compareLex (compareOn op) (compareOn args)

instance : Ord Application := ⟨order⟩

instance : Std.TransOrd Application :=
  inferInstanceAs (Std.TransCmp (compareLex (compareOn op) (compareOn args)))

theorem eq_of_order {a b : Application} (h : order a b = .eq) : a = b := by
  obtain ⟨op, args⟩ := a
  obtain ⟨op', args'⟩ := b
  have h := Ordering.then_eq_eq.mp h
  cases Std.LawfulEqOrd.eq_of_compare (α := Nat) h.1
  cases Std.LawfulEqOrd.eq_of_compare (α := List Nat) h.2
  rfl

instance : Std.LawfulEqOrd Application := ⟨eq_of_order⟩

end Application

structure Fact where
  app : Application
  result : Nat
  deriving DecidableEq, Repr, Inhabited

/-- The operators that a model knows the meaning of. -/
inductive Connective where
  | equality
  | conjunction
  | disjunction
  | implication
  deriving DecidableEq, Repr, Inhabited

def Connective.named? (op : Text) : Option Connective :=
  if op == "=" then some equality
  else if op == "and" then some conjunction
  else if op == "or" then some disjunction
  else if op == "implies" then some implication
  else none

/-- Operators whose operands may be exchanged. -/
def isCommutative (op : Text) : Bool := op == "=" || op == "and" || op == "or"

def insertInOrder (a : Nat) : List Nat → List Nat
  | [] => [a]
  | b :: rest => if a ≤ b then a :: b :: rest else b :: insertInOrder a rest

def inOrder (l : List Nat) : List Nat := l.foldr insertInOrder []

namespace Application

def canonical (v : Vocabulary) (a : Application) : Application :=
  ⟨v.root a.op, a.args.map v.root⟩

/-- What congruent applications have in common: their roots, the operands of a commutative
operator in order. -/
def key (v : Vocabulary) (a : Application) : Application :=
  let c := a.canonical v
  if isCommutative (v.name c.op) then ⟨c.op, inOrder c.args⟩ else c

def places (a : Application) : List Nat := a.op :: a.args

/-- How many places quantified symbols hold. -/
def quantifiers (v : Vocabulary) (a : Application) : Nat :=
  a.places.countP fun i => (v.usage (v.root i)).isQuantified

def names (v : Vocabulary) (a : Application) : List Text := a.places.map v.rootName

def render (v : Vocabulary) (a : Application) : Text :=
  v.rootName a.op ++ "(" ++ Text.intercalate ", " (a.args.map v.rootName) ++ ")"

end Application

namespace Fact

def render (v : Vocabulary) (f : Fact) : Text :=
  f.app.render v ++ " = " ++ v.name f.result

def label (v : Vocabulary) (f : Fact) : Text :=
  f.app.render v ++ "=" ++ v.name f.result

def byQuantifiers (v : Vocabulary) (facts : List Fact) : List Fact :=
  facts.mergeSort fun f g => f.app.quantifiers v ≤ g.app.quantifiers v

end Fact

end Discharge.Congruence
