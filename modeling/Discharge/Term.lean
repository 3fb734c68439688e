import Discharge.Text

/-!
Mathematical terms. A term is a symbol, an application, an anonymous function or a definition by
cases, and each carries the kind it is classified under.
-/

namespace Discharge

/-- The classification of a term, such as `B` for truth values or `Z` for integers. -/
structure Kind where
  name : Text
  deriving DecidableEq, Repr, Inhabited

namespace Kind

def boolean : Kind := ⟨"B"⟩
def integer : Kind := ⟨"Z"⟩
def natural : Kind := ⟨"N"⟩

/-- The kind of whatever was left undeclared; it is compatible with every other. -/
def entity : Kind := ⟨"Entity"⟩

def accepts (expected actual : Kind) : Bool :=
  expected == actual || expected == entity || actual == entity

def numeric (k : Kind) : Bool :=
  k == integer || k == natural

end Kind

inductive Quantifier where
  | free
  | universal
  | existential
  deriving DecidableEq, Repr, Inhabited

namespace Quantifier

def name : Quantifier → Text
  | free => "None"
  | universal => "ForAll"
  | existential => "Exists"

def ofCode? : Int → Option Quantifier
  | 0 => some free
  | 1 => some universal
  | 2 => some existential
  | _ => none

def codeName (n : Int) : Text := ((ofCode? n).map name).getD "?"

end Quantifier

structure Symbol where
  name : Text
  kind : Kind
  quantifier : Quantifier := .free
  deriving DecidableEq, Repr, Inhabited

inductive Term where
  | symbol (s : Symbol)
  | apply (fn : Term) (args : List Term) (kind : Kind)
  | lambda (params : List Symbol) (body : Term) (kind : Kind)
  /-- Results guarded by conditions, and what holds when no condition does. -/
  | cases (branches : List (Term × Term)) (otherwise : Term) (kind : Kind)
  deriving Inhabited

namespace Term

def kind : Term → Kind
  | symbol s => s.kind
  | apply _ _ k => k
  | lambda _ _ k => k
  | cases _ _ k => k

def truth : Term := symbol ⟨"true", .boolean, .free⟩
def falsehood : Term := symbol ⟨"false", .boolean, .free⟩

def universal (name : Text) (kind : Kind) : Term :=
  symbol ⟨name, kind, .universal⟩

def call (op : Text) (kind : Kind) (args : List Term) : Term :=
  apply (symbol ⟨op, kind, .free⟩) args kind

def equal (a b : Term) : Term := call "=" .boolean [a, b]
def conj (a b : Term) : Term := call "and" .boolean [a, b]
def disj (a b : Term) : Term := call "or" .boolean [a, b]
def negation (a : Term) : Term := call "not" .boolean [a]
def implication (a b : Term) : Term := call "implies" .boolean [a, b]

end Term

end Discharge
