import Discharge.Term

/-!
The written form of terms. Two-place operators stand between their operands, other applications
are calls, and an operand that is itself such an operation is put in parentheses.
-/

namespace Discharge.Term

def isOperation (name : Text) : Bool :=
  name.isOneOf ["=", "/=", "and", "or", "implies", "<=", "<", ">=", ">", "+", "-", "*", "/", "%"]

/-- A written term. The flag says that it is an operation, which is bracketed as an operand. -/
structure Printed where
  text : Text
  operation : Bool := false

namespace Printed

def operand (p : Printed) : Text :=
  if p.operation then "(" ++ p.text ++ ")" else p.text

def call (name : Text) (args : List Printed) : Printed :=
  ⟨name ++ "(" ++ Text.intercalate ", " (args.map text) ++ ")", false⟩

def application (name : Text) : List Printed → Printed
  | [a, b] =>
    if isOperation name then ⟨a.operand ++ " " ++ name ++ " " ++ b.operand, true⟩
    else call name [a, b]
  | args => call name args

end Printed

def param (s : Symbol) : Text :=
  s.name ++ ": " ++ s.kind.name

mutual

def print : Term → Printed
  | symbol s => ⟨s.name, false⟩
  | apply fn args _ => .application fn.print.text (printAll args)
  | lambda params body _ =>
    let names := Text.intercalate ", " (params.map param)
    ⟨"lambda(" ++ names ++ ").(" ++ body.print.text ++ ")", false⟩
  | cases branches otherwise _ =>
    ⟨"\x7b\x7b" ++ printBranches branches ++ otherwise.print.text ++ " otherwise\x7d\x7d", false⟩

def printAll : List Term → List Printed
  | [] => []
  | t :: rest => t.print :: printAll rest

def printBranches : List (Term × Term) → Text
  | [] => ""
  | (result, condition) :: rest =>
    result.print.text ++ " if " ++ condition.print.text ++ "; " ++ printBranches rest

end

def render (t : Term) : Text := t.print.text

/-- Terms are told apart by their written form only. -/
def same (a b : Term) : Bool := a.render == b.render

end Discharge.Term
