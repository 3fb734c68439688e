import Discharge.Term.Parts
import Discharge.Formula.Grammar

namespace Discharge.Formula

structure Signature where
  symbols : List (Text × Kind) := []
  vars : List (Text × Kind) := []
  deriving Inhabited

namespace Signature

def symbol (sig : Signature) (name : Text) : Symbol :=
  match sig.vars.lookup name with
  | some k => ⟨name, k, .universal⟩
  | none => ⟨name, (sig.symbols.lookup name).getD .entity, .free⟩

/-- A call of a name; implication is the one function that the language knows itself. -/
def applied (sig : Signature) (name : Text) (args : List Term) : Term :=
  match name == "implies", args with
  | true, [a, b] => .implication a b
  | _, _ => .apply (.symbol (sig.symbol name)) args (sig.symbol name).kind

end Signature

inductive Refusal where
  | malformed
  | operator (op : Text)
  | callee (text : Text)
  | memberAccess (text : Text)
  | expression (text : Text)
  deriving DecidableEq, Repr, Inhabited

def Refusal.message : Refusal → Text
  | malformed => "<syntax>"
  | operator op => "unsupported operator " ++ Text.quoted op
  | callee text => "unsupported callee " ++ text
  | memberAccess text => "unsupported member access " ++ text
  | expression text => "unsupported expression " ++ text

def termOperator? (op : String) : Option String :=
  match op with
  | "==" => some "="
  | "!=" => some "/="
  | "and" | "&&" => some "and"
  | "or" | "||" => some "or"
  | "<=" | "<" | ">=" | ">" | "+" | "-" | "*" | "/" | "%" => some op
  | _ => none

def isArithmetic (op : String) : Bool :=
  ["+", "-", "*", "/", "%"].contains op

namespace Tree

/-- The one name that a path of properties stands for. -/
def selector : Tree → Except Refusal Text
  | member base property isOptional =>
    match property with
    | text p =>
      match base with
      | name n => .ok (n ++ "." ++ p)
      | member b q o => do
        return (← (member b q o).selector) ++ "." ++ p
      | _ => .error (.memberAccess (member base property isOptional).render)
    | _ => .error (.memberAccess (member base property isOptional).render)
  | t => .error (.memberAccess t.render)

mutual

def toTerm (sig : Signature) : Tree → Except Refusal Term
  | truth value => .ok (if value then Term.truth else Term.falsehood)
  | integer value => .ok (.symbol ⟨toString value, .integer, .free⟩)
  | name n => .ok (.symbol (sig.symbol n))
  | member base property isOptional => do
    return .symbol (sig.symbol (← (member base property isOptional).selector))
  | unary op operand => do
    let t ← operand.toTerm sig
    match op with
    | "-" => return .call "-" t.kind [t]
    | "+" => return t
    | _ => return .negation t
  | binary op left right =>
    match termOperator? op with
    | none => .error (.operator op)
    | some o => do
      let l ← left.toTerm sig
      let r ← right.toTerm sig
      return .call o (if isArithmetic o then l.kind else .boolean) [l, r]
  | call (name n) args => do
    return sig.applied n (← toTerms sig args)
  | call callee _ => .error (.callee callee.render)
  | iteration n args => do
    return sig.applied n (← toTerms sig args)
  | condition test positive negative => do
    let c ← test.toTerm sig
    let p ← positive.toTerm sig
    let n ← negative.toTerm sig
    return .cases [(p, c)] n p.kind
  | t => .error (.expression t.render)

def toTerms (sig : Signature) : List Tree → Except Refusal (List Term)
  | [] => .ok []
  | t :: rest => do
    let first ← t.toTerm sig
    return first :: (← toTerms sig rest)

end

end Tree

def read (sig : Signature) (source : Text) : Except Refusal Term :=
  match Tree.read? source with
  | none => .error .malformed
  | some t => t.toTerm sig

end Discharge.Formula
