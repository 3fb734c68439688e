import Discharge.Formula.Token

namespace Discharge.Formula

inductive Tree where
  | nothing
  | truth (value : Bool)
  | integer (value : Nat)
  | decimal (value : Decimal.Binary)
  | text (value : Text)
  | name (text : String)
  | unary (op : String) (operand : Tree)
  | binary (op : String) (left right : Tree)
  | chain (inner : Tree)
  | member (base property : Tree) (isOptional : Bool)
  | slice (base : Tree) (first last : Option Tree)
  | call (callee : Tree) (args : List Tree)
  | iteration (function : String) (args : List Tree)
  | predicate (body : Tree)
  | element (name : String)
  | condition (test positive negative : Tree)
  | binding (name : String) (value body : Tree)
  | sequence (parts : List Tree)
  | array (items : List Tree)
  | map (pairs : List (Tree × Tree))
  deriving Inhabited

def binaryPrecedence? (op : String) : Option Nat :=
  match op with
  | "|" => some 0
  | "or" | "||" => some 10
  | "and" | "&&" => some 15
  | "==" | "!=" | "<" | ">" | "<=" | ">=" => some 20
  | "in" | "matches" | "contains" | "startsWith" | "endsWith" => some 20
  | ".." => some 25
  | "+" | "-" => some 30
  | "*" | "/" | "%" => some 60
  | "**" | "^" => some 100
  | "??" => some 500
  | _ => none

def unaryPrecedence? (op : String) : Option Nat :=
  match op with
  | "not" | "!" => some 50
  | "-" | "+" => some 90
  | _ => none

def isRightAssociative (op : String) : Bool := op == "**" || op == "^"

def isComparison (op : String) : Bool := op == "<" || op == ">" || op == "<=" || op == ">="

def isConnective (op : String) : Bool := op == "and" || op == "or" || op == "&&" || op == "||"

namespace Tree

def bracketed (wrap : Bool) (text : Text) : Text :=
  if wrap then "(" ++ text ++ ")" else text

def isCondition : Tree → Bool
  | condition .. => true
  | _ => false

def wrapsUnder (op : String) : Tree → Bool
  | binary inner _ _ => (binaryPrecedence? inner).getD 0 < (unaryPrecedence? op).getD 0
  | condition .. => true
  | _ => false

def wrapsLeft (op : String) : Tree → Bool
  | unary inner _ => (unaryPrecedence? inner).getD 0 < (binaryPrecedence? op).getD 0
  | binary inner _ _ =>
    let outer := (binaryPrecedence? op).getD 0
    let own := (binaryPrecedence? inner).getD 0
    own < outer || (own == outer && isRightAssociative op) || inner == "??" ||
      (isConnective inner && op != inner)
  | condition .. => true
  | _ => false

def wrapsRight (op : String) : Tree → Bool
  | binary inner _ _ =>
    let outer := (binaryPrecedence? op).getD 0
    let own := (binaryPrecedence? inner).getD 0
    own < outer || (own == outer && !isRightAssociative op) || (isConnective inner && op != inner)
  | condition .. => true
  | _ => false

def isBinary : Tree → Bool
  | binary .. => true
  | _ => false

def isElement : Tree → Bool
  | element _ => true
  | _ => false

def bareName? : Tree → Option Text
  | text value => if Token.isName value then some value else none
  | _ => none

mutual

def render : Tree → Text
  | nothing => "nil"
  | truth value => if value then "true" else "false"
  | integer value => toString value
  | decimal value => Decimal.general value
  | text value => value.quoted
  | name n => n
  | unary op operand =>
    (if op == "not" then "not " else op) ++ bracketed (operand.wrapsUnder op) operand.render
  | binary op left right =>
    if op == ".." then left.render ++ ".." ++ right.render
    else bracketed (left.wrapsLeft op) left.render ++ " " ++ op ++ " " ++
      bracketed (right.wrapsRight op) right.render
  | chain inner => inner.render
  | member base property isOptional =>
    let owner := bracketed base.isBinary base.render
    match property.bareName? with
    | some n =>
      if isOptional then owner ++ "?." ++ n
      else if base.isElement then "." ++ n
      else owner ++ "." ++ n
    | none => owner ++ (if isOptional then "?.[" else "[") ++ property.render ++ "]"
  | slice base first last =>
    base.render ++ "[" ++ renderOption first ++ ":" ++ renderOption last ++ "]"
  | call callee args => callee.render ++ "(" ++ Text.intercalate ", " (renderAll args) ++ ")"
  | iteration function args => function ++ "(" ++ Text.intercalate ", " (renderAll args) ++ ")"
  | predicate body => body.render
  | element n => "#" ++ n
  | condition test positive negative =>
    bracketed test.isCondition test.render ++ " ? " ++
      bracketed positive.isCondition positive.render ++ " : " ++
      bracketed negative.isCondition negative.render
  | binding n value body => "let " ++ n ++ " = " ++ value.render ++ "; " ++ body.render
  | sequence parts => Text.intercalate "; " (renderAll parts)
  | array items => "[" ++ Text.intercalate ", " (renderAll items) ++ "]"
  | map pairs => "\x7b" ++ Text.intercalate ", " (renderPairs pairs) ++ "\x7d"

def renderOption : Option Tree → Text
  | none => ""
  | some t => t.render

def renderAll : List Tree → List Text
  | [] => []
  | t :: rest => t.render :: renderAll rest

def renderPairs : List (Tree × Tree) → List Text
  | [] => []
  | (key, value) :: rest =>
    let shown := match key with
      | text k => if Token.isName k then k else k.quoted
      | _ => "(" ++ key.render ++ ")"
    (shown ++ ": " ++ value.render) :: renderPairs rest

end

end Tree

end Discharge.Formula
