import Discharge.Formula.Tree

/-!
The grammar of formulas. Operators bind by precedence; every nested expression starts behind a
token of the expression around it, so the number of tokens bounds the nesting.
-/

namespace Discharge.Formula

namespace Grammar

structure State where
  tokens : List Token
  nodes : Nat := 0
  depth : Nat := 0

abbrev Reader := StateT State Option

def maxNodes : Nat := 10000

def build (t : Tree) : Reader Tree := do
  let s ← get
  if s.nodes ≥ maxNodes then failure
  set { s with nodes := s.nodes + 1 }
  return t

def peek : Reader (Option Token) := return (← get).tokens.head?

def advance : Reader Unit := modify fun s => { s with tokens := s.tokens.drop 1 }

def remaining : Reader Nat := return (← get).tokens.length

def sees (t : Token) : Reader Bool := return (← peek) == some t

def seesOperator (op : String) : Reader Bool := sees (.operator op)

def seesBracket (c : Char) : Reader Bool := sees (.bracket c)

def skip (t : Token) : Reader Bool := do
  if ← sees t then
    advance
    return true
  return false

def expect (t : Token) : Reader Unit := do
  if !(← skip t) then failure

def expectName : Reader String := do
  match ← peek with
  | some (.name n) =>
    advance
    return n
  | _ => failure

/-- The functions that take a predicate, with the arguments that may follow: whether each is a
predicate and whether it may be left out. -/
def iterationArgs? (function : String) : Option (List (Bool × Bool)) :=
  match function with
  | "all" | "none" | "any" | "one" | "filter" | "map" | "find" | "findIndex" | "findLast"
  | "findLastIndex" | "groupBy" => some [(false, false), (true, false)]
  | "count" | "sum" => some [(false, false), (true, true)]
  | "sortBy" | "reduce" => some [(false, false), (true, false), (false, true)]
  | _ => none

/-- The operators that can be negated by a `not` in front of them. -/
def negatable : List String := ["in", "matches", "contains", "startsWith", "endsWith"]

/-- The value of a numeral; whole numbers have 63 bits. -/
def numeral? (text : String) : Option Tree :=
  let digits := text.toList.filter (· != '_')
  match digits with
  | '0' :: m :: rest =>
    if m == 'x' || m == 'X' then whole 16 Decimal.digitValue? rest
    else if digits.any isFractional then fractional digits
    else if m == 'b' || m == 'B' then whole 2 decimalValue? rest
    else if m == 'o' || m == 'O' then whole 8 decimalValue? rest
    else whole 10 decimalValue? digits
  | _ => if digits.any isFractional then fractional digits else whole 10 decimalValue? digits
where
  decimalValue? (c : Char) : Option Nat := if c.isDigit then some (c.toNat - 48) else none
  isFractional (c : Char) : Bool := c == '.' || c == 'e' || c == 'E'
  whole (base : Nat) (value? : Char → Option Nat) (digits : List Char) : Option Tree := do
    if digits.isEmpty then failure
    let value ← digits.foldlM (fun acc c => do
      let d ← value? c
      guard (d < base)
      return acc * base + d) 0
    guard (value < Decimal.wordLimit)
    return .integer value
  fractional (digits : List Char) : Option Tree := do
    let isMark := fun c => c == 'e' || c == 'E'
    let body := digits.takeWhile fun c => !isMark c
    let tail := digits.dropWhile fun c => !isMark c
    let before := body.takeWhile (· != '.')
    let behind := (body.dropWhile (· != '.')).drop 1
    guard (!(before ++ behind).isEmpty && (before ++ behind).all Char.isDigit)
    let power ← match tail with
      | [] => some 0
      | _ :: '-' :: ds => (natural? ds).map fun n => -(n : Int)
      | _ :: '+' :: ds => (natural? ds).map fun n => (n : Int)
      | _ :: ds => (natural? ds).map fun n => (n : Int)
    let value := (before ++ behind).foldl (fun acc c => acc * 10 + (c.toNat - 48)) 0
    return .decimal (← Decimal.Binary.ofDecimal? value (power - behind.length))
  natural? (digits : List Char) : Option Nat :=
    if digits.isEmpty || !digits.all Char.isDigit then none
    else some (digits.foldl (fun acc c => acc * 10 + (c.toNat - 48)) 0)

section

-- the reader of nested expressions takes the least precedence that still belongs to it
variable (expression : Nat → Reader Tree)

def sequenceRest : (fuel : Nat) → Array Tree → Reader (Array Tree)
  | 0, parts => return parts
  | fuel + 1, parts => do
    if !(← skip (.operator ";")) then return parts
    -- a last semicolon is allowed only at the end of the whole text
    if (← peek).isNone then return parts
    sequenceRest fuel (parts.push (← expression 0))

def sequence : Reader Tree := do
  let first ← expression 0
  let parts ← sequenceRest expression (← remaining) #[first]
  if parts.size > 1 then build (.sequence parts.toList) else return first

def items (close : Char) : (fuel : Nat) → Array Tree → Reader (Array Tree)
  | 0, _ => failure
  | fuel + 1, acc => do
    if ← skip (.bracket close) then return acc
    if !acc.isEmpty then
      expect (.operator ",")
      if ← skip (.bracket close) then return acc
    items close fuel (acc.push (← expression 0))

def arguments : Reader (List Tree) := do
  expect (.bracket '(')
  return (← items expression ')' ((← remaining) + 1) #[]).toList

def predicate : Reader Tree := do
  let braces ← skip (.bracket '\x7b')
  modify fun s => { s with depth := s.depth + 1 }
  let body ← if braces then sequence expression else expression 0
  modify fun s => { s with depth := s.depth - 1 }
  if braces then expect (.bracket '\x7d')
  else if ← seesOperator ";" then failure
  build (.predicate body)

def iterationArgs : (expected : List (Bool × Bool)) → (first : Bool) → Array Tree →
    Reader (Array Tree)
  | [], _, acc => return acc
  | (isPredicate, mayMiss) :: rest, first, acc => do
    if ← seesBracket ')' then
      if mayMiss then return acc else failure
    if !first then expect (.operator ",")
    let arg ← if isPredicate then predicate expression else expression 0
    iterationArgs rest false (acc.push arg)

def call (function : String) (piped : List Tree) : Reader Tree := do
  match iterationArgs? function with
  | some expected =>
    expect (.bracket '(')
    let args ← iterationArgs expression (expected.drop piped.length) true piped.toArray
    let _ ← skip (.operator ",")
    expect (.bracket ')')
    build (.iteration function args.toList)
  | none =>
    let callee ← build (.name function)
    let args ← arguments expression
    build (.call callee (piped ++ args))

def property : Reader Tree := do
  match ← peek with
  | some (.name n) =>
    advance
    build (.text n)
  | some (.operator op) =>
    if !Token.isName op then failure
    advance
    build (.text op)
  | _ => failure

def index (base : Tree) (isOptional : Bool) : Reader Tree := do
  if ← skip (.operator ":") then
    if ← skip (.bracket ']') then build (.slice base none none)
    else
      let last ← expression 0
      let t ← build (.slice base none (some last))
      expect (.bracket ']')
      return t
  else
    let first ← expression 0
    if ← skip (.operator ":") then
      if ← skip (.bracket ']') then build (.slice base (some first) none)
      else
        let last ← expression 0
        let t ← build (.slice base (some first) (some last))
        expect (.bracket ']')
        return t
    else
      let t ← build (.member base first isOptional)
      let t ← if isOptional then build (.chain t) else pure t
      expect (.bracket ']')
      return t

def access (base : Tree) (isOptional : Bool) : Reader Tree := do
  let p ← property
  let (inner, chained) := match base with
    | .chain inner => (inner, true)
    | _ => (base, false)
  let m ← build (.member inner p isOptional)
  let t ← if ← seesBracket '(' then do
      let args ← arguments expression
      build (.call m args)
    else pure m
  if chained || isOptional then build (.chain t) else return t

def postfixes : (fuel : Nat) → Tree → Reader Tree
  | 0, base => return base
  | fuel + 1, base => do
    if ← skip (.operator ".") then postfixes fuel (← access expression base false)
    else if ← skip (.operator "?.") then
      if ← skip (.bracket '[') then postfixes fuel (← index expression base true)
      else postfixes fuel (← access expression base true)
    else if ← skip (.bracket '[') then postfixes fuel (← index expression base false)
    else return base

def withPostfixes (base : Tree) : Reader Tree := do
  postfixes expression (← remaining) base

def pairs : (fuel : Nat) → Array (Tree × Tree) → Reader (Array (Tree × Tree))
  | 0, _ => failure
  | fuel + 1, acc => do
    if ← skip (.bracket '\x7d') then return acc
    if !acc.isEmpty then
      expect (.operator ",")
      if ← skip (.bracket '\x7d') then return acc
    let key ← match ← peek with
      | some (.name n) | some (.number n) => do
        advance
        build (.text n)
      | some (.string value) => do
        advance
        build (.text value)
      | some (.bracket '(') => expression 0
      | _ => failure
    expect (.operator ":")
    let value ← expression 0
    -- a pair is a node of its own
    let _ ← build value
    pairs fuel (acc.push (key, value))

def atom : Reader Tree := do
  match ← peek with
  | some (.name n) =>
    advance
    match n with
    | "true" => build (.truth true)
    | "false" => build (.truth false)
    | "nil" => build .nothing
    | _ =>
      let t ← if ← seesBracket '(' then call expression n [] else build (.name n)
      withPostfixes expression t
  | some (.number n) =>
    advance
    match numeral? n with
    | some t => build t
    | none => failure
  | some (.string s) =>
    advance
    withPostfixes expression (← build (.text s))
  | some (.bracket '[') =>
    advance
    let parts ← items expression ']' ((← remaining) + 1) #[]
    withPostfixes expression (← build (.array parts.toList))
  | some (.bracket '\x7b') =>
    advance
    let parts ← pairs expression ((← remaining) + 1) #[]
    withPostfixes expression (← build (.map parts.toList))
  | _ => failure

def primary : Reader Tree := do
  let inside := (← get).depth > 0
  match ← peek with
  | some (.bracket '(') =>
    advance
    let t ← sequence expression
    expect (.bracket ')')
    withPostfixes expression t
  | some (.operator op) =>
    if let some precedence := unaryPrecedence? op then
      advance
      let operand ← expression precedence
      withPostfixes expression (← build (.unary op operand))
    else if inside && op == "#" then
      advance
      let n ← match ← peek with
        | some (.name n) => do
          advance
          pure n
        | _ => pure ""
      withPostfixes expression (← build (.element n))
    else if inside && op == "." then
      withPostfixes expression (← build (.element ""))
    else if op == "::" then
      advance
      let n ← expectName
      withPostfixes expression (← call expression n [])
    else failure
  | _ => atom expression

/-- The rest of a chain of comparisons, of which each is joined to the next by its middle term. -/
def comparisons : (fuel : Nat) → (joined : Option Tree) → (left : Tree) → (op : String) →
    Reader Tree
  | 0, _, _, _ => failure
  | fuel + 1, joined, left, op => do
    let right ← expression 21
    let comparison ← build (.binary op left right)
    let joined ← match joined with
      | none => pure comparison
      | some before => build (.binary "&&" before comparison)
    match ← peek with
    | some (.operator next) =>
      if isComparison next then
        advance
        comparisons fuel (some joined) right next
      else return joined
    | _ => return joined

/-- Applies the operators that bind at least as tightly as `least` to a first operand. -/
def operations (least : Nat) : (fuel : Nat) → (previous : String) → (left : Tree) → Reader Tree
  | 0, _, left => return left
  | fuel + 1, previous, left => do
    let (negated, op) ← match (← get).tokens with
      -- the operator that is negated may be quoted
      | .operator "not" :: .operator op :: _ =>
        if negatable.contains op then pure (true, op) else failure
      | .operator "not" :: .string value :: _ =>
        match negatable.find? fun op => value == Text.ofString op with
        | some op => pure (true, op)
        | none => failure
      | .operator "not" :: _ => failure
      | .operator op :: _ => pure (false, op)
      | _ => pure (false, "")
    match binaryPrecedence? op with
    | none => return left
    | some precedence =>
      if precedence < least then return left
      if negated then advance
      advance
      if op == "|" then
        let n ← expectName
        operations least fuel op (← call expression n [left])
      else if previous == "??" && op != "??" then failure
      else if isComparison op then
        operations least fuel op (← comparisons expression ((← remaining) + 1) none left op)
      else
        let right ← expression (if isRightAssociative op then precedence else precedence + 1)
        let t ← build (.binary op left right)
        let t ← if negated then build (.unary "not" t) else pure t
        operations least fuel op t

def choices : (fuel : Nat) → Tree → Reader Tree
  | 0, t => return t
  | fuel + 1, t => do
    if !(← skip (.operator "?")) then return t
    if ← skip (.operator ":") then
      let negative ← expression 0
      choices fuel (← build (.condition t t negative))
    else
      let positive ← expression 0
      expect (.operator ":")
      let negative ← expression 0
      choices fuel (← build (.condition t positive negative))

def definition : Reader Tree := do
  let n ← expectName
  expect (.operator "=")
  let value ← expression 0
  expect (.operator ";")
  let body ← sequence expression
  build (.binding n value body)

def conditional : Reader Tree := do
  let test ← expression 0
  expect (.bracket '\x7b')
  let positive ← sequence expression
  expect (.bracket '\x7d')
  expect (.operator "else")
  expect (.bracket '\x7b')
  let negative ← sequence expression
  expect (.bracket '\x7d')
  return .condition test positive negative

def operated (least : Nat) : Reader Tree := do
  let first ← primary expression
  let t ← operations expression least ((← remaining) + 1) "" first
  if least == 0 then choices expression (← remaining) t else return t

/-- One level of an expression. Only the loosest level has definitions and choices between blocks. -/
def level (least : Nat) : Reader Tree := do
  if least == 0 then
    if ← skip (.operator "let") then definition expression
    else if ← skip (.operator "if") then conditional expression
    else operated expression least
  else operated expression least

end

def expression : (fuel : Nat) → (least : Nat) → Reader Tree
  | 0, _ => failure
  | fuel + 1, least => level (expression fuel) least

end Grammar

def Tree.read? (source : Text) : Option Tree := do
  let tokens ← Token.scan source
  let reader := Grammar.sequence (Grammar.expression (tokens.length + 1))
  let (t, rest) ← reader.run ⟨tokens, 0, 0⟩
  if rest.tokens.isEmpty then some t else none

end Discharge.Formula
