import Discharge.Text.Quoted
import Discharge.Decimal.Numeral

namespace Discharge.Formula

inductive Token where
  | name (text : String)
  | number (text : String)
  | string (value : Text)
  | operator (text : String)
  | bracket (c : Char)
  deriving DecidableEq, Repr, Inhabited

namespace Token

def isNameStart (c : Char) : Bool := c == '_' || c == '$' || Text.isLetter c

def isNameChar (c : Char) : Bool := isNameStart c || Text.isDigit c

def isName (text : Text) : Bool :=
  match text.chars with
  | [] => false
  | c :: rest => isNameStart c && rest.all isNameChar

def wordOperators : List String :=
  ["in", "or", "and", "matches", "contains", "startsWith", "endsWith", "let", "if", "else", "not"]

def ofWord (text : String) : Token :=
  if wordOperators.contains text then operator text else name text

def octalValue? (c : Char) : Option Nat :=
  if '0' ≤ c && c ≤ '7' then some (c.toNat - 48) else none

/-- What a code stands for: the character with this code point, or the replacement character for a
surrogate. From bit 31 on a code counts as negative, and of that only the low byte is kept. -/
def partOfCode? (code : Nat) : Option Text.Part :=
  if code ≥ 0x80000000 then some (.byte (UInt8.ofNat code))
  else if code > 0x10FFFF then none
  else if 0xD800 ≤ code && code ≤ 0xDFFF then some '\ufffd'
  else some (Char.ofNat code)

def takeDigits (value? : Char → Option Nat) (base : Nat) :
    (count : Nat) → List Text.Part → (acc : Nat) → Option (Nat × List Text.Part)
  | 0, rest, acc => some (acc, rest)
  | count + 1, .char c :: rest, acc => do
    takeDigits value? base count rest (acc * base + (← value? c))
  | _ + 1, _, _ => none

def escape? (quote : Char) : List Text.Part → Option (Text.Part × List Text.Part)
  | .char c :: rest =>
    if c == quote || c == '\\' then some (c, rest)
    else match c with
      | 'a' => some ('\x07', rest)
      | 'b' => some ('\x08', rest)
      | 'f' => some ('\x0c', rest)
      | 'n' => some ('\n', rest)
      | 'r' => some ('\r', rest)
      | 't' => some ('\t', rest)
      | 'v' => some ('\x0b', rest)
      | 'x' => hex 2 rest
      | 'u' => hex 4 rest
      | 'U' => hex 8 rest
      | _ =>
        if '0' ≤ c && c ≤ '3' then do
          let (code, rest) ← takeDigits octalValue? 8 2 rest (c.toNat - 48)
          return (← partOfCode? code, rest)
        else none
  | _ => none
where
  hex (count : Nat) (rest : List Text.Part) : Option (Text.Part × List Text.Part) := do
    let (code, rest) ← takeDigits Decimal.digitValue? 16 count rest 0
    return (← partOfCode? code, rest)

/-- Reads a quoted string up to its closing quote on the same line. A carriage return in it stands
for a line feed, and a byte that belongs to no character for the replacement character. -/
def scanString (quote : Char) : (fuel : Nat) → List Text.Part → (acc : List Text.Part) →
    Option (Text × List Text.Part)
  | 0, _, _ => none
  | _ + 1, [], _ => none
  | fuel + 1, p :: rest, acc =>
    if p == quote then some (.ofParts acc.reverse, rest)
    else if p == '\n' then none
    else if p == '\\' then do
      let (part, rest) ← escape? quote rest
      scanString quote fuel rest (part :: acc)
    else if p == '\r' then scanString quote fuel rest ('\n' :: acc)
    else scanString quote fuel rest (p.toChar :: acc)

def scanRaw (input : List Text.Part) : Option (Text × List Text.Part) :=
  match input.dropWhile (· != Text.Part.char '\x60') with
  | [] => none
  | _ :: rest => some (.ofParts (input.takeWhile (· != Text.Part.char '\x60')), rest)

def skipComment : List Text.Part → Option (List Text.Part)
  | [] => none
  | .char '*' :: .char '/' :: rest => some rest
  | _ :: rest => skipComment rest

def span (inClass : Char → Bool) (input : List Text.Part) : List Char × List Text.Part :=
  ((input.takeWhile (Text.Part.isIn inClass)).map Text.Part.toChar,
    input.dropWhile (Text.Part.isIn inClass))

def accept (set : List Char) : List Text.Part → List Char × List Text.Part
  | .char c :: rest => if set.contains c then ([c], rest) else ([], .char c :: rest)
  | rest => ([], rest)

def sees (inClass : Char → Bool) (input : List Text.Part) : Bool :=
  input.head?.any (Text.Part.isIn inClass)

def scanNumber (input : List Text.Part) : Option (Token × List Text.Part) :=
  let (point, rest) := span (· == '.') input
  let (zero, rest) := accept ['0'] rest
  let (mark, rest) := if zero.isEmpty then ([], rest)
    else accept ['x', 'X', 'o', 'O', 'b', 'B'] rest
  let isDigit : Char → Bool := match mark with
    | ['x'] | ['X'] => fun c => c == '_' || (Decimal.digitValue? c).isSome
    | ['o'] | ['O'] => fun c => c == '_' || (octalValue? c).isSome
    | ['b'] | ['B'] => fun c => c == '_' || c == '0' || c == '1'
    | _ => fun c => c == '_' || c.isDigit
  let (whole, rest) := span isDigit rest
  let head := point ++ zero ++ mark ++ whole
  match rest with
  | .char '.' :: .char '.' :: _ => some (number (String.ofList head), rest)
  | _ =>
    let (dot, rest) := accept ['.'] rest
    let (fraction, rest) := if dot.isEmpty then ([], rest) else span isDigit rest
    let (exponent, rest) := accept ['e', 'E'] rest
    let (sign, rest) := if exponent.isEmpty then ([], rest) else accept ['+', '-'] rest
    let (power, rest) := if exponent.isEmpty then ([], rest) else span isDigit rest
    if sees isNameChar rest then none
    else some (number (String.ofList (head ++ dot ++ fraction ++ exponent ++ sign ++ power)), rest)

/-- The tokens at the front of a text and what follows them, if it starts with any. A mark of the
current element takes a name directly behind it as a token of its own. -/
def next : List Text.Part → Option (List Token × List Text.Part)
  | .char c :: rest =>
    if Text.isBlank c then some ([], rest)
    else if c == '\'' || c == '"' then do
      let (value, rest) ← scanString c (rest.length + 1) rest []
      return ([string value], rest)
    else if c == '\x60' then do
      let (value, rest) ← scanRaw rest
      return ([string value], rest)
    else if c.isDigit then do
      let (token, rest) ← scanNumber (c :: rest)
      return ([token], rest)
    else match c with
      | '?' => some (double c ['.', '?'] rest)
      | '/' => match rest with
        | .char '/' :: rest => some ([], rest.dropWhile (· != '\n'))
        | .char '*' :: rest => (skipComment rest).map fun rest => ([], rest)
        | _ => some ([operator "/"], rest)
      | '#' =>
        let (again, rest) := accept ['#'] rest
        let (word, rest) := span isNameChar rest
        some (operator (String.ofList ('#' :: again)) ::
          (if word.isEmpty then [] else [name (String.ofList word)]), rest)
      | '|' => some (double c ['|'] rest)
      | ':' => some (double c [':'] rest)
      | '.' =>
        if sees Char.isDigit rest then do
          let (token, rest) ← scanNumber (c :: rest)
          return ([token], rest)
        else some (double c ['.'] rest)
      | _ =>
        if "([\x7b)]\x7d".toList.contains c then some ([bracket c], rest)
        else if ",;%+-^".toList.contains c then some ([operator c.toString], rest)
        else if "&!=*<>".toList.contains c then some (double c ['&', '=', '*'] rest)
        else if isNameChar c then
          let (word, rest) := span isNameChar rest
          some ([ofWord (String.ofList (c :: word))], rest)
        else none
  | _ => none
where
  double (c : Char) (followers : List Char) (rest : List Text.Part) :
      List Token × List Text.Part :=
    let (second, rest) := accept followers rest
    ([operator (String.ofList (c :: second))], rest)

def scanAll : (fuel : Nat) → List Text.Part → (acc : Array Token) → Option (List Token)
  | _, [], acc => some acc.toList
  | 0, _ :: _, _ => none
  | fuel + 1, p :: rest, acc => do
    let (tokens, rest) ← next (p :: rest)
    scanAll fuel rest (acc ++ tokens)

def scan (text : Text) : Option (List Token) :=
  scanAll text.length text.parts #[]

end Token

end Discharge.Formula
