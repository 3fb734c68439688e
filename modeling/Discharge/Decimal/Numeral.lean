import Discharge.Decimal.Shortest
import Discharge.Decimal.Word

namespace Discharge.Decimal

def digitValue? (c : Char) : Option Nat :=
  if c.isDigit then some (c.toNat - 48)
  else if 'a' ≤ c && c ≤ 'f' then some (c.toNat - 87)
  else if 'A' ≤ c && c ≤ 'F' then some (c.toNat - 55)
  else none

def natOf? (base : Nat) (ds : List Char) : Option Nat :=
  if ds.isEmpty then none
  else ds.foldlM (fun n c => do
    let d ← digitValue? c
    if d < base then some (n * base + d) else none) 0

def basedNatOf? : List Char → Option Nat
  | '0' :: x :: ds =>
    if x == 'x' || x == 'X' then natOf? 16 ds
    else if x == 'o' || x == 'O' then natOf? 8 ds
    else if x == 'b' || x == 'B' then natOf? 2 ds
    else natOf? 8 (x :: ds)
  | ds => natOf? 10 ds

def signOf : List Char → Bool × List Char
  | '-' :: cs => (true, cs)
  | '+' :: cs => (false, cs)
  | cs => (false, cs)

def signed (negative : Bool) (n : Nat) : Int := if negative then -(n : Int) else n

def wordOf? (nat? : List Char → Option Nat) (cs : List Char) : Option Int := do
  let (negative, ds) := signOf cs
  let n := signed negative (← nat? ds)
  if fitsWord n then some n else none

def decimalOf? (cs : List Char) : Option (Nat × Int) := do
  let whole := cs.takeWhile Char.isDigit
  let rest := cs.drop whole.length
  let point := rest.head? == some '.'
  let fraction := if point then (rest.drop 1).takeWhile Char.isDigit else []
  let rest := if point then rest.drop (1 + fraction.length) else rest
  let digits ← natOf? 10 (whole ++ fraction)
  let exponent ← match rest with
    | [] => some (0 : Int)
    | e :: power =>
      if e == 'e' || e == 'E' then
        let (negative, ds) := signOf power
        if ds.all Char.isDigit then (natOf? 10 ds).map (signed negative) else none
      else none
  return (digits, exponent - fraction.length)

inductive Separation where
  | digit
  | underscore
  | other
  deriving DecidableEq, Repr, Inhabited

/-- Whether each underscore is between two digits, given what is before them. -/
def separates (hex : Bool) : Separation → List Char → Bool
  | before, [] => before != .underscore
  | before, c :: rest =>
    if c.isDigit || (hex && (digitValue? c).isSome) then separates hex .digit rest
    else if c == '_' then before == .digit && separates hex .underscore rest
    else before != .underscore && separates hex .other rest

def hasSoundSeparators (cs : List Char) : Bool :=
  match (signOf cs).2 with
  | '0' :: x :: rest =>
    if x == 'x' || x == 'X' then separates true .digit rest
    else if x == 'o' || x == 'O' || x == 'b' || x == 'B' then separates false .digit rest
    else separates false .other ('0' :: x :: rest)
  | rest => separates false .other rest

def withoutSeparators (cs : List Char) : List Char := cs.filter (· != '_')

inductive NumeralFault where
  | malformed
  | outOfRange
  deriving DecidableEq, Repr, Inhabited

/-- The number that digits of a base spell after others of value `n`; underscores do not count. The
first thing that is wrong is told, and a number of more than 64 bits is wrong as soon as it is. -/
def digitsOf (base : Nat) : (n : Nat) → List Char → Except NumeralFault Nat
  | n, [] => .ok n
  | n, c :: rest =>
    if c == '_' then digitsOf base n rest
    else match (digitValue? c).filter (· < base) with
      | none => .error .malformed
      | some d =>
        if n * base + d < 2 * wordLimit then digitsOf base (n * base + d) rest
        else .error .outOfRange

def basedDigitsOf : List Char → Except NumeralFault Nat
  | [] => .error .malformed
  | '0' :: x :: d :: ds =>
    if x == 'x' || x == 'X' then digitsOf 16 0 (d :: ds)
    else if x == 'o' || x == 'O' then digitsOf 8 0 (d :: ds)
    else if x == 'b' || x == 'B' then digitsOf 2 0 (d :: ds)
    else digitsOf 8 0 (x :: d :: ds)
  | '0' :: ds => digitsOf 8 0 ds
  | ds => digitsOf 10 0 ds

def readWord (cs : List Char) : Except NumeralFault Int := do
  let (negative, ds) := signOf cs
  let n := signed negative (← basedDigitsOf ds)
  if cs.contains '_' && !hasSoundSeparators cs then throw .malformed
  if fitsWord n then return n else throw .outOfRange

end Discharge.Decimal
