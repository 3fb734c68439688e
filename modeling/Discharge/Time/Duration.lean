import Discharge.Decimal.Word
import Discharge.Text.Quoted

namespace Discharge.Time

def padded (width n : Nat) : List Char :=
  let ds := Nat.toDigits 10 n
  List.replicate (width - ds.length) '0' ++ ds

def decimalText (n places : Nat) : List Char :=
  let unit := Nat.pow 10 places
  let fraction := ((padded places (n % unit)).reverse.dropWhile (· == '0')).reverse
  Nat.toDigits 10 (n / unit) ++
    (if n % unit == 0 then [] else '.' :: fraction)

def durationChars (n : Nat) : List Char :=
  if n == 0 then ['0', 's']
  else if n < 1000 then Nat.toDigits 10 n ++ ['n', 's']
  else if n < 1000000 then decimalText n 3 ++ ['µ', 's']
  else if n < 1000000000 then decimalText n 6 ++ ['m', 's']
  else
    let minutes := n / 60000000000
    let seconds := decimalText (n % 60000000000) 9 ++ ['s']
    if minutes == 0 then seconds
    else if minutes < 60 then Nat.toDigits 10 minutes ++ 'm' :: seconds
    else Nat.toDigits 10 (minutes / 60) ++ 'h' :: Nat.toDigits 10 (minutes % 60) ++ 'm' :: seconds

def durationText (n : Int) : String :=
  (if n < 0 then "-" else "") ++ String.ofList (durationChars n.natAbs)

def unitOf? (name : String) : Option Nat :=
  match name with
  | "ns" => some 1
  | "us" | "µs" | "μs" => some 1000
  | "ms" => some 1000000
  | "s" => some 1000000000
  | "m" => some 60000000000
  | "h" => some 3600000000000
  | _ => none

def longest : Nat := Decimal.wordLimit

def valueOfDigits (ds : List Char) : Nat :=
  ds.foldl (fun n c => n * 10 + (c.toNat - 48)) 0

/-- As many leading digits of a fraction as can be told apart, and how many. -/
def fractionOf (ds : List Char) : Nat × Nat :=
  let (n, places, _) := ds.foldl (fun (n, places, full) c =>
    let next := n * 10 + (c.toNat - 48)
    if full || n > (longest - 1) / 10 || next > longest then (n, places, true)
    else (next, places + 1, false)) (0, 0, false)
  (n, places)

/-- The nanoseconds of a fraction of a unit, rounded as binary floating point does. -/
def fractionOfUnit (fraction places unit : Nat) : Nat :=
  let scale := (List.replicate places 10.0).foldl (· * ·) (1.0 : Float)
  ((UInt64.ofNat fraction).toFloat * ((UInt64.ofNat unit).toFloat / scale)).toUInt64.toNat

def isNumeral (c : Char) : Bool := c.isDigit || c == '.'

inductive DurationFault where
  | malformed
  | missingUnit
  | unknownUnit (name : String)
  deriving DecidableEq, Repr, Inhabited

def shownByte (b : UInt8) : List Char :=
  if b < 0x20 || b ≥ 0x80 then '\\' :: 'x' :: Text.hexDigits 2 b.toNat
  else if b == '"'.toUInt8 || b == '\\'.toUInt8 then ['\\', Char.ofNat b.toNat]
  else [Char.ofNat b.toNat]

def shown (text : String) : Text :=
  String.ofList ('"' :: (Text.ofString text).toList.flatMap shownByte ++ ['"'])

def DurationFault.message (text : String) : DurationFault → Text
  | malformed => "time: invalid duration " ++ shown text
  | missingUnit => "time: missing unit in duration " ++ shown text
  | unknownUnit name => "time: unknown unit " ++ shown name ++ " in duration " ++ shown text

def readPart (cs : List Char) : Except DurationFault (Nat × List Char) := do
  let whole := cs.takeWhile Char.isDigit
  let rest := cs.drop whole.length
  let value := valueOfDigits whole
  if value > longest then throw .malformed
  let point := rest.head? == some '.'
  let digits := if point then (rest.drop 1).takeWhile Char.isDigit else []
  let rest := if point then rest.drop (1 + digits.length) else rest
  if whole.isEmpty && digits.isEmpty then throw .malformed
  let name := rest.takeWhile fun c => !isNumeral c
  if name.isEmpty then throw .missingUnit
  match unitOf? (String.ofList name) with
  | none => throw (.unknownUnit (String.ofList name))
  | some unit =>
    if value > longest / unit then throw .malformed
    let (fraction, places) := fractionOf digits
    let total := value * unit + fractionOfUnit fraction places unit
    if total > longest then throw .malformed
    return (total, rest.drop name.length)

def readParts : (fuel total : Nat) → List Char → Except DurationFault Nat
  | _, total, [] => .ok total
  | 0, _, _ :: _ => .error .malformed
  | fuel + 1, total, c :: cs => do
    let (n, rest) ← readPart (c :: cs)
    if total + n > longest then throw .malformed
    readParts fuel (total + n) rest

def readDuration (text : String) : Except DurationFault Int := do
  let (negative, cs) := match text.toList with
    | '-' :: cs => (true, cs)
    | '+' :: cs => (false, cs)
    | cs => (false, cs)
  if cs == ['0'] then return 0
  if cs.isEmpty then throw .malformed
  let n ← readParts cs.length 0 cs
  if negative then return -(n : Int)
  if n ≥ longest then throw .malformed
  return n

end Discharge.Time
