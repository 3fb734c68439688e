import Discharge.Decimal.Numeral
import Discharge.Document.Node
import Discharge.Text.Base64
import Discharge.Time.Stamp

namespace Discharge.Document

inductive Value where
  | null
  | truth (b : Bool)
  | whole (n : Int)
  /-- A floating point number, by the word that it gives without its fraction, if it is not too
  large. -/
  | decimal (word : Option Int)
  | moment (written : String)
  | text (t : Text)
  | composite
  deriving DecidableEq, Repr, Inhabited

def isNull (text : String) : Bool := ["", "~", "null", "Null", "NULL"].contains text

def boolOf? (text : String) : Option Bool :=
  if ["true", "True", "TRUE"].contains text then some true
  else if ["false", "False", "FALSE"].contains text then some false
  else none

def switchOf? (t : Text) : Option Bool :=
  if t.isOneOf ["y", "Y", "yes", "Yes", "YES", "on", "On", "ON"] then some true
  else if t.isOneOf ["n", "N", "no", "No", "NO", "off", "Off", "OFF"] then some false
  else none

/-- Numbers that are written as words: no word follows from those without bounds but the least. -/
def wordlessOf? (text : String) : Option (Option Int) :=
  if ["-.inf", "-.Inf", "-.INF"].contains text then some (some (-Decimal.wordLimit))
  else if [".inf", ".Inf", ".INF", "+.inf", "+.Inf", "+.INF", ".nan", ".NaN", ".NAN"].contains text
  then some none
  else none

namespace Value

/-- A floating point number. What is too small for a word gives the least one. -/
def ofBinary (negative : Bool) (b : Decimal.Binary) : Value :=
  let (num, den) := b.ratio
  let n := Decimal.signed negative (num / den)
  if n > Decimal.wordLimit then decimal none
  else if Decimal.fitsWord n then decimal (some n)
  else decimal (some (-Decimal.wordLimit))

def ofDecimal? (cs : List Char) : Option Value := do
  let (negative, body) := Decimal.signOf cs
  let (digits, exponent) ← Decimal.decimalOf? body
  return ofBinary negative (← Decimal.Binary.ofDecimal? digits exponent)

/-- A number behind a sign or a digit: a whole one of 64 bits, with or without a sign, or a decimal
one. Underscores in it do not count, and in two of the bases the sign may also stand behind what
tells the base. -/
def ofNumeral? (cs : List Char) : Option Value :=
  let cs := Decimal.withoutSeparators cs
  let unsigned := (Decimal.basedNatOf? cs).filter (· < 2 * Decimal.wordLimit)
  let inner := match cs with
    | '0' :: 'b' :: rest => Decimal.wordOf? (Decimal.natOf? 2) rest
    | '0' :: 'o' :: rest => Decimal.wordOf? (Decimal.natOf? 8) rest
    | _ => none
  ((Decimal.wordOf? Decimal.basedNatOf? cs).map whole).or
    ((unsigned.map fun n => whole n).or ((ofDecimal? cs).or (inner.map whole)))

def ofPlain (s : String) : Value :=
  if isNull s then null
  else match boolOf? s, wordlessOf? s with
    | some b, _ => truth b
    | none, some word => decimal word
    | none, none =>
      match s.toList with
      | [] => null
      | c :: rest =>
        if c == '.' then
          if Decimal.hasSoundSeparators (c :: rest) then
            (ofDecimal? (Decimal.withoutSeparators (c :: rest))).getD (text s)
          else text s
        else if c.isDigit || c == '+' || c == '-' then
          if Time.isStamp (c :: rest) then moment s
          else (ofNumeral? (c :: rest)).getD (text s)
        else text s

def toDecimal? : Value → Option Value
  | decimal word => some (decimal word)
  | whole n =>
    if Decimal.fitsWord n then (Decimal.Binary.ofRatio? n.natAbs 1).map (ofBinary (n < 0)) else none
  | _ => none

/-- What a scalar with a tag stands for; a text that does not fit the tag stands for nothing. -/
def resolve? (s : String) : Tag → Option Value
  | .untold => some (ofPlain s)
  | .text => some (text s)
  | .named name =>
    let value := ofPlain s
    match name, value with
    | "!!null", null | "!!bool", truth _ | "!!int", whole _ | "!!timestamp", moment _ => some value
    | "!!float", _ => value.toDecimal?
    | "!!null", _ | "!!bool", _ | "!!int", _ | "!!timestamp", _ => none
    | "!!binary", _ => (Text.ofBase64? s).map text
    | _, _ => some (text s)

end Value

end Discharge.Document
