/-!
Numbers in binary floating point with 53 bits, and the fewest decimal digits that read back as one
of them. All arithmetic is exact.
-/

namespace Discharge.Decimal

structure Binary where
  mantissa : Nat
  exponent : Int
  deriving DecidableEq, Repr, Inhabited

def roundDiv (num den : Nat) : Nat :=
  let q := num / den
  let r := num % den
  if 2 * r < den then q
  else if den < 2 * r then q + 1
  else q + q % 2

def scale (num den : Nat) (exponent : Int) : Nat × Nat :=
  match exponent with
  | .ofNat e => (num, den * Nat.pow 2 e)
  | .negSucc e => (num * Nat.pow 2 (e + 1), den)

namespace Binary

def leastExponent : Int := -1074
def greatestExponent : Int := 971

def ofRatio? (num den : Nat) : Option Binary :=
  if num == 0 then some ⟨0, 0⟩
  else
    let guess : Int := (num.log2 : Int) - den.log2 - 53
    let (n, d) := scale num den guess
    let exponent := max (if n / d < Nat.pow 2 53 then guess else guess + 1) leastExponent
    let (n, d) := scale num den exponent
    let mantissa := roundDiv n d
    let b : Binary :=
      if mantissa == Nat.pow 2 53 then ⟨Nat.pow 2 52, exponent + 1⟩ else ⟨mantissa, exponent⟩
    if b.exponent > greatestExponent then none else some b

/-- The nearest number to `digits * 10 ^ exponent`, if it is in range. -/
def ofDecimal? (digits : Nat) (exponent : Int) : Option Binary :=
  let width : Int := (toString digits).length
  if digits == 0 || exponent + width < -400 then some ⟨0, 0⟩
  else if exponent + width > 400 then none
  else match exponent with
    | .ofNat e => ofRatio? (digits * Nat.pow 10 e) 1
    | .negSucc e => ofRatio? digits (Nat.pow 10 (e + 1))

def ratio (b : Binary) : Nat × Nat :=
  match b.exponent with
  | .ofNat e => (b.mantissa * Nat.pow 2 e, 1)
  | .negSucc e => (b.mantissa, Nat.pow 2 (e + 1))

/-- Whether `digits * 10 ^ place` reads back as the number: it lies between the middles to the two
neighbours, and on a middle only if the mantissa is even. -/
def readsAs (b : Binary) (digits : Nat) (place : Int) : Bool :=
  -- everything is compared in quarters of the last place
  let (num, den) : Nat × Nat := match place with
    | .ofNat p => (digits * Nat.pow 10 p, 1)
    | .negSucc p => (digits, Nat.pow 10 (p + 1))
  let (n, d) := scale (4 * num) den b.exponent
  let low := if b.mantissa == Nat.pow 2 52 && b.exponent > leastExponent then 4 * b.mantissa - 1
    else 4 * b.mantissa - 2
  let high := 4 * b.mantissa + 2
  if b.mantissa % 2 == 0 then low * d ≤ n && n ≤ high * d else low * d < n && n < high * d

/-- The neighbours of the number on the grid of multiples of `10 ^ place`, the nearer one first. -/
def neighbours (b : Binary) (place : Int) : List Nat :=
  let (num, den) := b.ratio
  let (n, d) : Nat × Nat := match place with
    | .ofNat p => (num, den * Nat.pow 10 p)
    | .negSucc p => (num * Nat.pow 10 (p + 1), den)
  let q := n / d
  let r := n % d
  if r == 0 then [q]
  else if 2 * r < d || (2 * r == d && q % 2 == 0) then [q, q + 1]
  else [q + 1, q]

def leadingPlace (num den : Nat) : Int :=
  let guess : Int := ((toString num).length : Int) - (toString den).length
  -- the guess is right or one too large
  let reached : Bool := match guess with
    | .ofNat g => den * Nat.pow 10 g ≤ num
    | .negSucc g => den ≤ num * Nat.pow 10 (g + 1)
  if reached then guess else guess - 1

/-- The first of the places that has a digit string which reads back. -/
def searchPlaces (b : Binary) : List Int → Option (Nat × Int)
  | [] => none
  | place :: rest =>
    match (b.neighbours place).find? fun digits => b.readsAs digits place with
    | some digits => some (digits, place)
    | none => b.searchPlaces rest

def shortest (b : Binary) : Nat × Int :=
  if b.mantissa == 0 then (0, 0)
  else
    let (num, den) := b.ratio
    let lead := leadingPlace num den
    (b.searchPlaces ((List.range 17).map fun (i : Nat) => lead - i)).getD (0, 0)

end Binary

def trimZeros : (limit digits : Nat) → (place : Int) → Nat × Int
  | 0, digits, place => (digits, place)
  | limit + 1, digits, place =>
    if digits != 0 && digits % 10 == 0 then trimZeros limit (digits / 10) (place + 1)
    else (digits, place)

def pad (width : Nat) (text : String) : String :=
  String.ofList (List.replicate (width - text.length) '0') ++ text

/-- The general form of a number: positional from four places behind the point up to six digits
before it, and otherwise one digit, a fraction and a signed exponent of at least two digits. -/
def general (b : Binary) : String :=
  let (digits, place) := b.shortest
  let (digits, place) := trimZeros 17 digits place
  let text := toString digits
  let lead : Int := place + text.length - 1
  if digits == 0 then "0"
  else if lead < -4 || lead ≥ 6 then
    let fraction := String.ofList (text.toList.drop 1)
    let sign := if lead < 0 then "-" else "+"
    String.ofList (text.toList.take 1) ++ (if fraction.isEmpty then "" else "." ++ fraction) ++
      "e" ++ sign ++ pad 2 (toString lead.natAbs)
  else if place ≥ 0 then text ++ String.ofList (List.replicate place.toNat '0')
  else if lead ≥ 0 then
    let whole := lead.toNat + 1
    String.ofList (text.toList.take whole) ++ "." ++ String.ofList (text.toList.drop whole)
  else "0." ++ String.ofList (List.replicate (-lead - 1).toNat '0') ++ text

end Discharge.Decimal
