import Discharge.Time.Calendar

namespace Discharge.Time

def isLeapYear (year : Nat) : Bool := year % 4 == 0 && (year % 100 != 0 || year % 400 == 0)

def daysInMonth (year month : Nat) : Nat :=
  if month == 2 then (if isLeapYear year then 29 else 28)
  else if [4, 6, 9, 11].contains month then 30
  else 31

def takeNumber : List Char → Option (Nat × List Char)
  | c :: d :: rest =>
    if !c.isDigit then none
    else if d.isDigit then some ((c.toNat - 48) * 10 + (d.toNat - 48), rest)
    else some (c.toNat - 48, d :: rest)
  | [c] => if c.isDigit then some (c.toNat - 48, []) else none
  | [] => none

def takeChar (c : Char) : List Char → Option (List Char)
  | d :: rest => if c == d then some rest else none
  | [] => none

def takeDate (cs : List Char) : Option (List Char) := do
  let digits := cs.takeWhile Char.isDigit
  if digits.length != 4 then none
  let rest ← takeChar '-' (cs.drop 4)
  let (month, rest) ← takeNumber rest
  let (day, rest) ← takeNumber (← takeChar '-' rest)
  if month < 1 || month > 12 || day < 1 || day > daysInMonth (valueOfDigits digits) month then none
  return rest

def skipFraction : List Char → List Char
  | p :: d :: rest =>
    if (p == '.' || p == ',') && d.isDigit then rest.dropWhile Char.isDigit else p :: d :: rest
  | rest => rest

def takeTimeOfDay (cs : List Char) : Option (List Char) := do
  let (hour, rest) ← takeNumber cs
  let (minute, rest) ← takeNumber (← takeChar ':' rest)
  let (second, rest) ← takeNumber (← takeChar ':' rest)
  if hour > 23 || minute > 59 || second > 59 then none
  return skipFraction rest

def isZone : List Char → Bool
  | ['Z'] => true
  | [sign, a, b, ':', c, d] =>
    (sign == '+' || sign == '-') && [a, b, c, d].all Char.isDigit &&
      valueOfDigits [a, b] ≤ 24 && valueOfDigits [c, d] ≤ 60
  | _ => false

/-- Whether characters state a date, or a date and a time. -/
def isStamp (cs : List Char) : Bool :=
  match takeDate cs with
  | none => false
  | some [] => true
  | some (c :: rest) =>
    if c == 'T' || c == 't' then (takeTimeOfDay rest).any isZone
    else if c == ' ' then (takeTimeOfDay (rest.dropWhile (· == ' '))).any List.isEmpty
    else false

end Discharge.Time
