import Discharge.Text

namespace Discharge.Text

def sextet? (c : Char) : Option Nat :=
  if 'A' ≤ c && c ≤ 'Z' then some (c.toNat - 65)
  else if 'a' ≤ c && c ≤ 'z' then some (c.toNat - 71)
  else if '0' ≤ c && c ≤ '9' then some (c.toNat + 4)
  else if c == '+' then some 62
  else if c == '/' then some 63
  else none

def sextets? (cs : List Char) : Option Nat :=
  cs.foldlM (fun n c => do return n * 64 + (← sextet? c)) 0

/-- The bytes of groups of four characters. Bits that are left over are not looked at. -/
def quartets? : List Char → Option (List UInt8)
  | [] => some []
  | [a, b, '=', '='] => do
    let n ← sextets? [a, b]
    return [UInt8.ofNat (n / 16)]
  | [a, b, c, '='] => do
    let n ← sextets? [a, b, c]
    return [UInt8.ofNat (n / 1024), UInt8.ofNat (n / 4)]
  | a :: b :: c :: d :: rest => do
    let n ← sextets? [a, b, c, d]
    return UInt8.ofNat (n / 65536) :: UInt8.ofNat (n / 256) :: UInt8.ofNat n :: (← quartets? rest)
  | _ => none

def ofBase64? (s : String) : Option Text :=
  (quartets? (s.toList.filter fun c => c != '\r' && c != '\n')).map ofList

end Discharge.Text
