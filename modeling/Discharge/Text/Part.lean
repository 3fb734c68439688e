import Discharge.Text

namespace Discharge.Text

inductive Part where
  | char (c : Char)
  | byte (b : UInt8)
  deriving DecidableEq, Repr, Inhabited

namespace Part

instance : Coe Char Part := ⟨char⟩

def toChar : Part → Char
  | char c => c
  | byte _ => '\ufffd'

def isIn (inClass : Char → Bool) : Part → Bool
  | char c => inClass c
  | byte _ => false

def bytes : Part → List UInt8
  | char c => String.utf8EncodeChar c
  | byte b => [b]

end Part

def ofParts (parts : List Part) : Text := ofList (parts.flatMap Part.bytes)

/-- The character that bytes begin with, if they encode one. -/
def decoded? (bytes : List UInt8) : Option Char :=
  ByteArray.utf8DecodeChar? (bytes.take 4).toByteArray 0

def partsFrom : (done : List Part) → (skip : Nat) → List UInt8 → List Part
  | done, _, [] => done.reverse
  | done, skip + 1, _ :: rest => partsFrom done skip rest
  | done, 0, b :: rest =>
    if b < 0x80 then partsFrom (.char (Char.ofNat b.toNat) :: done) 0 rest
    else match decoded? (b :: rest) with
      | some c => partsFrom (.char c :: done) (c.utf8Size - 1) rest
      | none => partsFrom (.byte b :: done) 0 rest

def parts (t : Text) : List Part := partsFrom [] 0 t.toList

def chars (t : Text) : List Char := t.parts.map Part.toChar

protected def toString (t : Text) : String := String.ofList t.chars

instance : ToString Text := ⟨Text.toString⟩

def repaired (t : Text) : Text := t.toString

end Discharge.Text
