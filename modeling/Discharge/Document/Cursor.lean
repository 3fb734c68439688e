import Discharge.Text.Part

/-!
Places in the text of a document. The text is looked at in pieces of 512 bytes, a piece only when a
character of it is needed, and a piece with a character that no document may hold ends the reading.
-/

namespace Discharge.Document

def isAllowed (c : Char) : Bool :=
  let n := c.toNat
  n == 0x09 || n == 0x0A || n == 0x0D || (0x20 ≤ n && n ≤ 0x7E) || n == 0x85 ||
    (0xA0 ≤ n && n ≤ 0xD7FF) || (0xE000 ≤ n && n ≤ 0xFFFD) || 0x10000 ≤ n

def isBlank (c : Char) : Bool := c == ' ' || c == '\t'

def isBreak (c : Char) : Bool :=
  c == '\n' || c == '\r' || c == '\x85' || c == '\u2028' || c == '\u2029'

def atGap : List Char → Bool
  | [] => true
  | c :: _ => isBlank c || isBreak c

def isWordChar (c : Char) : Bool :=
  c.isDigit || ('a' ≤ c && c ≤ 'z') || ('A' ≤ c && c ≤ 'Z') || c == '_' || c == '-'

/-- The mark that may stand before a text to tell how it is encoded. -/
def byteOrderMark : Char := '\ufeff'

def pieceSize : Nat := 512

/-- The numbers of characters in the pieces of a text, of which the first has `room` bytes left and
`count` characters already, and whether a piece follows them that cannot be read. -/
def piecesOf : (room count : Nat) → List Char → List Nat × Bool
  | _, count, [] => (if count == 0 then [] else [count], false)
  | room, count, c :: rest =>
    if !isAllowed c then ([], true)
    else if c.utf8Size ≤ room then piecesOf (room - c.utf8Size) (count + 1) rest
    else
      let (pieces, broken) := piecesOf (pieceSize - c.utf8Size) 1 rest
      (count :: pieces, broken)

structure Cursor where
  rest : List Char
  /-- More than the length of the text, which bounds what is read in it. -/
  bound : Nat
  line : Nat := 0
  column : Nat := 0
  index : Nat := 0
  /-- How many characters from here on are in pieces that were looked at. -/
  ready : Nat := 0
  pieces : List Nat × Bool := ([], false)
  marked : Bool := false
  afterBreak : Bool := false
  deriving Inhabited

namespace Cursor

/-- A character as it is read. In place of a byte that belongs to none, there is one that no
document may hold. -/
def charOf : Text.Part → Char
  | .char c => c
  | .byte _ => '\x00'

def ofText (text : Text) : Cursor :=
  match text.parts.map charOf with
  | [] => { rest := [], bound := 1 }
  | c :: rest =>
    let bound := text.length + 1
    if c == byteOrderMark then
      { rest, bound, pieces := piecesOf (pieceSize - c.utf8Size) 0 rest }
    else { rest := c :: rest, bound, pieces := piecesOf pieceSize 0 (c :: rest) }

/-- Looks at pieces until `n` characters are ready, or one that is past the end. -/
def fill (n : Nat) (broken : Bool) : (ready : Nat) → (pieces : List Nat) → Option (Nat × List Nat)
  | ready, [] =>
    if n ≤ ready then some (ready, [])
    else if broken then none
    else some (ready + 1, [])
  | ready, p :: rest =>
    if n ≤ ready then some (ready, p :: rest) else fill n broken (ready + p) rest

def need (c : Cursor) (n : Nat) : Option Cursor :=
  if n ≤ c.ready then some c
  else do
    let (ready, pieces) ← fill n c.pieces.2 c.ready c.pieces.1
    return { c with
      ready
      pieces := (pieces, c.pieces.2)
      marked := c.rest.head? == some byteOrderMark }

def skip (c : Cursor) : Cursor :=
  { c with
    rest := c.rest.tail
    column := c.column + 1
    index := c.index + 1
    ready := c.ready - 1
    afterBreak := c.afterBreak && c.rest.head?.any isBlank }

def readBreak (c : Cursor) : List Char × Cursor :=
  let after (rest : List Char) (n : Nat) : Cursor :=
    { c with
      rest
      line := c.line + 1
      column := 0
      index := c.index + n
      ready := c.ready - n
      afterBreak := true }
  match c.rest with
  | '\r' :: '\n' :: rest => (['\n'], after rest 2)
  | x :: rest =>
    if x == '\u2028' || x == '\u2029' then ([x], after rest 1)
    else if isBreak x then (['\n'], after rest 1)
    else ([], c)
  | [] => ([], c)

def atBreak (c : Cursor) : Bool := c.rest.head?.any isBreak

def atMarker (c : Cursor) (marker : List Char) : Bool :=
  c.column == 0 && marker.isPrefixOf c.rest && atGap (c.rest.drop 3)

def startMarker : List Char := ['-', '-', '-']
def endMarker : List Char := ['.', '.', '.']

def atAnyMarker (c : Cursor) : Bool := c.atMarker startMarker || c.atMarker endMarker

end Cursor

abbrev Reading := StateT Cursor Option

namespace Reading

def need (n : Nat) : Reading Unit := do set (← (← get).need n)

def next? : Reading (Option Char) := return (← get).rest.head?

def skip : (n : Nat) → Reading Unit
  | 0 => return
  | n + 1 => do
    modify Cursor.skip
    skip n

def takeBreak : Reading (List Char) := do
  need 2
  let (b, c) := (← get).readBreak
  set c
  return b

def takeWhile (inClass : Char → Bool) : (fuel : Nat) → Reading (List Char)
  | 0 => return []
  | fuel + 1 => do
    need 1
    match ← next? with
    | none => return []
    | some x =>
      if inClass x then
        skip 1
        return x :: (← takeWhile inClass fuel)
      else return []

def takeAll (inClass : Char → Bool) : Reading (List Char) := do
  takeWhile inClass (← get).bound

def skipLine : Reading Unit := do
  let _ ← takeAll fun x => !isBreak x

/-- A comment is looked for in so many characters. -/
def commentReach : Nat := 512

/-- How far away a comment is that comes with nothing but blanks in between, or also line breaks of
one byte. Looking starts `k` characters on and goes `fuel` characters far. -/
def commentAhead (breaks : Bool) : (fuel k : Nat) → List Char → Reading (Option Nat)
  | 0, _, _ => return none
  | fuel + 1, k, rest => do
    need (k + 1)
    match rest with
    | [] => return none
    | x :: rest =>
      if x == '#' then return some k
      else if isBlank x || (breaks && (x == '\n' || x == '\r')) then
        commentAhead breaks fuel (k + 1) rest
      else return none

def advanceTo (index : Nat) : (fuel : Nat) → Reading Unit
  | 0 => return
  | fuel + 1 => do
    need 1
    let c ← get
    if index ≤ c.index then return
    else
      if c.atBreak then
        let _ ← takeBreak
      else skip 1
      advanceTo index fuel

def skipComment (distance : Nat) : Reading Unit := do
  advanceTo ((← get).index + distance) (distance + 1)
  skipLine

def skipLineComment : Reading Unit := do
  let c ← get
  if c.afterBreak then return
  else
    match ← commentAhead false commentReach 0 c.rest with
    | some k => skipComment k
    | none => return

/-- Skips a comment that begins here and those that follow it. None follows a line break of more
than one byte. -/
def skipComments : (fuel : Nat) → Reading Unit
  | 0 => return
  | fuel + 1 => do
    skipLine
    need 2
    match (← get).rest with
    | [] => return
    | b :: rest =>
      if b == '\n' || b == '\r' then
        match ← commentAhead true (commentReach - 1) 1 rest with
        | some k =>
          skipComment k
          skipComments fuel
        | none => return
      else return

end Reading

end Discharge.Document
