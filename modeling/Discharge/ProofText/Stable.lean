import Discharge.Text

namespace Discharge.ProofText

inductive Piece where
  | words (text : Text)
  | number
  | wordEnd
  deriving DecidableEq, Repr, Inhabited

def newline : UInt8 := '\n'.toUInt8

def isDigit (b : UInt8) : Bool := '0'.toUInt8 ≤ b && b ≤ '9'.toUInt8

def isLetter (b : UInt8) : Bool :=
  ('A'.toUInt8 ≤ b && b ≤ 'Z'.toUInt8) || ('a'.toUInt8 ≤ b && b ≤ 'z'.toUInt8)

def isWordByte (b : UInt8) : Bool := isDigit b || isLetter b || b == '_'.toUInt8

def mask : List UInt8 := ['_'.toUInt8]

/-- Matches pieces at the start of a text: what they are replaced by, and how many bytes they
take up. -/
def matchPieces : List Piece → List UInt8 → Option (List UInt8 × Nat)
  | [], _ => some ([], 0)
  | .words text :: pieces, cs =>
    let ws := text.toList
    if ws.isPrefixOf cs then
      (matchPieces pieces (cs.drop ws.length)).map fun (out, n) => (ws ++ out, n + ws.length)
    else none
  | .number :: pieces, cs =>
    let digits := cs.takeWhile isDigit
    if digits.isEmpty then none
    else (matchPieces pieces (cs.drop digits.length)).map fun (out, n) =>
      (mask ++ out, n + digits.length)
  | .wordEnd :: pieces, cs =>
    if cs.head?.any isWordByte then none else matchPieces pieces cs

def maskFrom (pieces : List Piece) : (skip : Nat) → List UInt8 → List UInt8
  | _, [] => []
  | skip + 1, _ :: rest => maskFrom pieces skip rest
  | 0, c :: rest =>
    match matchPieces pieces (c :: rest) with
    | some (out, n + 1) => out ++ maskFrom pieces n rest
    | _ => c :: maskFrom pieces 0 rest

def maskAll (pieces : List Piece) (cs : List UInt8) : List UInt8 := maskFrom pieces 0 cs

/-- The wordings of times in proof texts, in the order they are masked. -/
def timings : List (List Piece) :=
  [[.number, .words " ms", .wordEnd],
    [.words "[", .number, .words "ms]"],
    [.words "Iter Time: ", .number, .words " Search Time for this theorem: ", .number,
      .words " Elapsed Time: ", .number]]

def isBlank (b : UInt8) : Bool :=
  [' ', '\t', '\n', '\r', '\x0c'].any fun c => c.toUInt8 == b

def headerStart : List UInt8 := (Text.ofString "Proofs for ").toList

def headerEnd : List UInt8 := (Text.ofString " generated ").toList

/-- The header line of a proof file without its date; any other line as it is. -/
def maskHeader (line : List UInt8) : List UInt8 :=
  if headerStart.isPrefixOf line then
    let name := (line.drop headerStart.length).takeWhile fun b => !isBlank b
    if !name.isEmpty && headerEnd.isPrefixOf (line.drop (headerStart.length + name.length))
    then headerStart ++ name
    else line
  else line

def mapLines (f : List UInt8 → List UInt8) : (line : List UInt8) → List UInt8 → List UInt8
  | line, [] => f line.reverse
  | line, b :: rest =>
    if b == newline then f line.reverse ++ b :: mapLines f [] rest
    else mapLines f (b :: line) rest

def stableBytes (bytes : List UInt8) : List UInt8 :=
  timings.foldl (fun bytes pieces => maskAll pieces bytes) (mapLines maskHeader [] bytes)

/-- A proof text with the date and all times masked. -/
def stable (text : Text) : Text := .ofList (stableBytes text.toList)

end Discharge.ProofText
