import Discharge.Decimal.Numeral
import Discharge.Document.Cursor

namespace Discharge.Document

/-- The text of a scalar that may go over several lines, last character first, and the blanks and
line breaks after it, which count only if something follows. -/
structure Folding where
  text : List Char := []
  blanks : List Char := []
  /-- The first line break after the text; an escaped one is empty. -/
  lineBreak : Option (List Char) := none
  breaks : List Char := []
  deriving Inhabited

namespace Folding

/-- Adds what is pending to the text: a single line break becomes a blank, of several the first is
dropped. -/
def settle (f : Folding) : Folding :=
  match f.lineBreak with
  | none => { text := f.blanks ++ f.text }
  | some b =>
    if b == ['\n'] then { text := if f.breaks.isEmpty then ' ' :: f.text else f.breaks ++ f.text }
    else { text := f.breaks ++ b ++ f.text }

def push (f : Folding) (c : Char) : Folding :=
  let f := f.settle
  { f with text := c :: f.text }

def addBlank (f : Folding) (c : Char) : Folding :=
  if f.lineBreak.isSome then f else { f with blanks := c :: f.blanks }

def addBreak (f : Folding) (b : List Char) : Folding :=
  if f.lineBreak.isSome then { f with breaks := b ++ f.breaks }
  else { f with blanks := [], lineBreak := some b }

def toText (f : Folding) : String := String.ofList f.text.reverse

end Folding

def escapeOf? : Char → Option Char
  | '0' => some '\x00'
  | 'a' => some '\x07'
  | 'b' => some '\x08'
  | 't' => some '\t'
  | '\t' => some '\t'
  | 'n' => some '\n'
  | 'v' => some '\x0b'
  | 'f' => some '\x0c'
  | 'r' => some '\r'
  | 'e' => some '\x1b'
  | ' ' => some ' '
  | '"' => some '"'
  | '\'' => some '\''
  | '\\' => some '\\'
  | 'N' => some '\x85'
  | '_' => some '\xa0'
  | 'L' => some '\u2028'
  | 'P' => some '\u2029'
  | _ => none

def codeChar? (width : Nat) (cs : List Char) : Option Char := do
  if cs.length < width then none
  let n ← (cs.take width).foldlM (fun n c => (Decimal.digitValue? c).map (n * 16 + ·)) 0
  if n.isValidChar then some (Char.ofNat n) else none

def codeWidth? : Char → Option Nat
  | 'x' => some 2
  | 'u' => some 4
  | 'U' => some 8
  | _ => none

def isFlowIndicator (c : Char) : Bool :=
  c == ',' || c == '?' || c == '[' || c == ']' || c == '\x7b' || c == '\x7d'

/-- What becomes of the line breaks at the end of a block. -/
inductive Chomping where
  | strip
  | clip
  | keep
  deriving DecidableEq, Repr, Inhabited

structure Block where
  text : List Char := []
  lineBreak : List Char := []
  breaks : List Char := []
  indented : Bool := false
  deriving Inhabited

/-- Adds a line, after the line breaks before it. In a folded block a line break between two lines
of the same indentation becomes a blank. -/
def Block.addLine (literal : Bool) (b : Block) (line : List Char) : Block :=
  let indented := line.head?.any isBlank
  let joint :=
    if !literal && !b.indented && !indented && b.lineBreak == ['\n'] then
      if b.breaks.isEmpty then [' '] else []
    else b.lineBreak
  { text := line.reverse ++ b.breaks ++ joint ++ b.text, indented }

namespace Reading

def takeEscape : Reading Char := do
  let some x ← next? | failure
  match codeWidth? x with
  | some width =>
    skip 1
    need width
    let y ← codeChar? width (← get).rest
    skip width
    return y
  | none =>
    let y ← escapeOf? x
    skip 1
    return y

/-- Reads the characters of a quoted scalar up to a blank, a line break or the closing quote. An
escaped line break ends them as well. -/
def takeQuotedWord (quote : Char) : (fuel : Nat) → Folding → Reading Folding
  | 0, _ => failure
  | fuel + 1, f => do
    match (← get).rest with
    | [] => return f
    | x :: rest =>
      if isBlank x || isBreak x then return f
      else if x == quote && !(quote == '\'' && rest.head? == some quote) then return f
      else if quote == '"' && x == '\\' && rest.head?.any isBreak then
        need 3
        skip 1
        let _ ← takeBreak
        return { f with lineBreak := some [] }
      else
        let y ← if x == quote then do
            skip 2
            pure x
          else if quote == '"' && x == '\\' then do
            skip 1
            takeEscape
          else do
            skip 1
            pure x
        need 2
        takeQuotedWord quote fuel (f.push y)

/-- Reads blanks and line breaks. Once the line has ended, a tab is no blank before a column. -/
def takeGap (column : Int) : (fuel : Nat) → Folding → Reading Folding
  | 0, f => return f
  | fuel + 1, f => do
    match ← next? with
    | none => return f
    | some x =>
      if isBlank x then
        if x == '\t' && f.lineBreak.isSome && (← get).column < column then failure
        skip 1
        need 1
        takeGap column fuel (f.addBlank x)
      else if isBreak x then
        let b ← takeBreak
        need 1
        takeGap column fuel (f.addBreak b)
      else return f

def takeQuoted (quote : Char) : (fuel : Nat) → Folding → Reading String
  | 0, _ => failure
  | fuel + 1, f => do
    need 4
    let c ← get
    if c.atAnyMarker || c.rest.isEmpty then failure
    let f ← takeQuotedWord quote c.bound f
    need 1
    if (← next?) == some quote then
      skip 1
      return f.toText
    else
      let f ← takeGap 0 c.bound f
      takeQuoted quote fuel f.settle

def takePlainWord (flow : Bool) : (fuel : Nat) → Folding → Reading Folding
  | 0, f => return f
  | fuel + 1, f => do
    match (← get).rest with
    | [] => return f
    | x :: rest =>
      if isBlank x || isBreak x || (x == ':' && atGap rest) || (flow && isFlowIndicator x) then
        return f
      else
        skip 1
        need 2
        takePlainWord flow fuel (f.push x)

/-- Reads a plain scalar and the blanks after it. Outside of brackets its lines are indented up to
a column. -/
def takePlain (flow : Bool) (column : Int) : (fuel : Nat) → Folding → Reading Folding
  | 0, _ => failure
  | fuel + 1, f => do
    need 4
    let c ← get
    if c.atAnyMarker || c.rest.head? == some '#' then return f
    else
      let f ← takePlainWord flow c.bound f
      if (← next?).any fun x => isBlank x || isBreak x then
        need 1
        let f ← takeGap column c.bound f
        if !flow && (← get).column < column then return f
        else takePlain flow column fuel f
      else return f

def takeChomping? : Reading (Option Chomping) := do
  need 1
  match ← next? with
  | some '+' =>
    skip 1
    return some .keep
  | some '-' =>
    skip 1
    return some .strip
  | _ => return none

def takeIndentation? : Reading (Option Nat) := do
  need 1
  match ← next? with
  | some d =>
    if d == '0' then failure
    else if d.isDigit then
      skip 1
      return some (d.toNat - 48)
    else return none
  | none => return none

def takeBlockHeader : Reading (Chomping × Option Nat) := do
  match ← takeChomping? with
  | some chomping => return (chomping, ← takeIndentation?)
  | none =>
    match ← takeIndentation? with
    | some n => return ((← takeChomping?).getD .clip, some n)
    | none => return (.clip, none)

def endLine : Reading Unit := do
  let _ ← takeAll isBlank
  if (← next?) == some '#' then skipLine
  let c ← get
  if c.atBreak then
    let _ ← takeBreak
  else if !c.rest.isEmpty then failure

/-- Reads empty lines and the indentation after them; gives the line breaks, last one first, and the
greatest column met. If the block has a column, its indentation ends there. -/
def takeEmptyLines (column : Option Nat) : (fuel : Nat) → (breaks : List Char) → (greatest : Nat) →
    Reading (List Char × Nat)
  | 0, _, _ => failure
  | fuel + 1, breaks, greatest => do
    let before := (← get).column
    let _ ← match column with
      | none => takeAll (· == ' ')
      | some n => takeWhile (· == ' ') (n - before)
    need 1
    let c ← get
    let greatest := max greatest c.column
    if c.rest.head? == some '\t' && column.all (c.column < ·) then failure
    if c.atBreak then
      let b ← takeBreak
      takeEmptyLines column fuel (b ++ breaks) greatest
    else return (breaks, greatest)

def takeBlockLines (literal : Bool) (column : Nat) : (fuel : Nat) → Block → Reading Block
  | 0, b => return b
  | fuel + 1, b => do
    let c ← get
    if c.column == column && !c.rest.isEmpty then
      let line ← takeAll fun x => !isBreak x
      let lineBreak ← takeBreak
      let (breaks, _) ← takeEmptyLines (some column) c.bound [] 0
      takeBlockLines literal column fuel { b.addLine literal line with lineBreak, breaks }
    else return b

def takeBlock (literal : Bool) (indent : Int) : Reading String := do
  skip 1
  let (chomping, increment) ← takeBlockHeader
  need 1
  endLine
  let fuel := (← get).bound
  let least := (indent + 1).toNat
  let fixed := increment.map fun n => n + indent.toNat
  let (breaks, greatest) ← takeEmptyLines fixed fuel [] 0
  let column := fixed.getD (max greatest (max least 1))
  need 1
  let b ← takeBlockLines literal column fuel { breaks }
  let tail := match chomping with
    | .strip => []
    | .clip => b.lineBreak
    | .keep => b.breaks ++ b.lineBreak
  return String.ofList (tail ++ b.text).reverse

end Reading

end Discharge.Document
