import Discharge.Document.Token
import Discharge.Document.Written

/-!
The scanner finds the tokens of a document as they are asked for. It is always two tokens ahead.

A key is only known to be one when the colon after it is met. So a token that may begin a key is
kept back until the colon, which puts a key token before it, or until no colon can follow.
-/

namespace Discharge.Document

/-- A token that may turn out to begin a key. -/
structure Candidate where
  possible : Bool := false
  required : Bool := false
  /-- The number of the token, counted from the first one of the text. -/
  number : Nat := 0
  line : Nat := 0
  column : Nat := 0
  index : Nat := 0
  deriving Inhabited

structure Scanner where
  cursor : Cursor
  tokens : Array Token := #[]
  taken : Nat := 0
  indents : List Int := [-1]
  /-- The candidates of the blocks and of each open bracket, the innermost last. -/
  levels : Array Candidate := #[{}]
  /-- The tokens that are kept back, each with the level of its candidate. -/
  kept : List (Nat × Nat) := []
  keyAllowed : Bool := true
  deriving Inhabited

namespace Scanner

def inFlow (s : Scanner) : Bool := s.levels.size > 1

def indent (s : Scanner) : Int := s.indents.headD (-1)

def candidate (s : Scanner) : Candidate := s.levels.back?.getD {}

def setCandidate (s : Scanner) (k : Candidate) : Scanner :=
  { s with levels := s.levels.pop.push k }

def release (s : Scanner) (number : Nat) : Scanner :=
  { s with kept := s.kept.filter (·.1 != number) }

def emit (s : Scanner) (t : Token) : Scanner := { s with tokens := s.tokens.push t }

def insert (s : Scanner) (number : Nat) (t : Token) : Scanner :=
  if number < s.taken then s.emit t
  else { s with tokens := s.tokens.insertIdxIfInBounds number t }

def closeBlocks (s : Scanner) (column : Int) : Scanner :=
  if s.inFlow then s
  else
    let closed := s.indents.takeWhile (column < ·)
    { s with
      indents := s.indents.drop closed.length
      tokens := s.tokens ++ closed.map fun _ => Token.blockEnd }

/-- Opens a block at a column if that is further than the indentation so far; its start gets a
number. -/
def openBlock (s : Scanner) (column number : Nat) (start : Token) : Scanner :=
  if !s.inFlow && s.indent < column then
    { s.insert number start with indents := column :: s.indents }
  else s

end Scanner

/-- How many brackets, and how many blocks, may be open at a time. -/
def maxDepth : Nat := 10000

abbrev Scan := StateT Scanner Option

namespace Scan

def reading {α : Type} (r : Reading α) : Scan α := do
  let s ← get
  let (a, cursor) ← r.run s.cursor
  set { s with cursor }
  return a

def emit (t : Token) : Scan Unit := modify fun s => s.emit t

def allowKey (b : Bool) : Scan Unit := modify fun s => { s with keyAllowed := b }

def indicator (t : Token) (n : Nat) : Scan Unit := do
  reading (Reading.skip n)
  emit t

/-- Gives up the innermost candidate, which is an error if nothing else can stand there. -/
def dropKey : Scan Unit := do
  let s ← get
  let k := s.candidate
  if k.possible then
    if k.required then failure
    set ((s.setCandidate { k with possible := false }).release k.number)

/-- Makes the token that begins at the cursor a candidate, where a key may begin. -/
def markKey : Scan Unit := do
  let s ← get
  if s.keyAllowed then
    let c := s.cursor
    let required := !s.inFlow && s.indent == c.column
    let k : Candidate := ⟨true, required, s.tokens.size, c.line, c.column, c.index⟩
    dropKey
    modify fun s =>
      let s := (s.setCandidate k).release k.number
      { s with kept := (k.number, s.levels.size - 1) :: s.kept }

/-- Whether the candidate of a level can still be a key: the cursor is on its line and near
enough. -/
def isLive (level : Nat) : Scan Bool := do
  let s ← get
  let k := s.levels[level]?.getD {}
  if !k.possible then return false
  else if k.line < s.cursor.line || k.index + 1024 < s.cursor.index then
    if k.required then failure
    set { s with levels := s.levels.setIfInBounds level { k with possible := false } }
    return false
  else return true

/-- Skips blanks, comments and line breaks. Where a key may begin a tab is no blank. While the text
that is ready starts with a byte order mark, a character is dropped at the start of each line. -/
def skipGap : (fuel : Nat) → Scan Unit
  | 0 => failure
  | fuel + 1 => do
    reading (Reading.need 1)
    let c := (← get).cursor
    if c.column == 0 && c.marked then reading (Reading.skip 1)
    let s ← get
    let tabs := s.inFlow || !s.keyAllowed
    let _ ← reading (Reading.takeAll fun x => x == ' ' || (x == '\t' && tabs))
    let c := (← get).cursor
    if c.rest.head? == some '#' then reading (Reading.skipComments c.bound)
    if (← get).cursor.atBreak then
      let _ ← reading Reading.takeBreak
      if !(← get).inFlow then allowKey true
      skipGap fuel

def endBlocks : Scan Unit := do
  modify fun s => s.closeBlocks (-1)
  dropKey
  allowKey false

def scanStreamEnd : Scan Unit := do
  modify fun s =>
    let c := s.cursor
    if c.column == 0 then s else { s with cursor := { c with column := 0, line := c.line + 1 } }
  endBlocks
  emit .streamEnd

def scanMarker (t : Token) : Scan Unit := do
  endBlocks
  indicator t 3

def scanFlowStart (t : Token) : Scan Unit := do
  markKey
  if (← get).levels.size > maxDepth then failure
  modify fun s => { s with levels := s.levels.push { number := s.tokens.size } }
  allowKey true
  indicator t 1

def scanFlowEnd (t : Token) : Scan Unit := do
  dropKey
  modify fun s =>
    if s.inFlow then { s.release s.candidate.number with levels := s.levels.pop } else s
  allowKey false
  indicator t 1

def scanSeparator : Scan Unit := do
  dropKey
  allowKey true
  indicator .separator 1

def openBlock (column number : Nat) (start : Token) : Scan Unit := do
  modify fun s => s.openBlock column number start
  if (← get).indents.length > maxDepth + 1 then failure

def beginBlock (start : Token) : Scan Unit := do
  let s ← get
  if !s.inFlow then
    if !s.keyAllowed then failure
    openBlock s.cursor.column s.tokens.size start

def scanEntry : Scan Unit := do
  beginBlock .sequenceStart
  dropKey
  allowKey true
  indicator .entry 1

def scanKey : Scan Unit := do
  beginBlock .mappingStart
  dropKey
  allowKey (!(← get).inFlow)
  indicator .key 1

/-- Reads a colon. If a candidate is before it, that begins a key. -/
def scanValue : Scan Unit := do
  if ← isLive ((← get).levels.size - 1) then
    let k := (← get).candidate
    modify fun s => s.insert k.number .key
    openBlock k.column k.number .mappingStart
    modify fun s => (s.setCandidate { k with possible := false }).release k.number
    allowKey false
  else
    beginBlock .mappingStart
    allowKey (!(← get).inFlow)
  indicator .value 1

def scanName (make : String → Token) : Scan Unit := do
  markKey
  allowKey false
  reading (Reading.skip 1)
  let name ← reading (Reading.takeAll isWordChar)
  let rest := (← get).cursor.rest
  let ends := ['?', ':', ',', ']', '\x7d', '%', '@', '\x60']
  if name.isEmpty || !(atGap rest || rest.head?.any ends.contains) then failure
  emit (make (String.ofList name))

def takeOctets : (count : Nat) → Reading (List Char)
  | 0 => return []
  | count + 1 => do
    let octet ← takeOctet
    if octet / 64 != 2 then failure
    return Char.ofNat octet :: (← takeOctets count)
where
  takeOctet : Reading Nat := do
    Reading.need 3
    match (← get).rest with
    | '%' :: a :: b :: _ =>
      Reading.skip 3
      return (← Decimal.digitValue? a) * 16 + (← Decimal.digitValue? b)
    | _ => failure

def takeEscapedOctets : Reading (List Char) := do
  let first ← takeOctets.takeOctet
  let others ←
    if first < 0x80 then some 0
    else if first / 32 == 6 then some 1
    else if first / 16 == 14 then some 2
    else if first / 8 == 30 then some 3
    else none
  return Char.ofNat first :: (← takeOctets others)

def takeTagText : (fuel : Nat) → Reading (List Char)
  | 0 => return []
  | fuel + 1 => do
    Reading.need 1
    match ← Reading.next? with
    | none => return []
    | some x =>
      if x == '%' then return (← takeEscapedOctets) ++ (← takeTagText fuel)
      else if isWordChar x || ";/?:@&=+$,.!~*'()[]".toList.contains x then
        Reading.skip 1
        return x :: (← takeTagText fuel)
      else return []

/-- Reads the handle of a tag, which may turn out to be the start of its suffix. -/
def takeTagHandle : Reading (List Char) := do
  Reading.need 1
  if (← Reading.next?) != some '!' then failure
  Reading.skip 1
  let word ← Reading.takeAll isWordChar
  if (← Reading.next?) == some '!' then
    Reading.skip 1
    return '!' :: word ++ ['!']
  else return '!' :: word

def takeTag : Reading Token := do
  Reading.need 2
  let fuel := (← get).bound
  let (handle, suffix) ← if (← get).rest.drop 1 |>.head? |>.any (· == '<') then do
      Reading.skip 2
      let suffix ← takeTagText fuel
      if suffix.isEmpty || (← Reading.next?) != some '>' then failure
      Reading.skip 1
      pure ([], suffix)
    else do
      let handle ← takeTagHandle
      let suffix ← takeTagText fuel
      if handle.length > 1 && handle.getLast? == some '!' then
        if suffix.isEmpty then failure
        pure (handle, suffix)
      else
        let suffix := handle.drop 1 ++ suffix
        pure (if suffix.isEmpty then ([], ['!']) else (['!'], suffix))
  Reading.need 1
  if !atGap (← get).rest then failure
  return .tag (String.ofList handle) (String.ofList suffix)

def scanTag : Scan Unit := do
  markKey
  allowKey false
  emit (← reading takeTag)

def takeVersionNumber : Reading Nat := do
  let ds ← Reading.takeAll Char.isDigit
  if ds.isEmpty || ds.length > 2 then failure
  return ds.foldl (fun n d => n * 10 + (d.toNat - 48)) 0

def takeDirective : Reading Token := do
  Reading.skip 1
  let name ← Reading.takeAll isWordChar
  if !atGap (← get).rest then failure
  let t ← match String.ofList name with
    | "YAML" => do
      let _ ← Reading.takeAll isBlank
      let major ← takeVersionNumber
      if (← Reading.next?) != some '.' then failure
      Reading.skip 1
      pure (Token.versionDirective major (← takeVersionNumber))
    | "TAG" => do
      let _ ← Reading.takeAll isBlank
      let handle ← takeTagHandle
      if handle.length > 1 && handle.getLast? != some '!' then failure
      Reading.need 1
      if (← Reading.takeAll isBlank).isEmpty then failure
      let start ← takeTagText (← get).bound
      if start.isEmpty || !atGap (← get).rest then failure
      pure (Token.tagDirective (String.ofList handle) (String.ofList start))
    | _ => failure
  Reading.endLine
  return t

def scanDirective : Scan Unit := do
  endBlocks
  emit (← reading takeDirective)

def scanBlock (literal : Bool) : Scan Unit := do
  dropKey
  allowKey true
  let indent := (← get).indent
  emit (.scalar (← reading (Reading.takeBlock literal indent)) false)

def scanQuoted (quote : Char) : Scan Unit := do
  markKey
  allowKey false
  reading (Reading.skip 1)
  let fuel := (← get).cursor.bound
  emit (.scalar (← reading (Reading.takeQuoted quote fuel {})) false)

def scanPlain : Scan Unit := do
  markKey
  allowKey false
  let s ← get
  let fuel := s.cursor.bound
  let f ← reading (Reading.takePlain s.inFlow (s.indent + 1) fuel {})
  if f.lineBreak.isSome then allowKey true
  emit (.scalar f.toText true)

def isIndicator (c : Char) : Bool :=
  ['-', '?', ':', ',', '[', ']', '\x7b', '\x7d', '#', '&', '*', '!', '|', '>', '\'', '"', '%', '@',
    '\x60'].contains c

def startsPlain (flow : Bool) (x : Char) (rest : List Char) : Bool :=
  !(isBlank x || isBreak x || isIndicator x) || (x == '-' && !rest.head?.any isBlank) ||
    (!flow && (x == '?' || x == ':') && !atGap rest)

def scanContent (x : Char) (rest : List Char) : Scan Unit := do
  let flow := (← get).inFlow
  if x == '[' then scanFlowStart .flowSequenceStart
  else if x == '\x7b' then scanFlowStart .flowMappingStart
  else if x == ']' then scanFlowEnd .flowSequenceEnd
  else if x == '\x7d' then scanFlowEnd .flowMappingEnd
  else if x == ',' then scanSeparator
  else if x == '-' && atGap rest then scanEntry
  else if x == '?' && (flow || atGap rest) then scanKey
  else if x == ':' && (flow || atGap rest) then scanValue
  else if x == '*' then scanName .reference
  else if x == '&' then scanName .anchor
  else if x == '!' then scanTag
  else if x == '|' && !flow then scanBlock true
  else if x == '>' && !flow then scanBlock false
  else if x == '\'' || x == '"' then scanQuoted x
  else if startsPlain flow x rest then scanPlain
  else failure

def next : Scan Unit := do
  reading (Reading.need 1)
  skipGap (← get).cursor.bound
  modify fun s => s.closeBlocks s.cursor.column
  reading (Reading.need 4)
  let c := (← get).cursor
  match c.rest with
  | [] => scanStreamEnd
  | x :: rest =>
    if c.column == 0 && x == '%' then scanDirective
    else if c.atMarker Cursor.startMarker then scanMarker .documentStart
    else if c.atMarker Cursor.endMarker then scanMarker .documentEnd
    else
      scanContent x rest
      -- a comment behind a dash belongs to what follows
      if (← get).tokens.back? != some .entry then reading Reading.skipLineComment

def fill : (fuel : Nat) → Scan Unit
  | 0 => failure
  | fuel + 1 => do
    let s ← get
    let waits ← if s.tokens.size ≤ s.taken + 2 then pure true
      else match s.kept.lookup s.taken with
        | some level => isLive level
        | none => pure false
    if waits then
      next
      fill fuel

def peek : Scan Token := do
  fill ((← get).cursor.bound + 8)
  let s ← get
  return s.tokens[s.taken]?.getD .streamEnd

def advance : Scan Unit :=
  modify fun s => { s with taken := s.taken + 1 }

end Scan

def Scanner.ofText (text : Text) : Scanner := { cursor := Cursor.ofText text }

end Discharge.Document
