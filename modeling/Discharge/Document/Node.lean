import Discharge.Document.Scanner

namespace Discharge

namespace Document

/-- What a scalar is said to be. -/
inductive Tag where
  | untold
  | text
  | named (name : String)
  deriving DecidableEq, Repr, Inhabited

inductive Node where
  | scalar (text : String) (tag : Tag)
  | sequence (items : List Node)
  | mapping (entries : List (Node × Node))
  /-- The node with an anchor, by the anchor's name and number. References have numbers of their
  own, which tell them apart. -/
  | reference (name : String) (number anchor : Nat)
  deriving Inhabited

namespace Node

def empty : Node := scalar "" .untold

structure Reader.State where
  scanner : Scanner
  handles : List (String × String) := []
  anchors : Array (String × Node) := #[]
  references : Nat := 0

abbrev Reader := StateT Reader.State Option

namespace Reader

def peek : Reader Token := do
  let s ← get
  let (t, scanner) ← Scan.peek.run s.scanner
  set { s with scanner }
  return t

def advance : Reader Unit := do
  let s ← get
  let (_, scanner) ← Scan.advance.run s.scanner
  set { s with scanner }

def sees (found : List Token) : Reader Bool := return found.contains (← peek)

def tagOf (plain : Bool) (name : String) : Tag :=
  let standard := "tag:yaml.org,2002:"
  let short := if standard.toList.isPrefixOf name.toList
    then "!!" ++ String.ofList (name.toList.drop standard.length) else name
  if short.isEmpty || short == "!" then (if plain then .untold else .text)
  else if short == "!!str" then .text
  else .named short

def resolveTag (handle suffix : String) : Reader String := do
  if handle.isEmpty then return suffix
  else
    let start ← (← get).handles.lookup handle
    if start.isEmpty && suffix.isEmpty then failure
    return start ++ suffix

def properties : Reader (Option String × String) := do
  match ← peek with
  | .anchor a =>
    advance
    match ← peek with
    | .tag handle suffix =>
      advance
      return (some a, ← resolveTag handle suffix)
    | _ => return (some a, "")
  | .tag handle suffix =>
    advance
    match ← peek with
    | .anchor a =>
      advance
      return (some a, ← resolveTag handle suffix)
    | _ => return (none, ← resolveTag handle suffix)
  | _ => return (none, "")

/-- Reads a node that may have an anchor, which can already be referred to inside it. -/
def anchored (name : Option String) (content : Reader Node) : Reader Node := do
  match name with
  | none => content
  | some a =>
    let place := (← get).anchors.size
    modify fun s => { s with anchors := s.anchors.push (a, empty) }
    let n ← content
    modify fun s => { s with anchors := s.anchors.setIfInBounds place (a, n) }
    return n

def refer (name : String) : Reader Node := do
  let s ← get
  let anchor ← (List.range s.anchors.size).reverse.find? fun i =>
    (s.anchors[i]?).any (·.1 == name)
  set { s with references := s.references + 1 }
  return reference name s.references anchor

end Reader

open Reader

def readNothing (anchor : Option String) (tag : String) : Reader Node := do
  if anchor.isNone && tag.isEmpty then failure
  return scalar "" (tagOf true tag)

mutual

/-- Reads a node. Blocks are nodes only outside brackets, and the items of a sequence that is the
value of a key need no indentation. -/
def read (block indentless : Bool) : (fuel : Nat) → Reader Node
  | 0 => failure
  | fuel + 1 => do
    match ← peek with
    | .reference name =>
      let n ← refer name
      advance
      return n
    | _ =>
      let (anchor, tag) ← properties
      let t ← peek
      anchored anchor do
        match t with
        | .scalar text plain =>
          advance
          return scalar text (tagOf plain tag)
        | .flowSequenceStart =>
          advance
          return sequence (← readFlowItems true fuel)
        | .flowMappingStart =>
          advance
          return mapping (← readFlowPairs true fuel)
        | .entry =>
          if indentless then return sequence (← readIndentless fuel)
          else readNothing anchor tag
        | .sequenceStart =>
          if block then
            advance
            return sequence (← readItems fuel)
          else readNothing anchor tag
        | .mappingStart =>
          if block then
            advance
            return mapping (← readPairs fuel)
          else readNothing anchor tag
        | _ => readNothing anchor tag

/-- Reads a node, or nothing if one of the tokens comes that cannot begin it. -/
def readUnless (block indentless : Bool) (stops : List Token) : (fuel : Nat) → Reader Node
  | 0 => failure
  | fuel + 1 => do
    if ← sees stops then return empty else read block indentless fuel

def readItems : (fuel : Nat) → Reader (List Node)
  | 0 => failure
  | fuel + 1 => do
    match ← peek with
    | .blockEnd =>
      advance
      return []
    | .entry =>
      advance
      let item ← readUnless true false [.entry, .blockEnd] fuel
      return item :: (← readItems fuel)
    | _ => failure

def readIndentless : (fuel : Nat) → Reader (List Node)
  | 0 => failure
  | fuel + 1 => do
    if ← sees [.entry] then
      advance
      let item ← readUnless true false [.entry, .key, .value, .blockEnd] fuel
      return item :: (← readIndentless fuel)
    else return []

def readPairs : (fuel : Nat) → Reader (List (Node × Node))
  | 0 => failure
  | fuel + 1 => do
    match ← peek with
    | .blockEnd =>
      advance
      return []
    | .key =>
      advance
      let stops := [Token.key, .value, .blockEnd]
      let key ← readUnless true true stops fuel
      let value ← if ← sees [.value] then do
          advance
          readUnless true true stops fuel
        else pure empty
      return (key, value) :: (← readPairs fuel)
    | _ => failure

def readFlowItems (first : Bool) : (fuel : Nat) → Reader (List Node)
  | 0 => failure
  | fuel + 1 => do
    if !(← sees [.flowSequenceEnd]) && !first then
      if ← sees [.separator] then advance else failure
    match ← peek with
    | .flowSequenceEnd =>
      advance
      return []
    | .key =>
      advance
      -- without a key, what ends the pair is taken for its colon
      let key ← if ← sees [.value, .separator, .flowSequenceEnd] then do
          advance
          pure empty
        else read false false fuel
      let value ← readFlowValue .flowSequenceEnd fuel
      return mapping [(key, value)] :: (← readFlowItems false fuel)
    | _ =>
      let item ← read false false fuel
      return item :: (← readFlowItems false fuel)

def readFlowPairs (first : Bool) : (fuel : Nat) → Reader (List (Node × Node))
  | 0 => failure
  | fuel + 1 => do
    if !(← sees [.flowMappingEnd]) && !first then
      if ← sees [.separator] then advance else failure
    match ← peek with
    | .flowMappingEnd =>
      advance
      return []
    | .key =>
      advance
      let key ← readUnless false false [.value, .separator, .flowMappingEnd] fuel
      let value ← readFlowValue .flowMappingEnd fuel
      return (key, value) :: (← readFlowPairs false fuel)
    | _ =>
      let key ← read false false fuel
      return (key, empty) :: (← readFlowPairs false fuel)

def readFlowValue (close : Token) : (fuel : Nat) → Reader Node
  | 0 => failure
  | fuel + 1 => do
    if ← sees [.value] then
      advance
      readUnless false false [.separator, close] fuel
    else return empty

end

def addHandle (handles : List (String × String)) (h : String × String) : List (String × String) :=
  if (handles.lookup h.1).isSome then handles else handles ++ [h]

/-- Reads the directives before a document; gives whether there are any. Of the versions only 1.1 is
known, and nothing is said twice. -/
def readDirectives : (fuel : Nat) → (versioned : Bool) → Reader Bool
  | 0, _ => failure
  | fuel + 1, versioned => do
    match ← peek with
    | .versionDirective major minor =>
      if versioned || (major, minor) != (1, 1) then failure
      advance
      let _ ← readDirectives fuel true
      return true
    | .tagDirective handle start =>
      if ((← get).handles.lookup handle).isSome then failure
      modify fun s => { s with handles := s.handles ++ [(handle, start)] }
      advance
      let _ ← readDirectives fuel versioned
      return true
    | _ =>
      let standard := [("!", "!"), ("!!", "tag:yaml.org,2002:")]
      modify fun s => { s with handles := standard.foldl addHandle s.handles }
      return false

def endsDocument : Token → Bool
  | .versionDirective .. | .tagDirective .. | .documentStart | .documentEnd | .streamEnd => true
  | _ => false

def readDocument (fuel : Nat) : Reader (Option Node) := do
  if ← sees [.streamEnd] then return none
  else
    let directives ← readDirectives fuel false
    let n ← if ← sees [.documentStart] then do
        advance
        if endsDocument (← peek) then pure empty else read true false fuel
      else if directives then failure
      else read true false fuel
    -- the end of the document is seen only by what follows
    let _ ← peek
    return some n

end Node

end Document

/-- A document: a tree of nodes, in which some have anchors that others refer to. -/
structure Document where
  root : Document.Node
  anchored : Array Document.Node := #[]
  depth : Nat
  deriving Inhabited

namespace Document

/-- The first document of a text, if there is one. Every character makes a few tokens at most, which
bounds the nesting. -/
def parse? (text : Text) : Option (Option Document) := do
  let bound := 8 * text.length + 64
  let (root, s) ← (Node.readDocument bound).run { scanner := .ofText text }
  return root.map fun n => ⟨n, s.anchors.map (·.2), bound * (s.references + 1)⟩

def node (d : Document) (anchor : Nat) : Node := d.anchored[anchor]?.getD .empty

end Document

end Discharge
