import Discharge.Document.Filler

/-!
Mappings read into records and tables. The keys of a mapping have to be different.

A mapping may take in the entries of others under the key `<<`. Its own entries count before those,
and of several mappings the earlier ones: an entry is not taken in if its key is closed, as the keys
of the mapping itself are and those of what it took in before.
-/

namespace Discharge.Document

namespace Node

def keyLabel : Node → Nat × String
  | scalar text _ => (0, text)
  | sequence _ => (1, "")
  | mapping _ => (2, "")
  | reference name _ _ => (3, name)

def hasDistinctKeys (pairs : List (Node × Node)) : Bool :=
  let labels := pairs.map fun (k, _) => k.keyLabel
  labels.eraseDups.length == labels.length

/-- Whether a key says that its value is to be taken in. -/
def isMerge : Node → Bool
  | scalar text tag => text == "<<" && (tag == .untold || tag == .named "!!merge")
  | _ => false

end Node

namespace Filler

/-- How the entries of mappings are read into a value. -/
structure Form (α : Type) where
  key : Node → Filler (Option Value)
  /-- Reads the value of a key. It is told whether the mapping is taken in by another, and which
  keys the mapping had before. -/
  entry : (taken : Bool) → (earlier : List Value) → Value → Node → α → Filler α

namespace Form

variable {α : Type}

def own (f : Form α) (taken : Bool) : (earlier : List Value) → (closed : Option (List Value)) →
    List (Node × Node) → α → Filler (α × Option (List Value))
  | _, closed, [], a => return (a, closed)
  | earlier, closed, (k, v) :: rest, a => do
    if k.isMerge then f.own taken earlier closed rest a
    else match ← f.key k with
      | none => f.own taken earlier closed rest a
      | some .composite => throw (if closed.isSome then .unfitKey else .refused)
      | some key =>
        if closed.any (·.contains key) then f.own taken earlier closed rest a
        else
          let a ← f.entry taken earlier key v a
          f.own taken (key :: earlier) (closed.map (key :: ·)) rest a

/-- Closes the keys of a mapping, among them the one that says what is taken in. -/
def close (readKey : Node → Filler (Option Value)) (pairs : List (Node × Node)) : Filler Unit := do
  modify fun s => { s with closed := some [] }
  for (k, _) in pairs do
    match ← readKey k with
    | none => pure ()
    | some .composite => throw .unfitKey
    | some key => modify fun s => { s with closed := s.closed.map (key :: ·) }

/-- Reads a mapping, and then what it takes in: another mapping, or a sequence of some. -/
def fill (f : Form α) (readKey : Node → Filler (Option Value)) : (fuel : Nat) → (taken : Bool) →
    List (Node × Node) → α → Filler α
  | 0, _, _, _ => throw .refused
  | fuel + 1, taken, pairs, a => do
    if !Node.hasDistinctKeys pairs then
      modify fun s => { s with misfit := true }
      return a
    let outer := (← get).closed
    modify fun s => { s with closed := none }
    let (a, closed) ← f.own taken [] outer pairs a
    modify fun s => { s with closed }
    match pairs.find? fun (k, _) => k.isMerge with
    | none => return a
    | some (_, v) =>
      if outer.isNone then close readKey pairs
      let takeIn (a : α) : Node → Filler α := visit fun
        | .mapping pairs => f.fill readKey fuel true pairs a
        | _ => throw .refused
      let a ← match v with
        | .sequence items => items.foldlM takeIn a
        | v => takeIn a v
      if outer.isNone then modify fun s => { s with closed := none }
      return a

end Form

def isWord : Node → Bool
  | .scalar s .untold => Value.ofPlain s == .text s
  | .scalar _ .text => true
  | .scalar _ (.named name) => name == "!!merge"
  | _ => false

def isName (d : Document) : Node → Bool
  | .reference _ _ anchor => isWord (d.node anchor)
  | n => isWord n

def readName (n : Node) : Filler (Option Value) := do return (← readText n).map Value.text

def readAny : (fuel : Nat) → Node → Filler (Option Value)
  | 0 => fun _ => throw .refused
  | fuel + 1 => visit fun
    | .sequence items => do
      let _ ← items.mapM (readAny fuel)
      return some .composite
    | .mapping pairs => do
      if !Node.hasDistinctKeys pairs then misfit
      else
        let d ← readThe Document
        let named := pairs.all fun (k, _) => isName d k
        let form : Form Unit :=
          ⟨if named then readName else readAny fuel, fun _ _ _ v _ => do
            let _ ← readAny fuel v⟩
        form.fill (readAny fuel) fuel false pairs ()
        return some .composite
    | .scalar s tag => do return some (← resolve s tag)
    | .reference .. => throw .refused

def readForm {α : Type} (f : Form α) (absent : Option α) (start : α) :
    Node → Filler (Option α) :=
  visit fun
    | .mapping pairs => do
      let depth := (← readThe Document).depth
      return some (← f.fill (readAny depth) depth false pairs start)
    | .scalar s tag => do
      match ← resolve s tag with
      | .null => return absent
      | _ => misfit
    | _ => misfit

/-- Puts a text under a name, in the place of one that is there. -/
def putText (table : List (Text × Text)) (name text : Text) : List (Text × Text) :=
  table.filter (·.1 != name) ++ [(name, text)]

/-- Tables of texts. A null entry is an empty text, but taken in it replaces nothing. -/
def table : Form (List (Text × Text)) where
  key := readName
  entry taken _ key v table := do
    let .text name := key | return table
    match ← readText v with
    | some text => return putText table name text
    | none =>
      if taken && (table.lookup name).isSome then return table else return putText table name ""

def readTable : Node → Filler (Option (List (Text × Text))) := readForm table (some []) []

structure FieldReader (α : Type) where
  name : Text
  read : Node → α → Filler α

def FieldReader.of {α β : Type} (name : Text) (read : Node → Filler (Option β)) (set : α → β → α) :
    FieldReader α where
  name
  read n a := do return ((← read n).map (set a)).getD a

def record {α : Type} (fields : List (FieldReader α)) (passOver : Bool) : Form α where
  key := readName
  entry _ earlier key v a := do
    match fields.find? fun f => Value.text f.name == key with
    | some f =>
      if earlier.contains key then
        modify fun s => { s with misfit := true }
        return a
      else f.read v a
    | none =>
      if !passOver then modify fun s => { s with misfit := true }
      return a

def readRecord {α : Type} (fields : List (FieldReader α)) (start : α) : Node → Filler (Option α) :=
  readForm (record fields true) none start

end Filler

def read {α : Type} (root : Node → Filler (Option α)) (text : Text) :
    Except Refused (Option α) :=
  match parse? text with
  | none => .error (.ofCause .document)
  | some none => .error (.ofCause .endOfInput)
  | some (some d) =>
    match ((root d.root).run d).run {} with
    | .error .refused => .error (.ofCause .document)
    | .error .unfitKey => .error (.fault .unfitKey)
    | .ok (a, s) => if s.misfit then .error (.ofCause .document) else .ok a

end Discharge.Document
