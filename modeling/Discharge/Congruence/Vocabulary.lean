import Std.Data.TreeMap
import Discharge.Error

/-!
Symbols in the order they were met, divided into classes. Each symbol knows the root of its class
directly. Among the members of a class the root is the first one that was not created for a
subterm, or the first of all if every member was.
-/

namespace Discharge.Congruence

inductive Usage where
  | literal
  | created
  | universal
  | function
  deriving DecidableEq, Repr, Inhabited

namespace Usage

def name : Usage → Text
  | literal => "Literal"
  | created => "Created"
  | universal => "ForAll"
  | function => "HasArgsForAll"

/-- Whether a symbol of a pattern may be bound by a match. -/
def isVariable (u : Usage) : Bool := u != literal

def isQuantified (u : Usage) : Bool := u == universal || u == function

end Usage

structure Entry where
  name : Text
  kind : Kind
  usage : Usage
  deriving DecidableEq, Repr, Inhabited

structure Vocabulary where
  entries : Array Entry
  roots : Array Nat
  index : Std.TreeMap Text Nat
  /-- The number that the next created name is tried with. -/
  created : Nat
  deriving Inhabited

namespace Vocabulary

def size (v : Vocabulary) : Nat := v.entries.size

def lookup? (v : Vocabulary) (name : Text) : Option Nat := v.index[name]?

def contains (v : Vocabulary) (name : Text) : Bool := v.index.contains name

def entry (v : Vocabulary) (i : Nat) : Entry := v.entries[i]?.getD default

def name (v : Vocabulary) (i : Nat) : Text := (v.entry i).name

def usage (v : Vocabulary) (i : Nat) : Usage := (v.entry i).usage

/-- The representative of a class; an index that no symbol has is its own. -/
def root (v : Vocabulary) (i : Nat) : Nat := v.roots[i]?.getD i

def rootName (v : Vocabulary) (i : Nat) : Text := v.name (v.root i)

def related (v : Vocabulary) (a b : Nat) : Bool := v.root a == v.root b

def rootOf? (v : Vocabulary) (name : Text) : Option Nat := (v.lookup? name).map v.root

def entryOf (v : Vocabulary) (name : Text) : Entry :=
  ((v.lookup? name).map v.entry).getD default

def add (v : Vocabulary) (name : Text) (kind : Kind) (usage : Usage) : Nat × Vocabulary :=
  match v.lookup? name with
  | some i => (i, v)
  | none =>
    let i := v.size
    (i, { v with
      entries := v.entries.push ⟨name, kind, usage⟩
      roots := v.roots.push i
      index := v.index.insert name i })

def truth : Nat := 0
def falsehood : Nat := 1

def initial : Vocabulary :=
  let v : Vocabulary := ⟨#[], #[], ∅, 0⟩
  ((v.add "true" .boolean .literal).2.add "false" .boolean .literal).2

/-- The name of a created symbol; no formula can spell it. -/
def createdName (n : Nat) : Text := "¢c" ++ toString n

/-- The first number from `n` on whose created name is free, after at most `fuel` taken ones. -/
def freeNumber (v : Vocabulary) : (fuel n : Nat) → Nat
  | 0, n => n
  | fuel + 1, n => if v.contains (createdName n) then v.freeNumber fuel (n + 1) else n

def create (v : Vocabulary) (kind : Kind) : Nat × Vocabulary :=
  let n := v.freeNumber v.size v.created
  { v with created := n + 1 }.add (createdName n) kind .created

/-- Whether the first symbol is the better root: input comes before created, old before new. -/
def prefers (v : Vocabulary) (a b : Nat) : Bool :=
  let createdA := v.usage a == .created
  let createdB := v.usage b == .created
  if createdA != createdB then createdB else a < b

def merge (v : Vocabulary) (a b : Nat) : Nat × Vocabulary :=
  let ra := v.root a
  let rb := v.root b
  if ra == rb then (ra, v)
  else
    let (winner, loser) := if v.prefers rb ra then (rb, ra) else (ra, rb)
    (winner, { v with roots := v.roots.map fun r => if r == loser then winner else r })

def members (v : Vocabulary) (root : Nat) : List Nat :=
  (List.range v.size).filter fun i => v.root i == root

def others (v : Vocabulary) (i : Nat) : List Text :=
  ((v.members (v.root i)).filter (· != v.root i)).map v.name

/-- The roots that a value of the kind may be, oldest first; quantified symbols are no values. -/
def rootsOfKind (v : Vocabulary) (kind : Kind) : List Text :=
  ((List.range v.size).filter fun i =>
    v.root i == i && !(v.usage i).isQuantified && kind.accepts (v.entry i).kind).map v.name

def namesWhere (v : Vocabulary) (p : Usage → Bool) : List Text :=
  (v.entries.toList.filter fun e => p e.usage).map Entry.name

def universals (v : Vocabulary) : List Text := v.namesWhere (· == .universal)

def vars (v : Vocabulary) : List Text := v.namesWhere Usage.isVariable

/-- The classes with more than one member, by root: its name, then the other members. -/
def classes (v : Vocabulary) : List (List Text) :=
  (List.range v.size).filterMap fun i =>
    if v.root i == i then
      match v.others i with
      | [] => none
      | others => some (v.name i :: others)
    else none

def indexOf (v : Vocabulary) (name : Text) : Except Fault Nat :=
  match v.lookup? name with
  | some i => .ok i
  | none => .error (.unknownSymbol name)

def entryAt (v : Vocabulary) (i : Int) : Except Fault Entry :=
  match i with
  | .ofNat n =>
    match v.entries[n]? with
    | some e => .ok e
    | none => .error (.outOfRange i v.size)
  | .negSucc _ => .error (.outOfRange i v.size)

def rootAt (v : Vocabulary) (i : Int) : Except Fault Nat :=
  match i with
  | .ofNat n =>
    match v.roots[n]? with
    | some r => .ok r
    | none => .error .noSuchIndex
  | .negSucc _ => .error .noSuchIndex

end Vocabulary

end Discharge.Congruence
