import Discharge.Congruence.Fact

/-!
Models: facts over a vocabulary, closed under congruence and under the rules of the connectives.
Whenever two facts have the same operator and operand classes their results share a class. A model
only grows.
-/

namespace Discharge.Congruence

/-- A fact as a model keeps it: the key it is filed under, and whether it still stands for itself
rather than for an older one that it became congruent to. -/
structure Record where
  app : Application
  result : Nat
  key : Application
  live : Bool
  deriving DecidableEq, Repr, Inhabited

structure Model where
  vocabulary : Vocabulary
  records : Array Record
  /-- The position of the live fact under each key. -/
  table : Std.TreeMap Application Nat
  /-- The positions of the facts that mention a member of the class, by root. -/
  uses : Std.TreeMap Nat (Array Nat)
  pending : List (Nat × Nat)
  contradiction : Bool
  merges : Nat
  deriving Inhabited

structure Change where
  facts : Nat
  merges : Nat
  deriving DecidableEq, Repr, Inhabited

namespace Change

def isEmpty (c : Change) : Bool := c.facts == 0 && c.merges == 0

def render (c : Change) : Text :=
  if c.isEmpty then ""
  else toString c.facts ++ " new atoms, " ++ toString c.merges ++ " merges"

end Change

/-- The merges that the rule of a connective asks for, given the roots of the operands, of the
result and of the two truth values. -/
def consequences (op : Text) (args : List Nat) (result true' false' : Nat) : List (Nat × Nat) :=
  match Connective.named? op, args with
  | some .equality, [a, b] =>
    (if a == b then [(result, true')] else []) ++ (if result == true' then [(a, b)] else [])
  | some .conjunction, _ =>
    (if result == true' then args.map fun a => (a, true') else []) ++
    (if args.contains false' then [(result, false')] else []) ++
    (if !args.isEmpty && args.all (· == true') then [(result, true')] else [])
  | some .disjunction, _ =>
    (if args.contains true' then [(result, true')] else []) ++
    (if result == false' then args.map fun a => (a, false') else []) ++
    (if !args.isEmpty && args.all (· == false') then [(result, false')] else [])
  | some .implication, [a, b] =>
    (if result == true' && a == true' then [(b, true')] else []) ++
    (if a == false' || b == true' then [(result, true')] else [])
  | _, _ => []

namespace Model

def empty : Model := ⟨.initial, #[], ∅, ∅, [], false, 0⟩

def root (m : Model) (i : Nat) : Nat := m.vocabulary.root i

def addSymbol (m : Model) (name : Text) (kind : Kind) (usage : Usage) : Nat × Model :=
  let (i, v) := m.vocabulary.add name kind usage
  (i, { m with vocabulary := v })

def record (m : Model) (i : Nat) : Record := m.records[i]?.getD default

/-- Asks for a merge, unless the two are in one class already. -/
def enqueue (m : Model) (p : Nat × Nat) : Model :=
  if m.root p.1 == m.root p.2 then m else { m with pending := p :: m.pending }

def check (m : Model) (i : Nat) : Model :=
  let r := m.record i
  let c := r.app.canonical m.vocabulary
  (consequences (m.vocabulary.name c.op) c.args (m.root r.result) (m.root Vocabulary.truth)
    (m.root Vocabulary.falsehood)).foldl enqueue m

def use (m : Model) (fact symbol : Nat) : Model :=
  let r := m.root symbol
  { m with uses := m.uses.insert r (((m.uses[r]?).getD #[]).push fact) }

def insert (m : Model) (app : Application) (result : Nat) : Model :=
  let i := m.records.size
  let key := app.key m.vocabulary
  let m := { m with
    records := m.records.push ⟨app, result, key, true⟩
    table := m.table.insert key i }
  let m := (app.places ++ [result]).foldl (fun m s => m.use i s) m
  m.check i

/-- Files a fact under its key of now. If another fact is there it becomes that one's copy, and
their results are to be merged. -/
def refile (m : Model) (i : Nat) : Model :=
  let r := m.record i
  if !r.live then m
  else
    let table := if m.table[r.key]? == some i then m.table.erase r.key else m.table
    let key := r.app.key m.vocabulary
    match table[key]? with
    | some j =>
      if j == i then
        { m with
          table := table.insert key i
          records := m.records.setIfInBounds i { r with key } }.check i
      else
        { m with table, records := m.records.setIfInBounds i { r with live := false } }.enqueue
          (r.result, (m.record j).result)
    | none =>
      { m with
        table := table.insert key i
        records := m.records.setIfInBounds i { r with key } }.check i

/-- Makes one class of two different ones and refiles the facts about the one that gave way. -/
def unite (m : Model) (a b : Nat) : Model :=
  let ra := m.root a
  let rb := m.root b
  if ra == rb then m
  else
    let (winner, v) := m.vocabulary.merge ra rb
    let loser := if winner == rb then ra else rb
    let moved := (m.uses[loser]?).getD #[]
    let kept := (m.uses[winner]?).getD #[]
    let m := { m with
      vocabulary := v
      merges := m.merges + 1
      contradiction := m.contradiction || v.related Vocabulary.truth Vocabulary.falsehood
      uses := (m.uses.erase loser).insert winner (kept ++ moved) }
    moved.foldl refile m

/-- Drops the merges in front that ask for nothing new. -/
def settled (m : Model) : Model :=
  { m with pending := m.pending.dropWhile fun p => m.root p.1 == m.root p.2 }

/-- Makes pending merges, at most as many as the first argument says. -/
def propagateWithin : (fuel : Nat) → Model → Model
  | 0, m => m.settled
  | fuel + 1, m =>
    match m.settled.pending with
    | [] => m.settled
    | p :: rest => propagateWithin fuel ({ m.settled with pending := rest }.unite p.1 p.2)

/-- Makes the pending merges until none is left. Each leaves one class fewer, so the number of
symbols is enough. -/
def propagate (m : Model) : Model := m.propagateWithin m.vocabulary.size

/-- The symbol of an application, which is created with a fact of its own if none is known. -/
def placeApplication (m : Model) (app : Application) (kind : Kind) : Nat × Model :=
  match m.table[app.key m.vocabulary]? with
  | some i => (m.root (m.record i).result, m)
  | none =>
    let (result, v) := m.vocabulary.create kind
    let m := ({ m with vocabulary := v }.insert app result).propagate
    (m.root result, m)

def usageOf (s : Symbol) (applied : Bool) : Usage :=
  if s.quantifier != .universal then .literal
  else if applied then .function
  else .universal

def placeConstant (m : Model) (t : Term) : Nat × Model :=
  let (i, m) := m.addSymbol t.render t.kind .literal
  (m.root i, m)

mutual

/-- The root of the class that stands for a term. Anonymous functions and definitions by cases are
constants. -/
def place : Term → Model → Nat × Model
  | .symbol s, m =>
    let (i, m) := m.addSymbol s.name s.kind (usageOf s false)
    (m.root i, m)
  | .apply (.symbol s) args k, m =>
    let (op, m) := m.addSymbol s.name s.kind (usageOf s true)
    let (args, m) := placeAll args m
    m.placeApplication ⟨op, args⟩ k
  | .apply fn args k, m =>
    let (op, m) := place fn m
    let (args, m) := placeAll args m
    m.placeApplication ⟨op, args⟩ k
  | .lambda params body k, m => m.placeConstant (.lambda params body k)
  | .cases branches otherwise k, m => m.placeConstant (.cases branches otherwise k)

def placeAll : List Term → Model → List Nat × Model
  | [], m => ([], m)
  | t :: rest, m =>
    let (i, m) := place t m
    let (is, m) := placeAll rest m
    (i :: is, m)

end

mutual

/-- Asks for the merges that make a term true. -/
def assert : Term → Model → Model
  | .apply (.symbol s) args k, m =>
    if s.name == "and" then assertAll args m
    else match s.name == "=", args with
      | true, [a, b] =>
        let (l, m) := place a m
        let (r, m) := place b m
        m.enqueue (l, r)
      | _, _ =>
        let (i, m) := place (.apply (.symbol s) args k) m
        m.enqueue (i, Vocabulary.truth)
  | t, m =>
    if t.isTruth then m
    else if t.isFalsehood then m.enqueue (Vocabulary.truth, Vocabulary.falsehood)
    else
      let (i, m) := place t m
      m.enqueue (i, Vocabulary.truth)

def assertAll : List Term → Model → Model
  | [], m => m
  | t :: rest, m => assertAll rest (assert t m)

end

def assume (m : Model) (t : Term) : Change × Model :=
  let n := (assert t m).propagate
  (⟨n.records.size - m.records.size, n.merges - m.merges⟩, n)

def represent (m : Model) (t : Term) : Nat × Model :=
  let (i, m) := place t m
  let m := m.propagate
  (m.root i, m)

def facts (m : Model) : List Fact :=
  (m.records.toList.filter Record.live).map fun r =>
    ⟨r.app.canonical m.vocabulary, m.root r.result⟩

def size (m : Model) : Nat := m.table.size

def render (m : Model) : Text :=
  Text.intercalate "\n" (Text.sorted (m.facts.map (Fact.render m.vocabulary)))

mutual

def find? (m : Model) : Term → Option Nat
  | .apply fn args _ => do
    let op ← match fn with
      | .symbol s => m.vocabulary.lookup? s.name
      | fn => find? m fn
    let args ← findAll? m args
    let i ← m.table[(⟨op, args⟩ : Application).key m.vocabulary]?
    return m.root (m.record i).result
  | t => m.vocabulary.rootOf? t.render

def findAll? (m : Model) : List Term → Option (List Nat)
  | [] => some []
  | t :: rest => do
    let i ← find? m t
    return i :: (← findAll? m rest)

end

mutual

/-- The term with each symbol and each known application replaced by the root of its class, where
that is a constant of the input. -/
def simplify (m : Model) : Term → Term
  | .symbol s =>
    match m.vocabulary.rootOf? s.name with
    | none => .symbol s
    | some r =>
      if m.vocabulary.usage r == .literal then .symbol ⟨m.vocabulary.name r, s.kind, .free⟩
      else .symbol s
  | .apply fn args k =>
    let t := Term.apply fn (simplifyAll m args) k
    match m.find? t with
    | none => t
    | some r =>
      let e := m.vocabulary.entry r
      if e.usage == .literal then .symbol ⟨e.name, e.kind, .free⟩ else t
  | t => t

def simplifyAll (m : Model) : List Term → List Term
  | [] => []
  | t :: rest => simplify m t :: simplifyAll m rest

end

end Model

end Discharge.Congruence
