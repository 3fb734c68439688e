import Discharge.Search.Rule
import Discharge.Search.Obligation
import Discharge.Term.Substitution

namespace Discharge.Search

open Congruence

structure Offer where
  binding : Binding
  /-- The classes of the quantified variables, by which bindings are told apart. -/
  key : Text
  score : Nat
  deriving DecidableEq, Repr, Inhabited

/-- The offers of one rule to one obligation. -/
structure Offers where
  pending : List Offer := []
  taken : List Text := []
  used : Bool := false
  deriving DecidableEq, Repr, Inhabited

/-- A term that a rule proposes to insert. -/
structure Candidate where
  rule : Text
  term : Term
  binding : Binding := ⟨[]⟩
  score : Nat := 0
  deriving Inhabited

def Candidate.render (c : Candidate) : Text :=
  if c.binding.entries.isEmpty then c.term.render
  else c.term.render ++ " " ++ c.binding.render

/-- How many facts a match looks at before its time is up. -/
inductive Reach where
  | all
  | only (facts : Nat)
  deriving DecidableEq, Repr, Inhabited

/-- A match that begins late looks at nothing. -/
instance : Coe Bool Reach := ⟨fun late => if late then .only 0 else .all⟩

namespace Reach

def first : Reach → List Fact → List Fact
  | all, facts => facts
  | only n, facts => facts.take n

def after (count : Nat) : Reach → Option Reach
  | all => some all
  | only n => if n < count then none else some (only (n - count))

end Reach

namespace Rule

/-- The bindings a match starts from: one for each open goal if the rule works backwards. -/
def startBindings (r : Rule) (ob : Obligation) : List Binding :=
  let unbound := Binding.unbound r.vars
  if r.pattern.contains goalName then ob.openGoals.map fun g => unbound.set goalName g
  else [unbound]

/-- Narrows bindings by a fact, unless nothing would be left. -/
def narrow (r : Rule) (m : Model) (bindings : List Binding) (f : Fact) : List Binding :=
  let narrowed := m.join r.pattern bindings f
  if narrowed.isEmpty then bindings else narrowed

/-- The bindings under which the required facts hold, narrowed by the optional ones. When time is up,
no other fact is looked at: nothing is found if it should have been a required one. -/
def findMatches (r : Rule) (ob : Obligation) (reach : Reach := .all) : List Binding :=
  let joined := (reach.first r.required).foldl (ob.model.join r.pattern) (r.startBindings ob)
  match reach.after r.required.length with
  | none => []
  | some reach => (reach.first r.optional).foldl (r.narrow ob.model) joined

def findByKind (r : Rule) (ob : Obligation) : List Binding :=
  match r.pattern.universals with
  | [wild] =>
    let kind := (r.pattern.entryOf wild).kind
    ((ob.model.vocabulary.rootsOfKind kind).filter (· != wild)).map fun actual =>
      (Binding.unbound r.vars).set wild actual
  | _ => []

def searchesByKind (r : Rule) : Bool :=
  r.required.isEmpty || (r.allowNew && r.equation && r.pattern.universals.length == 1)

/-- The value of a variable, or else of the pattern symbol whose class it is in. -/
def valueOf (r : Rule) (b : Binding) (name : Text) : Text :=
  let own := b.get name
  if !own.isEmpty then own
  else match r.pattern.rootOf? name with
    | some i => b.get (r.pattern.name i)
    | none => ""

def bindsInsert (r : Rule) (b : Binding) : Bool :=
  r.insertVariables.all fun v => !(r.valueOf b v.name).isEmpty

def bindingKey (r : Rule) (v : Vocabulary) (b : Binding) : Text :=
  Text.join ((r.pattern.namesWhere Usage.isQuantified).map fun name =>
    let value := r.valueOf b name
    let root := if value.isEmpty then none else (v.rootOf? value).map v.name
    name ++ "=" ++ root.getD value ++ ";")

/-- The bindings that the search finds. Only a search for facts takes time. -/
def search (r : Rule) (ob : Obligation) (reach : Reach) : List Binding :=
  if r.searchesByKind then r.findByKind ob else r.findMatches ob reach

def offer (r : Rule) (ob : Obligation) (reach : Reach) (o : Offers) : Nat × Offers :=
  if r.isGround then (1, { o with pending := [] })
  else
    let v := ob.model.vocabulary
    let found := ((r.search ob reach).filter r.bindsInsert).map fun b =>
      Offer.mk b (r.bindingKey v b) (v.score b)
    let fresh := firstOfKey Offer.key (found.filter fun f => !o.taken.contains f.key)
    let pending := fresh.mergeSort fun a b => a.score ≤ b.score
    (pending.length, { o with pending })

/-- The inserted term under a binding, in the words of the model. -/
def instantiate (r : Rule) (m : Model) (b : Binding) : Term :=
  m.simplify (r.insert.substitute (r.insertVariables.map fun v =>
    (v.name, .symbol ⟨r.valueOf b v.name, v.kind, .free⟩)))

def draw (r : Rule) (m : Model) : (pending : List Offer) → (taken : List Text) →
    Option Candidate × List Offer × List Text
  | [], taken => (none, [], taken)
  | o :: rest, taken =>
    let t := r.instantiate m o.binding
    if t.isTrivialEquation then r.draw m rest (o.key :: taken)
    else (some ⟨r.name, t, o.binding, o.score⟩, rest, o.key :: taken)

/-- The best candidate that is left. A rule without variables has only one. -/
def next (r : Rule) (m : Model) (o : Offers) : Option Candidate × Offers :=
  if r.isGround then
    if o.used then (none, o)
    else (some { rule := r.name, term := r.insert }, { o with used := true })
  else
    let (c, pending, taken) := r.draw m o.pending o.taken
    (c, { o with pending, taken })

end Rule

end Discharge.Search
