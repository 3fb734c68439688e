import Discharge.Search.Offers
import Discharge.Search.Ranking
import Discharge.Search.Trace

/-!
The proof loop of one obligation. In each round the rules are tried in the order of their ranks:
the first that inserts something new, then as many more as have a rank of at most one. The loop
ends when the obligation is decided, when a round inserts nothing, or when it has to stop.

A search asks whether it has to stop at fixed points, and each time it looks the clock advances by
a tick; so an attempt is a function of what it is given. A match takes no tick, but time may be up in
the middle of the last one.
-/

namespace Discharge.Search

open Congruence

structure Config where
  timeout : Int := 5000000000
  tries : Int := -1
  jobs : Int := 1
  allowNew : Bool := false
  showResults : Bool := true
  printEachStep : Bool := false
  deriving DecidableEq, Repr, Inhabited

/-- How many looks the time for one obligation allows. -/
def Config.patience (c : Config) : Nat :=
  (if c.timeout ≤ 0 then ({} : Config).timeout else c.timeout).toNat / 1000

structure Control where
  patience : Nat
  /-- How far the match gets during which time is up. -/
  finalReach : Reach := .all
  /-- Whether the search was called off, by the number of looks and of steps. -/
  isCancelled : (looks steps : Nat) → Bool

def Control.isRunning (c : Control) (looks steps : Nat) : Bool :=
  looks < c.patience && !c.isCancelled looks steps

/-- How far a match gets that begins after so many looks. -/
def Control.reach (c : Control) (looks : Nat) : Reach :=
  if looks < c.patience then .all else c.finalReach

structure Context where
  rules : Array Rule
  helpers : List Text
  printEachStep : Bool
  control : Control

/-- A fact that was inserted, and the rule that proposed it. -/
structure Step where
  rule : Text
  fact : Text
  deriving DecidableEq, Repr, Inhabited

structure Attempt where
  obligation : Obligation
  active : List Nat
  offers : Std.TreeMap Nat Offers := ∅
  applied : Std.TreeMap Text Nat := ∅
  lines : List Line := []
  steps : List Step := []
  considered : Nat := 0
  backtracks : Nat := 0
  looks : Nat := 0
  /-- Whether the search found, at a look or during a match, that it had to stop. -/
  stopped : Bool := false
  deriving Inhabited

namespace Attempt

def start (c : Context) (ob : Obligation) : Attempt :=
  { obligation := ob, active := List.range c.rules.size }

def look (a : Attempt) (c : Context) : Bool × Attempt :=
  let running := c.control.isRunning a.looks a.steps.length
  (running, { a with looks := a.looks + 1, stopped := a.stopped || !running })

def offersOf (a : Attempt) (position : Nat) : Offers := (a.offers[position]?).getD {}

def appliedOf (a : Attempt) (name : Text) : Nat := (a.applied[name]?).getD 0

def write (a : Attempt) (l : Line) : Attempt := { a with lines := a.lines ++ [l] }

def draw (a : Attempt) (r : Ranked) : Option Candidate × Attempt :=
  let (c, o) := r.rule.next a.obligation.model (a.offersOf r.position)
  (c, { a with offers := a.offers.insert r.position o })

def choose (a : Attempt) (c : Context) (r : Ranked) : Option Candidate × Attempt :=
  let reach := c.control.reach a.looks
  let a := { a with applied := a.applied.insert r.rule.name (a.appliedOf r.rule.name + 1) }
  let (_, o) := r.rule.offer a.obligation reach (a.offersOf r.position)
  { a with
    offers := a.offers.insert r.position o
    stopped := a.stopped || reach != Reach.all }.draw r

def insert (a : Attempt) (c : Candidate) : Change × Attempt :=
  let (change, ob) := a.obligation.assume c.term
  (change, { a with obligation := ob, considered := a.considered + 1 })

/-- Takes a rule without variables out of play once it has had its use. -/
def retire (a : Attempt) (r : Ranked) : Attempt :=
  if r.rule.isGround then { a with active := a.active.filter (· != r.position) } else a

def backtrack (a : Attempt) (l : Line) : Attempt :=
  { a.write l with backtracks := a.backtracks + 1 }

structure Progress where
  round : Nat
  chosen : Nat
  began : Nat

def record (a : Attempt) (c : Context) (p : Progress) (r : Ranked) (selected : Nat)
    (candidate : Candidate) (change : Change) : Attempt :=
  let a := a.write (.step p.round p.chosen (milliseconds (a.looks - p.began))
    (milliseconds (a.looks - selected)) (milliseconds a.looks) r.score r.rule.name
    candidate.render change.render)
  let a := if c.printEachStep then a.write (.model a.obligation.model.render) else a
  { a with steps := a.steps ++ [⟨r.rule.name, candidate.term.render⟩] }

def queue (c : Context) (a : Attempt) : List Ranked :=
  ranking (a.active.filterMap fun i => (c.rules[i]?).map fun r => (i, r))
    (fun name => a.appliedOf name) c.helpers a.obligation

end Attempt

/-- What the loops of a search are made of, on states that hold an attempt. A state may hold more
than that, and a move may do more than change it. -/
structure Moves (μ : Type → Type) (σ : Type) where
  attempt : σ → Attempt
  put : σ → Attempt → σ
  status : σ → μ Status
  queue : σ → μ (List Ranked)
  choose : Ranked → σ → μ (Option Candidate × σ)
  draw : Ranked → σ → μ (Option Candidate × σ)
  insert : Ranked → Candidate → σ → μ (Change × σ)
  giveUp : Ranked → Line → σ → σ
  record : Attempt.Progress → Ranked → (selected : Nat) → Candidate → Change → σ → μ σ

namespace Moves

variable {μ : Type → Type} {σ : Type} [Monad μ] (m : Moves μ σ) (c : Context)

def look (s : σ) : Bool × σ :=
  let (running, a) := (m.attempt s).look c
  (running, m.put s a)

/-- Inserts candidates of a rule until one is new, at most `fuel` of them. -/
def pursue (r : Ranked) : (fuel : Nat) → Candidate → σ → μ (Option (Candidate × Change) × σ)
  | 0, _, s => return (none, s)
  | fuel + 1, candidate, s => do
    let (change, s) ← m.insert r candidate s
    if !change.isEmpty then return (some (candidate, change), s)
    else
      let (running, s) := m.look c s
      if !running then return (none, s)
      else match ← m.draw r s with
        | (none, s) => return (none, s)
        | (some candidate, s) => pursue r fuel candidate s

/-- Tries a rule, and tells whether that made a step. A rule without variables that has had its
use is out of play. -/
def tryRule (p : Attempt.Progress) (r : Ranked) (s : σ) : μ (Bool × σ) := do
  let selected := (m.attempt s).looks
  match ← m.choose r s with
  | (none, s) =>
    return (false, m.giveUp r
      (.noMatch r.rule.name (milliseconds ((m.attempt s).looks - selected))) s)
  | (some candidate, s) =>
    let a := (m.attempt s).retire r
    match ← m.pursue c r ((a.offersOf r.position).pending.length + 1) candidate (m.put s a) with
    | (none, s) =>
      return (false, m.giveUp r
        (.emptied r.rule.name (milliseconds ((m.attempt s).looks - selected))) s)
    | (some (candidate, change), s) => return (true, ← m.record p r selected candidate change s)

def tryRules (p : Attempt.Progress) : List Ranked → σ → μ (Nat × σ)
  | [], s => return (p.chosen, s)
  | r :: rest, s => do
    if (← m.status s) != .evaluating || (p.chosen ≥ 1 && r.score > 1) then return (p.chosen, s)
    else match m.look c s with
      | (false, s) => return (p.chosen, s)
      | (true, s) =>
        match ← m.tryRule c p r s with
        | (true, s) => tryRules { p with chosen := p.chosen + 1 } rest s
        | (false, s) => tryRules p rest s

/-- Goes through rounds, at most `fuel` of them. -/
def rounds : (fuel round : Nat) → σ → μ σ
  | 0, _, s => return s
  | fuel + 1, round, s => do
    if (← m.status s) != .evaluating then return s
    else match m.look c s with
      | (false, s) => return s
      | (true, s) =>
        match ← m.tryRules c ⟨round, 0, (m.attempt s).looks⟩ (← m.queue s) s with
        | (0, s) => return s
        | (_ + 1, s) => rounds fuel (round + 1) s

/-- The whole search. Each round takes a look, and time is up when the looks are used up; the last
look is the one that finds this. -/
def run (s : σ) : μ σ := m.rounds c (c.control.patience + 1) 0 s

end Moves

namespace Attempt

def moves (c : Context) : Moves Id Attempt where
  attempt a := a
  put _ a := a
  status a := a.obligation.status
  queue a := a.queue c
  choose r a := a.choose c r
  draw r a := a.draw r
  insert _ t a := a.insert t
  giveUp _ l a := a.backtrack l
  record p r selected t change a := a.record c p r selected t change

def run (c : Context) (ob : Obligation) : Attempt := (moves c).run c (start c ob)

def trace (a : Attempt) (showResults : Bool) : Trace where
  id := a.obligation.condition.id
  sequent := a.obligation.condition.sequent.render
  lines := a.lines
  final := if showResults && a.obligation.status == .evaluating
    then some a.obligation.model.render else none

def result (a : Attempt) (showResults : Bool) : Result where
  id := a.obligation.condition.id
  explanation := a.obligation.condition.explanation
  location := a.obligation.condition.location
  status := a.obligation.status
  steps := a.steps.length
  duration := a.looks * 1000
  trace := (a.trace showResults).render

end Attempt

end Discharge.Search
