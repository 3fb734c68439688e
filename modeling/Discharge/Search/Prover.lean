import Discharge.Library
import Discharge.Search.Attempt

namespace Discharge.Search

structure Metrics where
  considered : Nat := 0
  backtracks : Nat := 0
  consideredEver : Nat := 0
  backtracksEver : Nat := 0
  outcomes : List (Text × Nat) := []
  deriving DecidableEq, Repr, Inhabited

namespace Metrics

def reset (m : Metrics) : Metrics := { m with considered := 0, backtracks := 0 }

def addWork (m : Metrics) (considered backtracks : Nat) : Metrics where
  considered := m.considered + considered
  backtracks := m.backtracks + backtracks
  consideredEver := m.consideredEver + considered
  backtracksEver := m.backtracksEver + backtracks
  outcomes := m.outcomes

def countOutcome (label : Text) : List (Text × Nat) → List (Text × Nat)
  | [] => [(label, 1)]
  | (l, n) :: rest => if l == label then (l, n + 1) :: rest else (l, n) :: countOutcome label rest

def addResult (m : Metrics) (r : Result) : Metrics :=
  { m with outcomes := countOutcome (if r.skipped then "SKIPPED" else r.status.name) m.outcomes }

def counters (m : Metrics) : List (Text × Nat) :=
  ("vcprove_proofs_considered_total", m.consideredEver) ::
    ("vcprove_backtracks_total", m.backtracksEver) ::
    ("vcprove_obligation_duration_seconds_count", m.outcomes.foldl (fun n o => n + o.2) 0) ::
    m.outcomes.map fun (l, n) => ("vcprove_obligations_total\x7bstatus=" ++ l ++ "\x7d", n)

end Metrics

inductive Event where
  | started (id : Int) (total : Nat)
  | step (id : Int) (rule fact : Text)
  | finished (id : Int) (status : Status) (total : Nat)
  deriving DecidableEq, Repr, Inhabited

structure Prover where
  module : Text
  config : Config
  rules : Array Rule
  helpers : List Text
  obligations : List Obligation
  integerSorts : Bool
  deriving Inhabited

structure Session where
  interruption : Option Interruption := none
  cancelled : Bool := false
  stepLimit : Option Nat := none
  steps : Nat := 0
  lookLimit : Option Nat := none
  finalReach : Reach := .all
  /-- Whether some attempt was called off for its looks. -/
  exhausted : Bool := false
  deriving DecidableEq, Repr, Inhabited

def Session.control (s : Session) (c : Config) : Control where
  patience := c.patience
  finalReach := s.finalReach
  isCancelled looks steps :=
    s.interruption.isSome || s.cancelled || s.stepLimit.any (· ≤ s.steps + steps) ||
      s.lookLimit.any (· ≤ looks)

def Session.add (s : Session) (a : Attempt) : Session :=
  { s with
    steps := s.steps + a.steps.length
    exhausted := s.exhausted || s.lookLimit.any (· < a.looks) }

structure Run where
  results : List Result := []
  events : List Event := []
  obligations : List Obligation := []
  unproved : Nat := 0
  ticks : Nat := 0
  metrics : Metrics
  session : Session
  deriving Inhabited

/-- Takes the attempt of an obligation into account. -/
def Run.add (r : Run) (total : Nat) (a : Attempt) (result : Result) : Run where
  results := r.results ++ [result]
  events := r.events ++ [.started result.id total] ++
    a.steps.map (fun s => .step result.id s.rule s.fact) ++
    [.finished result.id result.status total]
  obligations := r.obligations ++ [a.obligation]
  unproved := r.unproved + if result.status.isTerminal then 0 else 1
  ticks := r.ticks + a.looks
  metrics := (r.metrics.addWork a.considered a.backtracks).addResult result
  session := r.session.add a

def Config.skips (c : Config) (unproved : Nat) : Bool := 0 ≤ c.tries && c.tries ≤ unproved

namespace Prover

def repeatedId? : List Condition → List Int → Option Int
  | [], _ => none
  | c :: rest, seen => if seen.contains c.id then some c.id else repeatedId? rest (c.id :: seen)

def rulesOfTheorems (n : Normalizer) (allowNew : Bool) (theorems : List Theorem) :
    Except Fault (List Rule) := do
  return (← theorems.mapM fun t => rulesOf t.name (n.normalize t.assertion) allowNew).flatten

/-- The prover of conditions by the theorems that a module sees. Conditions need different ids. -/
def new (module : Text) (conditions : List Condition) (library : Library) (config : Config) :
    Except Refused Prover :=
  let integerSorts := library.hasIntegerSorts module
  let n : Normalizer := ⟨integerSorts⟩
  match repeatedId? conditions [] with
  | some id => .error (.ofCause (.repeatedCondition id))
  | none =>
    let theorems := (library.theorems module .transitive).theorems
    match rulesOfTheorems n config.allowNew theorems with
    | .error f => .error (.fault f)
    | .ok rules => .ok {
        module, config, integerSorts
        rules := rules.toArray
        helpers := Text.sorted (Text.distinct
          (theorems.flatMap fun t => helpersOf (n.normalize t.assertion)))
        obligations := conditions.map (Obligation.new n) }

def context (p : Prover) (s : Session) : Context where
  rules := p.rules
  helpers := p.helpers
  printEachStep := p.config.printEachStep
  control := s.control p.config

def skip (total : Nat) (ob : Obligation) (r : Run) : Run :=
  let result := Result.skip ob.condition
  { r with
    results := r.results ++ [result]
    events := r.events ++ [.started result.id total, .finished result.id result.status total]
    obligations := r.obligations ++ [ob]
    metrics := r.metrics.addResult result }

def attempt (p : Prover) (total : Nat) (ob : Obligation) (r : Run) : Run :=
  let a := Attempt.run (p.context r.session) ob
  r.add total a (a.result p.config.showResults)

def runAll (p : Prover) (total : Nat) : List Obligation → Run → Run
  | [], r => r
  | ob :: rest, r =>
    runAll p total rest
      (if p.config.skips r.unproved then skip total ob r else p.attempt total ob r)

def start (p : Prover) (m : Metrics) (s : Session) : Run × Prover :=
  let r := p.runAll p.obligations.length p.obligations { metrics := m.reset, session := s }
  (r, { p with obligations := r.obligations })

def interruption (p : Prover) (s : Session) : Option Error :=
  s.interruption.map fun i => .during (.searching p.module) (.because (.interrupted i))

end Prover

end Discharge.Search
