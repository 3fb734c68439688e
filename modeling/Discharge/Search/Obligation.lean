import Discharge.Congruence.Model
import Discharge.Term.Normal
import Discharge.Result

/-!
The working state of one verification condition: a model of its assumptions, and its goals. A goal
is a group of alternatives, and it is met when one of them is in the class of `true`.
-/

namespace Discharge.Search

open Congruence

structure Obligation where
  condition : Condition
  model : Model
  /-- For each goal the names of its alternatives, as they were when it was registered. -/
  goals : List (List Text)
  deriving Inhabited

/-- Equations that ground the connectives in every model. -/
def seedAxioms : List Term :=
  open Term in
  [equal (equal truth falsehood) falsehood,
    equal (conj truth truth) truth,
    equal (conj truth falsehood) falsehood,
    equal (conj falsehood falsehood) falsehood]

namespace Obligation

def addGoal (ob : Obligation) (alternatives : List Nat) : Obligation :=
  { ob with goals := ob.goals ++ [Text.distinct (alternatives.map ob.model.vocabulary.rootName)] }

def addGoalAt (ob : Obligation) (i : Int) : Except Fault Obligation := do
  return ob.addGoal [← ob.model.vocabulary.rootAt i]

def representAll : List Term → Model → List Nat × Model
  | [], m => ([], m)
  | t :: rest, m =>
    let (i, m) := m.represent t
    let (is, m) := representAll rest m
    (i :: is, m)

/-- Registers a conjunct of the conclusion: its disjuncts are the alternatives. -/
def addConjunct (ob : Obligation) (t : Term) : Obligation :=
  let (alternatives, m) := representAll t.disjuncts ob.model
  { ob with model := m }.addGoal alternatives

/-- Assumes terms in turn, up to the first that makes the model contradictory. -/
def assumeUntilFalse : List Term → Model → Model
  | [], m => m
  | t :: rest, m =>
    let m := (m.assume t).2
    if m.contradiction then m else assumeUntilFalse rest m

/-- The obligation of a condition: its reduced conclusions are the goals, then its reduced
assumptions are asserted. -/
def new (n : Normalizer) (c : Condition) : Obligation :=
  let start : Obligation := ⟨c, .empty, []⟩
  let ob := (c.sequent.right.flatMap fun t => (n.normalize t).conjuncts).foldl addConjunct start
  let m := c.sequent.left.foldl (fun m t => assumeUntilFalse (n.normalize t).conjuncts m) ob.model
  { ob with model := seedAxioms.foldl (fun m t => (m.assume t).2) m }

def isMet (ob : Obligation) (goal : List Text) : Bool :=
  goal.any fun g => ob.model.vocabulary.rootOf? g == some (ob.model.root Vocabulary.truth)

/-- The present names of the alternatives of all goals that are not met. -/
def openGoals (ob : Obligation) : List Text :=
  Text.distinct ((ob.goals.filter fun g => !ob.isMet g).flatMap fun g =>
    g.filterMap fun name => (ob.model.vocabulary.rootOf? name).map ob.model.vocabulary.name)

def status (ob : Obligation) : Status :=
  if ob.model.contradiction then .falseAssumption
  else if !ob.goals.isEmpty && ob.goals.all ob.isMet then .proved
  else .evaluating

def assume (ob : Obligation) (t : Term) : Change × Obligation :=
  let (c, m) := ob.model.assume t
  (c, { ob with model := m })

end Obligation

end Discharge.Search
