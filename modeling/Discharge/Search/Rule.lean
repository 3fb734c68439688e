import Discharge.Congruence.Matching

/-!
Rules. A rule looks for facts of its pattern in a model and inserts a term once its variables are
bound. Facts that are not required are looked for as well, so that the variables of the inserted
term are bound to symbols that the model has already.
-/

namespace Discharge.Search

open Congruence

/-- The variable through which a rule that works backwards receives its goal. -/
def goalName : Text := "_g"

structure Draft where
  name : Text
  entire : Term
  required : Term
  /-- What is looked for if it mentions variables that the required term leaves open. -/
  rest : Term
  insert : Term
  asTrue : Bool
  allowNew : Bool
  equation : Bool
  deriving Inhabited

structure Rule where
  name : Text
  entire : Term
  insert : Term
  pattern : Vocabulary
  required : List Fact
  optional : List Fact
  allowNew : Bool
  equation : Bool
  /-- Whether the rule replaces a term by a larger one. -/
  smallEnd : Bool := false
  deriving Inhabited

def covers (a b : Term) : Bool :=
  b.vars.all fun v => a.vars.any fun w => w.name == v.name

namespace Draft

def requiredModel (d : Draft) : Model :=
  if !d.required.isApplication then .empty
  else if d.asTrue then (Model.empty.assume d.required).2
  else (Model.empty.represent d.required).2

/-- Whether the rest can bind what the required term does not. -/
def needsRest (d : Draft) : Bool :=
  !d.required.same d.rest && d.rest.isApplication &&
    (!covers d.required d.rest || !d.required.isApplication)

def model (d : Draft) : Model :=
  if d.needsRest then (d.requiredModel.represent d.rest).2 else d.requiredModel

def vocabulary (d : Draft) : Vocabulary :=
  d.entire.vars.foldl (fun v s => (v.add s.name s.kind .universal).2) d.model.vocabulary

def requiredFacts (d : Draft) : List Fact :=
  Fact.byQuantifiers d.requiredModel.vocabulary d.requiredModel.facts

def optionalFacts (d : Draft) : List Fact :=
  let v := d.vocabulary
  let known := d.requiredFacts.map (Fact.label v)
  let wanted := d.insert.vars.map Symbol.name
  Fact.byQuantifiers v (d.model.facts.filter fun f =>
    let names := f.app.names v
    !known.contains (f.label v) && !names.contains goalName && names.any wanted.contains)

def rule (d : Draft) : Rule where
  name := d.name
  entire := d.entire
  insert := d.insert
  pattern := d.vocabulary
  required := d.requiredFacts
  optional := d.optionalFacts
  allowNew := d.allowNew
  equation := d.equation

end Draft

namespace Rule

def vars (r : Rule) : List Text := r.pattern.vars

def insertVariables (r : Rule) : List Symbol := r.insert.vars

def symbols (r : Rule) : List Text := r.entire.names

/-- Whether the theorem has no variables, so that the rule has one use and needs no match. -/
def isGround (r : Rule) : Bool := r.entire.vars.isEmpty

def render (r : Rule) : Text :=
  r.name ++ ": " ++ r.entire.render ++
    (if r.required.isEmpty then .empty
      else "\n  match:  " ++ Text.intercalate ", " (r.required.map (Fact.render r.pattern))) ++
    "\n  insert: " ++ r.insert.render

end Rule

/-- Operators and literals that tell nothing about where a theorem is of use. -/
def isCommon (name : Text) : Bool :=
  name.isOneOf ["=", "and", "or", "implies", "/=", "+", "true", "false", "Empty_String",
    "0", "1", "2", "3", "4", "5", "6", "7", "8", "9"]

def helpersOf (assertion : Term) : List Text :=
  let bound := assertion.vars.map Symbol.name
  assertion.names.filter fun n => !bound.contains n && !isCommon n

/-- The rule that finds one side of an equation and inserts the equation. -/
def equationRule (name : Text) (assertion find other : Term) (allowNew : Bool) : Option Rule :=
  if !find.isApplication then none
  else some { (Draft.mk name assertion find other assertion false allowNew true).rule with
    smallEnd := find.names.length < other.names.length }

/-- The rule that finds a goal equal to the conclusion of an implication and inserts that the goal
is no weaker than the premise, so that proving the premise meets the goal. -/
def goalRule (name : Text) (assertion premise conclusion : Term) (allowNew : Bool) : Rule :=
  let goal := Term.universal goalName .boolean
  let insert := Term.equal (.disj premise goal) goal
  (Draft.mk name assertion (.equal conclusion goal) insert insert true allowNew false).rule

def rulesOf (name : Text) (assertion : Term) (allowNew : Bool) : Except Fault (List Rule) :=
  if assertion.vars.isEmpty then .ok [whole]
  else match assertion.operator?.bind Connective.named? with
    | some .equality => do
      let (a, b) ← assertion.sides
      return (equationRule (name ++ "_left") assertion a b allowNew).toList ++
        (equationRule (name ++ "_right") assertion b a allowNew).toList
    | some .implication => do
      let (premise, conclusion) ← assertion.sides
      return [goalRule (name ++ "_goalSearch") assertion premise conclusion allowNew,
        (Draft.mk name assertion premise conclusion conclusion true allowNew false).rule]
    | _ => .ok [whole]
where
  whole : Rule := (Draft.mk name assertion assertion assertion assertion false allowNew false).rule

end Discharge.Search
