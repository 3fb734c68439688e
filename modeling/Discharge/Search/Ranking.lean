import Discharge.Decimal.Word
import Discharge.Search.Rule
import Discharge.Search.Obligation

/-!
The order in which rules are tried: those that were tried less often come first, and those that an
obligation gives nothing to work on come last.
-/

namespace Discharge.Search

open Congruence

/-- What is added to the rank of a rule that cannot match as things stand. -/
def unmatchablePenalty : Int := 100

structure Ranked where
  position : Nat
  rule : Rule
  score : Int
  deriving Inhabited

namespace Rule

/-- Whether a required fact has an operator that the model has never met. -/
def isUnmatchable (r : Rule) (v : Vocabulary) : Bool :=
  r.required.any fun f =>
    let op := r.pattern.root f.app.op
    !(r.pattern.usage op).isVariable && !v.contains (r.pattern.name op)

def hasHelper (r : Rule) (helpers : List Text) (v : Vocabulary) : Bool :=
  let own := r.symbols.filter helpers.contains
  own.isEmpty || own.any v.contains

def rank (r : Rule) (applied : Int) (helpers : List Text) (v : Vocabulary) : Int :=
  Decimal.wrapped (applied + (if r.smallEnd then 1 else 0) +
    (if r.isUnmatchable v || !r.hasHelper helpers v then unmatchablePenalty else 0))

end Rule

/-- The rules in the order they are tried; rules of one rank keep their order. -/
def ranking (rules : List (Nat × Rule)) (applied : Text → Int) (helpers : List Text)
    (ob : Obligation) : List Ranked :=
  (rules.map fun (i, r) =>
    Ranked.mk i r (r.rank (applied r.name) helpers ob.model.vocabulary)).mergeSort
    fun a b => a.score ≤ b.score

end Discharge.Search
