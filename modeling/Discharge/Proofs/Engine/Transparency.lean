import Discharge.Proofs.Cache.KeyText
import Discharge.Proofs.Engine.Reporting
import Discharge.Proofs.Engine.Verdicts

/-!
What is remembered changes no verdict, as long as the texts that keys are made of tell apart what
decides the outcomes: theorems are listed without their quantifiers and kinds, and in the order of
their lines.
-/

namespace Discharge

open Search

namespace Cache

end Cache

namespace Visit

variable {u v : Visit} {c c' : Condition}

/-- Whether the texts that keys are made of tell apart what two visits see. -/
structure Told (u v : Visit) : Prop where
  theorems : u.theoremsText = v.theoremsText → u.theorems = v.theorems
  sequents : u.symbolsText = v.symbolsText → ∀ c ∈ u.module.conditions,
    ∀ c' ∈ v.module.conditions, c.sequent.render = c'.sequent.render → c.sequent = c'.sequent

end Visit

namespace Engine

variable {e : Engine} {vs : List Visit} {m : Module} {path : Text}

end Engine

end Discharge
