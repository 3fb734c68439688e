import Discharge.Proofs.Engine.History

namespace Discharge

open Search

def Report.told (r : Report) : Text × Option (List Status) :=
  (r.file, r.results.map (·.map Result.status))

def Outcome.told (o : Outcome) : Option (Text × Option (List Status)) := o.report.map Report.told

namespace Visit

variable {u v : Visit} {c c' : Condition}

/-- Whether a status is what the attempt for a condition comes to if nothing calls it off. -/
def Decides (v : Visit) (c : Condition) (s : Status) : Prop :=
  ∃ a, v.Attempts c a ∧ s = a.obligation.status

/-- Whether two visits see the same of what decides outcomes. -/
structure Alike (u v : Visit) : Prop where
  theorems : u.theorems = v.theorems
  normalizer : u.normalizer = v.normalizer
  allowNew : u.config.allowNew = v.config.allowNew

/-- Visits that see the same decide conditions with the same sequent alike. -/
theorem Alike.decides (h : u.Alike v) (hid : c.id = c'.id) (hsequent : c.sequent = c'.sequent)
    (hgo : ∀ a, u.Attempts c a → a.stopped = false)
    (hgo' : ∀ a, v.Attempts c' a → a.stopped = false) {s t : Status} (hs : u.Decides c s)
    (ht : v.Decides c' t) : s = t := by
  obtain ⟨a, ha, hs⟩ := hs
  obtain ⟨b, hb, ht⟩ := ht
  have hstop := hgo a ha
  have hstop' := hgo' b hb
  obtain ⟨p, hp, ha⟩ := ha
  obtain ⟨q, hq, hb⟩ := hb
  obtain ⟨hrules, hhelpers⟩ := Prover.context_of_same_theorems h.theorems h.normalizer h.allowNew
    hp hq
  rw [ha] at hs hstop
  rw [hb] at ht hstop'
  rw [hs, ht]
  refine Attempt.status_run_congr hrules hhelpers ?_ hstop hstop'
  rw [h.normalizer]
  exact .new _ hid hsequent

end Visit

namespace ProofText

end ProofText

namespace Engine

variable {e e' : Engine} {m : Module} {path : Text}

theorem writeProof_told (e : Engine) (r : Report) : (e.writeProof r).1.told = some r.told := by
  unfold writeProof
  split
  · rfl
  · dsimp only
    split <;> rfl

end Engine

end Discharge
