import Mathlib.Algebra.GroupWithZero.Nat
import Discharge.Search.Prover

namespace Discharge.Search

/-- What a run does about an obligation: it attempts it under some control, or leaves it out. -/
structure Handling where
  obligation : Obligation
  control? : Option Control

/-- What a search works with that is controlled so. -/
def Prover.under (p : Prover) (k : Control) : Context := { p.context {} with control := k }

namespace Handling

variable (p : Prover) (total : Nat) (h : Handling)

def attempt? : Option Attempt := h.control?.map fun k => Attempt.run (p.under k) h.obligation

def result : Result :=
  match h.attempt? p with
  | none => Result.skip h.obligation.condition
  | some a => a.result p.config.showResults

def left : Obligation :=
  match h.attempt? p with
  | none => h.obligation
  | some a => a.obligation

def steps : List Step := ((h.attempt? p).map Attempt.steps).getD []

def considered : Nat := ((h.attempt? p).map Attempt.considered).getD 0

def backtracks : Nat := ((h.attempt? p).map Attempt.backtracks).getD 0

def events : List Event :=
  .started (h.result p).id total ::
    (h.steps p).map (fun s => .step (h.result p).id s.rule s.fact) ++
    [.finished (h.result p).id (h.result p).status total]

end Handling

/-- Whether a run goes on from another by handling some obligations. -/
structure Run.Handles (p : Prover) (total : Nat) (r : Run) (hs : List Handling) (r' : Run) :
    Prop where
  results : r'.results = r.results ++ hs.map (Handling.result p)
  events : r'.events = r.events ++ hs.flatMap (Handling.events p total)
  obligations : r'.obligations = r.obligations ++ hs.map (Handling.left p)
  considered : r'.metrics.considered = r.metrics.considered + (hs.map (Handling.considered p)).sum
  backtracks : r'.metrics.backtracks = r.metrics.backtracks + (hs.map (Handling.backtracks p)).sum

namespace Prover

variable {p : Prover} {total : Nat} {r r' r'' : Run} {hs : List Handling}

theorem handles_skip (ob : Obligation) (r : Run) :
    Run.Handles p total r [⟨ob, none⟩] (skip total ob r) where
  results := rfl
  events := by simp [skip, Handling.events, Handling.result, Handling.steps, Handling.attempt?]
  obligations := rfl
  considered := rfl
  backtracks := rfl

theorem handles_attempt (ob : Obligation) (r : Run) :
    Run.Handles p total r [⟨ob, some (r.session.control p.config)⟩] (p.attempt total ob r) where
  results := rfl
  events := by
    rw [List.flatMap_singleton, Prover.attempt, Run.add, List.append_assoc, List.append_assoc]
    rfl
  obligations := rfl
  considered := rfl
  backtracks := rfl

theorem handles_cons {h : Handling} (hfirst : Run.Handles p total r [h] r')
    (hrest : Run.Handles p total r' hs r'') : Run.Handles p total r (h :: hs) r'' where
  results := by rw [hrest.results, hfirst.results]; simp
  events := by rw [hrest.events, hfirst.events]; simp
  obligations := by rw [hrest.obligations, hfirst.obligations]; simp
  considered := by rw [hrest.considered, hfirst.considered]; simp [Nat.add_assoc]
  backtracks := by rw [hrest.backtracks, hfirst.backtracks]; simp [Nat.add_assoc]

theorem handles_runAll (p : Prover) (total : Nat) (obs : List Obligation) (r : Run) :
    ∃ hs : List Handling, hs.map Handling.obligation = obs ∧
      Run.Handles p total r hs (p.runAll total obs r) := by
  induction obs generalizing r with
  | nil => exact ⟨[], rfl, by simp [runAll], by simp [runAll], by simp [runAll], rfl, rfl⟩
  | cons ob rest ih =>
    rw [runAll]
    split
    · obtain ⟨hs, hobs, hrest⟩ := ih (skip total ob r)
      exact ⟨⟨ob, none⟩ :: hs, congrArg (ob :: ·) hobs, handles_cons (handles_skip ob r) hrest⟩
    · obtain ⟨hs, hobs, hrest⟩ := ih (p.attempt total ob r)
      exact ⟨⟨ob, some (r.session.control p.config)⟩ :: hs,
        congrArg (ob :: ·) hobs, handles_cons (handles_attempt ob r) hrest⟩

/-- A run handles the obligations of its prover in turn, and leaves them so. -/
theorem handles_start (p : Prover) (m : Metrics) (s : Session) :
    ∃ hs : List Handling, hs.map Handling.obligation = p.obligations ∧
      (p.start m s).2.obligations = hs.map (Handling.left p) ∧
      Run.Handles p p.obligations.length { metrics := m.reset, session := s } hs
        (p.start m s).1 := by
  obtain ⟨hs, hobs, hrun⟩ := handles_runAll p p.obligations.length p.obligations
    { metrics := m.reset, session := s }
  exact ⟨hs, hobs, hrun.obligations, hrun⟩

end Prover

end Discharge.Search
