import Discharge.Proofs.Search.Ledger
import Discharge.Proofs.Search.Monotonicity

/-!
The books of a run. What a run reports and counts is the sum of what the ledgers of its searches
tell, one ledger for each obligation that it attempts; and that does not depend on whether the
obligations are handled one after the other or side by side.
-/

namespace Discharge.Search

open Congruence

namespace Handling

variable (p : Prover) (h : Handling)

def ledger? : Option Ledger := h.control?.map fun k => Ledger.run (p.under k) h.obligation

def entries : List Entry := ((h.ledger? p).map Ledger.entries).getD []

theorem id_result : (h.result p).id = h.obligation.condition.id := by
  obtain ⟨ob, control?⟩ := h
  cases control? with
  | none => rfl
  | some k => exact congrArg Condition.id (Attempt.derives_run (p.under k) ob).frame.1

end Handling

/-- Whether a run reports so many handled obligations: it has their results in turn, its events tell
the steps of each in their order, and it has counted the work for all. -/
structure Run.Reports (r : Run) (p : Prover) (hs : List Handling) : Prop where
  results : r.results = hs.map (Handling.result p)
  steps : ∀ id, stepsOf id r.events =
    hs.flatMap fun h => if (h.result p).id = id then h.steps p else []
  considered : r.metrics.considered = (hs.map (Handling.considered p)).sum
  backtracks : r.metrics.backtracks = (hs.map (Handling.backtracks p)).sum

theorem stepsOf_events (p : Prover) (total : Nat) (id : Int) (hs : List Handling) :
    stepsOf id (hs.flatMap (Handling.events p total)) =
      hs.flatMap fun h => if (h.result p).id = id then h.steps p else [] := by
  induction hs with
  | nil => rfl
  | cons h rest ih =>
    have htold : stepsOf id (h.events p total) =
        if (h.result p).id = id then h.steps p else [] := by
      rw [Handling.events, stepsOf_append, ← List.singleton_append, stepsOf_append, stepsOf_told]
      simp [stepsOf]
    rw [List.flatMap_cons, List.flatMap_cons, stepsOf_append, htold, ih]

theorem Run.Handles.reports {p : Prover} {total : Nat} {m : Metrics} {s : Session}
    {hs : List Handling} {r : Run}
    (h : Run.Handles p total { metrics := m.reset, session := s } hs r) : r.Reports p hs where
  results := h.results
  steps id := by
    rw [h.events]
    exact stepsOf_events p total id hs
  considered := h.considered.trans (Nat.zero_add _)
  backtracks := h.backtracks.trans (Nat.zero_add _)

/-- Whether the books of a run balance. What is reported of an attempt is the status that its search
remembered and that of the obligation it left, and as many steps as the events tell; each selection
of a rule led to a step or was in vain, and all terms inserted were counted. -/
structure Run.Balances (r : Run) (p : Prover) (hs : List Handling) : Prop where
  results : r.results = hs.map (Handling.result p)
  status : ∀ h ∈ hs, ∀ l, h.ledger? p = some l →
    (h.result p).status = l.status ∧ (h.result p).status = (h.left p).status
  steps : ∀ h ∈ hs, stepsOf (h.result p).id r.events = (h.entries p).filterMap Entry.step? ∧
    (h.result p).steps = (stepsOf (h.result p).id r.events).length
  selections : ((hs.flatMap (Handling.entries p)).countP Entry.isSelection : Int) =
    (r.results.map Result.steps).sum + r.metrics.backtracks
  considered : r.metrics.considered = (hs.flatMap (Handling.entries p)).countP Entry.isInsertion

namespace Handling

variable {p : Prover} {h : Handling}

/-- What the ledger of an obligation tells of its result and of the work done. -/
structure Balances (p : Prover) (h : Handling) : Prop where
  status : ∀ l, h.ledger? p = some l →
    (h.result p).status = l.status ∧ (h.result p).status = (h.left p).status
  steps : h.steps p = (h.entries p).filterMap Entry.step?
  reported : (h.result p).steps = (h.steps p).length
  selections : ((h.entries p).countP Entry.isSelection : Int) =
    (h.result p).steps + h.backtracks p
  considered : h.considered p = (h.entries p).countP Entry.isInsertion

theorem balances (hob : h.obligation.model.Closed) : h.Balances p := by
  obtain ⟨ob, control?⟩ := h
  cases control? with
  | none => exact ⟨fun _ hl => (by cases hl), rfl, rfl, rfl, rfl⟩
  | some k =>
    obtain ⟨herased, hbalances⟩ := Ledger.balances_run hob (p.under k)
    have hattempt : attempt? p ⟨ob, some k⟩ = some (Ledger.run (p.under k) ob).attempt :=
      congrArg some herased.symm
    refine ⟨fun l hl => ?_, ?_, ?_, ?_, ?_⟩
    · obtain rfl := Option.some.inj hl
      rw [result, left, hattempt]
      exact ⟨hbalances.status.symm, rfl⟩
    · rw [steps, hattempt]
      exact hbalances.steps
    · rw [result, steps, hattempt]
      rfl
    · rw [result, backtracks, hattempt]
      exact (congrArg Nat.cast hbalances.selections).trans (Nat.cast_add _ _)
    · rw [considered, hattempt]
      exact hbalances.considered

theorem sums_of_balances {hs : List Handling} (hall : ∀ h ∈ hs, h.Balances p) :
    ((hs.flatMap (entries p)).countP Entry.isSelection : Int) =
        ((hs.map (result p)).map Result.steps).sum + (hs.map (backtracks p)).sum ∧
      (hs.map (considered p)).sum = (hs.flatMap (entries p)).countP Entry.isInsertion := by
  induction hs with
  | nil => exact ⟨rfl, rfl⟩
  | cons h rest ih =>
    obtain ⟨hfirst, hrest⟩ := List.forall_mem_cons.mp hall
    obtain ⟨hselections, hconsidered⟩ := ih hrest
    simp only [List.flatMap_cons, List.countP_append, List.map_cons, List.sum_cons, Nat.cast_add,
      hselections, hfirst.selections, hconsidered, hfirst.considered, and_true]
    omega

end Handling

structure Prover.InOrder (p : Prover) : Prop where
  made : ∀ ob ∈ p.obligations, ∃ n c, Obligation.Made n c ob
  ids : (p.obligations.map fun ob => ob.condition.id).Nodup

theorem Obligation.Made.of_derives {n : Normalizer} {condition : Condition} {rules : Array Rule}
    {ob ob' : Obligation} (h : Made n condition ob) (hd : Derives rules ob ob') :
    Made n condition ob' := by
  induction hd with
  | refl => exact h
  | ground _ _ _ ih => exact (ih h).feed (.assume _)
  | apply _ _ _ _ _ ih ih' => exact (ih' (ih h)).feed (.assume _)

theorem Handling.derives_left (p : Prover) (h : Handling) :
    Derives p.rules h.obligation (h.left p) := by
  obtain ⟨ob, control?⟩ := h
  cases control? with
  | none => exact .refl ob
  | some k => exact Attempt.derives_run (p.under k) ob

namespace Prover

variable {p : Prover} {hs : List Handling}

theorem inOrder_new {module : Text} {conditions : List Condition} {library : Library}
    {config : Config} (h : Prover.new module conditions library config = .ok p) : p.InOrder := by
  obtain ⟨-, hobs⟩ := new_spec h
  refine ⟨fun ob hob => ?_, ?_⟩
  · rw [hobs] at hob
    obtain ⟨c, -, rfl⟩ := List.mem_map.mp hob
    exact ⟨_, c, .new⟩
  · have hsame : (p.obligations.map fun ob => ob.condition.id) = conditions.map Condition.id := by
      simp [hobs, Function.comp_def, Obligation.condition_new]
    rw [hsame]
    exact nodup_of_new h

theorem InOrder.left (h : p.InOrder) (hobs : hs.map Handling.obligation = p.obligations) :
    Prover.InOrder { p with obligations := hs.map (Handling.left p) } where
  made ob hob := by
    obtain ⟨handling, hmem, rfl⟩ := List.mem_map.mp hob
    obtain ⟨n, c, hmade⟩ := h.made handling.obligation (hobs ▸ List.mem_map_of_mem hmem)
    exact ⟨n, c, hmade.of_derives (handling.derives_left p)⟩
  ids := by
    have hsame : ((hs.map (Handling.left p)).map fun ob => ob.condition.id) =
        p.obligations.map fun ob => ob.condition.id := by
      rw [← hobs, List.map_map, List.map_map]
      exact List.map_congr_left fun handling _ =>
        congrArg Condition.id (handling.derives_left p).frame.1
    exact hsame ▸ h.ids

/-- Obligations that were handled, in whatever way, have books that balance. -/
theorem InOrder.balances (h : p.InOrder) (hobs : hs.map Handling.obligation = p.obligations)
    {r : Run} (hr : r.Reports p hs) : r.Balances p hs := by
  have hall : ∀ handling ∈ hs, handling.Balances p := fun handling hmem => by
    obtain ⟨n, c, hmade⟩ := h.made handling.obligation (hobs ▸ List.mem_map_of_mem hmem)
    exact Handling.balances hmade.posed.model
  have hids : (hs.map fun handling => (handling.result p).id).Nodup := by
    have hsame : (hs.map fun handling => (handling.result p).id) =
        p.obligations.map fun ob => ob.condition.id := by
      rw [← hobs, List.map_map]
      exact List.map_congr_left fun handling _ => handling.id_result p
    exact hsame ▸ h.ids
  obtain ⟨hselections, hconsidered⟩ := Handling.sums_of_balances hall
  -- The ids differ, so that the events of one id are those of one obligation.
  refine ⟨hr.results, fun handling hmem => (hall handling hmem).status, fun handling hmem => ?_,
    ?_, ?_⟩
  · have hbalances := hall handling hmem
    have hown : stepsOf (handling.result p).id r.events = handling.steps p :=
      (hr.steps _).trans (flatMap_steps hids hmem (Handling.steps p))
    rw [hown]
    exact ⟨hbalances.steps, hbalances.reported⟩
  · rw [hr.results, hr.backtracks]
    exact hselections
  · rw [hr.considered]
    exact hconsidered

end Prover

/-- The books balance, whatever the obligation and the rules are and wherever a search is stopped: a
search with books comes to the same, remembers the present status, inserts nothing once that is
decided, makes each step by a term that adds something, and inserts at most one term by a rule
without variables. So it is with all obligations of a prover, and a run reports and counts what the
books tell; a run that handles obligations side by side does too. -/
theorem books_balance :
    (∀ n condition ob, Obligation.Made n condition ob → ∀ c : Context,
      let l := Ledger.run c ob
      l.attempt = Attempt.run c ob ∧ l.Balances c ob ∧
        ∀ i r, c.rules[i]? = some r → r.isGround = true →
          l.entries.countP (Entry.isInsertionBy i) ≤ 1) ∧
    (∀ module conditions library config p,
      Prover.new module conditions library config = .ok p → p.InOrder) ∧
    ∀ p : Prover, p.InOrder →
      (∀ (m : Metrics) (s : Session), (p.start m s).2.InOrder ∧ ∃ hs : List Handling,
        hs.map Handling.obligation = p.obligations ∧
          (p.start m s).2.obligations = hs.map (Handling.left p) ∧
          (p.start m s).1.Reports p hs ∧ (p.start m s).1.Balances p hs) ∧
      ∀ (hs : List Handling) (r : Run), hs.map Handling.obligation = p.obligations →
        r.Reports p hs → r.Balances p hs := by
  refine ⟨fun n condition ob h c => ?_, fun _ _ _ _ _ h => Prover.inOrder_new h,
    fun p h => ⟨fun m s => ?_, fun hs r hobs hr => h.balances hobs hr⟩⟩
  · obtain ⟨herased, hbalances⟩ := Ledger.balances_run h.posed.model c
    refine ⟨herased, hbalances, fun i r hr hground => (hbalances.once i r hr hground).trans ?_⟩
    split
    · exact Nat.le_refl 1
    · exact Nat.zero_le 1
  · obtain ⟨hs, hobs, hleft, hhandles⟩ := Prover.handles_start p m s
    have hreports := hhandles.reports
    refine ⟨?_, hs, hobs, hleft, hreports, h.balances hobs hreports⟩
    have horder := h.left hobs
    rw [← hleft] at horder
    exact ⟨horder.made, horder.ids⟩

def factLibrary : Library :=
  let a : Term := .symbol ⟨"a", .entity, .free⟩
  { modules := [{ name := "M", theorems := [⟨"Fact", some (.call "q" .boolean [a])⟩] }] }

/-- Each of two conditions takes a step of the same rule, and the first a try in vain; and a rule
without variables has its one use. -/
theorem books_balance_identityLibrary :
    (∃ p : Prover, Prover.new "M" [Prover.openCondition, Prover.metCondition]
        Prover.identityLibrary {} = .ok p ∧
      ((p.start {} {}).1.results.map fun r => (r.status, r.steps)) =
        [(.evaluating, 1), (.proved, 1)] ∧
      (p.start {} {}).1.metrics.considered = 2 ∧ (p.start {} {}).1.metrics.backtracks = 1 ∧
      ∃ hs : List Handling, hs.map Handling.obligation = p.obligations ∧
        (p.start {} {}).1.Balances p hs ∧
        (hs.flatMap (Handling.entries p)).countP Entry.isSelection = 3 ∧
        (hs.flatMap (Handling.entries p)).countP Entry.isInsertion = 2) ∧
    ∃ p : Prover, Prover.new "M" [Prover.openCondition] factLibrary {} = .ok p ∧
      ∃ r, p.rules[0]? = some r ∧ r.isGround = true ∧
        (Ledger.run (p.context {}) (Obligation.new ⟨false⟩ Prover.openCondition)).entries.countP
          (Entry.isInsertionBy 0) ≤ 1 := by
  obtain ⟨hbalances, hnew, hrun⟩ := books_balance
  refine ⟨?_, ?_⟩
  · have hmade : (Prover.new "M" [Prover.openCondition, Prover.metCondition]
        Prover.identityLibrary {}).toOption.any (fun p =>
          let r := (p.start {} {}).1
          r.results.map (fun r => (r.status, r.steps)) == [(.evaluating, 1), (.proved, 1)] &&
            r.metrics.considered == 2 && r.metrics.backtracks == 1) = true := by
      decide +kernel
    cases hp : Prover.new "M" [Prover.openCondition, Prover.metCondition]
        Prover.identityLibrary {} with
    | error e => simp [hp, Except.toOption] at hmade
    | ok p =>
      simp only [hp, Except.toOption, Option.any_some, Bool.and_eq_true, beq_iff_eq] at hmade
      obtain ⟨⟨hresults, hconsidered⟩, hbacktracks⟩ := hmade
      obtain ⟨hstart, hhandled⟩ := hrun p (hnew _ _ _ _ p hp)
      obtain ⟨-, hs, hobs, -, hreports, -⟩ := hstart {} {}
      have hbooks := hhandled hs _ hobs hreports
      have hsteps : (p.start {} {}).1.results.map Result.steps = [1, 1] := by
        have hsnd := congrArg (List.map Prod.snd) hresults
        rwa [List.map_map] at hsnd
      have hselections := hbooks.selections
      rw [hsteps, hbacktracks] at hselections
      exact ⟨p, rfl, hresults, hconsidered, hbacktracks, hs, hobs, hbooks,
        Int.ofNat.inj hselections, hbooks.considered.symm.trans hconsidered⟩
  · have hground : (Prover.new "M" [Prover.openCondition] factLibrary {}).toOption.any (fun p =>
        (p.rules[0]?).any Rule.isGround) = true := by
      decide +kernel
    cases hp : Prover.new "M" [Prover.openCondition] factLibrary {} with
    | error e => simp [hp, Except.toOption] at hground
    | ok p =>
      simp only [hp, Except.toOption, Option.any_some, Option.any_eq_true] at hground
      obtain ⟨r, hr, hground⟩ := hground
      obtain ⟨-, -, honce⟩ := hbalances ⟨false⟩ Prover.openCondition _ .new (p.context {})
      exact ⟨p, rfl, r, hr, hground, honce 0 r hr hground⟩

end Discharge.Search
