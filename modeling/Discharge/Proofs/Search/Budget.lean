import Discharge.Proofs.Search.Undecided

namespace Discharge.Search.Crew

variable {p : Prover} {c c' : Crew} {i : Nat} {r : Result}

section Ending

/-- No step is without progress. -/
theorem Step.ahead_lt (hs : Step p c c') : c'.ahead p < c.ahead p := by
  unfold ahead
  cases hs with
  | deal hnext _ =>
    simp only [List.map_cons, List.sum_cons, Duty.ahead]
    omega
  | @move before after i unproved d d' ob hw hob hmove =>
    rw [hw]
    simp only [List.map_append, List.sum_append, List.map_cons, List.sum_cons]
    cases hmove <;> simp only [Duty.ahead] <;> omega
  | @hand before after i r hw =>
    rw [hw]
    simp only [List.map_append, List.sum_append, List.map_cons, List.sum_cons, Duty.ahead]
    omega

theorem exists_step (h : Placed p c) (hj : 0 < p.config.jobs) (ho : ¬ c.IsOver p) :
    ∃ c', Step p c c' := by
  cases hw : c.workers with
  | nil =>
    have hnext : c.next < p.obligations.length :=
      Nat.lt_of_le_of_ne h.next_le fun he => ho ⟨hw, he⟩
    exact ⟨_, .deal hnext (by simpa [hw] using hj)⟩
  | cons w rest =>
    obtain ⟨i, d⟩ := w
    have hi : i < p.obligations.length :=
      Nat.lt_of_lt_of_le (h.position_lt i (by simp [hw])) h.next_le
    have hob := List.getElem?_eq_getElem hi
    cases d with
    | fresh =>
      cases hskips : p.config.skips c.unproved with
      | true => exact ⟨_, .move [] _ hw hob (.skip hskips)⟩
      | false => exact ⟨_, .move [] _ hw hob (.enter hskips)⟩
    | admitted =>
      exact ⟨_, .move [] _ hw hob (.prove (Session.control {} p.config))⟩
    | attempted r => exact ⟨_, .move [] _ hw hob (.count r)⟩
    | settled r => exact ⟨_, .hand [] _ hw⟩

theorem IsOver.not_step (ho : c.IsOver p) : ¬ Step p c c' := by
  intro hs
  cases hs with
  | deal hnext _ => exact Nat.ne_of_lt hnext ho.2
  | move _ _ hw _ _ => simp [ho.1] at hw
  | hand _ _ hw => simp [ho.1] at hw

theorem isOver_iff (h : Placed p c) (hj : 0 < p.config.jobs) :
    (∀ c', ¬ Step p c c') ↔ c.IsOver p := by
  refine ⟨fun hstuck => ?_, fun ho c' => ho.not_step⟩
  by_contra ho
  obtain ⟨c', hs⟩ := exists_step h hj ho
  exact hstuck c' hs

theorem exists_handlings {obs : List Obligation} {results : List (Option Result)}
    (hlen : results.length = obs.length)
    (hall : ∀ (i : Nat) (ob : Obligation), obs[i]? = some ob →
      ∃ h : Handling, h.obligation = ob ∧ results[i]? = some (some (h.result p))) :
    ∃ hs : List Handling, hs.map Handling.obligation = obs ∧
      results = (hs.map (Handling.result p)).map some := by
  induction obs generalizing results with
  | nil => exact ⟨[], rfl, List.eq_nil_of_length_eq_zero hlen⟩
  | cons ob rest ih =>
    cases results with
    | nil => contradiction
    | cons x xs =>
      obtain ⟨h, rfl, hx⟩ := hall 0 ob rfl
      obtain ⟨hs, rfl, rfl⟩ := ih (Nat.succ.inj hlen) fun i => hall (i + 1)
      cases hx
      exact ⟨h :: hs, rfl, rfl⟩

theorem IsOver.results_eq (ho : c.IsOver p) (hp : Placed p c) (hh : Handled p c) :
    ∃ hs : List Handling, hs.map Handling.obligation = p.obligations ∧
      c.results = (hs.map (Handling.result p)).map some := by
  refine exists_handlings hp.length_eq ?_
  intro i ob hob
  have hlt : i < p.obligations.length := (List.getElem?_eq_some_iff.mp hob).1
  obtain ⟨result, hi⟩ : ∃ result, c.results[i]? = some result :=
    ⟨_, List.getElem?_eq_getElem (hp.length_eq ▸ hlt)⟩
  cases result with
  | none =>
    rw [hp.missing_iff, ho.1, ho.2] at hi
    simp only [List.map_nil, List.not_mem_nil, false_or] at hi
    omega
  | some r =>
    obtain ⟨h, hobligation, rfl⟩ := hh.knows (.inl hi)
    exact ⟨h, (Option.some.inj (hob.symm.trans hobligation)).symm, hi⟩

end Ending

section Sequence

variable {n m unproved unproved' : Nat} {results : List (Option Result)} {ob : Obligation}

theorem runs_alone (hn : n < p.obligations.length) (hj : 0 < p.config.jobs)
    (hr : Runs p ⟨n + 1, [⟨n, .fresh⟩], unproved, results⟩
      ⟨n + 1, [⟨n, .settled r⟩], unproved', results⟩) :
    Runs p ⟨n, [], unproved, results⟩ ⟨n + 1, [], unproved', results.set n (some r)⟩ := by
  have hdeal : Step p ⟨n, [], unproved, results⟩ ⟨n + 1, [⟨n, .fresh⟩], unproved, results⟩ :=
    .deal hn hj
  have hhand : Step p ⟨n + 1, [⟨n, .settled r⟩], unproved', results⟩
      ⟨n + 1, [], unproved', results.set n (some r)⟩ := .hand [] _ rfl
  exact .head hdeal (.tail hr hhand)

theorem step_alone (hob : p.obligations[n]? = some ob) {d d' : Duty}
    (h : Duty.Moves p ob unproved d d' unproved') :
    Step p ⟨m, [⟨n, d⟩], unproved, results⟩ ⟨m, [⟨n, d'⟩], unproved', results⟩ :=
  .move [] _ rfl hob h

theorem runs_next {done : List Result} {rest : Nat} (hn : done.length < p.obligations.length)
    (hj : 0 < p.config.jobs)
    (hr : Runs p ⟨done.length + 1, [⟨done.length, .fresh⟩], unproved,
        done.map some ++ List.replicate (rest + 1) none⟩
      ⟨done.length + 1, [⟨done.length, .settled r⟩], unproved',
        done.map some ++ List.replicate (rest + 1) none⟩) :
    Runs p ⟨done.length, [], unproved, done.map some ++ List.replicate (rest + 1) none⟩
      ⟨(done ++ [r]).length, [], unproved',
        (done ++ [r]).map some ++ List.replicate rest none⟩ := by
  have hset : (done.map some ++ List.replicate (rest + 1) none).set done.length (some r) =
      (done ++ [r]).map some ++ List.replicate rest none := by
    simp [List.replicate_succ]
  have hone := runs_alone hn hj hr
  rw [hset] at hone
  rw [List.length_append, List.length_singleton]
  exact hone

/-- To handle obligations in turn is one of the ways to deal them out. -/
theorem runs_runAll (hj : 0 < p.config.jobs) (total : Nat) {obs : List Obligation} {r : Run}
    (hobs : p.obligations.drop r.results.length = obs)
    (hlen : r.results.length + obs.length = p.obligations.length) :
    Runs p ⟨r.results.length, [], r.unproved, r.results.map some ++ List.replicate obs.length none⟩
      ⟨p.obligations.length, [], (p.runAll total obs r).unproved,
        (p.runAll total obs r).results.map some⟩ := by
  induction obs generalizing r with
  | nil =>
    have hend : r.results.length = p.obligations.length := hlen
    simpa [Prover.runAll, hend] using Relation.ReflTransGen.refl
  | cons ob rest ih =>
    rw [List.length_cons] at hlen
    have hn : r.results.length < p.obligations.length := by omega
    have hob : p.obligations[r.results.length]? = some ob := by
      rw [← List.head?_drop, hobs, List.head?_cons]
    have hrest : ∀ x : Result, p.obligations.drop (r.results ++ [x]).length = rest := by
      intro x
      rw [List.length_append, List.length_singleton, ← List.tail_drop, hobs, List.tail_cons]
    have hlen' : ∀ x : Result, (r.results ++ [x]).length + rest.length = p.obligations.length := by
      intro x
      rw [List.length_append, List.length_singleton]
      omega
    rw [Prover.runAll]
    split
    · rename_i hskips
      refine (runs_next hn hj ?_).trans (ih (r := Prover.skip total ob r) (hrest _) (hlen' _))
      exact .single (step_alone hob (.skip hskips))
    · rename_i hskips
      have hadmit : p.config.skips r.unproved = false := by simpa using hskips
      refine (runs_next hn hj ?_).trans (ih (r := p.attempt total ob r) (hrest _) (hlen' _))
      refine .head (step_alone hob (.enter hadmit)) ?_
      refine .head (step_alone hob (.prove (r.session.control p.config))) ?_
      exact .single (step_alone hob (.count _))

theorem runs_start (hj : 0 < p.config.jobs) (m : Metrics) (s : Session) :
    ∃ c, Runs p (opening p) c ∧ c.IsOver p ∧ c.results = (p.start m s).1.results.map some := by
  have hruns := runs_runAll hj p.obligations.length
    (r := { metrics := m.reset, session := s }) (List.drop_zero (l := p.obligations))
    (Nat.zero_add _)
  exact ⟨_, hruns, ⟨rfl, rfl⟩, rfl⟩

end Sequence

/-- Whatever steps the workers make, and in whatever order, as many obligations at most are left
undecided as there are tries, and one more for each worker but the first. Every step is progress, a
run is over exactly when no step is left, and what was handed in stays. An obligation was left out
only if as many as there are tries had been left undecided when it was started. When a run is over,
each obligation has been handled, and its result is at its position; with one worker, those are left
out that come after so many undecided ones. A prover that handles its obligations in turn makes one
of these runs. -/
theorem budget_kept {k j : Nat} (hk : p.config.tries = k) (hj : p.config.jobs = j) (h : 1 ≤ j) :
    (∀ c, Runs p (opening p) c →
      c.workers.length ≤ j ∧ c.undecided ≤ k + j - 1 ∧
      (∀ c', Step p c c' → c'.ahead p < c.ahead p) ∧
      ((∀ c', ¬ Step p c c') ↔ c.IsOver p) ∧
      ∀ i r, c.results[i]? = some (some r) →
        (∀ c', Runs p c c' → c'.results[i]? = some (some r)) ∧
        (r.skipped = true → ∃ before after, Runs p (opening p) before ∧ Step p before after ∧
          Runs p after c ∧ ⟨i, .fresh⟩ ∈ before.workers ∧ ⟨i, .settled r⟩ ∈ after.workers ∧
          k ≤ before.undecided)) ∧
    (∀ c, Runs p (opening p) c → c.IsOver p →
      ∃ hs : List Handling, hs.map Handling.obligation = p.obligations ∧
        c.results = (hs.map (Handling.result p)).map some ∧
        (hs.map (Handling.result p)).countP Result.isUndecided ≤ k + j - 1 ∧
        (j = 1 → ∀ i r, (hs.map (Handling.result p))[i]? = some r →
          (r.skipped = true ↔
            ((hs.map (Handling.result p)).take i).countP Result.isUndecided = k))) ∧
    ∀ (m : Metrics) (s : Session),
      ∃ c, Runs p (opening p) c ∧ c.IsOver p ∧ c.results = (p.start m s).1.results.map some := by
  have hjobs : 0 < p.config.jobs := by omega
  have hsound : ∀ c, Runs p (opening p) c → Sound p (k + j - 1) c := fun c hr =>
    Runs.sound hr hk hj (sound_opening hj h)
  refine ⟨?_, ?_, runs_start hjobs⟩
  · intro c hr
    have hc := hsound c hr
    have hlen := hc.placed.workers_le
    refine ⟨by omega, undecided_le hc.counted hc.within, fun c' => Step.ahead_lt,
      isOver_iff hc.placed hjobs, ?_⟩
    intro i r hthere
    refine ⟨fun c' hr' => Runs.kept hr' hc.placed hthere, ?_⟩
    exact Runs.exists_start hr hk hj h (.inl hthere)
  · intro c hr ho
    have hc := hsound c hr
    obtain ⟨hs, hobs, hresults⟩ := ho.results_eq hc.placed hc.handled
    have hsame : ∀ rs : List Result, (rs.map some).countP (·.any Result.isUndecided) =
        rs.countP Result.isUndecided := by
      intro rs
      rw [List.countP_map]
      rfl
    have hle := undecided_le hc.counted hc.within
    have hcount : (hs.map (Handling.result p)).countP Result.isUndecided ≤ k + j - 1 := by
      rw [undecided, ho.1, hresults, hsame] at hle
      simpa using hle
    refine ⟨hs, hobs, hresults, hcount, ?_⟩
    intro hone i r hthere
    have hturn := Runs.inTurn hr hk (by omega)
    have hknown : c.Knows i r := .inl (by rw [hresults, List.getElem?_map, hthere]; rfl)
    have hbefore : c.undecidedBefore i =
        ((hs.map (Handling.result p)).take i).countP Result.isUndecided := by
      rw [undecidedBefore, hresults, ← List.map_take, hsame]
    have hmost := (List.take_sublist i (hs.map (Handling.result p))).countP_le
      (p := Result.isUndecided)
    rw [hturn.judged hknown, hbefore]
    omega

/-- A prover without rules, for three conditions that all want the same. One try is allowed. -/
def hopeless (jobs : Int) : Prover where
  module := "M"
  config := { tries := 1, jobs }
  rules := #[]
  helpers := []
  obligations := [1, 2, 3].map fun id =>
    Obligation.new ⟨false⟩ { id, sequent := ⟨[], [.symbol ⟨"wanted", .boolean, .free⟩]⟩ }
  integerSorts := false

/-- Two workers may both be let through, and then as many obligations are undecided as there may be.
One worker leaves out what comes after the first. -/
theorem budget_kept_hopeless :
    (∃ c, Runs (hopeless 2) (opening (hopeless 2)) c ∧ c.undecided = 2 ∧
      c.undecided ≤ 1 + 2 - 1) ∧
    ∃ c, Runs (hopeless 1) (opening (hopeless 1)) c ∧ c.IsOver (hopeless 1) ∧
      c.results.map (·.map Result.skipped) = [some false, some true, some true] ∧
      ∃ before after, Runs (hopeless 1) (opening (hopeless 1)) before ∧
        Step (hopeless 1) before after ∧ Runs (hopeless 1) after c ∧
        (∃ i, ⟨i, .fresh⟩ ∈ before.workers) ∧ 1 ≤ before.undecided := by
  constructor
  · obtain ⟨hkept, -⟩ := budget_kept (p := hopeless 2) (k := 1) (j := 2) rfl rfl (by decide)
    have hruns : Runs (hopeless 2) (opening (hopeless 2)) _ :=
      (((((Relation.ReflTransGen.single (.deal (by decide +kernel) (by decide +kernel))).tail
        (.deal (by decide +kernel) (by decide +kernel))).tail
        (.move [] _ rfl rfl (.enter rfl))).tail
        (.move [⟨1, .admitted⟩] _ rfl rfl (.enter rfl))).tail
        (.move [] _ rfl rfl (.prove (Session.control {} {})))).tail
        (.move [_] _ rfl rfl (.prove (Session.control {} {})))
    have hbound := (hkept _ hruns).2.1
    exact ⟨_, hruns, by decide +kernel, hbound⟩
  · obtain ⟨hkept, -, hstart⟩ := budget_kept (p := hopeless 1) (k := 1) (j := 1) rfl rfl (by decide)
    obtain ⟨c, hruns, hover, hresults⟩ := hstart {} {}
    have hskipped : ((hopeless 1).start {} {}).1.results.map Result.skipped =
        [false, true, true] := by
      decide +kernel
    obtain ⟨r, hr, hout⟩ : ∃ r, ((hopeless 1).start {} {}).1.results[1]? = some r ∧
        r.skipped = true := by
      have hsecond := congrArg (·[1]?) hskipped
      simpa using hsecond
    have hthere : c.results[1]? = some (some r) := by simp [hresults, hr]
    obtain ⟨before, after, hbefore, hstep, hafter, hfresh, -, hcount⟩ :=
      ((hkept c hruns).2.2.2.2 1 r hthere).2 hout
    refine ⟨c, hruns, hover, ?_, before, after, hbefore, hstep, hafter, ⟨1, hfresh⟩, hcount⟩
    have hmap := congrArg (List.map some) hskipped
    simpa [hresults, Function.comp_def] using hmap

end Discharge.Search.Crew
