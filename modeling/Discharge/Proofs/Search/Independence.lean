import Discharge.Proofs.Search.Isolation
import Discharge.Proofs.Search.Saturation
import Discharge.Proofs.Search.Soundness

namespace Discharge.Search

open Congruence

section Ending

variable {c : Context} {ob : Obligation} {w : Course} {b : Board}

theorem leads_run (hgo : (Attempt.run c ob).stopped = false) :
    Leads c (Attempt.start c ob) (.resting 0) (Attempt.run c ob) .finished :=
  (Attempt.rounds_run c ob).leads hgo

theorem Course.mirrors_start (c : Context) (ob : Obligation) :
    (Course.start c ob).Mirrors (fun _ _ => none) (Attempt.start c ob) :=
  ⟨rfl, rfl, rfl, fun _ => rfl, rfl, rfl⟩

structure Course.Ended (w : Course) (a : Attempt) : Prop where
  obligation : w.obligation = a.obligation
  lines : w.lines.map Line.untimed = a.lines.map Line.untimed
  steps : w.steps = a.steps

theorem Course.isOver_step (c : Context) (times : Times) (h : w.stage.isOver = true) (b : Board) :
    (w.step c times b).1.stage.isOver = true ∧ (w.step c times b).1.obligation = w.obligation ∧
      (w.step c times b).1.lines = w.lines ∧ (w.step c times b).1.steps = w.steps := by
  unfold Course.step
  cases hstage : w.stage with
  | finished => exact ⟨rfl, rfl, rfl, rfl⟩
  | gone => exact ⟨h, rfl, rfl, rfl⟩
  | resting => rw [hstage] at h; cases h
  | trying => rw [hstage] at h; cases h
  | drawing => rw [hstage] at h; cases h
  | inserting => rw [hstage] at h; cases h

theorem Course.isOver_follow (c : Context) (times : List Times) (h : w.stage.isOver = true)
    (b : Board) :
    (follow c times (w, b)).1.stage.isOver = true ∧
      (follow c times (w, b)).1.obligation = w.obligation ∧
      (follow c times (w, b)).1.lines = w.lines ∧ (follow c times (w, b)).1.steps = w.steps := by
  induction times generalizing w b with
  | nil => exact ⟨h, rfl, rfl, rfl⟩
  | cons t rest ih =>
    obtain ⟨hover, hob, hlines, hsteps⟩ := Course.isOver_step c t h b
    have hrest := ih hover (w.step c t b).2
    rw [hob, hlines, hsteps] at hrest
    exact hrest

/-- After some number of steps a search is over, and whenever it is over it has come to what the
attempt comes to. -/
theorem Course.ended_follow (hgo : (Attempt.run c ob).stopped = false) :
    ∃ n, ∀ times : List Times,
      let w := (follow c times (Course.start c ob, fun _ _ => none)).1
      (n ≤ times.length → w.stage.isOver = true) ∧
        (w.stage.isOver = true → w.Ended (Attempt.run c ob)) := by
  obtain ⟨n, hn⟩ := leads_run hgo
  refine ⟨n, fun times => ⟨?_, ?_⟩⟩
  · intro hle
    have hend := (hn _ _ (mirrors_start c ob) rfl (times.take n) (by simpa using hle)).2
    rw [← List.take_append_drop n times, follow_append]
    exact (isOver_follow c _ (by rw [hend]; rfl) _).1
  · intro hover
    -- Its end is the same however long one goes on: here up to the number of steps that suffices.
    have hlong := isOver_follow c (List.replicate n default) hover
      (follow c times (Course.start c ob, fun _ _ => none)).2
    rw [← follow_append] at hlong
    obtain ⟨hmirrors, hend⟩ := hn _ _ (mirrors_start c ob) rfl
      ((times ++ List.replicate n default).take n) (by simp)
    have hrest := isOver_follow c ((times ++ List.replicate n default).drop n)
      (by rw [hend]; rfl) (follow c ((times ++ List.replicate n default).take n)
        (Course.start c ob, fun _ _ => none)).2
    rw [← follow_append, List.take_append_drop] at hrest
    refine ⟨?_, ?_, ?_⟩
    · rw [← hlong.2.1, hrest.2.1, hmirrors.obligation]
    · rw [← hlong.2.2.1, hrest.2.2.1, hmirrors.lines]
    · rw [← hlong.2.2.2, hrest.2.2.2, hmirrors.steps]

theorem Course.Ended.trace_untimed {a : Attempt} (h : w.Ended a) (showResults : Bool) :
    (w.trace showResults).untimed = (a.trace showResults).untimed := by
  unfold Course.trace Attempt.trace Trace.untimed
  rw [h.obligation, h.lines]

end Ending

/-- Whether nothing calls off what is done in a session, and no match runs out of time. -/
structure Session.Quiet (s : Session) : Prop where
  interruption : s.interruption = none
  cancelled : s.cancelled = false
  stepLimit : s.stepLimit = none
  lookLimit : s.lookLimit = none
  finalReach : s.finalReach = .all

theorem Session.quiet_standard : ({} : Session).Quiet := ⟨rfl, rfl, rfl, rfl, rfl⟩

theorem Session.Quiet.add {s : Session} (h : s.Quiet) (a : Attempt) : (s.add a).Quiet :=
  ⟨h.interruption, h.cancelled, h.stepLimit, h.lookLimit, h.finalReach⟩

def stepsOf (id : Int) (events : List Event) : List Step :=
  events.filterMap fun
    | .step j rule fact => if j = id then some ⟨rule, fact⟩ else none
    | _ => none

@[simp]
theorem stepsOf_append (id : Int) (events events' : List Event) :
    stepsOf id (events ++ events') = stepsOf id events ++ stepsOf id events' := by
  simp [stepsOf]

theorem stepsOf_told (id j : Int) (steps : List Step) :
    stepsOf id (steps.map fun s => .step j s.rule s.fact) = if j = id then steps else [] := by
  by_cases h : j = id
  · simp [stepsOf, h]
  · simp [stepsOf, h]

@[simp]
theorem Attempt.status_result (a : Attempt) (showResults : Bool) :
    (a.result showResults).status = a.obligation.status := rfl

namespace Prover

/-- The attempt for an obligation that nothing calls off. -/
def undisturbed (p : Prover) (ob : Obligation) : Attempt := Attempt.run (p.context {}) ob

section Running

variable {p : Prover} {s : Session}

theorem context_of_quiet (h : s.Quiet) : p.context s = p.context {} := by
  unfold context Session.control
  rw [h.interruption, h.cancelled, h.stepLimit, h.lookLimit, h.finalReach]
  rfl

theorem undisturbed_of_obligations (p : Prover) (obs : List Obligation) (ob : Obligation) :
    ({ p with obligations := obs } : Prover).undisturbed ob = p.undisturbed ob := rfl

theorem condition_undisturbed (p : Prover) (ob : Obligation) :
    (p.undisturbed ob).obligation.condition = ob.condition :=
  (Attempt.derives_run (p.context {}) ob).frame.1

theorem attempt_eq (hs : s.Quiet) (total : Nat) (ob : Obligation) (r : Run) (hr : r.session = s) :
    (p.attempt total ob r).results =
        r.results ++ [(p.undisturbed ob).result p.config.showResults] ∧
      (∀ id, stepsOf id (p.attempt total ob r).events = stepsOf id r.events ++
        if ob.condition.id = id then (p.undisturbed ob).steps else []) ∧
      (p.attempt total ob r).session = s.add (p.undisturbed ob) := by
  have hcontext : p.context r.session = p.context {} := context_of_quiet (hr ▸ hs)
  unfold attempt Run.add
  rw [hcontext, hr]
  refine ⟨rfl, fun id => ?_, rfl⟩
  have hid : ((p.undisturbed ob).result p.config.showResults).id = ob.condition.id :=
    congrArg Condition.id (p.condition_undisturbed ob)
  rw [← hid, stepsOf_append, stepsOf_append, stepsOf_append]
  refine Eq.trans ?_ (congrArg (stepsOf id r.events ++ ·) (stepsOf_told id _ _))
  simp [stepsOf, undisturbed]

/-- A run that skips nothing and is not called off attempts each obligation as if it were alone. -/
theorem runAll_quiet (htries : p.config.tries < 0) (total : Nat) (obs : List Obligation) (r : Run)
    (hs : r.session.Quiet) :
    (p.runAll total obs r).results =
        r.results ++ obs.map (fun ob => (p.undisturbed ob).result p.config.showResults) ∧
      (∀ id, stepsOf id (p.runAll total obs r).events = stepsOf id r.events ++
        obs.flatMap fun ob => if ob.condition.id = id then (p.undisturbed ob).steps else []) := by
  induction obs generalizing r with
  | nil => simp [runAll]
  | cons ob rest ih =>
    have hskips : p.config.skips r.unproved = false := by
      have hneg : ¬ 0 ≤ p.config.tries := by omega
      simp [Config.skips, hneg]
    obtain ⟨hresults, hevents, hsession⟩ := attempt_eq hs total ob r rfl
    obtain ⟨ihresults, ihevents⟩ := ih (p.attempt total ob r) (hsession ▸ hs.add _)
    rw [runAll, hskips, if_neg Bool.false_ne_true]
    refine ⟨?_, fun id => ?_⟩
    · rw [ihresults, hresults]
      simp
    · rw [ihevents, hevents]
      simp

theorem start_quiet (htries : p.config.tries < 0) (m : Metrics) (hs : s.Quiet) :
    (p.start m s).1.results =
        p.obligations.map (fun ob => (p.undisturbed ob).result p.config.showResults) ∧
      (∀ id, stepsOf id (p.start m s).1.events =
        p.obligations.flatMap fun ob =>
          if ob.condition.id = id then (p.undisturbed ob).steps else []) := by
  obtain ⟨hresults, hevents⟩ := runAll_quiet htries p.obligations.length p.obligations
    { metrics := m.reset, session := s } hs
  exact ⟨hresults, hevents⟩

end Running

theorem repeatedId?_eq_none {cs : List Condition} {seen : List Int} :
    repeatedId? cs seen = none ↔ (cs.map Condition.id).Nodup ∧ ∀ c ∈ cs, c.id ∉ seen := by
  induction cs generalizing seen with
  | nil => simp [repeatedId?]
  | cons c rest ih =>
    unfold repeatedId?
    split
    · rename_i hseen
      simp only [reduceCtorEq, false_iff]
      exact fun h => h.2 c List.mem_cons_self (List.contains_iff_mem.mp hseen)
    · rename_i hseen
      rw [List.contains_iff_mem] at hseen
      rw [ih]
      simp only [List.map_cons, List.nodup_cons, List.mem_map, List.mem_cons, not_or]
      grind

theorem flatMap_steps {α : Type} {id : α → Int} {xs : List α} (hids : (xs.map id).Nodup) {x : α}
    (hx : x ∈ xs) (steps : α → List Step) :
    (xs.flatMap fun y => if id y = id x then steps y else []) = steps x := by
  induction xs with
  | nil => cases hx
  | cons y rest ih =>
    rw [List.map_cons, List.nodup_cons] at hids
    rw [List.flatMap_cons]
    cases hx with
    | head =>
      have hrest : (rest.flatMap fun z => if id z = id x then steps z else []) = [] := by
        refine List.flatMap_eq_nil_iff.mpr fun z hz => if_neg fun hsame => hids.1 ?_
        exact hsame ▸ List.mem_map_of_mem hz
      rw [hrest, if_pos rfl, List.append_nil]
    | tail _ hx =>
      have hne : id y ≠ id x := fun hsame => hids.1 (hsame ▸ List.mem_map_of_mem hx)
      rw [if_neg hne, ih hids.2 hx, List.nil_append]

section Starting

variable {module : Text} {conditions : List Condition} {library : Library} {config : Config}
  {p : Prover}

theorem nodup_of_new (h : Prover.new module conditions library config = .ok p) :
    (conditions.map Condition.id).Nodup := by
  unfold Prover.new at h
  dsimp only at h
  split at h
  · cases h
  · rename_i hids
    exact (repeatedId?_eq_none.mp hids).1

/-- What a prover is apart from its obligations does not depend on them, nor does whether there is
one. -/
theorem new_cases (module : Text) (library : Library) (config : Config)
    {conditions' : List Condition} (hids : (conditions.map Condition.id).Nodup)
    (hids' : (conditions'.map Condition.id).Nodup) :
    (∃ f, Prover.new module conditions library config = .error (.fault f) ∧
      Prover.new module conditions' library config = .error (.fault f)) ∨
    ∃ p, p.config = config ∧ Prover.new module conditions library config = .ok p ∧
      Prover.new module conditions' library config =
        .ok { p with
          obligations := conditions'.map (Obligation.new (normalizer library module)) } := by
  have hnone : ∀ {cs : List Condition}, (cs.map Condition.id).Nodup →
      repeatedId? cs [] = none := fun h => repeatedId?_eq_none.mpr ⟨h, by simp⟩
  unfold Prover.new
  dsimp only
  rw [hnone hids, hnone hids']
  dsimp only
  split
  · exact .inl ⟨_, rfl, rfl⟩
  · exact .inr ⟨_, rfl, rfl, rfl⟩

theorem new_single (h : Prover.new module conditions library config = .ok p) (c : Condition) :
    p.config = config ∧ Prover.new module [c] library config =
      .ok { p with obligations := [Obligation.new (normalizer library module) c] } := by
  have hone : ([c].map Condition.id).Nodup := List.nodup_singleton _
  rcases new_cases module library config (nodup_of_new h) hone with
    ⟨f, herror, -⟩ | ⟨p', hconfig, hp', hsingle⟩
  · rw [h] at herror
    cases herror
  · obtain rfl : p = p' := Except.ok.inj (h.symm.trans hp')
    exact ⟨hconfig, hsingle⟩

/-- What is reported of a condition does not depend on what other conditions there are, on its
place among them or on the order in which the steps of all searches are made. -/
theorem start_isolated (h : Prover.new module conditions library config = .ok p)
    (htries : config.tries < 0) {i : Nat} {c : Condition} (hc : conditions[i]? = some c) :
    ∃ q : Prover, Prover.new module [c] library config = .ok q ∧
      ∀ (m m' : Metrics) (s s' : Session), s.Quiet → s'.Quiet →
        let a := q.undisturbed (Obligation.new (normalizer library module) c)
        (q.start m' s').1.results = [a.result config.showResults] ∧
        stepsOf c.id (q.start m' s').1.events = a.steps ∧
        (p.start m s).1.results[i]? = some (a.result config.showResults) ∧
        stepsOf c.id (p.start m s).1.events = a.steps ∧
        (a.stopped = false → ∃ n, ∀ schedule : List (Nat × Times), ∃ w : Course,
          ((Workshop.start (p.context s) p.obligations).follow
            (p.context s) schedule).courses[i]? = some w ∧
          (n ≤ (Workshop.ownTimes i schedule).length → w.stage.isOver = true) ∧
          (w.stage.isOver = true → w.obligation.status = a.obligation.status ∧
            w.steps = a.steps ∧ (w.trace config.showResults).untimed =
              (a.trace config.showResults).untimed)) := by
  obtain ⟨hconfig, hq⟩ := new_single h c
  obtain ⟨-, hobs⟩ := new_spec h
  subst hconfig
  have hat : p.obligations[i]? = some (Obligation.new (normalizer library module) c) := by
    rw [hobs, List.getElem?_map, hc]
    rfl
  have hids : (p.obligations.map fun ob => ob.condition.id).Nodup := by
    have hsame : (p.obligations.map fun ob => ob.condition.id) = conditions.map Condition.id := by
      simp [hobs, Function.comp_def, Obligation.condition_new]
    rw [hsame]
    exact nodup_of_new h
  refine ⟨_, hq, fun m m' s s' hs hs' => ?_⟩
  obtain ⟨hresults, hevents⟩ := start_quiet (p := p) htries m hs
  obtain ⟨hresults', hevents'⟩ := start_quiet
    (p := { p with obligations := [Obligation.new (normalizer library module) c] }) htries m' hs'
  simp only [undisturbed_of_obligations] at hresults' hevents' ⊢
  refine ⟨hresults', ?_, ?_, ?_, ?_⟩
  · rw [hevents', List.flatMap_cons, List.flatMap_nil, List.append_nil,
      if_pos (congrArg Condition.id (Obligation.condition_new _ _))]
  · rw [hresults, List.getElem?_map, hat]
    rfl
  · rw [hevents]
    have hown := flatMap_steps hids (List.mem_of_getElem? hat) fun ob => (p.undisturbed ob).steps
    rw [Obligation.condition_new] at hown
    exact hown
  · intro hgo
    rw [context_of_quiet hs]
    obtain ⟨n, hn⟩ := Course.ended_follow hgo
    refine ⟨n, fun schedule => ⟨_, Workshop.follow_isolated schedule (b := fun _ _ => none)
      (w := Course.start (p.context {}) (Obligation.new (normalizer library module) c)) ?_ ?_
      fun _ => rfl, (hn _).1, fun hover => ?_⟩⟩
    · simpa [Workshop.start, Course.id, Course.start, Function.comp_def] using hids
    · simp [Workshop.start, hat]
    · have hended := (hn _).2 hover
      exact ⟨congrArg Obligation.status hended.obligation, hended.steps, hended.trace_untimed _⟩

end Starting

def metCondition : Condition :=
  let a : Term := .symbol ⟨"a", .entity, .free⟩
  { id := 7, sequent := ⟨[.call "p" .boolean [.call "f" .entity [a]]], [.call "p" .boolean [a]]⟩ }

/-- The second of two conditions is proved by the rule that the first has a use for too, as it is
alone. -/
theorem start_isolated_metCondition : ∃ p q : Prover,
    Prover.new "M" [openCondition, metCondition] identityLibrary {} = .ok p ∧
    Prover.new "M" [metCondition] identityLibrary {} = .ok q ∧
    (p.start {} {}).1.results[1]? = (q.start {} {}).1.results[0]? ∧
    ((p.start {} {}).1.results[1]?).map Result.status = some .proved ∧
    stepsOf 7 (p.start {} {}).1.events = [⟨"Identity_left", "f(a) = a"⟩] ∧
    stepsOf 7 (q.start {} {}).1.events = [⟨"Identity_left", "f(a) = a"⟩] ∧
    ∃ n, ∀ schedule : List (Nat × Times), n ≤ (Workshop.ownTimes 1 schedule).length →
      ∃ w : Course, ((Workshop.start (p.context {}) p.obligations).follow
          (p.context {}) schedule).courses[1]? = some w ∧
        w.stage.isOver = true ∧ w.obligation.status = .proved ∧
        w.steps = [⟨"Identity_left", "f(a) = a"⟩] := by
  have hok : (Prover.new "M" [openCondition, metCondition] identityLibrary {}).isOk = true := by
    decide +kernel
  have hrun : (Prover.new "M" [metCondition] identityLibrary {}).toOption.any (fun q =>
      let a := q.undisturbed (Obligation.new (normalizer identityLibrary "M") metCondition)
      !a.stopped && a.obligation.status == .proved &&
        a.steps == [⟨"Identity_left", "f(a) = a"⟩]) = true := by
    decide +kernel
  cases hp : Prover.new "M" [openCondition, metCondition] identityLibrary {} with
  | error e => simp [hp, Except.isOk, Except.toBool] at hok
  | ok p =>
    obtain ⟨q, hq, hsame⟩ := start_isolated hp (by decide) (i := 1) rfl
    obtain ⟨halone, hstepsAlone, hresult, hsteps, hany⟩ := hsame {} {} {} {} Session.quiet_standard
      Session.quiet_standard
    simp only [hq, Except.toOption, Option.any_some, Bool.and_eq_true, Bool.not_eq_true',
      beq_iff_eq] at hrun
    obtain ⟨⟨hgo, hstatus⟩, htold⟩ := hrun
    obtain ⟨n, hn⟩ := hany hgo
    refine ⟨p, q, rfl, hq, ?_, ?_, hsteps.trans htold, hstepsAlone.trans htold, n, ?_⟩
    · rw [hresult, halone]
      rfl
    · rw [hresult, Option.map_some, Attempt.status_result, hstatus]
    · intro schedule hlong
      obtain ⟨w, hw, hends, hcomes⟩ := hn schedule
      obtain ⟨hwstatus, hwsteps, -⟩ := hcomes (hends hlong)
      exact ⟨w, hw, hends hlong, hwstatus.trans hstatus, hwsteps.trans htold⟩

end Prover

end Discharge.Search
