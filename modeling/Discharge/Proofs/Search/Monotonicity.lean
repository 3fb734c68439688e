import Discharge.Proofs.Search.Checked
import Discharge.Proofs.Search.Handling
import Discharge.Proofs.Search.Independence

namespace Discharge.Search

open Congruence

namespace Obligation

variable {n : Normalizer} {c : Condition} {ob ob' : Obligation}

def feed (ob : Obligation) (input : Model.Input) : Obligation :=
  { ob with model := ob.model.feed input }

inductive Made (n : Normalizer) (c : Condition) : Obligation → Prop where
  | new : Made n c (new n c)
  | addGoal {ob ob' : Obligation} {i : Int} (h : Made n c ob) (hi : ob.addGoalAt i = .ok ob') :
    Made n c ob'
  | feed {ob : Obligation} (h : Made n c ob) (input : Model.Input) : Made n c (ob.feed input)

theorem Posed.addGoalAt (h : ob.Posed) {i : Int} (hi : ob.addGoalAt i = .ok ob') : ob'.Posed := by
  have hv := h.model.filed.vocabulary
  cases i with
  | negSucc k => cases hi
  | ofNat k =>
    have hroot := Vocabulary.toOption_rootAt hv k
    unfold Obligation.addGoalAt at hi
    cases hat : ob.model.vocabulary.rootAt (Int.ofNat k) with
    | error f => rw [hat] at hi; cases hi
    | ok r =>
      rw [hat] at hi
      obtain rfl := Except.ok.inj hi
      refine h.addGoal (List.forall_mem_singleton.mpr ?_)
      change (ob.model.vocabulary.rootAt (Int.ofNat k)).toOption = _ at hroot
      rw [hat] at hroot
      split at hroot
      · rename_i hlt
        rw [Option.some.inj hroot]
        exact hv.root_lt hlt
      · cases hroot

/-- A later state of an obligation: its goals are the same, and its model has grown. -/
structure Precedes (ob ob' : Obligation) : Prop where
  goals : ob'.goals = ob.goals
  model : ob.model.Extends ob'.model

theorem Posed.feed (h : ob.Posed) (input : Model.Input) :
    (ob.feed input).Posed ∧ ob.Precedes (ob.feed input) := by
  obtain ⟨hm, hext⟩ := Model.closed_feed h.model input
  exact ⟨h.setModel hm hext, rfl, hext⟩

theorem Made.posed (h : Made n c ob) : ob.Posed := by
  induction h with
  | new => exact posed_new n c
  | addGoal _ hi ih => exact ih.addGoalAt hi
  | feed _ input ih => exact (ih.feed input).1

theorem Posed.feeds (h : ob.Posed) (inputs : List Model.Input) :
    (inputs.foldl Obligation.feed ob).Posed ∧
      ob.Precedes (inputs.foldl Obligation.feed ob) := by
  induction inputs generalizing ob with
  | nil => exact ⟨h, rfl, .refl _⟩
  | cons input rest ih =>
    obtain ⟨hposed, hgoals, hext⟩ := h.feed input
    obtain ⟨hposed', hgoals', hext'⟩ := ih hposed
    exact ⟨hposed', hgoals'.trans hgoals, hext.trans hext'⟩

/-- What a later state of an obligation owes to an earlier one. -/
structure Forward (ob ob' : Obligation) : Prop where
  falseAssumption : ob.status = .falseAssumption → ob'.status = .falseAssumption
  proved : ob.status = .proved → ob'.status ≠ .evaluating
  met : ∀ goal ∈ ob.goals, ob.isMet goal = true → ob'.isMet goal = true
  opened : ∀ g ∈ ob'.openGoals, ∃ g' ∈ ob.openGoals,
    (ob'.model.vocabulary.rootOf? g').map ob'.model.vocabulary.name = some g

section Forward

variable (h : ob.Posed) (h' : ob'.Posed) (hp : ob.Precedes ob')

include h h' hp

theorem Precedes.lookup? {name : Text} {i : Nat}
    (hi : ob.model.vocabulary.lookup? name = some i) :
    ob'.model.vocabulary.lookup? name = some i := by
  obtain ⟨hlt, rfl⟩ := h.model.filed.vocabulary.lookup_iff.mp hi
  exact h'.model.filed.vocabulary.lookup_iff.mpr
    ⟨hp.model.lt hlt, hp.model.vocabulary.name_eq hlt⟩

theorem Precedes.isMet {goal : List Text} (hmet : ob.isMet goal = true) :
    ob'.isMet goal = true := by
  rw [Obligation.isMet, List.any_eq_true] at hmet ⊢
  obtain ⟨g, hg, hroot⟩ := hmet
  refine ⟨g, hg, ?_⟩
  rw [beq_iff_eq, Vocabulary.rootOf?, Option.map_eq_some_iff] at hroot ⊢
  obtain ⟨i, hi, hsame⟩ := hroot
  have hv := h.model.filed.vocabulary
  exact ⟨i, hp.lookup? h h' hi,
    hp.model.vocabulary.root_eq (hv.lookup_iff.mp hi).1 hv.truth_lt hsame⟩

theorem Precedes.forward : ob.Forward ob' := by
  have hcontradiction : ob.model.contradiction = true → ob'.model.contradiction = true := by
    intro hcon
    by_contra hnot
    rw [contradiction_of_extends h.model h'.model hp.model (Bool.eq_false_iff.mpr hnot)] at hcon
    cases hcon
  refine ⟨?falseAssumption, ?proved, fun goal _ => hp.isMet h h', ?opened⟩
  case falseAssumption =>
    unfold status
    cases hcon : ob.model.contradiction with
    | true => exact fun _ => by rw [hcontradiction hcon, if_pos rfl]
    | false =>
      rw [if_neg Bool.false_ne_true]
      split <;> exact fun hs => by cases hs
  case proved =>
    unfold status
    rw [hp.goals]
    split
    · exact fun hs => by cases hs
    · split
      · rename_i hall
        rw [Bool.and_eq_true, List.all_eq_true] at hall
        have hall' : (!ob.goals.isEmpty && ob.goals.all ob'.isMet) = true := by
          rw [Bool.and_eq_true, List.all_eq_true]
          exact ⟨hall.1, fun goal hgoal => hp.isMet h h' (hall.2 goal hgoal)⟩
        rw [hall', if_pos rfl]
        split <;> exact fun _ hs => by cases hs
      · exact fun hs => by cases hs
  case opened =>
    intro g hg
    obtain ⟨goal, hgoal, hg⟩ := List.mem_flatMap.mp (Text.mem_distinct.mp hg)
    obtain ⟨name, hname, hroot⟩ := List.mem_filterMap.mp hg
    obtain ⟨hmem, hopen⟩ := List.mem_filter.mp hgoal
    rw [hp.goals] at hmem
    obtain ⟨i, hi⟩ := h.known goal hmem name hname
    have hlt := (h.model.filed.vocabulary.lookup_iff.mp hi).1
    -- The goal was open before, since goals that are met stay met.
    have hstill : ob.isMet goal = false := by
      rw [← Bool.not_eq_true]
      intro hmet
      rw [hp.isMet h h' hmet] at hopen
      cases hopen
    refine ⟨ob.model.vocabulary.rootName i, Text.mem_distinct.mpr (List.mem_flatMap.mpr
      ⟨goal, List.mem_filter.mpr ⟨hmem, by rw [hstill]; rfl⟩,
        List.mem_filterMap.mpr ⟨name, hname, ?_⟩⟩), ?_⟩
    · rw [Vocabulary.rootOf?, hi]
      rfl
    · rw [rootOf?_rootName h.model h'.model hp.model hlt, ← hroot, Vocabulary.rootOf?,
        hp.lookup? h h' hi]
      rfl

end Forward

end Obligation

section Deciding

variable {c : Context} {p q : Prover} {ob : Obligation}

theorem Attempt.run_of_decided (h : ob.status.isTerminal = true) :
    Attempt.run c ob = Attempt.start c ob := by
  unfold Attempt.run Moves.run Moves.rounds
  exact if_pos h

/-- A search of an obligation that is decided is over, or will be as soon as it begins. -/
def Course.Idle (w : Course) (ob : Obligation) : Prop :=
  w.obligation = ob ∧ w.steps = [] ∧ (w.stage = .resting 0 ∨ w.stage.isOver = true)

theorem Course.Idle.step {w : Course} (h : w.Idle ob) (hob : ob.status.isTerminal = true)
    (times : Times) (b : Board) : (w.step c times b).1.Idle ob := by
  obtain ⟨rfl, hsteps, hstage⟩ := h
  have hdecided : (w.obligation.status != .evaluating) = true := hob
  unfold Course.step
  cases hat : w.stage with
  | resting round =>
    dsimp only
    rw [if_pos hdecided]
    exact ⟨rfl, hsteps, .inr rfl⟩
  | finished => exact ⟨rfl, hsteps, .inr rfl⟩
  | gone => exact ⟨rfl, hsteps, .inr (by rw [hat]; rfl)⟩
  | trying => rw [hat] at hstage; rcases hstage with h | h <;> cases h
  | drawing => rw [hat] at hstage; rcases hstage with h | h <;> cases h
  | inserting => rw [hat] at hstage; rcases hstage with h | h <;> cases h

/-- Whatever the others do, a search of an obligation that is decided makes no step. -/
theorem Workshop.idle_follow {s : Workshop} {i : Nat} (schedule : List (Nat × Times))
    (hob : ob.status.isTerminal = true) (h : ∃ w, s.courses[i]? = some w ∧ w.Idle ob) :
    ∃ w, (s.follow c schedule).courses[i]? = some w ∧ w.Idle ob := by
  induction schedule generalizing s with
  | nil => exact h
  | cons x rest ih =>
    obtain ⟨j, times⟩ := x
    obtain ⟨w, hw, hidle⟩ := h
    refine ih ?_
    cases hat : s.courses[j]? with
    | none => exact ⟨w, by rwa [Workshop.step, hat], hidle⟩
    | some w' =>
      rw [step_eq c times hat]
      by_cases hij : j = i
      · subst hij
        obtain rfl : w' = w := Option.some.inj (hat.symm.trans hw)
        exact ⟨_, List.getElem?_set_self (List.getElem?_eq_some_iff.mp hw).1,
          hidle.step hob times s.board⟩
      · exact ⟨w, (List.getElem?_set_ne hij).trans hw, hidle⟩

theorem Handling.of_decided {h : Handling} (hob : h.obligation.status.isTerminal = true) :
    h.left p = h.obligation ∧ (h.result p).id = h.obligation.condition.id ∧
      ((h.result p).skipped = false →
        (h.result p).status = h.obligation.status ∧ (h.result p).steps = 0) := by
  obtain ⟨ob, control?⟩ := h
  cases control? with
  | none => exact ⟨rfl, rfl, fun hskipped => by cases hskipped⟩
  | some k =>
    have hrun : attempt? p ⟨ob, some k⟩ = some (Attempt.start (p.under k) ob) :=
      congrArg some (Attempt.run_of_decided hob)
    rw [left, result, hrun]
    exact ⟨rfl, rfl, fun _ => ⟨rfl, rfl⟩⟩

theorem Handling.status_left {h : Handling} (hresult : (h.result p).status.isTerminal = true) :
    (h.left p).status = (h.result p).status ∧ (h.left p).condition.id = (h.result p).id := by
  obtain ⟨ob, control?⟩ := h
  cases control? with
  | none => cases hresult
  | some k => exact ⟨rfl, rfl⟩

namespace Prover

theorem start_of_decided {i : Nat} (hi : p.obligations[i]? = some ob)
    (hob : ob.status.isTerminal = true) (m : Metrics) (s : Session) :
    (p.start m s).2.obligations[i]? = some ob ∧
      ∃ r, (p.start m s).1.results[i]? = some r ∧ r.id = ob.condition.id ∧
        (r.skipped = false → r.status = ob.status ∧ r.steps = 0) := by
  obtain ⟨hs, hobs, hleft, hrun⟩ := handles_start p m s
  rw [← hobs, List.getElem?_map] at hi
  obtain ⟨h, hh, rfl⟩ := Option.map_eq_some_iff.mp hi
  obtain ⟨hsame, hid, hreport⟩ := Handling.of_decided (p := p) hob
  refine ⟨?_, h.result p, ?_, hid, hreport⟩
  · rw [hleft, List.getElem?_map, hh, Option.map_some, hsame]
  · rw [hrun.results, List.nil_append, List.getElem?_map, hh, Option.map_some]

theorem Reaches.obligations_of_decided (hq : p.Reaches q) {i : Nat}
    (hi : p.obligations[i]? = some ob) (hob : ob.status.isTerminal = true) :
    q.obligations[i]? = some ob := by
  induction hq with
  | refl => exact hi
  | start _ m s ih => exact (start_of_decided ih hob m s).1

theorem exists_left {i : Nat} {r : Result} {m : Metrics} {s : Session}
    (hi : (p.start m s).1.results[i]? = some r) (hr : r.status.isTerminal = true) :
    ∃ ob, (p.start m s).2.obligations[i]? = some ob ∧ ob.status = r.status ∧
      ob.condition.id = r.id := by
  obtain ⟨hs, -, hleft, hrun⟩ := handles_start p m s
  rw [hrun.results, List.nil_append, List.getElem?_map] at hi
  obtain ⟨h, hh, rfl⟩ := Option.map_eq_some_iff.mp hi
  obtain ⟨hstatus, hid⟩ := Handling.status_left hr
  exact ⟨h.left p, by rw [hleft, List.getElem?_map, hh, Option.map_some], hstatus, hid⟩

end Prover

/-- An obligation does not fall back. Whatever its model is fed, it is ahead of what it was at any
time before. What a run decided, each later run reports again without a step if it does not leave it
out; and so it is with all that is decided, however the searches alternate. -/
theorem status_forward :
    (∀ n c ob, Obligation.Made n c ob → ∀ inputs later : List Model.Input,
      (inputs.foldl Obligation.feed ob).Forward ((inputs ++ later).foldl Obligation.feed ob)) ∧
    (∀ (p q : Prover) (m m' : Metrics) (s s' : Session) (i : Nat) (r : Result),
      (p.start m s).1.results[i]? = some r → r.status.isTerminal = true →
      (p.start m s).2.Reaches q →
        ∃ r', (q.start m' s').1.results[i]? = some r' ∧ r'.id = r.id ∧
          (r'.skipped = false → r'.status = r.status ∧ r'.steps = 0)) ∧
    ∀ (p : Prover) (i : Nat) (ob : Obligation), p.obligations[i]? = some ob →
      ob.status.isTerminal = true →
        (∀ (m : Metrics) (s : Session), ∃ r, (p.start m s).1.results[i]? = some r ∧
          r.id = ob.condition.id ∧ (r.skipped = false → r.status = ob.status ∧ r.steps = 0)) ∧
        ∀ (c : Context) (schedule : List (Nat × Times)), ∃ w : Course,
          ((Workshop.start c p.obligations).follow c schedule).courses[i]? = some w ∧
            w.obligation = ob ∧ w.steps = [] := by
  refine ⟨fun n c ob h inputs later => ?_, ?_, fun p i ob hi hob => ⟨fun m s => ?_, ?_⟩⟩
  · obtain ⟨hposed, -⟩ := h.posed.feeds inputs
    obtain ⟨hposed', hprecedes⟩ := hposed.feeds later
    rw [List.foldl_append]
    exact hprecedes.forward hposed hposed'
  · intro p q m m' s s' i r hi hr hq
    obtain ⟨ob, hob, hstatus, hid⟩ := Prover.exists_left hi hr
    rw [← hstatus] at hr ⊢
    rw [← hid]
    exact (Prover.start_of_decided (hq.obligations_of_decided hob hr) hr m' s').2
  · exact (Prover.start_of_decided hi hob m s).2
  · intro c schedule
    have hstart : (Workshop.start c p.obligations).courses[i]? = some (Course.start c ob) := by
      rw [Workshop.start, List.getElem?_map, hi, Option.map_some]
    obtain ⟨w, hw, hsame, hsteps, -⟩ :=
      Workshop.idle_follow schedule hob ⟨_, hstart, rfl, rfl, .inl rfl⟩
    exact ⟨w, hw, hsame, hsteps⟩

end Deciding

def twofoldCondition : Condition :=
  { id := 3, sequent := ⟨[], [.symbol ⟨"a", .boolean, .free⟩, .symbol ⟨"b", .boolean, .free⟩]⟩ }

/-- One goal is met after the other, and the assumptions are contradictory in the end; and a
condition that a run has proved is proved without a step in the next. -/
theorem status_forward_twofoldCondition :
    (let a : Model.Input := .assume (.symbol ⟨"a", .boolean, .free⟩)
    let b : Model.Input := .assume (.symbol ⟨"b", .boolean, .free⟩)
    let ob := Obligation.new ⟨false⟩ twofoldCondition
    ob.openGoals = [("a" : Text), "b"] ∧ (ob.feed a).openGoals = [("b" : Text)] ∧
      ((ob.feed a).feed b).status = .proved ∧
      (((ob.feed a).feed b).feed (.assume .falsehood)).status = .falseAssumption ∧
      ((ob.feed a).feed b).Forward (((ob.feed a).feed b).feed (.assume .falsehood))) ∧
    ∃ p : Prover, Prover.new "M" [Prover.metCondition] Prover.identityLibrary {} = .ok p ∧
      ((p.start {} {}).1.results.map fun r => (r.status, r.steps)) = [(.proved, 1)] ∧
      ∃ r, ((p.start {} {}).2.start {} {}).1.results = [r] ∧ r.status = .proved ∧
        r.steps = 0 := by
  obtain ⟨hforward, hagain, -⟩ := status_forward
  refine ⟨⟨by decide +kernel, by decide +kernel, by decide +kernel, by decide +kernel,
    hforward ⟨false⟩ twofoldCondition _ .new
      [.assume (.symbol ⟨"a", .boolean, .free⟩), .assume (.symbol ⟨"b", .boolean, .free⟩)]
      [.assume .falsehood]⟩, ?_⟩
  have hrun : (Prover.new "M" [Prover.metCondition]
      Prover.identityLibrary {}).toOption.any (fun p =>
        (p.start {} {}).1.results.map (fun r => (r.status, r.steps)) == [(.proved, 1)] &&
          ((p.start {} {}).2.start {} {}).1.results.map Result.skipped == [false]) = true := by
    decide +kernel
  cases hp : Prover.new "M" [Prover.metCondition] Prover.identityLibrary {} with
  | error e => simp [hp, Except.toOption] at hrun
  | ok p =>
    simp only [hp, Except.toOption, Option.any_some, Bool.and_eq_true, beq_iff_eq] at hrun
    obtain ⟨hfirst, hsecond⟩ := hrun
    obtain ⟨r, hr, hsame⟩ := List.map_eq_singleton_iff.mp hfirst
    obtain ⟨r', hr', hattempted⟩ := List.map_eq_singleton_iff.mp hsecond
    have hstatus : r.status = .proved := congrArg Prod.fst hsame
    obtain ⟨u, hu, -, hreport⟩ :=
      hagain p _ {} {} {} {} 0 r (by rw [hr]; rfl) (by rw [hstatus]; rfl) .refl
    obtain rfl : r' = u := by simpa [hr'] using hu
    rw [hstatus] at hreport
    exact ⟨p, rfl, hfirst, r', hr', hreport hattempted⟩

end Discharge.Search
