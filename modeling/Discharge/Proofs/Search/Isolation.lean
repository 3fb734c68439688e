import Discharge.Proofs.Search.Interleaving

namespace Discharge.Search

open Congruence

/-- A course that stands where an attempt does, up to times. -/
structure Course.Mirrors (w : Course) (b : Board) (a : Attempt) : Prop where
  obligation : w.obligation = a.obligation
  active : w.active = a.active
  applied : w.applied = a.applied
  offers : ∀ i, b.offersOf a.obligation.condition.id i = a.offersOf i
  lines : w.lines.map Line.untimed = a.lines.map Line.untimed
  steps : w.steps = a.steps

theorem Course.follow_append (c : Context) (ts us : List Times) (s : Course × Board) :
    follow c (ts ++ us) s = follow c us (follow c ts s) := by
  induction ts generalizing s with
  | nil => rfl
  | cons t rest ih => exact ih _

/-- Whether courses that stand where one attempt does come to stand where another does, after the
same number of steps each. -/
def Leads (c : Context) (a : Attempt) (stage : Stage) (a' : Attempt) (stage' : Stage) : Prop :=
  ∃ n, ∀ (w : Course) (b : Board), w.Mirrors b a → w.stage = stage →
    ∀ times : List Times, times.length = n →
      (Course.follow c times (w, b)).1.Mirrors (Course.follow c times (w, b)).2 a' ∧
        (Course.follow c times (w, b)).1.stage = stage'

section Leading

variable {c : Context} {a a' a'' : Attempt} {stage stage' stage'' : Stage} {r : Ranked}

theorem Leads.refl (c : Context) (a : Attempt) (stage : Stage) : Leads c a stage a stage := by
  refine ⟨0, ?_⟩
  intro w b hw hs times ht
  rw [List.length_eq_zero_iff.mp ht]
  exact ⟨hw, hs⟩

theorem Leads.trans (h : Leads c a stage a' stage') (h' : Leads c a' stage' a'' stage'') :
    Leads c a stage a'' stage'' := by
  obtain ⟨n, hn⟩ := h
  obtain ⟨m, hm⟩ := h'
  refine ⟨n + m, ?_⟩
  intro w b hw hs times ht
  rw [← List.take_append_drop n times, Course.follow_append]
  obtain ⟨hmid, hstage⟩ := hn w b hw hs (times.take n) (by simp; omega)
  exact hm _ _ hmid hstage (times.drop n) (by simp; omega)

theorem Leads.of_step (h : ∀ (w : Course) (b : Board) (times : Times), w.Mirrors b a →
    w.stage = stage → (w.step c times b).1.Mirrors (w.step c times b).2 a' ∧
      (w.step c times b).1.stage = stage') : Leads c a stage a' stage' := by
  refine ⟨1, ?_⟩
  intro w b hw hs times ht
  obtain ⟨t, rfl⟩ := List.length_eq_one_iff.mp ht
  exact h w b t hw hs

theorem Leads.congr {d : Attempt} (h : Leads c a stage a' stage')
    (he : ∃ considered backtracks looks stopped,
      d = { a' with considered, backtracks, looks, stopped }) : Leads c a stage d stage' := by
  obtain ⟨considered, backtracks, looks, stopped, rfl⟩ := he
  obtain ⟨n, hn⟩ := h
  refine ⟨n, fun w b hw hs times ht => ?_⟩
  obtain ⟨h, hstage⟩ := hn w b hw hs times ht
  exact ⟨⟨h.obligation, h.active, h.applied, h.offers, h.lines, h.steps⟩, hstage⟩

def Stage.afterRound (round chosen : Nat) : Stage :=
  if chosen = 0 then .finished else .resting (round + 1)

section Steps

variable {round chosen : Nat} {rest : List Ranked}

theorem Course.Mirrors.id_eq {w : Course} {b : Board} (h : w.Mirrors b a) :
    w.id = a.obligation.condition.id := by
  rw [Course.id, h.obligation]

theorem Course.Mirrors.queue_eq {w : Course} {b : Board} (h : w.Mirrors b a) (c : Context) :
    w.queue c = a.queue c := by
  unfold Course.queue Attempt.queue Course.appliedOf Attempt.appliedOf
  rw [h.obligation, h.active, h.applied]

theorem leads_over (hs : a.obligation.status ≠ .evaluating) :
    Leads c a (.resting round) a .finished := by
  refine .of_step fun w b times hw hstage => ?_
  have hstep : w.step c times b = ({ w with stage := .finished }, b) := by
    simp [Course.step, hstage, hw.obligation, hs]
  rw [hstep]
  exact ⟨⟨hw.obligation, hw.active, hw.applied, hw.offers, hw.lines, hw.steps⟩, rfl⟩

theorem leads_trying (hs : a.obligation.status = .evaluating) :
    Leads c a (.resting round) a (.trying round 0 (a.queue c)) := by
  refine .of_step fun w b times hw hstage => ?_
  have hstep : w.step c times b = ({ w with stage := .trying round 0 (a.queue c) }, b) := by
    simp [Course.step, hstage, hw.obligation, hs, hw.queue_eq c]
  rw [hstep]
  exact ⟨⟨hw.obligation, hw.active, hw.applied, hw.offers, hw.lines, hw.steps⟩, rfl⟩

theorem leads_endRound_nil : Leads c a (.trying round chosen []) a (.afterRound round chosen) := by
  refine .of_step fun w b times hw hstage => ?_
  have hstep : w.step c times b = (w.endRound round chosen, b) := by
    simp [Course.step, hstage]
  rw [hstep]
  exact ⟨⟨hw.obligation, hw.active, hw.applied, hw.offers, hw.lines, hw.steps⟩, rfl⟩

theorem leads_endRound (hs : a.endsRound chosen r = true) :
    Leads c a (.trying round chosen (r :: rest)) a (.afterRound round chosen) := by
  refine .of_step fun w b times hw hstage => ?_
  have hstep : w.step c times b = (w.endRound round chosen, b) := by
    rw [Attempt.endsRound] at hs
    rw [Course.step, hstage]
    dsimp only
    rw [hw.obligation, if_pos hs]
  rw [hstep]
  exact ⟨⟨hw.obligation, hw.active, hw.applied, hw.offers, hw.lines, hw.steps⟩, rfl⟩

theorem leads_offered (hs : ¬ a.endsRound chosen r = true)
    (hreach : c.control.reach a.looks = .all) :
    Leads c a (.trying round chosen (r :: rest)) (a.offered c r)
      (.drawing round chosen rest r false) := by
  refine .of_step fun w b times hw hstage => ?_
  have hid := hw.id_eq
  rw [Attempt.endsRound] at hs
  rw [Course.step, hstage]
  dsimp only
  rw [hw.obligation, if_neg hs]
  refine ⟨⟨rfl, hw.active, ?_, ?_, hw.lines, hw.steps⟩, rfl⟩
  · unfold Course.appliedOf
    rw [hw.applied]
    rfl
  · intro i
    rw [hid, Attempt.offersOf_offered, hreach]
    refine (Board.offersOf_post _ _ _).trans ?_
    rw [hw.offers, hw.offers]

theorem leads_vain {again : Bool} (line : Line) (times : Times) (hd : (a.draw r).1 = none)
    (hline : line.untimed = (Course.vainLine r again times).untimed) :
    Leads c a (.drawing round chosen rest r again) ((a.draw r).2.backtrack line)
      (.trying round chosen rest) := by
  refine .of_step fun w b times' hw hstage => ?_
  have hid := hw.id_eq
  have hnext : r.rule.next w.obligation.model (b.offersOf w.id r.position) =
      (none, (r.rule.next a.obligation.model (a.offersOf r.position)).2) := by
    rw [hid, hw.offers, hw.obligation]
    exact Prod.ext hd rfl
  rw [Course.step, hstage]
  dsimp only
  rw [hnext]
  refine ⟨⟨hw.obligation, hw.active, hw.applied, ?_, ?_, hw.steps⟩, rfl⟩
  · intro i
    rw [hid]
    refine (Board.offersOf_post _ _ _).trans ?_
    rw [hw.offers]
    exact (a.offersOf_draw r i).symm
  · have hsame : (Course.vainLine r again times').untimed = line.untimed := by
      rw [hline]
      cases again <;> rfl
    simp [Attempt.backtrack, Attempt.write, Attempt.draw, hw.lines, hsame]

theorem leads_drawn {again : Bool} {t : Candidate} (hd : (a.draw r).1 = some t) :
    Leads c a (.drawing round chosen rest r again) ((a.draw r).2.retire r)
      (.inserting round chosen rest r t) := by
  refine .of_step fun w b times hw hstage => ?_
  have hid := hw.id_eq
  have hnext : r.rule.next w.obligation.model (b.offersOf w.id r.position) =
      (some t, (r.rule.next a.obligation.model (a.offersOf r.position)).2) := by
    rw [hid, hw.offers, hw.obligation]
    exact Prod.ext hd rfl
  have hoffers : ∀ i, Board.offersOf (b.post w.id r.position
      (r.rule.next a.obligation.model (a.offersOf r.position)).2) a.obligation.condition.id i =
      (a.draw r).2.offersOf i := by
    intro i
    rw [hid]
    refine (Board.offersOf_post _ _ _).trans ?_
    rw [hw.offers]
    exact (a.offersOf_draw r i).symm
  rw [Course.step, hstage]
  dsimp only
  rw [hnext]
  unfold Attempt.retire
  cases r.rule.isGround with
  | true =>
    refine ⟨⟨hw.obligation, ?_, hw.applied, hoffers, hw.lines, hw.steps⟩, rfl⟩
    exact congrArg (List.filter (· != r.position)) hw.active
  | false => exact ⟨⟨hw.obligation, hw.active, hw.applied, hoffers, hw.lines, hw.steps⟩, rfl⟩

theorem leads_inserted {t : Candidate} (he : (a.obligation.assume t.term).1.isEmpty = true) :
    Leads c a (.inserting round chosen rest r t) (a.insert t).2
      (.drawing round chosen rest r true) := by
  refine .of_step fun w b times hw hstage => ?_
  have hassume : w.obligation.assume t.term = a.obligation.assume t.term := by rw [hw.obligation]
  rw [Course.step, hstage]
  dsimp only
  rw [hassume, if_pos he]
  exact ⟨⟨rfl, hw.active, hw.applied, hw.offers, hw.lines, hw.steps⟩, rfl⟩

theorem leads_recorded {t : Candidate} (he : ¬ (a.obligation.assume t.term).1.isEmpty = true)
    (p : Attempt.Progress) (selected : Nat) :
    Leads c a (.inserting p.round p.chosen rest r t)
      ((a.insert t).2.record c p r selected t (a.insert t).1)
      (.trying p.round (p.chosen + 1) rest) := by
  refine .of_step fun w b times hw hstage => ?_
  have hassume : w.obligation.assume t.term = a.obligation.assume t.term := by rw [hw.obligation]
  rw [Course.step, hstage]
  dsimp only
  rw [hassume, if_neg he]
  unfold Attempt.record Course.record
  cases c.printEachStep with
  | true =>
    refine ⟨⟨rfl, hw.active, hw.applied, hw.offers, ?_, ?_⟩, rfl⟩
    · simp [Attempt.write, Attempt.insert, Line.untimed, hw.lines]
    · simp [Attempt.write, Attempt.insert, hw.steps]
  | false =>
    refine ⟨⟨rfl, hw.active, hw.applied, hw.offers, ?_, ?_⟩, rfl⟩
    · simp [Attempt.write, Attempt.insert, Line.untimed, hw.lines]
    · simp [Attempt.write, Attempt.insert, hw.steps]

end Steps

section Searching

open Attempt

variable {b : Attempt} {p : Attempt.Progress} {rest : List Ranked}

theorem leads_look (c : Context) (a : Attempt) (stage : Stage) :
    Leads c a stage (a.look c).2 stage := (Leads.refl c a stage).congr ⟨_, _, _, _, rfl⟩

theorem leads_looked {t : Candidate} (h : (a.insert t).1.isEmpty = true) (p : Attempt.Progress)
    (rest : List Ranked) : Leads c a (.inserting p.round p.chosen rest r t) (a.looked c t).2
      (.drawing p.round p.chosen rest r true) := (leads_inserted h).congr ⟨_, _, _, _, rfl⟩

theorem Attempt.Insertions.leads {t : Candidate} {out : Option (Candidate × Change)}
    (h : Insertions c r t a out b) (p : Attempt.Progress) (rest : List Ranked)
    (hgo : b.stopped = false) :
    (∀ t' change selected, out = some (t', change) →
      Leads c a (.inserting p.round p.chosen rest r t) (b.record c p r selected t' change)
        (.trying p.round (p.chosen + 1) rest)) ∧
      (out = none → ∀ line : Line, line.untimed = (Course.vainLine r true {}).untimed →
        Leads c a (.inserting p.round p.chosen rest r t) (b.backtrack line)
          (.trying p.round p.chosen rest)) := by
  induction h with
  | fresh hnew =>
    refine ⟨?_, fun h => (Option.some_ne_none _ h).elim⟩
    intro t' change selected hsome
    cases hsome
    exact leads_recorded (Bool.not_eq_true _ ▸ hnew) p selected
  | late _ hlook => cases (stopped_of_look hlook).symm.trans hgo
  | vain hsame _ hdraw =>
    refine ⟨fun _ _ _ h => (Option.some_ne_none _ h.symm).elim, fun _ line hline => ?_⟩
    exact (leads_looked hsame p rest).trans (leads_vain line {} hdraw hline)
  | again hsame _ hopen hdraw _ ih =>
    have hdrawn := (leads_looked (c := c) hsame p rest).trans (leads_drawn hdraw)
    rw [retire, if_neg (by simp [hopen])] at hdrawn
    obtain ⟨hstep, hvain⟩ := ih hgo
    exact ⟨fun t' change selected h => hdrawn.trans (hstep t' change selected h),
      fun h line hline => hdrawn.trans (hvain h line hline)⟩

def Attempt.Progress.after (p : Attempt.Progress) (made : Bool) : Nat :=
  if made then p.chosen + 1 else p.chosen

theorem Attempt.Trial.leads {made : Bool} (h : Trial c p r a made b) (rest : List Ranked)
    (hopen : ¬ a.endsRound p.chosen r = true) (hgo : b.stopped = false) :
    Leads c a (.trying p.round p.chosen (r :: rest)) b (.trying p.round (p.after made) rest) := by
  have hoffered : Leads c a (.trying p.round p.chosen (r :: rest)) (a.offered c r)
      (.drawing p.round p.chosen rest r false) :=
    leads_offered hopen (h.reach_eq hgo)
  cases h with
  | noMatch hdraw => exact hoffered.trans (leads_vain _ {} hdraw rfl)
  | emptied hdraw h =>
    exact (hoffered.trans (leads_drawn hdraw)).trans ((h.leads p rest hgo).2 rfl _ rfl)
  | @step t t' change d hdraw h =>
    have hgo' := (proceeds_record d c p r a.looks t' change).stopped hgo
    exact (hoffered.trans (leads_drawn hdraw)).trans
      ((h.leads p rest hgo').1 t' change a.looks rfl)

theorem Attempt.Round.leads {rs : List Ranked} {n : Nat} (h : Round c p rs a n b)
    (hgo : b.stopped = false) :
    Leads c a (.trying p.round p.chosen rs) b (.afterRound p.round n) := by
  induction h with
  | nil => exact leads_endRound_nil
  | ended hover => exact leads_endRound hover
  | late _ hlook => cases (stopped_of_look hlook).symm.trans hgo
  | @made _ _ rest _ _ _ _ hopen _ hfirst hrest ih =>
    have htried := hfirst.leads rest hopen (hrest.proceeds.stopped hgo)
    exact ((leads_look c _ _).trans htried).trans (ih hgo)
  | @vain _ _ rest _ _ _ _ hopen _ hfirst hrest ih =>
    have htried := hfirst.leads rest hopen (hrest.proceeds.stopped hgo)
    exact ((leads_look c _ _).trans htried).trans (ih hgo)

theorem Attempt.Rounds.leads {round : Nat} (h : Rounds c round a b) (hgo : b.stopped = false) :
    Leads c a (.resting round) b .finished := by
  induction h with
  | decided hdecided => exact leads_over hdecided
  | late _ hlook => cases (stopped_of_look hlook).symm.trans hgo
  | @idle round a _ hopen _ hround =>
    have hbegun := (leads_look c a (.resting round)).trans (leads_trying hopen)
    exact hbegun.trans (hround.leads hgo)
  | @next round _ a _ _ hopen _ hround hrest ih =>
    have hbegun := (leads_look c a (.resting round)).trans (leads_trying hopen)
    exact (hbegun.trans (hround.leads (hrest.proceeds.stopped hgo))).trans (ih hgo)

end Searching

end Leading

end Discharge.Search
