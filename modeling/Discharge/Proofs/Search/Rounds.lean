import Discharge.Proofs.Congruence.Classes
import Discharge.Search.Attempt
import Discharge.Proofs.Search.Matches

/-!
What the loops of a search do. Candidates of a rule are inserted until one is new, ranked rules are
tried in turn for a round, and a round that made a step is followed by another. Each loop is told by
a relation with one case for every way to end and to go on, so that what holds of a search follows
by induction on these. That the fuel is used up is no case, because it never is.
-/

namespace Discharge.Search

open Congruence

namespace Rule

variable {r : Rule} {o : Offers}

/-- Offers that are passed over are taken, and fewer are left once one becomes a candidate. -/
theorem draw_frame (m : Model) (pending : List Offer) (taken : List Text) :
    taken ⊆ (r.draw m pending taken).2.2 ∧
      (∀ f ∈ pending, f.key ∈ (r.draw m pending taken).2.2 ∨ f ∈ (r.draw m pending taken).2.1) ∧
      ((r.draw m pending taken).1 = none → (r.draw m pending taken).2.1 = []) ∧
      ((r.draw m pending taken).1 ≠ none →
        (r.draw m pending taken).2.1.length < pending.length) := by
  induction pending generalizing taken with
  | nil => simp [draw]
  | cons f rest ih =>
    unfold draw
    dsimp only
    split
    · obtain ⟨hsub, hcover, hnone, hsome⟩ := ih (f.key :: taken)
      obtain ⟨hkey, hsub⟩ := List.cons_subset.mp hsub
      refine ⟨hsub, List.forall_mem_cons.mpr ⟨.inl hkey, hcover⟩, hnone, ?_⟩
      intro hne
      exact Nat.lt_succ_of_lt (hsome hne)
    · refine ⟨List.subset_cons_self _ _, ?_, fun h => (Option.some_ne_none _ h).elim,
        fun _ => Nat.lt_succ_self _⟩
      exact List.forall_mem_cons.mpr ⟨.inl List.mem_cons_self, fun g hg => .inr hg⟩

def left (r : Rule) (o : Offers) : Nat :=
  if r.isGround then (if o.used then 0 else 1) else o.pending.length

theorem left_lt (h : r.isGround = true → o.used = true) : r.left o < o.pending.length + 1 := by
  unfold left
  split
  · rename_i hground
    rw [h hground]
    exact Nat.succ_pos _
  · exact Nat.lt_succ_self _

theorem left_next (m : Model) (o : Offers) :
    ((r.next m o).1 = none → r.left (r.next m o).2 = 0) ∧
      ((r.next m o).1 ≠ none → r.left (r.next m o).2 < r.left o) := by
  unfold next left
  split
  · split
    · simp
    · simp
  · obtain ⟨-, -, hnone, hsome⟩ := r.draw_frame m o.pending o.taken
    exact ⟨fun h => by simp [hnone h], hsome⟩

theorem used_next (m : Model) (o : Offers) :
    (o.used = true → (r.next m o).2.used = true) ∧
      (r.isGround = true → (r.next m o).2.used = true ∧
        (o.used = true ∨ (r.next m o).1.map Candidate.term = some r.insert)) := by
  unfold next
  split
  · split
    · rename_i hused
      exact ⟨fun h => h, fun _ => ⟨hused, .inl hused⟩⟩
    · exact ⟨fun _ => rfl, fun _ => ⟨rfl, .inr rfl⟩⟩
  · rename_i hground
    exact ⟨fun h => h, fun h => (hground h).elim⟩

end Rule

namespace Attempt

variable {a b d : Attempt} {c : Context} {r : Ranked} {p : Progress}

section Parts

theorem offersOf_insert (a : Attempt) (i j : Nat) (o : Offers) :
    offersOf { a with offers := a.offers.insert i o } j = if i = j then o else a.offersOf j := by
  unfold offersOf
  dsimp only
  rw [getElem?_insert]
  split
  · rfl
  · rfl

theorem offersOf_draw (a : Attempt) (r : Ranked) (i : Nat) : (a.draw r).2.offersOf i =
    if r.position = i then (r.rule.next a.obligation.model (a.offersOf r.position)).2
    else a.offersOf i := a.offersOf_insert r.position i _

theorem offersOf_draw_self (a : Attempt) (r : Ranked) : (a.draw r).2.offersOf r.position =
    (r.rule.next a.obligation.model (a.offersOf r.position)).2 := by
  rw [offersOf_draw, if_pos rfl]

def offered (a : Attempt) (c : Context) (r : Ranked) : Attempt :=
  { a with
    applied := a.applied.insert r.rule.name (a.appliedOf r.rule.name + 1)
    offers := a.offers.insert r.position
      (r.rule.offer a.obligation (c.control.reach a.looks) (a.offersOf r.position)).2
    stopped := a.stopped || c.control.reach a.looks != Reach.all }

theorem choose_eq (a : Attempt) (c : Context) (r : Ranked) :
    a.choose c r = (a.offered c r).draw r := rfl

theorem offersOf_offered (a : Attempt) (c : Context) (r : Ranked) (i : Nat) :
    (a.offered c r).offersOf i = if r.position = i then
      (r.rule.offer a.obligation (c.control.reach a.looks) (a.offersOf r.position)).2
    else a.offersOf i :=
  offersOf_insert a r.position i _

theorem offersOf_offered_self (a : Attempt) (c : Context) (r : Ranked) :
    (a.offered c r).offersOf r.position =
      (r.rule.offer a.obligation (c.control.reach a.looks) (a.offersOf r.position)).2 := by
  rw [offersOf_offered, if_pos rfl]

theorem retire_eq (a : Attempt) (r : Ranked) : ∃ active, a.retire r = { a with active } := by
  unfold retire
  split
  · exact ⟨_, rfl⟩
  · exact ⟨_, rfl⟩

theorem offersOf_retire (a : Attempt) (r : Ranked) (i : Nat) :
    (a.retire r).offersOf i = a.offersOf i := by
  obtain ⟨active, h⟩ := a.retire_eq r
  rw [h]
  rfl

theorem record_eq (a : Attempt) (c : Context) (p : Progress) (r : Ranked) (selected : Nat)
    (t : Candidate) (change : Change) : ∃ lines, a.record c p r selected t change =
      { a with lines, steps := a.steps ++ [⟨r.rule.name, t.term.render⟩] } := by
  unfold record
  dsimp only
  split
  · exact ⟨_, rfl⟩
  · exact ⟨_, rfl⟩

theorem used_draw (a : Attempt) (hground : r.rule.isGround = true) :
    ((a.draw r).2.offersOf r.position).used = true := by
  rw [offersOf_draw_self]
  exact ((Rule.used_next _ _).2 hground).1

theorem draw_of_used (hground : r.rule.isGround = true)
    (hused : (a.offersOf r.position).used = true) : (a.draw r).1 = none := by
  simp [draw, Rule.next, hground, hused]

def looked (a : Attempt) (c : Context) (t : Candidate) : Bool × Attempt := (a.insert t).2.look c

/-- Whether a round ends before a rule is tried: the obligation is decided, or a step was made and
the rule ranks too low for another. -/
def endsRound (a : Attempt) (chosen : Nat) (r : Ranked) : Bool :=
  a.obligation.status != .evaluating || (chosen ≥ 1 && r.score > 1)

theorem getElem?_of_mem_queue (h : r ∈ a.queue c) : c.rules[r.position]? = some r.rule := by
  unfold queue ranking at h
  obtain ⟨⟨i, rule⟩, hmem, rfl⟩ := List.mem_map.mp (List.mem_mergeSort.mp h)
  obtain ⟨j, -, hj⟩ := List.mem_filterMap.mp hmem
  obtain ⟨rule', hrule, he⟩ := Option.map_eq_some_iff.mp hj
  cases he
  exact hrule

theorem mem_rules_of_mem_queue (h : r ∈ a.queue c) : r.rule ∈ c.rules :=
  Array.mem_of_getElem? (getElem?_of_mem_queue h)

theorem exists_mem_queue {i : Nat} {r : Rule} (hr : c.rules[i]? = some r) (hi : i ∈ a.active) :
    ∃ q ∈ a.queue c, q.rule = r := by
  have hmem : (i, r) ∈ a.active.filterMap fun i => (c.rules[i]?).map fun r => (i, r) :=
    List.mem_filterMap.mpr ⟨i, hi, by rw [hr]; rfl⟩
  exact ⟨_, List.mem_mergeSort.mpr (List.mem_map_of_mem hmem), rfl⟩

end Parts

section Loops

/-- How the candidates of a rule are inserted, from one that was taken. -/
inductive Insertions (c : Context) (r : Ranked) :
    Candidate → Attempt → Option (Candidate × Change) → Attempt → Prop where
  | fresh {t : Candidate} {a : Attempt} (h : (a.insert t).1.isEmpty = false) :
      Insertions c r t a (some (t, (a.insert t).1)) (a.insert t).2
  | late {t : Candidate} {a : Attempt} (h : (a.insert t).1.isEmpty = true)
      (hlook : (a.looked c t).1 = false) : Insertions c r t a none (a.looked c t).2
  | vain {t : Candidate} {a : Attempt} (h : (a.insert t).1.isEmpty = true)
      (hlook : (a.looked c t).1 = true) (hdraw : ((a.looked c t).2.draw r).1 = none) :
      Insertions c r t a none ((a.looked c t).2.draw r).2
  | again {t next : Candidate} {a b : Attempt} {found : Option (Candidate × Change)}
      (h : (a.insert t).1.isEmpty = true) (hlook : (a.looked c t).1 = true)
      (hopen : r.rule.isGround = false) (hdraw : ((a.looked c t).2.draw r).1 = some next)
      (hrest : Insertions c r next ((a.looked c t).2.draw r).2 found b) :
      Insertions c r t a found b

inductive Trial (c : Context) (p : Progress) (r : Ranked) (a : Attempt) :
    Bool → Attempt → Prop where
  | noMatch (hdraw : ((a.offered c r).draw r).1 = none) :
      Trial c p r a false (((a.offered c r).draw r).2.backtrack
        (.noMatch r.rule.name (milliseconds (((a.offered c r).draw r).2.looks - a.looks))))
  | emptied {t : Candidate} {b : Attempt} (hdraw : ((a.offered c r).draw r).1 = some t)
      (h : Insertions c r t (((a.offered c r).draw r).2.retire r) none b) :
      Trial c p r a false (b.backtrack (.emptied r.rule.name (milliseconds (b.looks - a.looks))))
  | step {t t' : Candidate} {change : Change} {b : Attempt}
      (hdraw : ((a.offered c r).draw r).1 = some t)
      (h : Insertions c r t (((a.offered c r).draw r).2.retire r) (some (t', change)) b) :
      Trial c p r a true (b.record c p r a.looks t' change)

/-- How rules are tried in turn for a round, and how many made a step. -/
inductive Round (c : Context) : Progress → List Ranked → Attempt → Nat → Attempt → Prop where
  | nil {p : Progress} {a : Attempt} : Round c p [] a p.chosen a
  | ended {p : Progress} {r : Ranked} {rest : List Ranked} {a : Attempt}
      (h : a.endsRound p.chosen r = true) : Round c p (r :: rest) a p.chosen a
  | late {p : Progress} {r : Ranked} {rest : List Ranked} {a : Attempt}
      (h : ¬ a.endsRound p.chosen r = true) (hlook : (a.look c).1 = false) :
      Round c p (r :: rest) a p.chosen (a.look c).2
  | made {p : Progress} {r : Ranked} {rest : List Ranked} {a b d : Attempt} {n : Nat}
      (h : ¬ a.endsRound p.chosen r = true)
      (hlook : (a.look c).1 = true) (hfirst : Trial c p r (a.look c).2 true b)
      (hrest : Round c { p with chosen := p.chosen + 1 } rest b n d) :
      Round c p (r :: rest) a n d
  | vain {p : Progress} {r : Ranked} {rest : List Ranked} {a b d : Attempt} {n : Nat}
      (h : ¬ a.endsRound p.chosen r = true)
      (hlook : (a.look c).1 = true) (hfirst : Trial c p r (a.look c).2 false b)
      (hrest : Round c p rest b n d) : Round c p (r :: rest) a n d

inductive Rounds (c : Context) : Nat → Attempt → Attempt → Prop where
  | decided {round : Nat} {a : Attempt} (h : a.obligation.status ≠ .evaluating) :
      Rounds c round a a
  | late {round : Nat} {a : Attempt} (h : a.obligation.status = .evaluating)
      (hlook : (a.look c).1 = false) : Rounds c round a (a.look c).2
  | idle {round : Nat} {a b : Attempt} (h : a.obligation.status = .evaluating)
      (hlook : (a.look c).1 = true)
      (hround : Round c ⟨round, 0, (a.look c).2.looks⟩ ((a.look c).2.queue c) (a.look c).2 0 b) :
      Rounds c round a b
  | next {round n : Nat} {a b d : Attempt} (h : a.obligation.status = .evaluating)
      (hlook : (a.look c).1 = true)
      (hround : Round c ⟨round, 0, (a.look c).2.looks⟩ ((a.look c).2.queue c) (a.look c).2
        (n + 1) b)
      (hrest : Rounds c (round + 1) b d) : Rounds c round a d

end Loops

section Looking

/-- What every part of a search keeps: looks are counted, and that a search had to stop is not
forgotten. -/
structure Proceeds (a b : Attempt) : Prop where
  stopped : b.stopped = false → a.stopped = false
  looks_le : a.looks ≤ b.looks

theorem Proceeds.of_eq (hlooks : b.looks = a.looks) (hstopped : b.stopped = a.stopped) :
    Proceeds a b :=
  ⟨fun h => hstopped ▸ h, by rw [hlooks]⟩

theorem Proceeds.trans (h : Proceeds a b) (h' : Proceeds b d) : Proceeds a d where
  stopped hd := h.stopped (h'.stopped hd)
  looks_le := h.looks_le.trans h'.looks_le

theorem proceeds_look (c : Context) (a : Attempt) : Proceeds a (a.look c).2 :=
  ⟨fun h => (Bool.or_eq_false_iff.mp h).1, Nat.le_succ _⟩

theorem proceeds_looked (c : Context) (a : Attempt) (t : Candidate) :
    Proceeds a (a.looked c t).2 := ⟨fun h => (Bool.or_eq_false_iff.mp h).1, Nat.le_succ _⟩

theorem proceeds_offered (c : Context) (a : Attempt) (r : Ranked) : Proceeds a (a.offered c r) :=
  ⟨fun h => (Bool.or_eq_false_iff.mp h).1, Nat.le_refl _⟩

theorem proceeds_draw (a : Attempt) (r : Ranked) : Proceeds a (a.draw r).2 := .of_eq rfl rfl

theorem proceeds_retire (a : Attempt) (r : Ranked) : Proceeds a (a.retire r) := by
  obtain ⟨active, h⟩ := a.retire_eq r
  rw [h]
  exact .of_eq rfl rfl

theorem proceeds_record (a : Attempt) (c : Context) (p : Progress) (r : Ranked) (selected : Nat)
    (t : Candidate) (change : Change) : Proceeds a (a.record c p r selected t change) := by
  obtain ⟨lines, h⟩ := a.record_eq c p r selected t change
  rw [h]
  exact .of_eq rfl rfl

theorem stopped_of_look (h : (a.look c).1 = false) : (a.look c).2.stopped = true := by
  change (a.stopped || !(a.look c).1) = true
  rw [h]
  simp

theorem looks_lt_of_look (h : (a.look c).1 = true) : a.looks < c.control.patience := by
  simp only [look, Control.isRunning, Bool.and_eq_true, decide_eq_true_eq] at h
  exact h.1

theorem Insertions.proceeds {t : Candidate} {found : Option (Candidate × Change)}
    (h : Insertions c r t a found b) : Proceeds a b := by
  induction h with
  | fresh => exact .of_eq rfl rfl
  | late => exact proceeds_looked c _ _
  | vain => exact (proceeds_looked c _ _).trans (proceeds_draw _ r)
  | again _ _ _ _ _ ih => exact ((proceeds_looked c _ _).trans (proceeds_draw _ r)).trans ih

theorem Trial.proceeds_from_offered {made : Bool} (h : Trial c p r a made b) :
    Proceeds (a.offered c r) b := by
  have hretire := (proceeds_draw (a.offered c r) r).trans (proceeds_retire _ r)
  cases h with
  | noMatch => exact .of_eq rfl rfl
  | emptied _ h => exact (hretire.trans h.proceeds).trans (.of_eq rfl rfl)
  | step _ h => exact (hretire.trans h.proceeds).trans (proceeds_record _ _ _ _ _ _ _)

theorem Trial.proceeds {made : Bool} (h : Trial c p r a made b) : Proceeds a b :=
  (proceeds_offered c a r).trans h.proceeds_from_offered

/-- A match had the time for all facts if the search was not stopped. -/
theorem Trial.reach_eq {made : Bool} (h : Trial c p r a made b) (hgo : b.stopped = false) :
    c.control.reach a.looks = .all := by
  have hoffered : (a.offered c r).stopped = false := h.proceeds_from_offered.stopped hgo
  simpa using (Bool.or_eq_false_iff.mp hoffered).2

theorem Round.proceeds {rs : List Ranked} {n : Nat} (h : Round c p rs a n b) : Proceeds a b := by
  induction h with
  | nil => exact .of_eq rfl rfl
  | ended => exact .of_eq rfl rfl
  | late => exact proceeds_look c _
  | made _ _ hfirst _ ih => exact ((proceeds_look c _).trans hfirst.proceeds).trans ih
  | vain _ _ hfirst _ ih => exact ((proceeds_look c _).trans hfirst.proceeds).trans ih

theorem Rounds.proceeds {round : Nat} (h : Rounds c round a b) : Proceeds a b := by
  induction h with
  | decided => exact .of_eq rfl rfl
  | late => exact proceeds_look c _
  | idle _ _ hround => exact (proceeds_look c _).trans hround.proceeds
  | next _ _ hround _ ih => exact ((proceeds_look c _).trans hround.proceeds).trans ih

end Looking

section Running

@[simp] theorem moves_attempt : (moves c).attempt a = a := rfl

@[simp] theorem moves_put : (moves c).put a b = b := rfl

@[simp] theorem moves_status : (moves c).status a = a.obligation.status := rfl

@[simp] theorem moves_queue : (moves c).queue a = a.queue c := rfl

@[simp] theorem moves_choose : (moves c).choose r a = a.choose c r := rfl

@[simp] theorem moves_draw : (moves c).draw r a = a.draw r := rfl

@[simp] theorem moves_insert (t : Candidate) : (moves c).insert r t a = a.insert t := rfl

@[simp] theorem moves_giveUp (l : Line) : (moves c).giveUp r l a = a.backtrack l := rfl

@[simp] theorem moves_record (selected : Nat) (t : Candidate) (change : Change) :
    (moves c).record p r selected t change a = a.record c p r selected t change := rfl

def pursue (c : Context) (r : Ranked) (fuel : Nat) (t : Candidate) (a : Attempt) :
    Option (Candidate × Change) × Attempt :=
  (moves c).pursue c r fuel t a

def tryRule (c : Context) (p : Progress) (r : Ranked) (a : Attempt) : Bool × Attempt :=
  (moves c).tryRule c p r a

def tryRules (c : Context) (p : Progress) (rs : List Ranked) (a : Attempt) : Nat × Attempt :=
  (moves c).tryRules c p rs a

def rounds (c : Context) (fuel round : Nat) (a : Attempt) : Attempt :=
  (moves c).rounds c fuel round a

theorem insertions_pursue (fuel : Nat) {t : Candidate}
    (hused : r.rule.isGround = true → (a.offersOf r.position).used = true)
    (hleft : r.rule.left (a.offersOf r.position) < fuel) :
    Insertions c r t a (pursue c r fuel t a).1 (pursue c r fuel t a).2 := by
  induction fuel generalizing a t with
  | zero => omega
  | succ fuel ih =>
    unfold pursue Moves.pursue
    dsimp only [moves_attempt, moves_put, moves_insert, moves_draw, Moves.look, bind, pure]
    split
    · rename_i hnew
      exact .fresh (by simpa using hnew)
    · rename_i hold
      have hsame : (a.insert t).1.isEmpty = true := by simpa using hold
      split
      · rename_i hlate
        exact .late hsame (by simpa [looked] using hlate)
      · rename_i hgo
        have hrunning : (a.looked c t).1 = true := by simpa [looked] using hgo
        split
        · rename_i b hb
          obtain rfl : ((a.looked c t).2.draw r).2 = b := congrArg Prod.snd hb
          exact .vain hsame hrunning (congrArg Prod.fst hb)
        · rename_i next b hb
          obtain rfl : ((a.looked c t).2.draw r).2 = b := congrArg Prod.snd hb
          have hdraw : ((a.looked c t).2.draw r).1 = some next := congrArg Prod.fst hb
          have hopen : ¬ r.rule.isGround = true := by
            intro hground
            have hnone := draw_of_used (a := (a.looked c t).2) hground (hused hground)
            cases hdraw.symm.trans hnone
          have hfewer := (Rule.left_next (r := r.rule) (a.looked c t).2.obligation.model
            ((a.looked c t).2.offersOf r.position)).2 (fun hnone => by
              cases hdraw.symm.trans hnone)
          rw [← offersOf_draw_self] at hfewer
          exact .again hsame hrunning (Bool.not_eq_true _ ▸ hopen) hdraw
            (ih (fun hground => (hopen hground).elim)
              (Nat.lt_of_lt_of_le hfewer (Nat.le_of_lt_succ hleft)))

theorem trial_tryRule (c : Context) (p : Progress) (r : Ranked) (a : Attempt) :
    Trial c p r a (tryRule c p r a).1 (tryRule c p r a).2 := by
  unfold tryRule Moves.tryRule
  dsimp only [moves_attempt, moves_put, moves_choose, moves_giveUp, moves_record, bind, pure]
  rw [choose_eq]
  split
  · rename_i b hb
    obtain rfl : ((a.offered c r).draw r).2 = b := congrArg Prod.snd hb
    exact .noMatch (congrArg Prod.fst hb)
  · rename_i t b hb
    obtain rfl : ((a.offered c r).draw r).2 = b := congrArg Prod.snd hb
    have hdraw : ((a.offered c r).draw r).1 = some t := congrArg Prod.fst hb
    have hused : r.rule.isGround = true →
        ((((a.offered c r).draw r).2.retire r).offersOf r.position).used = true := by
      rw [offersOf_retire]
      exact used_draw (a.offered c r)
    have hinserted := insertions_pursue (c := c) (t := t) _ hused (Rule.left_lt hused)
    split
    · rename_i d hd
      replace hd : pursue c r _ t _ = (none, d) := hd
      rw [hd] at hinserted
      exact .emptied hdraw hinserted
    · rename_i t' change d hd
      replace hd : pursue c r _ t _ = (some (t', change), d) := hd
      rw [hd] at hinserted
      exact .step hdraw hinserted

theorem round_tryRules (c : Context) (p : Progress) (rs : List Ranked) (a : Attempt) :
    Round c p rs a (tryRules c p rs a).1 (tryRules c p rs a).2 := by
  induction rs generalizing a p with
  | nil => exact .nil
  | cons r rest ih =>
    unfold tryRules Moves.tryRules
    dsimp only [moves_attempt, moves_put, moves_status, Moves.look, bind, pure]
    split
    · rename_i hover
      exact .ended hover
    · rename_i hopen
      split
      · rename_i b hb
        obtain rfl : (a.look c).2 = b := congrArg Prod.snd hb
        exact .late hopen (congrArg Prod.fst hb)
      · rename_i b hb
        obtain rfl : (a.look c).2 = b := congrArg Prod.snd hb
        have hrunning : (a.look c).1 = true := congrArg Prod.fst hb
        have htried := trial_tryRule c p r (a.look c).2
        split
        · rename_i d hd
          replace hd : tryRule c p r _ = (true, d) := hd
          rw [hd] at htried
          exact .made hopen hrunning htried (ih _ d)
        · rename_i d hd
          replace hd : tryRule c p r _ = (false, d) := hd
          rw [hd] at htried
          exact .vain hopen hrunning htried (ih _ d)

/-- Each round takes a look, so that the looks are used up before the fuel is. -/
theorem rounds_rounds (fuel round : Nat) (h : 0 < fuel)
    (hfuel : c.control.patience < a.looks + fuel) :
    Rounds c round a (rounds c fuel round a) := by
  induction fuel generalizing a round with
  | zero => omega
  | succ fuel ih =>
    unfold rounds Moves.rounds
    dsimp only [moves_attempt, moves_put, moves_status, moves_queue, Moves.look, bind, pure]
    split
    · rename_i hdecided
      exact .decided (by simpa using hdecided)
    · rename_i hopen
      have hevaluating : a.obligation.status = .evaluating := by simpa using hopen
      split
      · rename_i b hb
        obtain rfl : (a.look c).2 = b := congrArg Prod.snd hb
        exact .late hevaluating (congrArg Prod.fst hb)
      · rename_i b hb
        obtain rfl : (a.look c).2 = b := congrArg Prod.snd hb
        have hrunning : (a.look c).1 = true := congrArg Prod.fst hb
        have hround := round_tryRules c ⟨round, 0, (a.look c).2.looks⟩ ((a.look c).2.queue c)
          (a.look c).2
        split
        · rename_i d hd
          replace hd : tryRules c _ _ _ = (0, d) := hd
          rw [hd] at hround
          exact .idle hevaluating hrunning hround
        · rename_i n d hd
          replace hd : tryRules c _ _ _ = (n + 1, d) := hd
          rw [hd] at hround
          dsimp only at hround
          have hlooks : a.looks + 1 ≤ d.looks := hround.proceeds.looks_le
          have hlt := looks_lt_of_look hrunning
          exact .next hevaluating hrunning hround (ih (round + 1) (by omega) (by omega))

theorem rounds_run (c : Context) (ob : Obligation) : Rounds c 0 (start c ob) (run c ob) :=
  rounds_rounds _ 0 (Nat.succ_pos _) (by simp [start])

end Running

end Attempt

end Discharge.Search
