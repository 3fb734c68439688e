import Discharge.Proofs.Search.Instances
import Discharge.Proofs.Search.Offers

/-!
A search that keeps books. Each time it selects a rule, inserts a term, makes a step or tries a rule
in vain it makes an entry; and it asks for the status of its obligation only after a step, and else
goes by the one it remembers. It comes to what the attempt comes to, since terms that are not new
decide nothing, and the entries tell all that the attempt has counted.
-/

namespace Discharge.Search

open Congruence

inductive Entry where
  | selected (rule : Nat)
  | inserted (rule : Nat) (t : Term)
  | stepped (rule : Nat) (s : Step)
  | backtracked (rule : Nat)

namespace Entry

def isSelection : Entry → Bool
  | selected _ => true
  | _ => false

def isInsertion : Entry → Bool
  | inserted _ _ => true
  | _ => false

def isInsertionBy (rule : Nat) : Entry → Bool
  | inserted i _ => i == rule
  | _ => false

def isBacktrack : Entry → Bool
  | backtracked _ => true
  | _ => false

def term? : Entry → Option Term
  | inserted _ t => some t
  | _ => none

def step? : Entry → Option Step
  | stepped _ s => some s
  | _ => none

end Entry

/-- An attempt with the status that it remembers and its entries. -/
structure Ledger where
  attempt : Attempt
  status : Status
  entries : List Entry

namespace Ledger

def note (l : Ledger) (e : Entry) : Ledger := { l with entries := l.entries ++ [e] }

def giveUp (l : Ledger) (r : Ranked) (line : Line) : Ledger :=
  { l with attempt := l.attempt.backtrack line }.note (.backtracked r.position)

def advance (l : Ledger) (c : Context) (p : Attempt.Progress) (r : Ranked) (selected : Nat)
    (candidate : Candidate) (change : Change) : Ledger :=
  { l with
    attempt := l.attempt.record c p r selected candidate change
    status := l.attempt.obligation.status }.note
      (.stepped r.position ⟨r.rule.name, candidate.term.render⟩)

def choose (l : Ledger) (c : Context) (r : Ranked) : Option Candidate × Ledger :=
  let (found, a) := l.attempt.choose c r
  (found, { l with attempt := a }.note (.selected r.position))

def draw (l : Ledger) (r : Ranked) : Option Candidate × Ledger :=
  let (found, a) := l.attempt.draw r
  (found, { l with attempt := a })

-- The status is not asked for here, though the model is told a term.
def insert (l : Ledger) (r : Ranked) (t : Candidate) : Change × Ledger :=
  let (change, a) := l.attempt.insert t
  (change, { l with attempt := a }.note (.inserted r.position t.term))

def moves (c : Context) : Moves Id Ledger where
  attempt l := l.attempt
  put l a := { l with attempt := a }
  status l := l.status
  queue l := l.attempt.queue c
  choose r l := l.choose c r
  draw r l := l.draw r
  insert r t l := l.insert r t
  giveUp r line l := l.giveUp r line
  record p r selected t change l := l.advance c p r selected t change

section Moves

variable {c : Context} {p : Attempt.Progress} {r : Ranked} {l : Ledger}

@[simp] theorem moves_attempt : (moves c).attempt l = l.attempt := rfl

@[simp] theorem moves_put (a : Attempt) : (moves c).put l a = { l with attempt := a } := rfl

@[simp] theorem moves_status : (moves c).status l = l.status := rfl

@[simp] theorem moves_queue : (moves c).queue l = l.attempt.queue c := rfl

@[simp] theorem moves_choose : (moves c).choose r l = l.choose c r := rfl

@[simp] theorem moves_draw : (moves c).draw r l = l.draw r := rfl

@[simp] theorem moves_insert (t : Candidate) : (moves c).insert r t l = l.insert r t := rfl

@[simp] theorem moves_giveUp (line : Line) : (moves c).giveUp r line l = l.giveUp r line := rfl

@[simp] theorem moves_record (selected : Nat) (t : Candidate) (change : Change) :
    (moves c).record p r selected t change l = l.advance c p r selected t change := rfl

end Moves

def pursue (c : Context) (r : Ranked) (fuel : Nat) (t : Candidate) (l : Ledger) :
    Option (Candidate × Change) × Ledger :=
  (moves c).pursue c r fuel t l

def tryRule (c : Context) (p : Attempt.Progress) (r : Ranked) (l : Ledger) : Bool × Ledger :=
  (moves c).tryRule c p r l

def tryRules (c : Context) (p : Attempt.Progress) (rs : List Ranked) (l : Ledger) : Nat × Ledger :=
  (moves c).tryRules c p rs l

def rounds (c : Context) (fuel round : Nat) (l : Ledger) : Ledger :=
  (moves c).rounds c fuel round l

def start (c : Context) (ob : Obligation) : Ledger := ⟨Attempt.start c ob, ob.status, []⟩

def run (c : Context) (ob : Obligation) : Ledger := (moves c).run c (start c ob)

section Erasing

variable (c : Context) (p : Attempt.Progress) (r : Ranked) (l : Ledger)

/-- What is left of a search without its books. -/
theorem attempt_pursue (fuel : Nat) (t : Candidate) :
    Prod.map id attempt (pursue c r fuel t l) = Attempt.pursue c r fuel t l.attempt := by
  induction fuel generalizing t l with
  | zero => rfl
  | succ fuel ih =>
    unfold pursue Attempt.pursue Moves.pursue
    dsimp only [moves_attempt, moves_put, moves_insert, moves_draw, Attempt.moves_attempt,
      Attempt.moves_put, Attempt.moves_insert, Attempt.moves_draw, Moves.look, insert, draw, note,
      bind, pure]
    split
    · rfl
    · split
      · rfl
      · cases hdraw : ((l.attempt.insert t).2.look c).2.draw r with
        | mk found a =>
          cases found with
          | none => rfl
          | some next => exact ih _ next

theorem attempt_tryRule :
    Prod.map id attempt (tryRule c p r l) = Attempt.tryRule c p r l.attempt := by
  unfold tryRule Attempt.tryRule Moves.tryRule
  dsimp only [moves_attempt, moves_put, moves_choose, moves_giveUp, moves_record,
    Attempt.moves_attempt, Attempt.moves_put, Attempt.moves_choose, Attempt.moves_giveUp,
    Attempt.moves_record, choose, note, bind, pure]
  cases hchoose : l.attempt.choose c r with
  | mk found a =>
    cases found with
    | none => rfl
    | some t =>
      have hpursue := attempt_pursue c r { l with
        attempt := a.retire r, entries := l.entries ++ [.selected r.position] }
        (((a.retire r).offersOf r.position).pending.length + 1) t
      unfold pursue Attempt.pursue at hpursue
      dsimp only at hpursue ⊢
      rw [← hpursue]
      generalize (moves c).pursue c r _ t _ = out
      obtain ⟨made, l'⟩ := out
      cases made <;> rfl

end Erasing

end Ledger

section Replaying

/-- What becomes of an obligation by the insertions among some entries. -/
def Obligation.replay (ob : Obligation) (entries : List Entry) : Obligation :=
  (entries.filterMap Entry.term?).foldl (fun ob t => (ob.assume t).2) ob

def Obligation.Gains (ob : Obligation) (t : Term) : Prop :=
  ob.model.records.size < (ob.model.assume t).2.records.size ∨
    ob.model.merges < (ob.model.assume t).2.merges

variable {ob : Obligation} {entries : List Entry}

theorem Obligation.replay_snoc (ob : Obligation) (entries : List Entry) (e : Entry) :
    ob.replay (entries ++ [e]) =
      match e.term? with
      | none => ob.replay entries
      | some t => ((ob.replay entries).assume t).2 := by
  rw [replay, List.filterMap_append, List.foldl_append]
  cases he : e.term? <;> simp [he, replay]

theorem Obligation.closed_replay (h : ob.model.Closed) (entries : List Entry) :
    (ob.replay entries).model.Closed := by
  unfold replay
  generalize entries.filterMap Entry.term? = ts
  induction ts generalizing ob with
  | nil => exact h
  | cons t rest ih =>
    have hnext : (ob.assume t).2.model.Closed := (Model.closed_assume h t).1
    exact ih hnext

theorem Obligation.gains_of_change {t : Term} (h : (ob.assume t).1.isEmpty = false) :
    ob.Gains t := by
  unfold Gains
  simp only [Obligation.assume, Model.assume, Change.isEmpty, Bool.and_eq_false_iff,
    beq_eq_false_iff_ne, ne_eq] at h ⊢
  omega

end Replaying

/-- Whether an entry has its place behind others: a term is inserted only while the obligation is
not decided, and a step is made just after its term was inserted and added something. -/
inductive Entry.Due (c : Context) (ob : Obligation) (before : List Entry) : Entry → Prop where
  | selected (rule : Nat) : Due c ob before (.selected rule)
  | inserted (rule : Nat) (t : Term) (h : (ob.replay before).status = .evaluating) :
    Due c ob before (.inserted rule t)
  | stepped {rule : Nat} {r : Rule} {t : Term} {earlier : List Entry}
    (hr : c.rules[rule]? = some r) (hbefore : before = earlier ++ [.inserted rule t])
    (hgains : (ob.replay earlier).Gains t) :
    Due c ob before (.stepped rule ⟨r.name, t.render⟩)
  | backtracked (rule : Nat) : Due c ob before (.backtracked rule)

namespace Ledger

/-- Whether the entries tell what an attempt has done to an obligation and counted. -/
structure Tells (l : Ledger) (c : Context) (ob : Obligation) : Prop where
  obligation : l.attempt.obligation = ob.replay l.entries
  considered : l.attempt.considered = l.entries.countP Entry.isInsertion
  steps : l.attempt.steps = l.entries.filterMap Entry.step?
  backtracks : l.attempt.backtracks = l.entries.countP Entry.isBacktrack
  due : ∀ before e after, l.entries = before ++ e :: after → e.Due c ob before
  once : ∀ i r, c.rules[i]? = some r → r.isGround = true →
    l.entries.countP (Entry.isInsertionBy i) ≤ if (l.attempt.offersOf i).used then 1 else 0

/-- Whether the books balance: the status is the present one, and each selection of a rule led to a
step or was in vain. -/
structure Balances (l : Ledger) (c : Context) (ob : Obligation) : Prop extends l.Tells c ob where
  status : l.status = l.attempt.obligation.status
  selections : l.entries.countP Entry.isSelection =
    l.attempt.steps.length + l.attempt.backtracks

section Telling

variable {c : Context} {ob : Obligation} {l : Ledger} {a : Attempt} {r : Ranked} {s : Status}

theorem Tells.frame (h : l.Tells c ob) (hob : a.obligation = l.attempt.obligation)
    (hconsidered : a.considered = l.attempt.considered) (hsteps : a.steps = l.attempt.steps)
    (hbacktracks : a.backtracks = l.attempt.backtracks)
    (hused : ∀ i, (l.attempt.offersOf i).used = true → (a.offersOf i).used = true) :
    Tells ⟨a, s, l.entries⟩ c ob where
  obligation := hob.trans h.obligation
  considered := hconsidered.trans h.considered
  steps := hsteps.trans h.steps
  backtracks := hbacktracks.trans h.backtracks
  due := h.due
  once i r hr hground := by
    refine (h.once i r hr hground).trans ?_
    by_cases hu : (l.attempt.offersOf i).used = true
    · rw [hu, hused i hu]
    · rw [if_neg hu]
      exact Nat.zero_le _

theorem Tells.enter (h : l.Tells c ob) {e : Entry} (he : e.Due c ob l.entries)
    (hob : a.obligation = ob.replay (l.entries ++ [e]))
    (hconsidered : a.considered = l.attempt.considered + if e.isInsertion then 1 else 0)
    (hsteps : a.steps = l.attempt.steps ++ e.step?.toList)
    (hbacktracks : a.backtracks = l.attempt.backtracks + if e.isBacktrack then 1 else 0)
    (honce : ∀ i r, c.rules[i]? = some r → r.isGround = true →
      (l.entries ++ [e]).countP (Entry.isInsertionBy i) ≤ if (a.offersOf i).used then 1 else 0) :
    Tells ⟨a, s, l.entries ++ [e]⟩ c ob where
  obligation := hob
  considered := by rw [hconsidered, h.considered, List.countP_append, List.countP_singleton]
  steps := by
    rw [hsteps, h.steps, List.filterMap_append]
    cases hstep : e.step? <;> simp [hstep]
  backtracks := by rw [hbacktracks, h.backtracks, List.countP_append, List.countP_singleton]
  due before e' after hsplit := by
    rcases List.eq_nil_or_concat after with rfl | ⟨after, last, rfl⟩
    · obtain ⟨rfl, hlast⟩ := List.append_inj' hsplit rfl
      rwa [← List.singleton_inj.mp hlast]
    · rw [List.concat_eq_append, ← List.cons_append, ← List.append_assoc] at hsplit
      exact h.due before e' after (List.append_inj' hsplit rfl).1
  once := honce

theorem Tells.once_note (h : l.Tells c ob) {e : Entry} (he : e.isInsertion = false)
    (hoffers : a.offers = l.attempt.offers) : ∀ i r, c.rules[i]? = some r → r.isGround = true →
      (l.entries ++ [e]).countP (Entry.isInsertionBy i) ≤
        if (a.offersOf i).used then 1 else 0 := by
  intro i r hr hground
  have hnone : Entry.isInsertionBy i e = false := by cases e <;> first | rfl | cases he
  have hsame : a.offersOf i = l.attempt.offersOf i := by rw [Attempt.offersOf, hoffers]; rfl
  rw [List.countP_append, List.countP_singleton, hnone, if_neg Bool.false_ne_true, Nat.add_zero,
    hsame]
  exact h.once i r hr hground

theorem Tells.select (h : l.Tells c ob) (i : Nat) : (l.note (.selected i)).Tells c ob :=
  h.enter (.selected i) (by rw [Obligation.replay_snoc]; exact h.obligation) rfl
    (by simp [Entry.step?]) rfl (h.once_note rfl rfl)

theorem Tells.giveUp (h : l.Tells c ob) (r : Ranked) (line : Line) :
    (l.giveUp r line).Tells c ob :=
  h.enter (.backtracked r.position) (by rw [Obligation.replay_snoc]; exact h.obligation) rfl
    (by simp [Entry.step?, Attempt.backtrack, Attempt.write]) rfl (h.once_note rfl rfl)

theorem Tells.draw (h : l.Tells c ob) (r : Ranked) :
    Tells ⟨(l.attempt.draw r).2, s, l.entries⟩ c ob := by
  refine h.frame rfl rfl rfl rfl fun i hi => ?_
  rw [Attempt.offersOf_draw]
  split
  · rename_i he
    subst he
    exact (Rule.used_next _ _).1 hi
  · exact hi

theorem Tells.offered (h : l.Tells c ob) (r : Ranked) :
    Tells ⟨l.attempt.offered c r, s, l.entries⟩ c ob := by
  refine h.frame rfl rfl rfl rfl fun i hi => ?_
  rw [Attempt.offersOf_offered]
  split
  · rename_i he
    subst he
    rwa [(Rule.offer_frame _ _ _ _).2]
  · exact hi

def InHand (l : Ledger) (r : Ranked) : Prop :=
  r.rule.isGround = true → l.entries.countP (Entry.isInsertionBy r.position) = 0 ∧
    (l.attempt.offersOf r.position).used = true

theorem Tells.inHand_draw (h : l.Tells c ob) (hr : c.rules[r.position]? = some r.rule)
    {t : Candidate} (ht : (l.attempt.draw r).1 = some t) :
    InHand ⟨(l.attempt.draw r).2, s, l.entries⟩ r := by
  intro hground
  refine ⟨?_, ?_⟩
  · have hunused : ¬ (l.attempt.offersOf r.position).used = true := fun hused => by
      cases ht.symm.trans (Attempt.draw_of_used hground hused)
    have hle := h.once r.position r.rule hr hground
    rw [if_neg hunused] at hle
    exact Nat.le_zero.mp hle
  · exact Attempt.used_draw l.attempt hground

theorem Tells.insert (h : l.Tells c ob) (hr : c.rules[r.position]? = some r.rule)
    (hhand : l.InHand r) (hopen : l.attempt.obligation.status = .evaluating) (t : Candidate) :
    Tells ⟨(l.attempt.insert t).2, s, l.entries ++ [.inserted r.position t.term]⟩ c ob := by
  refine h.enter (.inserted r.position t.term (h.obligation ▸ hopen)) ?_ rfl
    (by simp [Entry.step?, Attempt.insert]) rfl ?_
  · rw [Obligation.replay_snoc, ← h.obligation]
    rfl
  · intro i rule hi hground
    rw [List.countP_append, List.countP_singleton]
    change _ ≤ if (l.attempt.offersOf i).used then 1 else 0
    by_cases he : r.position = i
    · subst he
      obtain rfl : r.rule = rule := Option.some.inj (hr.symm.trans hi)
      obtain ⟨hnone, hused⟩ := hhand hground
      rw [hnone, hused]
      split <;> simp
    · have hother : Entry.isInsertionBy i (.inserted r.position t.term) = false :=
        beq_eq_false_iff_ne.mpr he
      rw [hother, if_neg Bool.false_ne_true, Nat.add_zero]
      exact h.once i rule hi hground

end Telling

section Balancing

variable {c : Context} {ob : Obligation} {l : Ledger} {r : Ranked}

/-- What inserting candidates of a rule comes to: nothing else is noted, and if no term was new the
obligation is still open. -/
structure Pursued (l : Ledger) (c : Context) (ob : Obligation) (r : Ranked)
    (out : Option (Candidate × Change) × Ledger) : Prop where
  tells : out.2.Tells c ob
  status : out.2.status = l.status
  entries : ∃ ts : List Term, out.2.entries = l.entries ++ ts.map (.inserted r.position)
  vain : out.1 = none → out.2.attempt.obligation.status = .evaluating
  gains : ∀ t change, out.1 = some (t, change) → ∃ earlier,
    out.2.entries = earlier ++ [.inserted r.position t.term] ∧ (ob.replay earlier).Gains t.term

theorem pursued_in_vain {l' : Ledger} (ts : List Term) (h : l'.Tells c ob)
    (hstatus : l'.status = l.status)
    (hentries : l'.entries = l.entries ++ ts.map (.inserted r.position))
    (hopen : l'.attempt.obligation.status = .evaluating) : l.Pursued c ob r (none, l') :=
  ⟨h, hstatus, ⟨ts, hentries⟩, fun _ => hopen, fun _ _ hnone => by cases hnone⟩

theorem status_insert_of_isEmpty {a : Attempt} {t : Candidate}
    (h : a.obligation.model.Closed) (hold : (a.insert t).1.isEmpty = true) :
    (a.insert t).2.obligation.status = a.obligation.status := by
  have hclosed : (a.insert t).2.obligation.model.Closed := (Model.closed_assume h t.term).1
  exact Obligation.status_of_widens h hclosed rfl (Model.widens_assume h hold)

theorem pursued_pursue (hob : ob.model.Closed) (hr : c.rules[r.position]? = some r.rule)
    (fuel : Nat) {t : Candidate} (h : l.Tells c ob) (hhand : l.InHand r)
    (hopen : l.attempt.obligation.status = .evaluating) :
    l.Pursued c ob r (pursue c r fuel t l) := by
  induction fuel generalizing t l with
  | zero => exact pursued_in_vain [] h rfl (by simp) hopen
  | succ fuel ih =>
    have hinserted := h.insert (s := l.status) hr hhand hopen t
    have hclosed : l.attempt.obligation.model.Closed :=
      h.obligation ▸ Obligation.closed_replay hob l.entries
    unfold pursue Moves.pursue
    dsimp only [moves_attempt, moves_put, moves_insert, moves_draw, Moves.look, insert, draw, note,
      bind, pure]
    split
    · rename_i hnew
      refine ⟨hinserted, rfl, ⟨[t.term], rfl⟩, fun hnone => (by cases hnone), fun _ _ hsome => ?_⟩
      obtain ⟨rfl, -⟩ := Prod.mk.inj (Option.some.inj hsome)
      refine ⟨l.entries, rfl, h.obligation ▸ Obligation.gains_of_change ?_⟩
      exact Bool.not_eq_true' _ ▸ hnew
    · rename_i hold
      -- The next term may be inserted, since this one was not new and has decided nothing.
      have hopen' : (l.attempt.insert t).2.obligation.status = .evaluating :=
        (status_insert_of_isEmpty hclosed (by simpa using hold)).trans hopen
      have hlooked : Tells ⟨((l.attempt.insert t).2.look c).2, l.status,
          l.entries ++ [.inserted r.position t.term]⟩ c ob :=
        hinserted.frame rfl rfl rfl rfl fun _ hi => hi
      split
      · exact pursued_in_vain [t.term] hlooked rfl rfl hopen'
      · have hdrawn := hlooked.draw (s := l.status) r
        split
        · rename_i hdraw
          obtain ⟨-, rfl⟩ := Prod.mk.inj hdraw
          exact pursued_in_vain [t.term] hdrawn rfl rfl hopen'
        · rename_i next _ hdraw
          obtain ⟨hnext, rfl⟩ := Prod.mk.inj hdraw
          have hhand' := hlooked.inHand_draw (s := l.status) hr hnext
          obtain ⟨htells, hstatus, ⟨ts, hts⟩, hvain, hgains⟩ := ih (t := next) hdrawn hhand' hopen'
          exact ⟨htells, hstatus, ⟨t.term :: ts, hts.trans (by simp)⟩, hvain, hgains⟩

/-- Whether the books balance but for a rule that was selected and not tried yet. -/
structure Owes (l : Ledger) (c : Context) (ob : Obligation) : Prop extends l.Tells c ob where
  status : l.status = .evaluating
  selections : l.entries.countP Entry.isSelection =
    l.attempt.steps.length + l.attempt.backtracks + 1

/-- Insertions settle nothing of what is owed. -/
theorem Owes.pursued {out : Option (Candidate × Change) × Ledger} (h : l.Owes c ob)
    (hout : l.Pursued c ob r out) : out.2.Owes c ob := by
  obtain ⟨ts, hts⟩ := hout.entries
  have hselections : (ts.map (Entry.inserted r.position)).countP Entry.isSelection = 0 := by
    simp [Entry.isSelection]
  have hsteps : (ts.map (Entry.inserted r.position)).filterMap Entry.step? = [] := by
    simp [Entry.step?]
  have hbacktracks : (ts.map (Entry.inserted r.position)).countP Entry.isBacktrack = 0 := by
    simp [Entry.isBacktrack]
  refine ⟨hout.tells, hout.status.trans h.status, ?_⟩
  rw [hout.tells.steps, hout.tells.backtracks, hts, List.filterMap_append, List.countP_append,
    List.countP_append, hselections, hsteps, hbacktracks, List.append_nil, h.selections,
    h.steps, h.backtracks]
  rfl

theorem Owes.giveUp (h : l.Owes c ob) (hopen : l.attempt.obligation.status = .evaluating)
    (r : Ranked) (line : Line) : (l.giveUp r line).Balances c ob where
  toTells := h.toTells.giveUp r line
  status := h.status.trans hopen.symm
  selections := by
    rw [Ledger.giveUp, note, List.countP_append, h.selections]
    rfl

theorem Owes.advance (h : l.Owes c ob) (hr : c.rules[r.position]? = some r.rule)
    {earlier : List Entry} {t : Candidate}
    (hlast : l.entries = earlier ++ [.inserted r.position t.term])
    (hgains : (ob.replay earlier).Gains t.term) (p : Attempt.Progress) (selected : Nat)
    (change : Change) : (l.advance c p r selected t change).Balances c ob := by
  obtain ⟨lines, he⟩ := l.attempt.record_eq c p r selected t change
  have htells : (l.advance c p r selected t change).Tells c ob := by
    refine h.toTells.enter (.stepped hr hlast hgains) ?_ ?_ ?_ ?_ ?_
    · rw [Obligation.replay_snoc, he]
      exact h.obligation
    · rw [he]
      rfl
    · rw [he]
      rfl
    · rw [he]
      rfl
    · exact h.once_note rfl (by rw [he])
  refine ⟨htells, ?_, ?_⟩
  · rw [Ledger.advance, he]
    rfl
  · rw [Ledger.advance, he, note, List.countP_append, h.selections]
    simp [Entry.isSelection]
    omega

theorem Balances.tryRule (hob : ob.model.Closed) (hr : c.rules[r.position]? = some r.rule)
    (p : Attempt.Progress) (h : l.Balances c ob) (hopen : l.status = .evaluating) :
    (tryRule c p r l).2.Balances c ob := by
  -- To select a rule, to look for offers and to take one does nothing to the obligation.
  have hopen' : l.attempt.obligation.status = .evaluating := h.status.symm.trans hopen
  have hoffered := (h.toTells.select r.position).offered (s := l.status) r
  have hdrawn := hoffered.draw (s := l.status) r
  have hcount : (l.note (.selected r.position)).entries.countP Entry.isSelection =
      l.attempt.steps.length + l.attempt.backtracks + 1 := by
    rw [note, List.countP_append, h.selections]
    rfl
  unfold Ledger.tryRule Moves.tryRule
  dsimp only [moves_attempt, moves_put, moves_choose, moves_giveUp, moves_record, choose, note, bind,
    pure]
  rw [Attempt.choose_eq]
  split
  · rename_i hchoose
    obtain ⟨-, rfl⟩ := Prod.mk.inj hchoose
    exact Owes.giveUp ⟨hdrawn, hopen, hcount⟩ hopen' r _
  · rename_i t _ hchoose
    obtain ⟨htaken, rfl⟩ := Prod.mk.inj hchoose
    have hhand := hoffered.inHand_draw (s := l.status) hr htaken
    obtain ⟨active, hretire⟩ := ((l.attempt.offered c r).draw r).2.retire_eq r
    have howes : Owes ⟨{ ((l.attempt.offered c r).draw r).2 with active }, l.status,
        l.entries ++ [.selected r.position]⟩ c ob :=
      ⟨hdrawn.frame rfl rfl rfl rfl fun _ hi => hi, hopen, hcount⟩
    dsimp only
    rw [hretire]
    generalize hfuel : (Attempt.offersOf _ _).pending.length + 1 = fuel
    have hpursued := pursued_pursue hob hr fuel (t := t) howes.toTells hhand hopen'
    have hout := howes.pursued hpursued
    split
    · rename_i l' hl'
      obtain rfl : l' = _ := congrArg Prod.snd hl'.symm
      exact hout.giveUp (hpursued.vain (congrArg Prod.fst hl')) r _
    · rename_i t' change l' hl'
      obtain rfl : l' = _ := congrArg Prod.snd hl'.symm
      obtain ⟨earlier, hlast, hgains⟩ := hpursued.gains t' change (congrArg Prod.fst hl')
      exact hout.advance hr hlast hgains p _ change

theorem Balances.look (h : l.Balances c ob) :
    Balances { l with attempt := (l.attempt.look c).2 } c ob where
  toTells := h.toTells.frame rfl rfl rfl rfl fun _ hi => hi
  status := h.status
  selections := h.selections

/-- A round with books is the round without, and keeps the books balanced. -/
theorem balances_tryRules (hob : ob.model.Closed) (rs : List Ranked)
    (hrs : ∀ r ∈ rs, c.rules[r.position]? = some r.rule) (p : Attempt.Progress)
    (h : l.Balances c ob) :
    Prod.map id attempt (tryRules c p rs l) = Attempt.tryRules c p rs l.attempt ∧
      (tryRules c p rs l).2.Balances c ob := by
  induction rs generalizing p l with
  | nil => exact ⟨rfl, h⟩
  | cons r rest ih =>
    obtain ⟨hr, hrest⟩ := List.forall_mem_cons.mp hrs
    -- Both guards read one status, since that which is remembered is the present one.
    unfold tryRules Attempt.tryRules Moves.tryRules
    dsimp only [moves_attempt, moves_put, moves_status, moves_queue, Attempt.moves_attempt,
      Attempt.moves_put, Attempt.moves_status, Attempt.moves_queue, Moves.look, bind, pure]
    rw [← h.status]
    by_cases hstop : (l.status != .evaluating || (p.chosen ≥ 1 && r.score > 1)) = true
    · rw [if_pos hstop, if_pos hstop]
      exact ⟨rfl, h⟩
    · rw [if_neg hstop, if_neg hstop]
      have hopen : l.status = .evaluating := by
        by_contra hclosed
        exact hstop (by rw [bne_iff_ne.mpr hclosed, Bool.true_or])
      have hlooked := h.look
      cases hlook : l.attempt.look c with
      | mk running a =>
        rw [hlook] at hlooked
        cases running with
        | false => exact ⟨rfl, hlooked⟩
        | true =>
          have htried := hlooked.tryRule hob hr p hopen
          have herased := attempt_tryRule c p r { l with attempt := a }
          unfold tryRule at htried herased
          unfold Attempt.tryRule at herased
          dsimp only at herased ⊢
          rw [← herased]
          cases htry : (moves c).tryRule c p r { l with attempt := a } with
          | mk made l' =>
            rw [htry] at htried
            cases made with
            | false => exact ih hrest p htried
            | true => exact ih hrest _ htried

theorem balances_rounds (hob : ob.model.Closed) (fuel round : Nat) (h : l.Balances c ob) :
    (rounds c fuel round l).attempt = Attempt.rounds c fuel round l.attempt ∧
      (rounds c fuel round l).Balances c ob := by
  induction fuel generalizing round l with
  | zero => exact ⟨rfl, h⟩
  | succ fuel ih =>
    unfold rounds Attempt.rounds Moves.rounds
    dsimp only [moves_attempt, moves_put, moves_status, moves_queue, Attempt.moves_attempt,
      Attempt.moves_put, Attempt.moves_status, Attempt.moves_queue, Moves.look, bind, pure]
    rw [← h.status]
    by_cases hstop : (l.status != .evaluating) = true
    · rw [if_pos hstop, if_pos hstop]
      exact ⟨rfl, h⟩
    · rw [if_neg hstop, if_neg hstop]
      have hlooked := h.look
      cases hlook : l.attempt.look c with
      | mk running a =>
        rw [hlook] at hlooked
        cases running with
        | false => exact ⟨rfl, hlooked⟩
        | true =>
          obtain ⟨herased, htried⟩ := balances_tryRules hob (a.queue c)
            (fun r hr => Attempt.getElem?_of_mem_queue hr) ⟨round, 0, a.looks⟩ hlooked
          unfold tryRules at htried herased
          unfold Attempt.tryRules at herased
          dsimp only at herased ⊢
          rw [← herased]
          cases htry : (moves c).tryRules c ⟨round, 0, a.looks⟩ (a.queue c)
            { l with attempt := a } with
          | mk made l' =>
            rw [htry] at htried
            cases made with
            | zero => exact ⟨rfl, htried⟩
            | succ _ => exact ih (round + 1) htried

theorem balances_start (c : Context) (ob : Obligation) : (start c ob).Balances c ob where
  obligation := rfl
  considered := rfl
  steps := rfl
  backtracks := rfl
  due before e after hsplit := by
    rw [start] at hsplit
    exact absurd hsplit.symm (by simp)
  once _ _ _ _ := Nat.zero_le _
  status := rfl
  selections := rfl

theorem balances_run (hob : ob.model.Closed) (c : Context) :
    (run c ob).attempt = Attempt.run c ob ∧ (run c ob).Balances c ob :=
  balances_rounds hob (c.control.patience + 1) 0 (balances_start c ob)

end Balancing

end Ledger

end Discharge.Search
