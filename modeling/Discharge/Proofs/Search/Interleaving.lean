import Discharge.Proofs.Search.Exhaustion

/-!
Searches side by side. The rules are shared: each keeps what it offers by the id of the obligation
that it is offered to. A search is cut into the steps that may alternate with those of others: a
rule looks for offers, a candidate is taken, a candidate is inserted, and in the end all offers are
given up. Times are whatever a clock says.

Whatever the order of the steps, a search takes the course that it takes alone, and that course is
the attempt, if nothing stops it.
-/

namespace Discharge.Search

open Congruence

structure Times where
  round : Nat := 0
  search : Nat := 0
  elapsed : Nat := 0
  deriving Inhabited

/-- A line without the times that it tells. -/
def Line.untimed : Line → Line
  | .noMatch rule _ => .noMatch rule 0
  | .emptied rule _ => .emptied rule 0
  | .step round chosen _ _ _ score rule candidate change =>
    .step round chosen 0 0 0 score rule candidate change
  | .model text => .model text

def Trace.untimed (t : Trace) : Trace := { t with lines := t.lines.map Line.untimed }

/-- What rules offer, by the position of the rule and the id of the obligation. There is nothing
before a rule is tried, and nothing after a search is over. -/
abbrev Board := Nat → Int → Option Offers

namespace Board

def offersOf (b : Board) (id : Int) (position : Nat) : Offers := (b position id).getD {}

def post (b : Board) (id : Int) (position : Nat) (o : Offers) : Board := fun i j =>
  if i = position ∧ j = id then some o else b i j

def forget (b : Board) (id : Int) : Board := fun i j => if j = id then none else b i j

end Board

inductive Stage where
  | resting (round : Nat)
  | trying (round chosen : Nat) (queue : List Ranked)
  /-- A candidate is to be taken from a rule; some may have been inserted in vain. -/
  | drawing (round chosen : Nat) (queue : List Ranked) (r : Ranked) (again : Bool)
  | inserting (round chosen : Nat) (queue : List Ranked) (r : Ranked) (candidate : Candidate)
  | finished
  | gone

def Stage.isOver : Stage → Bool
  | finished => true
  | gone => true
  | _ => false

structure Course where
  obligation : Obligation
  active : List Nat
  applied : Std.TreeMap Text Nat := ∅
  lines : List Line := []
  steps : List Step := []
  stage : Stage := .resting 0

namespace Course

def start (c : Context) (ob : Obligation) : Course :=
  { obligation := ob, active := List.range c.rules.size }

def id (w : Course) : Int := w.obligation.condition.id

def appliedOf (w : Course) (name : Text) : Nat := (w.applied[name]?).getD 0

def queue (c : Context) (w : Course) : List Ranked :=
  ranking (w.active.filterMap fun i => (c.rules[i]?).map fun r => (i, r))
    (fun name => w.appliedOf name) c.helpers w.obligation

def endRound (w : Course) (round chosen : Nat) : Course :=
  { w with stage := if chosen = 0 then .finished else .resting (round + 1) }

def vainLine (r : Ranked) (again : Bool) (times : Times) : Line :=
  if again then .emptied r.rule.name times.search else .noMatch r.rule.name times.search

def record (w : Course) (c : Context) (times : Times) (round chosen : Nat) (r : Ranked)
    (candidate : Candidate) (change : Change) : Course :=
  { w with
    lines := w.lines ++ .step round chosen times.round times.search times.elapsed r.score
      r.rule.name candidate.render change.render ::
        if c.printEachStep then [.model w.obligation.model.render] else []
    steps := w.steps ++ [⟨r.rule.name, candidate.term.render⟩] }

/-- The next step of a search that nothing stops. -/
def step (c : Context) (times : Times) (w : Course) (b : Board) : Course × Board :=
  match w.stage with
  | .resting round =>
    if w.obligation.status != .evaluating then ({ w with stage := .finished }, b)
    else ({ w with stage := .trying round 0 (w.queue c) }, b)
  | .trying round chosen [] => (w.endRound round chosen, b)
  | .trying round chosen (r :: rest) =>
    if w.obligation.status != .evaluating || (chosen ≥ 1 && r.score > 1) then
      (w.endRound round chosen, b)
    else
      ({ w with
        applied := w.applied.insert r.rule.name (w.appliedOf r.rule.name + 1)
        stage := .drawing round chosen rest r false },
        b.post w.id r.position
          (r.rule.offer w.obligation .all (b.offersOf w.id r.position)).2)
  | .drawing round chosen rest r again =>
    match r.rule.next w.obligation.model (b.offersOf w.id r.position) with
    | (none, o) =>
      ({ w with
        lines := w.lines ++ [vainLine r again times]
        stage := .trying round chosen rest }, b.post w.id r.position o)
    | (some candidate, o) =>
      ({ w with
        active := if r.rule.isGround then w.active.filter (· != r.position) else w.active
        stage := .inserting round chosen rest r candidate }, b.post w.id r.position o)
  | .inserting round chosen rest r candidate =>
    let (change, ob) := w.obligation.assume candidate.term
    let w := { w with obligation := ob }
    if change.isEmpty then ({ w with stage := .drawing round chosen rest r true }, b)
    else ({ w.record c times round chosen r candidate change with
      stage := .trying round (chosen + 1) rest }, b)
  | .finished => ({ w with stage := .gone }, b.forget w.id)
  | .gone => (w, b)

def follow (c : Context) : List Times → Course × Board → Course × Board
  | [], s => s
  | t :: rest, s => follow c rest (s.1.step c t s.2)

def trace (w : Course) (showResults : Bool) : Trace where
  id := w.obligation.condition.id
  sequent := w.obligation.condition.sequent.render
  lines := w.lines
  final := if showResults && w.obligation.status == .evaluating
    then some w.obligation.model.render else none

end Course

/-- Searches that share a board. -/
structure Workshop where
  courses : List Course
  board : Board := fun _ _ => none

namespace Workshop

def start (c : Context) (obs : List Obligation) : Workshop where
  courses := obs.map (Course.start c)

def step (c : Context) (s : Workshop) (i : Nat) (times : Times) : Workshop :=
  match s.courses[i]? with
  | none => s
  | some w =>
    let (w, b) := w.step c times s.board
    ⟨s.courses.set i w, b⟩

def follow (c : Context) : List (Nat × Times) → Workshop → Workshop
  | [], s => s
  | (i, times) :: rest, s => follow c rest (s.step c i times)

end Workshop

namespace Board

/-- Whether two boards show the same to an obligation. -/
def AgreeAt (b b' : Board) (id : Int) : Prop := ∀ i, b i id = b' i id

variable {b b' : Board} {id other : Int}

theorem AgreeAt.offersOf (h : b.AgreeAt b' id) (i : Nat) : b.offersOf id i = b'.offersOf id i := by
  rw [Board.offersOf, Board.offersOf, h i]

theorem AgreeAt.post (h : b.AgreeAt b' id) (position : Nat) (o : Offers) :
    (b.post id position o).AgreeAt (b'.post id position o) id := by
  intro i
  simp only [Board.post, h i]

theorem agreeAt_post (h : other ≠ id) (position : Nat) (o : Offers) :
    (b.post id position o).AgreeAt b other := by
  intro i
  simp [Board.post, h]

theorem agreeAt_forget (h : other ≠ id) : (b.forget id).AgreeAt b other := by
  intro i
  simp [Board.forget, h]

theorem offersOf_post (position i : Nat) (o : Offers) :
    (b.post id position o).offersOf id i = if position = i then o else b.offersOf id i := by
  unfold Board.offersOf Board.post
  by_cases h : position = i
  · simp [h]
  · simp [h, Ne.symm h]

end Board

section Apart

variable {c : Context} {times : Times} {w : Course} {b b' : Board}

theorem Course.id_step (c : Context) (times : Times) (w : Course) (b : Board) :
    (w.step c times b).1.id = w.id := by
  unfold Course.step Course.id
  cases w.stage with
  | resting round => dsimp only; split <;> rfl
  | trying round chosen queue =>
    cases queue with
    | nil => rfl
    | cons r rest => dsimp only; split <;> rfl
  | drawing round chosen rest r again => dsimp only; split <;> rfl
  | inserting round chosen rest r candidate => dsimp only; split <;> rfl
  | finished => rfl
  | gone => rfl

/-- A step looks at nothing on the board but what is for its own obligation. -/
theorem Course.step_congr (c : Context) (times : Times) (h : b.AgreeAt b' w.id) :
    (w.step c times b).1 = (w.step c times b').1 ∧
      (w.step c times b).2.AgreeAt (w.step c times b').2 w.id := by
  unfold Course.step
  cases w.stage with
  | resting round => dsimp only; split <;> exact ⟨rfl, h⟩
  | trying round chosen queue =>
    cases queue with
    | nil => exact ⟨rfl, h⟩
    | cons r rest =>
      dsimp only
      split
      · exact ⟨rfl, h⟩
      · rw [h.offersOf]
        exact ⟨rfl, h.post _ _⟩
  | drawing round chosen rest r again =>
    dsimp only
    rw [h.offersOf]
    split <;> exact ⟨rfl, h.post _ _⟩
  | inserting round chosen rest r candidate => dsimp only; split <;> exact ⟨rfl, h⟩
  | finished => exact ⟨rfl, fun i => by simp [Board.forget]⟩
  | gone => exact ⟨rfl, h⟩

theorem Course.step_frame (c : Context) (times : Times) (w : Course) (b : Board) {other : Int}
    (h : other ≠ w.id) : (w.step c times b).2.AgreeAt b other := by
  unfold Course.step
  cases w.stage with
  | resting round => dsimp only; split <;> exact fun _ => rfl
  | trying round chosen queue =>
    cases queue with
    | nil => exact fun _ => rfl
    | cons r rest =>
      dsimp only
      split
      · exact fun _ => rfl
      · exact Board.agreeAt_post h _ _
  | drawing round chosen rest r again =>
    dsimp only
    split <;> exact Board.agreeAt_post h _ _
  | inserting round chosen rest r candidate => dsimp only; split <;> exact fun _ => rfl
  | finished => exact Board.agreeAt_forget h
  | gone => exact fun _ => rfl

namespace Workshop

def ownTimes (i : Nat) (schedule : List (Nat × Times)) : List Times :=
  schedule.filterMap fun x => if x.1 = i then some x.2 else none

variable {s : Workshop} {i : Nat}

theorem step_eq (c : Context) (times : Times) (hw : s.courses[i]? = some w) :
    s.step c i times =
      ⟨s.courses.set i (w.step c times s.board).1, (w.step c times s.board).2⟩ := by
  rw [step, hw]

theorem ids_step (c : Context) (s : Workshop) (i : Nat) (times : Times) :
    (s.step c i times).courses.map Course.id = s.courses.map Course.id := by
  cases hw : s.courses[i]? with
  | none => rw [step, hw]
  | some w =>
    have hid : (s.courses.map Course.id)[i]? = some w.id := by rw [List.getElem?_map, hw]; rfl
    obtain ⟨hlt, hid⟩ := List.getElem?_eq_some_iff.mp hid
    rw [step_eq c times hw, List.map_set, Course.id_step, ← hid, List.set_getElem_self]

theorem ne_of_nodup (hids : (s.courses.map Course.id).Nodup) {j : Nat} {w' : Course} (hij : i ≠ j)
    (hw : s.courses[i]? = some w) (hw' : s.courses[j]? = some w') : w.id ≠ w'.id := by
  intro h
  have hi : (s.courses.map Course.id)[i]? = some w.id := by rw [List.getElem?_map, hw]; rfl
  have hj : (s.courses.map Course.id)[j]? = some w.id := by rw [List.getElem?_map, hw', h]; rfl
  exact hij ((List.getElem?_inj (List.getElem?_eq_some_iff.mp hi).1 hids).mp (hi.trans hj.symm))

theorem follow_isolated (schedule : List (Nat × Times))
    (hids : (s.courses.map Course.id).Nodup) (hw : s.courses[i]? = some w)
    (hb : s.board.AgreeAt b w.id) :
    (s.follow c schedule).courses[i]? = some (Course.follow c (ownTimes i schedule) (w, b)).1 := by
  induction schedule generalizing s w b with
  | nil => exact hw
  | cons x rest ih =>
    obtain ⟨j, times⟩ := x
    have hids' : ((s.step c j times).courses.map Course.id).Nodup := by
      rw [ids_step]
      exact hids
    rw [follow]
    by_cases hij : i = j
    · subst hij
      have hown : ownTimes i ((i, times) :: rest) = times :: ownTimes i rest := by simp [ownTimes]
      obtain ⟨hcourse, hboard⟩ := Course.step_congr c times hb
      rw [hown, Course.follow]
      refine ih (w := (w.step c times b).1) (b := (w.step c times b).2) hids' ?_ ?_
      · rw [step_eq c times hw, hcourse]
        exact List.getElem?_set_self (List.getElem?_eq_some_iff.mp hw).1
      · rw [Course.id_step, step_eq c times hw]
        exact hboard
    · have hown : ownTimes i ((j, times) :: rest) = ownTimes i rest := by
        simp [ownTimes, Ne.symm hij]
      rw [hown]
      cases hw' : s.courses[j]? with
      | none =>
        have hsame : s.step c j times = s := by simp [step, hw']
        rw [hsame]
        exact ih hids hw hb
      | some w' =>
        have hframe := Course.step_frame c times w' s.board (ne_of_nodup hids hij hw hw')
        rw [step_eq c times hw'] at hids' ⊢
        refine ih hids' ?_ fun position => (hframe position).trans (hb position)
        exact (List.getElem?_set_ne (Ne.symm hij)).trans hw

end Workshop

end Apart

end Discharge.Search
