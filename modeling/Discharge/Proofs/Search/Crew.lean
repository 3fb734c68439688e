import Mathlib.Data.List.Nodup
import Mathlib.Logic.Relation
import Discharge.Proofs.Search.Handling

namespace Discharge

def Result.isUndecided (r : Result) : Bool := !r.skipped && !r.status.isTerminal

namespace Search

/-- How far a worker has come with its obligation. -/
inductive Duty where
  | fresh
  /-- It was let through. -/
  | admitted
  | attempted (r : Result)
  | settled (r : Result)

namespace Duty

def result? : Duty → Option Result
  | fresh | admitted => none
  | attempted r | settled r => some r

/-- Whether the attempt may yet come to be counted. -/
def isUnderway : Duty → Bool
  | fresh | settled _ => false
  | admitted | attempted _ => true

def isCounted : Duty → Bool
  | settled r => r.isUndecided
  | fresh | admitted | attempted _ => false

def isUndecided (d : Duty) : Bool := d.result?.any Result.isUndecided

def ahead : Duty → Nat
  | fresh => 4
  | admitted => 3
  | attempted _ => 2
  | settled _ => 1

inductive Moves (p : Prover) (ob : Obligation) (unproved : Nat) : Duty → Duty → Nat → Prop
  | skip : p.config.skips unproved = true →
    Moves p ob unproved fresh (settled (Result.skip ob.condition)) unproved
  | enter : p.config.skips unproved = false → Moves p ob unproved fresh admitted unproved
  | prove (k : Control) : Moves p ob unproved admitted
    (attempted ((Attempt.run (p.under k) ob).result p.config.showResults)) unproved
  | count (r : Result) : Moves p ob unproved (attempted r) (settled r)
    (unproved + if r.status.isTerminal then 0 else 1)

theorem isCounted_or_isUnderway (d : Duty) (h : d.isUndecided = true) :
    d.isCounted = true ∨ d.isUnderway = true := by
  cases d with
  | fresh | admitted => contradiction
  | attempted r => exact .inr rfl
  | settled r => exact .inl h

theorem isUndecided_of_isCounted (d : Duty) (h : d.isCounted = true) : d.isUndecided = true := by
  cases d with
  | fresh | admitted | attempted _ => contradiction
  | settled r => exact h

end Duty

structure Worker where
  position : Nat
  duty : Duty

/-- A run as far as its workers have come. -/
structure Crew where
  next : Nat
  workers : List Worker
  unproved : Nat
  results : List (Option Result)

namespace Crew

def opening (p : Prover) : Crew := ⟨0, [], 0, List.replicate p.obligations.length none⟩

inductive Step (p : Prover) : Crew → Crew → Prop
  | deal {c : Crew} : c.next < p.obligations.length → (c.workers.length : Int) < p.config.jobs →
    Step p c { c with next := c.next + 1, workers := ⟨c.next, .fresh⟩ :: c.workers }
  | move {c : Crew} (before after : List Worker) {i unproved : Nat} {d d' : Duty}
    {ob : Obligation} : c.workers = before ++ ⟨i, d⟩ :: after → p.obligations[i]? = some ob →
    Duty.Moves p ob c.unproved d d' unproved →
    Step p c { c with workers := before ++ ⟨i, d'⟩ :: after, unproved }
  | hand {c : Crew} (before after : List Worker) {i : Nat} {r : Result} :
    c.workers = before ++ ⟨i, .settled r⟩ :: after →
    Step p c { c with workers := before ++ after, results := c.results.set i (some r) }

abbrev Runs (p : Prover) : Crew → Crew → Prop := Relation.ReflTransGen (Step p)

def IsOver (p : Prover) (c : Crew) : Prop := c.workers = [] ∧ c.next = p.obligations.length

/-- The result at a position is there, or a worker has it. -/
def Knows (c : Crew) (i : Nat) (r : Result) : Prop :=
  c.results[i]? = some (some r) ∨ ∃ d, ⟨i, d⟩ ∈ c.workers ∧ d.result? = some r

def undecided (c : Crew) : Nat :=
  c.results.countP (·.any Result.isUndecided) + c.workers.countP (·.duty.isUndecided)

def undecidedBefore (c : Crew) (i : Nat) : Nat :=
  (c.results.take i).countP (·.any Result.isUndecided)

def ahead (p : Prover) (c : Crew) : Nat :=
  5 * (p.obligations.length - c.next) + (c.workers.map (·.duty.ahead)).sum

variable {p : Prover} {c c' : Crew} {i : Nat} {r : Result}

section Placing

/-- Each obligation that was dealt has a worker or a result, and not both. -/
structure Placed (p : Prover) (c : Crew) : Prop where
  length_eq : c.results.length = p.obligations.length
  next_le : c.next ≤ p.obligations.length
  nodup : (c.workers.map Worker.position).Nodup
  position_lt : ∀ i ∈ c.workers.map Worker.position, i < c.next
  missing_iff : ∀ i, c.results[i]? = some none ↔
    i ∈ c.workers.map Worker.position ∨ c.next ≤ i ∧ i < p.obligations.length
  workers_le : (c.workers.length : Int) ≤ p.config.jobs

theorem placed_opening (h : 0 ≤ p.config.jobs) : Placed p (opening p) where
  length_eq := List.length_replicate
  next_le := Nat.zero_le _
  nodup := List.nodup_nil
  position_lt := by simp [opening]
  missing_iff := by simp [opening, List.getElem?_replicate]
  workers_le := h

theorem positions_append (before after : List Worker) (i : Nat) (d : Duty) :
    (before ++ ⟨i, d⟩ :: after).map Worker.position =
      before.map Worker.position ++ i :: after.map Worker.position := by
  simp

theorem Placed.deal (h : Placed p c) (hnext : c.next < p.obligations.length)
    (hjobs : (c.workers.length : Int) < p.config.jobs) :
    Placed p { c with next := c.next + 1, workers := ⟨c.next, .fresh⟩ :: c.workers } := by
  have hfree : c.next ∉ c.workers.map Worker.position := fun hm =>
    Nat.lt_irrefl _ (h.position_lt _ hm)
  refine ⟨h.length_eq, hnext, List.nodup_cons.mpr ⟨hfree, h.nodup⟩, ?_, ?_, ?_⟩
  · intro i hi
    rcases List.mem_cons.mp hi with rfl | hi
    · exact Nat.lt_succ_self _
    · exact Nat.lt_succ_of_lt (h.position_lt i hi)
  · intro i
    rw [h.missing_iff, List.map_cons, List.mem_cons]
    dsimp only
    by_cases hm : i ∈ c.workers.map Worker.position
    · simp [hm]
    · simp only [hm, false_or, or_false]
      omega
  · simp only [List.length_cons]
    omega

variable {before after : List Worker}

theorem Placed.move (h : Placed p c) {d d' : Duty} {unproved : Nat}
    (hw : c.workers = before ++ ⟨i, d⟩ :: after) :
    Placed p { c with workers := before ++ ⟨i, d'⟩ :: after, unproved } := by
  have hsame : (before ++ ⟨i, d'⟩ :: after).map Worker.position =
      c.workers.map Worker.position := by
    rw [hw, positions_append, positions_append]
  refine ⟨h.length_eq, h.next_le, hsame ▸ h.nodup, hsame ▸ h.position_lt,
    hsame ▸ h.missing_iff, ?_⟩
  have hle := h.workers_le
  rw [hw] at hle
  simpa using hle

theorem Placed.hand (h : Placed p c) (hw : c.workers = before ++ ⟨i, .settled r⟩ :: after) :
    Placed p { c with workers := before ++ after, results := c.results.set i (some r) } := by
  have hpositions : c.workers.map Worker.position =
      before.map Worker.position ++ i :: after.map Worker.position := by
    rw [hw, positions_append]
  have hnodup := h.nodup
  have hlt := h.position_lt
  rw [hpositions] at hnodup hlt
  obtain ⟨hi, hrest⟩ := List.nodup_cons.mp (List.nodup_middle.mp hnodup)
  have hin : i < c.results.length := by
    rw [h.length_eq]
    exact Nat.lt_of_lt_of_le (hlt i (by simp)) h.next_le
  refine ⟨List.length_set.trans h.length_eq, h.next_le, ?_, ?_, ?_, ?_⟩
  · rw [List.map_append]
    exact hrest
  · intro x hx
    rw [List.map_append] at hx
    refine hlt x ?_
    rcases List.mem_append.mp hx with hx | hx
    · exact List.mem_append_left _ hx
    · exact List.mem_append_right _ (List.mem_cons_of_mem _ hx)
  · intro x
    dsimp only
    rw [List.map_append, List.getElem?_set]
    by_cases hx : i = x
    · subst hx
      have hold := hlt i (by simp)
      simp only [↓reduceIte, hin, Option.some.injEq, reduceCtorEq, false_iff]
      rintro (hm | hm)
      · exact hi hm
      · omega
    · rw [if_neg hx, h.missing_iff, hpositions]
      simp [Ne.symm hx]
  · have hle := h.workers_le
    rw [hw] at hle
    simp only [List.length_append, List.length_cons] at hle ⊢
    omega

theorem Step.placed (hs : Step p c c') (h : Placed p c) : Placed p c' := by
  cases hs with
  | deal hnext hjobs => exact h.deal hnext hjobs
  | move _ _ hw _ _ => exact h.move hw
  | hand _ _ hw => exact h.hand hw

theorem Runs.placed (hr : Runs p c c') (h : Placed p c) : Placed p c' := by
  induction hr with
  | refl => exact h
  | tail _ hs ih => exact hs.placed ih

end Placing

section Handing

/-- A worker that was not there before has either been dealt its obligation or made the step. -/
theorem Step.mem_workers (hs : Step p c c') {d' : Duty} (hm : ⟨i, d'⟩ ∈ c'.workers) :
    ⟨i, d'⟩ ∈ c.workers ∨ d' = .fresh ∨ ∃ d ob n, ⟨i, d⟩ ∈ c.workers ∧
      p.obligations[i]? = some ob ∧ Duty.Moves p ob c.unproved d d' n := by
  cases hs with
  | deal _ _ =>
    rcases List.mem_cons.mp hm with hm | hm
    · cases hm
      exact .inr (.inl rfl)
    · exact .inl hm
  | @move before after j _ d e ob hw hob hmove =>
    rw [hw]
    rcases List.mem_append.mp hm with hm | hm
    · exact .inl (List.mem_append_left _ hm)
    · rcases List.mem_cons.mp hm with hm | hm
      · cases hm
        exact .inr (.inr ⟨d, ob, _, by simp, hob, hmove⟩)
      · exact .inl (List.mem_append_right _ (List.mem_cons_of_mem _ hm))
  | @hand before after j r hw =>
    rw [hw]
    rcases List.mem_append.mp hm with hm | hm
    · exact .inl (List.mem_append_left _ hm)
    · exact .inl (List.mem_append_right _ (List.mem_cons_of_mem _ hm))

theorem Step.mem_results (hs : Step p c c') (hr : c'.results[i]? = some (some r)) :
    c.results[i]? = some (some r) ∨ ⟨i, .settled r⟩ ∈ c.workers := by
  cases hs with
  | deal _ _ => exact .inl hr
  | move _ _ _ _ _ => exact .inl hr
  | @hand before after j x hw =>
    dsimp only at hr
    rw [List.getElem?_set] at hr
    split at hr
    · rename_i hj
      subst hj
      split at hr
      · cases hr
        refine .inr ?_
        rw [hw]
        simp
      · contradiction
    · exact .inl hr

theorem Step.knows (hs : Step p c c') (hk : c'.Knows i r) :
    c.Knows i r ∨ ∃ d d' ob n, ⟨i, d⟩ ∈ c.workers ∧ ⟨i, d'⟩ ∈ c'.workers ∧
      p.obligations[i]? = some ob ∧ Duty.Moves p ob c.unproved d d' n ∧
      d.result? = none ∧ d'.result? = some r := by
  rcases hk with hr | ⟨d', hm, hr⟩
  · rcases hs.mem_results hr with hr | hm
    · exact .inl (.inl hr)
    · exact .inl (.inr ⟨_, hm, rfl⟩)
  · rcases hs.mem_workers hm with hold | rfl | ⟨d, ob, n, hold, hob, hmove⟩
    · exact .inl (.inr ⟨d', hold, hr⟩)
    · contradiction
    · cases hd : d.result? with
      | none => exact .inr ⟨d, d', ob, n, hold, hm, hob, hmove, hd, hr⟩
      | some x =>
        refine .inl (.inr ⟨d, hold, ?_⟩)
        cases hmove with
        | count _ => exact hr
        | skip _ | enter _ | prove _ => contradiction

theorem Placed.lt_of_knows (h : Placed p c) (hk : c.Knows i r) : i < c.next := by
  rcases hk with hr | ⟨d, hd, -⟩
  · by_contra hle
    have hlt : i < p.obligations.length := by
      rw [← h.length_eq]
      exact (List.getElem?_eq_some_iff.mp hr).1
    have hopen := (h.missing_iff i).mpr (.inr ⟨Nat.not_lt.mp hle, hlt⟩)
    simp [hopen] at hr
  · exact h.position_lt i (List.mem_map.mpr ⟨_, hd, rfl⟩)

/-- The results that are known come from handling the obligations, and an attempt is not taken for
an obligation left out. -/
structure Handled (p : Prover) (c : Crew) : Prop where
  knows : ∀ {i r}, c.Knows i r → ∃ h : Handling, p.obligations[i]? = some h.obligation ∧
    r = h.result p
  attempted : ∀ {i r}, ⟨i, .attempted r⟩ ∈ c.workers → r.skipped = false

theorem not_knows_opening (p : Prover) (i : Nat) (r : Result) : ¬ (opening p).Knows i r := by
  simp [Knows, opening, List.getElem?_replicate]

theorem handled_opening (p : Prover) : Handled p (opening p) where
  knows h := absurd h (not_knows_opening p _ _)
  attempted := by simp [opening]

theorem Step.handled (hs : Step p c c') (h : Handled p c) : Handled p c' := by
  constructor
  · intro i r hk
    rcases hs.knows hk with hold | ⟨d, d', ob, _, -, -, hob, hmove, hd, hr⟩
    · exact h.knows hold
    · cases hmove with
      | skip _ => exact ⟨⟨ob, none⟩, hob, (Option.some.inj hr).symm⟩
      | prove k => exact ⟨⟨ob, some k⟩, hob, (Option.some.inj hr).symm⟩
      | enter _ | count _ => contradiction
  · intro i r hm
    rcases hs.mem_workers hm with hold | hfresh | ⟨d, ob, _, -, -, hmove⟩
    · exact h.attempted hold
    · contradiction
    · cases hmove
      rfl

theorem Runs.handled (hr : Runs p c c') (h : Handled p c) : Handled p c' := by
  induction hr with
  | refl => exact h
  | tail _ hs ih => exact hs.handled ih

theorem Step.kept (hs : Step p c c') (h : Placed p c) (hr : c.results[i]? = some (some r)) :
    c'.results[i]? = some (some r) := by
  cases hs with
  | deal _ _ => exact hr
  | move _ _ _ _ _ => exact hr
  | @hand before after j x hw =>
    have hopen : c.results[j]? = some none := (h.missing_iff j).mpr (.inl (by simp [hw]))
    have hne : j ≠ i := by
      rintro rfl
      simp [hopen] at hr
    exact (List.getElem?_set_ne hne).trans hr

theorem Runs.kept (hruns : Runs p c c') (h : Placed p c) (hr : c.results[i]? = some (some r)) :
    c'.results[i]? = some (some r) := by
  induction hruns with
  | refl => exact hr
  | tail hruns hs ih => exact hs.kept (Runs.placed hruns h) ih

end Handing

end Crew

end Search

end Discharge
