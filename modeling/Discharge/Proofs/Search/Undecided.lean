import Discharge.Proofs.Search.Crew

namespace Discharge.Search.Crew

variable {p : Prover} {c c' : Crew} {i : Nat} {r : Result}

section Counting

/-- The count is that of the obligations left undecided of which the workers have made it part. -/
def Counted (c : Crew) : Prop :=
  c.unproved = c.results.countP (·.any Result.isUndecided) + c.workers.countP (·.duty.isCounted)

theorem Step.counted (hs : Step p c c') (hp : Placed p c) (hh : Handled p c) (h : c.Counted) :
    c'.Counted := by
  unfold Counted at h ⊢
  cases hs with
  | deal _ _ => simpa [Duty.isCounted] using h
  | @move before after i unproved d d' ob hw hob hmove =>
    rw [hw] at h
    simp only [List.countP_append, List.countP_cons] at h ⊢
    cases hmove with
    | skip _ => simpa [Duty.isCounted, Result.isUndecided, Result.skip] using h
    | enter _ => simpa [Duty.isCounted] using h
    | prove k => simpa [Duty.isCounted] using h
    | count r =>
      have hskipped := hh.attempted (i := i) (r := r) (by simp [hw])
      simp only [Duty.isCounted, Result.isUndecided, hskipped] at h ⊢
      cases r.status.isTerminal <;> simp at h ⊢ <;> omega
  | @hand before after i r hw =>
    have hopen : c.results[i]? = some none := (hp.missing_iff i).mpr (.inl (by simp [hw]))
    obtain ⟨hi, hnone⟩ := List.getElem?_eq_some_iff.mp hopen
    rw [hw] at h
    simp only [List.countP_append, List.countP_cons, Duty.isCounted] at h ⊢
    rw [List.countP_set hi, hnone]
    simp only [Option.any_none, Option.any_some, Bool.false_eq_true, if_false, Nat.sub_zero]
    omega

/-- So many obligations at most are left undecided or may yet be. -/
def Within (limit : Nat) (c : Crew) : Prop :=
  c.unproved + c.workers.countP (·.duty.isUnderway) ≤ limit

/-- Who is let through finds the count below the number of tries, and is one of the workers. -/
theorem Step.within {k j : Nat} (hs : Step p c c') (hp : Placed p c') (hk : p.config.tries = k)
    (hj : p.config.jobs = j) (h : c.Within (k + j - 1)) : c'.Within (k + j - 1) := by
  unfold Within at h ⊢
  cases hs with
  | deal _ _ => simpa [Duty.isUnderway] using h
  | @move before after i unproved d d' ob hw hob hmove =>
    have hle := hp.workers_le
    rw [hw] at h
    simp only [List.countP_append, List.countP_cons, List.length_append, List.length_cons]
      at h hle ⊢
    cases hmove with
    | skip _ => simpa [Duty.isUnderway] using h
    | enter hskips =>
      have hbefore := before.countP_le_length (p := (·.duty.isUnderway))
      have hafter := after.countP_le_length (p := (·.duty.isUnderway))
      have hcount : c.unproved < k := by
        simpa [Config.skips, hk] using hskips
      simp only [Duty.isUnderway, if_true] at hbefore hafter ⊢
      omega
    | prove k => simpa [Duty.isUnderway] using h
    | count r =>
      simp only [Duty.isUnderway, if_true, Bool.false_eq_true, if_false] at h ⊢
      split <;> omega
  | @hand before after i r hw =>
    rw [hw] at h
    simpa [Duty.isUnderway] using h

theorem countP_isUndecided_le (workers : List Worker) : workers.countP (·.duty.isUndecided) ≤
    workers.countP (·.duty.isCounted) + workers.countP (·.duty.isUnderway) := by
  induction workers with
  | nil => simp
  | cons w rest ih =>
    have hw := w.duty.isCounted_or_isUnderway
    simp only [List.countP_cons]
    split
    · rcases hw ‹_› with hw | hw
      · simp only [hw, if_true]
        omega
      · simp only [hw, if_true]
        omega
    · omega

theorem undecided_le {limit : Nat} (hc : c.Counted) (h : c.Within limit) : c.undecided ≤ limit := by
  have hle := countP_isUndecided_le c.workers
  unfold Counted at hc
  unfold Within at h
  unfold undecided
  omega

theorem unproved_le (hc : c.Counted) : c.unproved ≤ c.undecided := by
  have hle : c.workers.countP (·.duty.isCounted) ≤ c.workers.countP (·.duty.isUndecided) := by
    exact List.countP_mono_left fun w _ => w.duty.isUndecided_of_isCounted
  unfold Counted at hc
  unfold undecided
  omega

end Counting

section Holding

structure Sound (p : Prover) (limit : Nat) (c : Crew) : Prop where
  placed : Placed p c
  handled : Handled p c
  counted : c.Counted
  within : c.Within limit

variable {k j : Nat}

theorem sound_opening (hj : p.config.jobs = j) (h : 1 ≤ j) : Sound p (k + j - 1) (opening p) where
  placed := placed_opening (by omega)
  handled := handled_opening p
  counted := by simp [Counted, opening, List.countP_replicate]
  within := Nat.zero_le _

theorem Step.sound (hs : Step p c c') (hk : p.config.tries = k) (hj : p.config.jobs = j)
    (h : Sound p (k + j - 1) c) : Sound p (k + j - 1) c' :=
  have hplaced := hs.placed h.placed
  ⟨hplaced, hs.handled h.handled, hs.counted h.placed h.handled h.counted,
    hs.within hplaced hk hj h.within⟩

theorem Runs.sound (hr : Runs p c c') (hk : p.config.tries = k) (hj : p.config.jobs = j)
    (h : Sound p (k + j - 1) c) : Sound p (k + j - 1) c' := by
  induction hr with
  | refl => exact h
  | tail _ hs ih => exact hs.sound hk hj ih

/-- An obligation that was left out was started when enough others had been left undecided. -/
theorem Runs.exists_start (hr : Runs p (opening p) c) (hk : p.config.tries = k)
    (hj : p.config.jobs = j) (h : 1 ≤ j) (hknows : c.Knows i r) (hskipped : r.skipped = true) :
    ∃ before after, Runs p (opening p) before ∧ Step p before after ∧ Runs p after c ∧
      ⟨i, .fresh⟩ ∈ before.workers ∧ ⟨i, .settled r⟩ ∈ after.workers ∧ k ≤ before.undecided := by
  induction hr with
  | refl => exact absurd hknows (not_knows_opening p i r)
  | @tail b c hruns hs ih =>
    rcases hs.knows hknows with hold | ⟨d, d', ob, n, hd, hd', -, hmove, hnone, hr⟩
    · obtain ⟨before, after, hbefore, hstep, hafter, hrest⟩ := ih hold
      exact ⟨before, after, hbefore, hstep, hafter.tail hs, hrest⟩
    · cases hmove with
      | skip hskips =>
        cases hr
        refine ⟨b, c, hruns, hs, .refl, hd, hd', ?_⟩
        have hcount : k ≤ b.unproved := by simpa [Config.skips, hk] using hskips
        have hsound := Runs.sound hruns hk hj (sound_opening hj h)
        exact Nat.le_trans hcount (unproved_le hsound.counted)
      | prove x =>
        cases hr
        contradiction
      | enter _ | count _ => contradiction

end Holding

section Alternating

structure InTurn (k : Nat) (c : Crew) : Prop where
  last : ∀ w ∈ c.workers, w.position + 1 = c.next
  judged : ∀ {i r}, c.Knows i r → (r.skipped = true ↔ k ≤ c.undecidedBefore i)
  admitted : ∀ {i}, ⟨i, .admitted⟩ ∈ c.workers → c.undecidedBefore i < k

theorem undecidedBefore_eq (hp : Placed p c) (hi : i + 1 = c.next)
    (hm : i ∈ c.workers.map Worker.position) :
    c.undecidedBefore i = c.results.countP (·.any Result.isUndecided) := by
  have hrest : (c.results.drop i).countP (·.any Result.isUndecided) = 0 := by
    refine List.countP_eq_zero.mpr ?_
    intro x hx
    obtain ⟨n, hn⟩ := List.mem_iff_getElem?.mp hx
    rw [List.getElem?_drop] at hn
    have hlt : i + n < p.obligations.length := by
      rw [← hp.length_eq]
      exact (List.getElem?_eq_some_iff.mp hn).1
    have hopen : c.results[i + n]? = some none := by
      refine (hp.missing_iff _).mpr ?_
      cases n with
      | zero => exact .inl hm
      | succ n => exact .inr ⟨by omega, hlt⟩
    rw [hopen] at hn
    cases hn
    simp
  rw [undecidedBefore, ← Nat.add_zero (List.countP _ _), ← hrest, ← List.countP_append,
    List.take_append_drop]

theorem inTurn_opening (p : Prover) (k : Nat) : InTurn k (opening p) where
  last := by simp [opening]
  judged h := absurd h (not_knows_opening p _ _)
  admitted := by simp [opening]

theorem unproved_eq (hp : Placed p c) (hc : c.Counted) (h : InTurn k c) {d : Duty}
    (hw : c.workers = [⟨i, d⟩]) (hd : d.isCounted = false) :
    c.unproved = c.undecidedBefore i := by
  have hlast : i + 1 = c.next := h.last ⟨i, d⟩ (by simp [hw])
  rw [undecidedBefore_eq hp hlast (by simp [hw]), hc, hw]
  simp [hd]

theorem eq_nil_of_alone (hp : Placed p c) (hj : p.config.jobs = 1) {before after : List Worker}
    {w : Worker} (hw : c.workers = before ++ w :: after) : before = [] ∧ after = [] := by
  have hle := hp.workers_le
  simp only [hw, List.length_append, List.length_cons] at hle
  exact ⟨List.eq_nil_of_length_eq_zero (by omega), List.eq_nil_of_length_eq_zero (by omega)⟩

variable {k : Nat}

theorem InTurn.deal (h : InTurn k c) (hnone : c.workers = []) :
    InTurn k { c with next := c.next + 1, workers := ⟨c.next, .fresh⟩ :: c.workers } := by
  refine ⟨by simp [hnone], ?_, by simp [hnone]⟩
  rintro x r (hr | ⟨d, hd, hr⟩)
  · exact h.judged (.inl hr)
  · simp only [hnone, List.mem_singleton, Worker.mk.injEq] at hd
    obtain ⟨-, rfl⟩ := hd
    contradiction

theorem InTurn.move (h : InTurn k c) (hk : p.config.tries = k) {d d' : Duty} {unproved : Nat}
    {ob : Obligation} (hw : c.workers = [⟨i, d⟩])
    (hcount : d.isCounted = false → c.unproved = c.undecidedBefore i)
    (hmove : Duty.Moves p ob c.unproved d d' unproved) :
    InTurn k { c with workers := [⟨i, d'⟩], unproved } := by
  refine ⟨by simpa [hw] using h.last, ?_, ?_⟩
  · rintro x r (hr | ⟨e, he, hr⟩)
    · exact h.judged (.inl hr)
    · cases List.mem_singleton.mp he
      change r.skipped = true ↔ k ≤ c.undecidedBefore i
      cases hmove with
      | skip hskips =>
        cases hr
        simpa [Result.skip, Config.skips, hk, hcount rfl] using hskips
      | prove x =>
        cases hr
        have hlt := h.admitted (i := i) (by simp [hw])
        exact iff_of_false Bool.false_ne_true (Nat.not_le.mpr hlt)
      | count r => exact h.judged (.inr ⟨.attempted r, by simp [hw], hr⟩)
      | enter _ => contradiction
  · intro x hx
    cases List.mem_singleton.mp hx
    change c.undecidedBefore i < k
    cases hmove with
    | enter hskips => simpa [Config.skips, hk, hcount rfl] using hskips

theorem InTurn.hand (h : InTurn k c) (hp : Placed p c) (hw : c.workers = [⟨i, .settled r⟩]) :
    InTurn k { c with workers := [], results := c.results.set i (some r) } := by
  have hlast : i + 1 = c.next := h.last ⟨i, .settled r⟩ (by simp [hw])
  refine ⟨by simp, ?_, by simp⟩
  rintro x y (hy | ⟨e, he, -⟩)
  · have hknown : c.Knows x y := by
      rcases Step.mem_results (.hand (p := p) [] _ hw) hy with hy | hy
      · exact .inl hy
      · exact .inr ⟨_, hy, rfl⟩
    have hx : x ≤ i := by
      have hlt := hp.lt_of_knows hknown
      omega
    rw [h.judged hknown, undecidedBefore, undecidedBefore, List.take_set_of_le hx]
  · simp at he

theorem Step.inTurn (hs : Step p c c') (hp : Placed p c) (hc : c.Counted)
    (hk : p.config.tries = k) (hj : p.config.jobs = 1) (h : InTurn k c) : InTurn k c' := by
  cases hs with
  | deal _ hjobs => exact h.deal (List.eq_nil_of_length_eq_zero (by omega))
  | move _ _ hw _ hmove =>
    obtain ⟨rfl, rfl⟩ := eq_nil_of_alone hp hj hw
    exact h.move hk hw (unproved_eq hp hc h hw) hmove
  | hand _ _ hw =>
    obtain ⟨rfl, rfl⟩ := eq_nil_of_alone hp hj hw
    exact h.hand hp hw

theorem Runs.inTurn (hr : Runs p (opening p) c) (hk : p.config.tries = k)
    (hj : p.config.jobs = 1) : InTurn k c := by
  induction hr with
  | refl => exact inTurn_opening p k
  | tail hruns hs ih =>
    have hsound := Runs.sound (j := 1) hruns hk hj (sound_opening hj (Nat.le_refl 1))
    exact hs.inTurn hsound.placed hsound.counted hk hj ih

end Alternating

end Discharge.Search.Crew
