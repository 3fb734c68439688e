import Discharge.Search.Attempt

/-!
Searches by different moves. If single moves come to the same, and so do not fail, then the loops
that are made of them do.
-/

namespace Discharge.Search.Moves

variable {μ : Type → Type} [Monad μ] {σ : Type} {m : Moves μ σ} {n : Moves Id σ} {c : Context}
  {Sound : σ → Prop} {Fit : Ranked → Prop} {s : σ} {r : Ranked}

/-- Whether moves that may fail do what others do to a state that is sound, by rules that fit. -/
structure Agrees (m : Moves μ σ) (n : Moves Id σ) (c : Context) (Sound : σ → Prop)
    (Fit : Ranked → Prop) : Prop where
  attempt_eq : m.attempt = n.attempt
  put_eq : m.put = n.put
  giveUp_eq : m.giveUp = n.giveUp
  status : ∀ {s}, Sound s → m.status s = pure (n.status s).run
  queue : ∀ {s}, Sound s → m.queue s = pure (n.queue s).run ∧ ∀ r ∈ (n.queue s).run, Fit r
  choose : ∀ {s r}, Fit r → Sound s → m.choose r s = pure (n.choose r s).run ∧
    Sound (n.choose r s).run.2
  draw : ∀ {s r}, Sound s → m.draw r s = pure (n.draw r s).run ∧ Sound (n.draw r s).run.2
  insert : ∀ {s r t}, Sound s → m.insert r t s = pure (n.insert r t s).run ∧
    Sound (n.insert r t s).run.2
  record : ∀ p r selected t change {s}, Sound s →
    m.record p r selected t change s = pure (n.record p r selected t change s).run ∧
      Sound (n.record p r selected t change s).run
  look : ∀ {s}, Sound s → Sound (n.look c s).2
  retire : ∀ {s r}, Sound s → Sound (n.put s ((n.attempt s).retire r))
  giveUp : ∀ {s r l}, Sound s → Sound (n.giveUp r l s)

namespace Agrees

variable (h : m.Agrees n c Sound Fit)

include h

theorem look_eq : m.look c s = n.look c s := by
  rw [Moves.look, Moves.look, h.attempt_eq, h.put_eq]

variable [LawfulMonad μ]

theorem pursue (fuel : Nat) (t : Candidate) (hs : Sound s) :
    m.pursue c r fuel t s = pure (n.pursue c r fuel t s).run ∧
      Sound (n.pursue c r fuel t s).run.2 := by
  induction fuel generalizing t s with
  | zero => exact ⟨rfl, hs⟩
  | succ fuel ih =>
    obtain ⟨hinsert, hinserted⟩ := h.insert (r := r) (t := t) hs
    rw [Moves.pursue, Moves.pursue, hinsert, pure_bind, Id.run_bind]
    generalize (n.insert r t s).run = out at hinserted ⊢
    obtain ⟨change, s'⟩ := out
    dsimp only at hinserted ⊢
    split
    · exact ⟨rfl, hinserted⟩
    · have hlooked := h.look hinserted
      rw [h.look_eq]
      generalize n.look c s' = out at hlooked ⊢
      obtain ⟨running, s'⟩ := out
      dsimp only at hlooked ⊢
      split
      · exact ⟨rfl, hlooked⟩
      · obtain ⟨hdraw, hdrawn⟩ := h.draw (r := r) hlooked
        rw [hdraw, pure_bind, Id.run_bind]
        generalize (n.draw r s').run = out at hdrawn ⊢
        obtain ⟨found, s'⟩ := out
        cases found with
        | none => exact ⟨rfl, hdrawn⟩
        | some t' => exact ih t' hdrawn

theorem tryRule (p : Attempt.Progress) (hr : Fit r) (hs : Sound s) :
    m.tryRule c p r s = pure (n.tryRule c p r s).run ∧ Sound (n.tryRule c p r s).run.2 := by
  obtain ⟨hchoose, hchosen⟩ := h.choose hr hs
  rw [Moves.tryRule, Moves.tryRule, hchoose, pure_bind, Id.run_bind, h.attempt_eq, h.put_eq,
    h.giveUp_eq]
  generalize (n.choose r s).run = out at hchosen ⊢
  obtain ⟨found, s'⟩ := out
  cases found with
  | none => exact ⟨rfl, h.giveUp hchosen⟩
  | some t =>
    dsimp only
    obtain ⟨hpursue, hpursued⟩ := h.pursue (r := r)
      ((((n.attempt s').retire r).offersOf r.position).pending.length + 1) t (h.retire hchosen)
    rw [hpursue, pure_bind, Id.run_bind]
    generalize (n.pursue c r _ t _).run = out at hpursued ⊢
    obtain ⟨made, s''⟩ := out
    cases made with
    | none => exact ⟨rfl, h.giveUp hpursued⟩
    | some made =>
      obtain ⟨t', change⟩ := made
      obtain ⟨hrecord, hrecorded⟩ := h.record p r (n.attempt s).looks t' change hpursued
      dsimp only
      rw [hrecord, pure_bind]
      exact ⟨rfl, hrecorded⟩

theorem tryRules (p : Attempt.Progress) (rs : List Ranked) (hrs : ∀ r ∈ rs, Fit r)
    (hs : Sound s) :
    m.tryRules c p rs s = pure (n.tryRules c p rs s).run ∧ Sound (n.tryRules c p rs s).run.2 := by
  induction rs generalizing p s with
  | nil => exact ⟨rfl, hs⟩
  | cons r rest ih =>
    obtain ⟨hr, hrest⟩ := List.forall_mem_cons.mp hrs
    rw [Moves.tryRules, Moves.tryRules, h.status hs, pure_bind, Id.run_bind]
    split
    · exact ⟨rfl, hs⟩
    · have hlooked := h.look hs
      rw [h.look_eq]
      generalize n.look c s = out at hlooked ⊢
      obtain ⟨running, s'⟩ := out
      cases running with
      | false => exact ⟨rfl, hlooked⟩
      | true =>
        obtain ⟨htry, htried⟩ := h.tryRule p hr hlooked
        dsimp only
        rw [htry, pure_bind, Id.run_bind]
        generalize (n.tryRule c p r s').run = out at htried ⊢
        obtain ⟨made, s''⟩ := out
        cases made <;> exact ih _ hrest htried

theorem rounds (fuel round : Nat) (hs : Sound s) :
    m.rounds c fuel round s = pure (n.rounds c fuel round s).run ∧
      Sound (n.rounds c fuel round s).run := by
  induction fuel generalizing round s with
  | zero => exact ⟨rfl, hs⟩
  | succ fuel ih =>
    rw [Moves.rounds, Moves.rounds, h.status hs, pure_bind, Id.run_bind]
    split
    · exact ⟨rfl, hs⟩
    · have hlooked := h.look hs
      rw [h.look_eq]
      generalize n.look c s = out at hlooked ⊢
      obtain ⟨running, s'⟩ := out
      cases running with
      | false => exact ⟨rfl, hlooked⟩
      | true =>
        obtain ⟨hqueue, hfit⟩ := h.queue hlooked
        obtain ⟨htry, htried⟩ := h.tryRules ⟨round, 0, (n.attempt s').looks⟩ _ hfit hlooked
        dsimp only
        rw [hqueue, pure_bind, Id.run_bind, h.attempt_eq, htry, pure_bind, Id.run_bind]
        generalize (n.tryRules c _ _ s').run = out at htried ⊢
        obtain ⟨made, s''⟩ := out
        cases made with
        | zero => exact ⟨rfl, htried⟩
        | succ _ => exact ih _ htried

theorem run (hs : Sound s) : m.run c s = pure (n.run c s).run := (h.rounds _ 0 hs).1

end Agrees

end Discharge.Search.Moves
