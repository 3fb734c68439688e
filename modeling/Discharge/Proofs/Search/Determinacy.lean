import Discharge.Proofs.Search.Independence

namespace Discharge.Search

open Congruence

structure Obligation.Alike (ob ob' : Obligation) : Prop where
  model : ob.model = ob'.model
  goals : ob.goals = ob'.goals
  id : ob.condition.id = ob'.condition.id

namespace Obligation.Alike

variable {ob ob' : Obligation}

theorem status (h : ob.Alike ob') : ob.status = ob'.status := by
  obtain ⟨c, m, goals⟩ := ob
  obtain ⟨c', m', goals'⟩ := ob'
  obtain ⟨rfl, rfl, -⟩ := h
  rfl

theorem offer (h : ob.Alike ob') (r : Rule) (reach : Reach) (o : Offers) :
    r.offer ob reach o = r.offer ob' reach o := by
  obtain ⟨c, m, goals⟩ := ob
  obtain ⟨c', m', goals'⟩ := ob'
  obtain ⟨rfl, rfl, -⟩ := h
  rfl

theorem assume (h : ob.Alike ob') (t : Term) :
    (ob.assume t).1 = (ob'.assume t).1 ∧ (ob.assume t).2.Alike (ob'.assume t).2 := by
  obtain ⟨c, m, goals⟩ := ob
  obtain ⟨c', m', goals'⟩ := ob'
  obtain ⟨rfl, rfl, hid⟩ := h
  exact ⟨rfl, rfl, rfl, hid⟩

theorem addConjunct {ob ob' : Obligation} (h : ob.Alike ob') (t : Term) :
    (ob.addConjunct t).Alike (ob'.addConjunct t) := by
  obtain ⟨c, m, goals⟩ := ob
  obtain ⟨c', m', goals'⟩ := ob'
  obtain ⟨rfl, rfl, hid⟩ := h
  exact ⟨rfl, rfl, hid⟩

theorem foldl_addConjunct {ob ob' : Obligation} (h : ob.Alike ob') (ts : List Term) :
    (ts.foldl Obligation.addConjunct ob).Alike (ts.foldl Obligation.addConjunct ob') := by
  induction ts generalizing ob ob' with
  | nil => exact h
  | cons t rest ih => exact ih (h.addConjunct t)

theorem new (n : Normalizer) {c c' : Condition} (hid : c.id = c'.id)
    (hsequent : c.sequent = c'.sequent) : (Obligation.new n c).Alike (Obligation.new n c') := by
  have hstart : Obligation.Alike ⟨c, .empty, []⟩ ⟨c', .empty, []⟩ := ⟨rfl, rfl, hid⟩
  have h := hstart.foldl_addConjunct (c.sequent.right.flatMap fun t => (n.normalize t).conjuncts)
  unfold Obligation.new
  dsimp only
  rw [← hsequent]
  exact ⟨by rw [h.model], h.goals, h.id⟩

end Obligation.Alike

structure Course.Alike (w w' : Course) : Prop where
  obligation : w.obligation.Alike w'.obligation
  active : w.active = w'.active
  applied : w.applied = w'.applied
  stage : w.stage = w'.stage

section Alike

variable {c c' : Context} {w w' : Course}

theorem Course.Alike.queue (hrules : c.rules = c'.rules) (hhelpers : c.helpers = c'.helpers)
    (h : w.Alike w') : w.queue c = w'.queue c' := by
  unfold Course.queue ranking Course.appliedOf
  rw [h.active, h.applied, hrules, hhelpers, h.obligation.model]

theorem Course.Alike.step (hrules : c.rules = c'.rules) (hhelpers : c.helpers = c'.helpers)
    (h : w.Alike w') (times times' : Times) (b : Board) :
    (w.step c times b).1.Alike (w'.step c' times' b).1 ∧
      (w.step c times b).2 = (w'.step c' times' b).2 := by
  have hid : w.id = w'.id := h.obligation.id
  unfold Course.step
  rw [← h.stage, ← h.obligation.status, ← h.queue hrules hhelpers, ← hid]
  cases w.stage with
  | resting round =>
    dsimp only
    split <;> exact ⟨⟨h.obligation, h.active, h.applied, rfl⟩, rfl⟩
  | trying round chosen queue =>
    cases queue with
    | nil => exact ⟨⟨h.obligation, h.active, h.applied, rfl⟩, rfl⟩
    | cons r rest =>
      dsimp only
      split
      · exact ⟨⟨h.obligation, h.active, h.applied, rfl⟩, rfl⟩
      · rw [← h.obligation.offer, Course.appliedOf, Course.appliedOf, ← h.applied]
        exact ⟨⟨h.obligation, h.active, rfl, rfl⟩, rfl⟩
  | drawing round chosen rest r again =>
    dsimp only
    rw [← h.obligation.model]
    split
    · exact ⟨⟨h.obligation, h.active, h.applied, rfl⟩, rfl⟩
    · rw [← h.active]
      exact ⟨⟨h.obligation, rfl, h.applied, rfl⟩, rfl⟩
  | inserting round chosen rest r candidate =>
    obtain ⟨hchange, hob⟩ := h.obligation.assume candidate.term
    dsimp only
    rw [← hchange]
    split <;> exact ⟨⟨hob, h.active, h.applied, rfl⟩, rfl⟩
  | finished => exact ⟨⟨h.obligation, h.active, h.applied, rfl⟩, rfl⟩
  | gone => exact ⟨⟨h.obligation, h.active, h.applied, h.stage ▸ rfl⟩, rfl⟩

theorem Course.Alike.follow (hrules : c.rules = c'.rules) (hhelpers : c.helpers = c'.helpers)
    (h : w.Alike w') (times : List Times) (b : Board) :
    (follow c times (w, b)).1.Alike (follow c' times (w', b)).1 := by
  induction times generalizing w w' b with
  | nil => exact h
  | cons t rest ih =>
    obtain ⟨hstep, hboard⟩ := h.step hrules hhelpers t t b
    change (follow c rest (w.step c t b)).1.Alike (follow c' rest (w'.step c' t b)).1
    have hpair : w'.step c' t b = ((w'.step c' t b).1, (w.step c t b).2) := by rw [hboard]
    rw [hpair]
    exact ih hstep _

end Alike

/-- Attempts that nothing stops come to the same verdict if they have the same rules and begin
alike. -/
theorem Attempt.status_run_congr {c c' : Context} {ob ob' : Obligation}
    (hrules : c.rules = c'.rules) (hhelpers : c.helpers = c'.helpers) (h : ob.Alike ob')
    (hgo : (run c ob).stopped = false) (hgo' : (run c' ob').stopped = false) :
    (run c ob).obligation.status = (run c' ob').obligation.status := by
  obtain ⟨n, hn⟩ := Course.ended_follow hgo
  obtain ⟨n', hn'⟩ := Course.ended_follow hgo'
  have hstart : (Course.start c ob).Alike (Course.start c' ob') :=
    ⟨h, by rw [Course.start, Course.start, hrules], rfl, rfl⟩
  have hfollow := hstart.follow hrules hhelpers (List.replicate (n + n') default) fun _ _ => none
  obtain ⟨hends, hended⟩ := hn (List.replicate (n + n') default)
  obtain ⟨hends', hended'⟩ := hn' (List.replicate (n + n') default)
  have hob := (hended (hends (by simp))).obligation
  have hob' := (hended' (hends' (by simp))).obligation
  rw [← hob, ← hob']
  exact hfollow.obligation.status

namespace Prover

variable {module module' : Text} {conditions conditions' : List Condition}
  {library library' : Library} {config config' : Config} {p p' : Prover}

theorem context_of_same_theorems
    (htheorems : (library.theorems module .transitive).theorems =
      (library'.theorems module' .transitive).theorems)
    (hnormalizer : normalizer library module = normalizer library' module')
    (hallow : config.allowNew = config'.allowNew)
    (hp : Prover.new module conditions library config = .ok p)
    (hp' : Prover.new module' conditions' library' config' = .ok p') :
    p.rules = p'.rules ∧ p.helpers = p'.helpers := by
  unfold normalizer at hnormalizer
  unfold Prover.new at hp hp'
  dsimp only at hp hp'
  rw [htheorems, hnormalizer, hallow] at hp
  split at hp
  · cases hp
  split at hp'
  · cases hp'
  split at hp
  · cases hp
  rename_i rules hrules
  rw [hrules] at hp'
  cases hp
  cases hp'
  exact ⟨rfl, rfl⟩

theorem new_congr
    (htheorems : (library.theorems module .transitive).theorems =
      (library'.theorems module .transitive).theorems)
    (hnormalizer : normalizer library module = normalizer library' module) :
    Prover.new module conditions library config = Prover.new module conditions library' config := by
  have hsorts : library.hasIntegerSorts module = library'.hasIntegerSorts module :=
    congrArg Normalizer.integerSorts hnormalizer
  unfold Prover.new
  rw [htheorems, hsorts]

end Prover

end Discharge.Search
