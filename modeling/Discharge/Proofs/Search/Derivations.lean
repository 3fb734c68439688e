import Discharge.Proofs.Congruence.Matching
import Discharge.Proofs.Search.Rounds

/-!
What a search can do to an obligation, whatever the order in which it tries its rules and wherever
it stops: it inserts the terms of rules without variables, and instances of other rules under
bindings that these found at an earlier point. Every invariant of a search follows by induction on
this relation.
-/

namespace Discharge.Search

open Congruence

/-- The obligations that rules lead to. -/
inductive Derives (rules : Array Rule) : Obligation → Obligation → Prop where
  | refl (ob : Obligation) : Derives rules ob ob
  | ground {ob ob' : Obligation} {r : Rule} (h : Derives rules ob ob') (hr : r ∈ rules)
      (hg : r.isGround = true) : Derives rules ob (ob'.assume r.insert).2
  | apply {ob found ob' : Obligation} {r : Rule} {b : Binding} {reach : Reach}
      (h : Derives rules ob found) (h' : Derives rules found ob') (hr : r ∈ rules)
      (hb : b ∈ r.search found reach) (hbind : r.bindsInsert b = true) :
      Derives rules ob (ob'.assume (r.instantiate ob'.model b)).2

section Searching

variable {rules : Array Rule} {start ob ob' : Obligation}

theorem Derives.trans (h : Derives rules start ob) (h' : Derives rules ob ob') :
    Derives rules start ob' := by
  induction h' with
  | refl => exact h
  | ground _ hr hg ih => exact .ground (ih h) hr hg
  | apply _ h' hr hb hbind ih _ => exact .apply (ih h) h' hr hb hbind

theorem Derives.frame (h : Derives rules start ob) :
    ob.condition = start.condition ∧ ob.goals = start.goals := by
  induction h with
  | refl => exact ⟨rfl, rfl⟩
  | ground _ _ _ ih => exact ih
  | apply _ _ _ _ _ ih ih' => exact ⟨ih'.1.trans ih.1, ih'.2.trans ih.2⟩

end Searching

def Offering (found : Obligation) (r : Rule) (offers : List Offer) : Prop :=
  ∀ o ∈ offers, r.bindsInsert o.binding = true ∧ ∃ reach, o.binding ∈ r.search found reach

namespace Rule

variable {rules : Array Rule} {r : Rule} {found ob : Obligation}

theorem offering_offer (r : Rule) (ob : Obligation) (reach : Reach) (o : Offers) :
    Offering ob r (r.offer ob reach o).2.pending := by
  unfold offer
  split
  · intro o ho
    simp at ho
  · intro f hf
    have hfound := (List.mem_filter.mp (mem_of_mem_firstOfKey (List.mem_mergeSort.mp hf))).1
    obtain ⟨b, hb, rfl⟩ := List.mem_map.mp hfound
    obtain ⟨hsearch, hbind⟩ := List.mem_filter.mp hb
    exact ⟨hbind, reach, hsearch⟩

theorem draw_spec (hr : r ∈ rules) (hd : Derives rules found ob) (pending : List Offer)
    (taken : List Text) (h : Offering found r pending) :
    (∀ c, (r.draw ob.model pending taken).1 = some c →
      Derives rules found (ob.assume c.term).2) ∧
      Offering found r (r.draw ob.model pending taken).2.1 := by
  induction pending generalizing taken with
  | nil => simpa [draw] using h
  | cons o rest ih =>
    obtain ⟨hbind, reach, hb⟩ := h o List.mem_cons_self
    have hrest : Offering found r rest := fun p hp => h p (List.mem_cons_of_mem _ hp)
    unfold draw
    dsimp only
    split
    · exact ih _ hrest
    · refine ⟨?_, hrest⟩
      intro c hc
      cases hc
      exact .apply (.refl found) hd hr hb hbind

theorem next_spec (hr : r ∈ rules) (hd : Derives rules found ob) {o : Offers}
    (h : Offering found r o.pending) :
    (∀ c, (r.next ob.model o).1 = some c → Derives rules found (ob.assume c.term).2) ∧
      Offering found r (r.next ob.model o).2.pending := by
  unfold next
  split
  · rename_i hground
    split
    · exact ⟨by simp, h⟩
    · refine ⟨?_, h⟩
      intro c hc
      cases hc
      exact .ground hd hr hground
  · exact draw_spec hr hd o.pending o.taken h

end Rule

namespace Attempt

variable {a b : Attempt} {c : Context} {r : Ranked} {p : Progress} {found : Obligation}

/-- An attempt that has come from where the offers of a rule were found. -/
structure Ready (a : Attempt) (c : Context) (r : Ranked) (found : Obligation) : Prop where
  derives : Derives c.rules found a.obligation
  offering : Offering found r.rule (a.offersOf r.position).pending

theorem ready_offered (c : Context) (a : Attempt) (r : Ranked) :
    (a.offered c r).Ready c r a.obligation := by
  refine ⟨.refl _, ?_⟩
  rw [offersOf_offered_self]
  exact Rule.offering_offer r.rule a.obligation _ _

theorem Ready.retire (h : a.Ready c r found) : (a.retire r).Ready c r found := by
  obtain ⟨active, he⟩ := a.retire_eq r
  rw [he]
  exact ⟨h.derives, h.offering⟩

theorem ready_draw (hr : r.rule ∈ c.rules) (h : a.Ready c r found) :
    (a.draw r).2.Ready c r found ∧ ∀ t, (a.draw r).1 = some t →
      Derives c.rules found ((a.draw r).2.obligation.assume t.term).2 := by
  obtain ⟨hcand, hoffer⟩ := Rule.next_spec hr h.derives h.offering
  refine ⟨⟨h.derives, ?_⟩, hcand⟩
  rw [offersOf_draw_self]
  exact hoffer

theorem Insertions.derives {t : Candidate} {out : Option (Candidate × Change)}
    (h : Insertions c r t a out b) (hr : r.rule ∈ c.rules) (hready : a.Ready c r found)
    (ht : Derives c.rules found (a.obligation.assume t.term).2) :
    Derives c.rules found b.obligation := by
  induction h with
  | fresh => exact ht
  | late => exact ht
  | vain => exact ht
  | @again t next a _ _ _ _ _ hdraw _ ih =>
    have hlooked : (a.looked c t).2.Ready c r found := ⟨ht, hready.offering⟩
    obtain ⟨hdrawn, hcand⟩ := ready_draw hr hlooked
    exact ih hdrawn (hcand next hdraw)

theorem Trial.derives {made : Bool} (h : Trial c p r a made b) (hr : r.rule ∈ c.rules) :
    Derives c.rules a.obligation b.obligation := by
  obtain ⟨hready, hcand⟩ := ready_draw hr (ready_offered c a r)
  obtain ⟨active, he⟩ := ((a.offered c r).draw r).2.retire_eq r
  have hretired := hready.retire
  rw [he] at hretired
  cases h with
  | noMatch => exact .refl _
  | emptied hdraw h =>
    rw [he] at h
    exact h.derives hr hretired (hcand _ hdraw)
  | @step t t' change b hdraw h =>
    rw [he] at h
    obtain ⟨lines, hrecord⟩ := b.record_eq c p r a.looks t' change
    rw [hrecord]
    exact h.derives hr hretired (hcand _ hdraw)

theorem Round.derives {rs : List Ranked} {n : Nat} (h : Round c p rs a n b)
    (hrs : ∀ r ∈ rs, r.rule ∈ c.rules) : Derives c.rules a.obligation b.obligation := by
  induction h with
  | nil => exact .refl _
  | ended => exact .refl _
  | late => exact .refl _
  | made _ _ hfirst _ ih =>
    obtain ⟨hr, hrest⟩ := List.forall_mem_cons.mp hrs
    exact (hfirst.derives hr).trans (ih hrest)
  | vain _ _ hfirst _ ih =>
    obtain ⟨hr, hrest⟩ := List.forall_mem_cons.mp hrs
    exact (hfirst.derives hr).trans (ih hrest)

theorem Rounds.derives {round : Nat} (h : Rounds c round a b) :
    Derives c.rules a.obligation b.obligation := by
  induction h with
  | decided => exact .refl _
  | late => exact .refl _
  | idle _ _ hround => exact hround.derives fun _ hr => mem_rules_of_mem_queue hr
  | next _ _ hround _ ih =>
    exact (hround.derives fun _ hr => mem_rules_of_mem_queue hr).trans ih

/-- An attempt does nothing that its rules do not lead to. -/
theorem derives_run (c : Context) (ob : Obligation) :
    Derives c.rules ob (run c ob).obligation := (rounds_run c ob).derives

end Attempt

end Discharge.Search
