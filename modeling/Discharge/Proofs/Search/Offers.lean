import Discharge.Proofs.Search.Instances

namespace Discharge.Search

open Congruence

def Obligation.taking (ob : Obligation) : Option Candidate → Obligation
  | none => ob
  | some c => (ob.assume c.term).2

theorem Obligation.extends_taking {ob : Obligation} (h : ob.model.Closed) (c : Option Candidate) :
    ob.model.Extends (ob.taking c).model := by
  cases c with
  | none => exact .refl _
  | some c => exact (Model.closed_assume h c.term).2

/-- Whether the offer of a key is pending or was taken. -/
def Offers.Covers (o : Offers) (key : Text) : Prop := key ∈ o.taken ∨ ∃ f ∈ o.pending, f.key = key

namespace Rule

variable {r : Rule} {m n : Model} {ob : Obligation} {o : Offers}

/-- Whether a key is that of a binding whose instance a model was told. -/
def Spent (r : Rule) (m : Model) (key : Text) : Prop :=
  ∃ b, key = r.keyOf b ∧ Clear b ∧ m.Told (r.inserted b)

theorem Spent.of_extends {key : Text} (h : r.Spent m key) (hext : m.Extends n) : r.Spent n key := by
  obtain ⟨b, hkey, hclear, htold⟩ := h
  exact ⟨b, hkey, hclear, htold.of_extends hext⟩

structure Sincere (r : Rule) (f : Offer) : Prop where
  key_eq : f.key = r.keyOf f.binding
  clear : Clear f.binding

section Drawing

theorem spent_draw (hob : ob.model.Orderly) (pending : List Offer) (taken : List Text)
    (hpending : ∀ f ∈ pending, r.Sincere f) (htaken : ∀ key ∈ taken, r.Spent ob.model key) :
    (∀ key ∈ (r.draw ob.model pending taken).2.2,
      r.Spent (ob.taking (r.draw ob.model pending taken).1).model key) ∧
      (r.draw ob.model pending taken).2.1 ⊆ pending := by
  induction pending generalizing taken with
  | nil => exact ⟨htaken, List.Subset.refl _⟩
  | cons f rest ih =>
    obtain ⟨⟨hkey, hclear⟩, hrest⟩ := List.forall_mem_cons.mp hpending
    unfold draw
    dsimp only
    split
    · rename_i htrivial
      have hspent : r.Spent ob.model f.key :=
        ⟨f.binding, hkey, hclear, .trivial hob (.refl _) htrivial⟩
      obtain ⟨hout, hsub⟩ := ih (f.key :: taken) hrest (List.forall_mem_cons.mpr ⟨hspent, htaken⟩)
      exact ⟨hout, List.subset_cons_of_subset _ hsub⟩
    · refine ⟨List.forall_mem_cons.mpr ⟨?_, ?_⟩, List.subset_cons_self _ _⟩
      · exact ⟨f.binding, hkey, hclear, .restated hob (.refl _)⟩
      · intro key hmem
        exact (htaken key hmem).of_extends (Model.closed_assume hob.closed _).2

theorem spent_next (hob : ob.model.Orderly) (hpending : ∀ f ∈ o.pending, r.Sincere f)
    (htaken : ∀ key ∈ o.taken, r.Spent ob.model key) :
    (∀ key ∈ (r.next ob.model o).2.taken,
      r.Spent (ob.taking (r.next ob.model o).1).model key) ∧
      (r.next ob.model o).2.pending ⊆ o.pending := by
  unfold next
  split
  · split
    · exact ⟨htaken, List.Subset.refl _⟩
    · refine ⟨?_, List.Subset.refl _⟩
      intro key hmem
      exact (htaken key hmem).of_extends (Model.closed_assume hob.closed _).2
  · exact spent_draw hob o.pending o.taken hpending htaken

theorem covers_next {key : Text} (m : Model) (h : o.Covers key) : (r.next m o).2.Covers key := by
  unfold next
  split
  · split
    · exact h
    · exact h
  · obtain ⟨hsub, hcover, -⟩ := r.draw_frame m o.pending o.taken
    rcases h with h | ⟨f, hf, rfl⟩
    · exact .inl (hsub h)
    · exact (hcover f hf).imp_right fun hmem => ⟨f, hmem, rfl⟩

end Drawing

section Offering

theorem offer_frame (r : Rule) (ob : Obligation) (reach : Reach) (o : Offers) :
    (r.offer ob reach o).2.taken = o.taken ∧ (r.offer ob reach o).2.used = o.used := by
  unfold offer
  split
  · exact ⟨rfl, rfl⟩
  · exact ⟨rfl, rfl⟩

theorem sincere_offer (hob : ob.model.Orderly) (reach : Reach) (o : Offers) :
    ∀ f ∈ (r.offer ob reach o).2.pending, r.Sincere f := by
  unfold offer
  split
  · intro f hf
    simp at hf
  · intro f hf
    have hfound := (List.mem_filter.mp (mem_of_mem_firstOfKey (List.mem_mergeSort.mp hf))).1
    obtain ⟨b, hb, rfl⟩ := List.mem_map.mp hfound
    have hvalued := valued_of_mem_search hob.closed (List.mem_filter.mp hb).1
    exact ⟨bindingKey_eq hob.closed hvalued, clear_of_valued hob hvalued⟩

/-- Every binding that a rule finds is offered, or another of its key was taken before. -/
theorem covers_offer (hob : ob.model.Closed) (hground : r.isGround = false) {reach : Reach}
    (o : Offers) {b : Binding} (hb : b ∈ r.search ob reach) (hbind : r.bindsInsert b = true) :
    (r.offer ob reach o).2.Covers (r.keyOf b) := by
  rw [← bindingKey_eq hob (valued_of_mem_search hob hb)]
  unfold offer
  rw [if_neg (by simp [hground])]
  dsimp only
  by_cases htaken : r.bindingKey ob.model.vocabulary b ∈ o.taken
  · exact .inl htaken
  · -- Of the bindings with one key only the first is offered.
    right
    have hfound : Offer.mk b (r.bindingKey ob.model.vocabulary b) (ob.model.vocabulary.score b) ∈
        (((r.search ob reach).filter r.bindsInsert).map fun b =>
          Offer.mk b (r.bindingKey ob.model.vocabulary b) (ob.model.vocabulary.score b)).filter
            fun f => !o.taken.contains f.key := by
      refine List.mem_filter.mpr ⟨?_, by simpa using htaken⟩
      exact List.mem_map_of_mem (List.mem_filter.mpr ⟨hb, hbind⟩)
    obtain ⟨f, hf, hkey⟩ := (firstOfKey_spec _).2 _ hfound
    exact ⟨f, List.mem_mergeSort.mpr hf, hkey⟩

end Offering

end Rule

end Discharge.Search
