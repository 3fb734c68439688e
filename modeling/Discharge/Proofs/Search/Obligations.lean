import Discharge.Search.Obligation
import Discharge.Proofs.Congruence.Saturation
import Discharge.Proofs.Congruence.Simplification

/-!
Obligations are kept. As long as only true terms are assumed, some interpretation satisfies the
model of an obligation, and the names of a goal have the values of the disjuncts that it was
registered for. So a condition whose goals are met has true conclusions, and a model with a true
interpretation is not contradictory.
-/

namespace Discharge.Search

open Congruence

universe u

variable {D : Type u} {I : Interpretation D}

/-- Whether the names of a goal have the values of disjuncts wherever the model is satisfied. -/
def StandsFor (I : Interpretation D) (m : Model) (goal : List Text) (disjuncts : List Term) :
    Prop :=
  ∀ J, I.Variant J → m.Satisfied J → ∀ g ∈ goal, ∃ d ∈ disjuncts, J.value g = J.read d

theorem StandsFor.of_extends {m n : Model} {goal : List Text} {ds : List Term}
    (h : StandsFor I m goal ds) (hm : m.Closed) (hext : m.Extends n) : StandsFor I n goal ds :=
  fun J hJ hs => h J hJ (hs.of_extends hm.filed hext)

/-- A model that a variant of an interpretation satisfies. -/
structure Grounded (m : Model) (I : Interpretation D) : Prop where
  closed : m.Closed
  named : m.vocabulary.Named
  satisfiable : ∃ J, I.Variant J ∧ m.Satisfied J

theorem grounded_empty (I : Interpretation D) : Grounded Model.empty I :=
  ⟨Model.closed_empty, Model.named_empty, I, .refl I, Model.satisfied_empty I⟩

theorem Grounded.assume {m : Model} (h : Grounded m I) (hI : I.Lawful) {t : Term}
    (hn : t.named = true) (ht : ∀ J, I.Variant J → m.Satisfied J → J.read t = J.truth) :
    Grounded (m.assume t).2 I ∧ m.Extends (m.assume t).2 := by
  obtain ⟨hclosed, hext⟩ := Model.closed_assume h.closed t
  exact ⟨⟨hclosed, Model.named_assume h.named hn,
    Model.exists_satisfied_assume hI h.closed h.satisfiable ht⟩, hext⟩

theorem Grounded.assume_plain {m : Model} (h : Grounded m I) (hI : I.Lawful) {t : Term}
    (hp : t.plain = true) (ht : I.read t = I.truth) :
    Grounded (m.assume t).2 I ∧ m.Extends (m.assume t).2 := by
  refine h.assume hI (Term.named_of_plain t hp) ?_
  intro J hJ _
  rw [hJ.read_eq hp, ht, hJ.truth_eq]

theorem Grounded.represent {m : Model} (h : Grounded m I) (hI : I.Lawful) {t : Term}
    (hn : t.named = true) : Grounded (m.represent t).2 I ∧ m.Extends (m.represent t).2 ∧
      (m.represent t).1 < (m.represent t).2.vocabulary.size := by
  obtain ⟨hclosed, hext, hlt⟩ := Model.closed_represent h.closed t
  exact ⟨⟨hclosed, Model.named_represent h.named hn,
    Model.exists_satisfied_represent hI h.closed h.satisfiable⟩, hext, hlt⟩

namespace Obligation

theorem representAll_spec (hI : I.Lawful) (ts : List Term) {m : Model} (h : Grounded m I)
    (hts : ∀ t ∈ ts, t.named = true) :
    Grounded (representAll ts m).2 I ∧ m.Extends (representAll ts m).2 ∧
      ∀ i ∈ (representAll ts m).1, i < (representAll ts m).2.vocabulary.size ∧
        ∃ t ∈ ts, ∀ J, I.Variant J → (representAll ts m).2.Satisfied J →
          (representAll ts m).2.vocabulary.value J i = J.read t := by
  induction ts generalizing m with
  | nil => exact ⟨h, .refl m, by simp [representAll]⟩
  | cons t rest ih =>
    obtain ⟨hfirst, hext, hlt⟩ := h.represent hI (hts t List.mem_cons_self)
    obtain ⟨hrest, hext', hvals⟩ := ih hfirst fun s hs => hts s (List.mem_cons_of_mem _ hs)
    rw [representAll]
    refine ⟨hrest, hext.trans hext', List.forall_mem_cons.mpr ⟨⟨hext'.lt hlt, ?_⟩, ?_⟩⟩
    · refine ⟨t, List.mem_cons_self, ?_⟩
      intro J hJ hs
      rw [hext'.vocabulary.value_eq hlt]
      exact (hs.of_extends hfirst.closed.filed hext').value_represent h.closed (hJ.lawful hI)
    · intro i hi
      obtain ⟨hlt', s, hs, hval⟩ := hvals i hi
      exact ⟨hlt', s, List.mem_cons_of_mem _ hs, hval⟩

/-- The state of an obligation whose conclusions have goals that stand for them. -/
structure Kept (ob : Obligation) (I : Interpretation D) (conclusions : List Term) : Prop where
  grounded : Grounded ob.model I
  goals : ∀ t ∈ conclusions, ∃ goal ∈ ob.goals, StandsFor I ob.model goal t.disjuncts

section Keeping

variable {ob : Obligation} {cs : List Term}

theorem Kept.setModel (h : ob.Kept I cs) {n : Model} (hn : Grounded n I)
    (hext : ob.model.Extends n) : Kept { ob with model := n } I cs := by
  refine ⟨hn, ?_⟩
  intro t ht
  obtain ⟨goal, hgoal, hstands⟩ := h.goals t ht
  exact ⟨goal, hgoal, hstands.of_extends h.grounded.closed hext⟩

theorem kept_addConjunct (hI : I.Lawful) (h : ob.Kept I cs) {t : Term} (ht : t.plain = true) :
    (ob.addConjunct t).Kept I (cs ++ [t]) := by
  have hnamed : ∀ d ∈ t.disjuncts, d.named = true := fun d hd =>
    Term.named_of_plain d (Term.plain_of_mem_splitOn ht d hd)
  obtain ⟨hground, hext, hvals⟩ := representAll_spec hI t.disjuncts h.grounded hnamed
  have hset := h.setModel hground hext
  refine ⟨hground, ?_⟩
  intro s hs
  rcases List.mem_append.mp hs with hs | hs
  · obtain ⟨goal, hgoal, hstands⟩ := hset.goals s hs
    exact ⟨goal, List.mem_append_left _ hgoal, hstands⟩
  · rw [List.mem_singleton.mp hs]
    refine ⟨_, List.mem_append_right _ (List.mem_singleton_self _), ?_⟩
    intro J hJ hsat g hg
    obtain ⟨i, hi, rfl⟩ := List.mem_map.mp (Text.mem_distinct.mp hg)
    obtain ⟨hlt, d, hd, hval⟩ := hvals i hi
    refine ⟨d, hd, ?_⟩
    rw [← hval J hJ hsat]
    exact hsat.respects.value_root hground.closed.filed.vocabulary hlt

theorem kept_foldl_addConjunct (hI : I.Lawful) (ts : List Term) (h : ob.Kept I cs)
    (hts : ∀ t ∈ ts, t.plain = true) : (ts.foldl addConjunct ob).Kept I (cs ++ ts) := by
  induction ts generalizing ob cs with
  | nil => simpa using h
  | cons t rest ih =>
    have hfirst := kept_addConjunct hI h (hts t List.mem_cons_self)
    have hrest := ih hfirst fun s hs => hts s (List.mem_cons_of_mem _ hs)
    simpa using hrest

theorem kept_assume (hI : I.Lawful) (h : ob.Kept I cs) {t : Term} (hn : t.named = true)
    (ht : ∀ J, I.Variant J → ob.model.Satisfied J → J.read t = J.truth) :
    (ob.assume t).2.Kept I cs ∧ ob.model.Extends (ob.assume t).2.model := by
  obtain ⟨hground, hext⟩ := h.grounded.assume hI hn ht
  exact ⟨h.setModel hground hext, hext⟩

end Keeping

section Assuming

variable {m : Model}

/-- Terms are assumed up to some place, and all of them if no contradiction comes up. -/
theorem exists_prefix_assumeUntilFalse (ts : List Term) (m : Model) :
    ∃ us, us <+: ts ∧ assumeUntilFalse ts m = us.foldl (fun m t => (m.assume t).2) m ∧
      ((assumeUntilFalse ts m).contradiction = false → us = ts) := by
  induction ts generalizing m with
  | nil => exact ⟨[], List.prefix_rfl, rfl, fun _ => rfl⟩
  | cons t rest ih =>
    unfold assumeUntilFalse
    dsimp only
    split
    · rename_i hcon
      exact ⟨[t], by simp, rfl, fun hnot => by simp [hcon] at hnot⟩
    · obtain ⟨us, hus, heq, hall⟩ := ih (m.assume t).2
      exact ⟨t :: us, List.cons_prefix_cons.mpr ⟨rfl, hus⟩, heq, fun hnot => by rw [hall hnot]⟩

theorem grounded_assumeUntilFalse (hI : I.Lawful) (ts : List Term) (h : Grounded m I)
    (hts : ∀ t ∈ ts, t.plain = true ∧ I.read t = I.truth) :
    Grounded (assumeUntilFalse ts m) I ∧ m.Extends (assumeUntilFalse ts m) := by
  obtain ⟨us, hus, heq, -⟩ := exists_prefix_assumeUntilFalse ts m
  rw [heq]
  refine Model.extends_foldl (P := (Grounded · I)) us (fun t ht m hm => ?_) h
  obtain ⟨hp, hread⟩ := hts t (hus.subset ht)
  exact hm.assume_plain hI hp hread

theorem read_seedAxioms (hI : I.Standard) : ∀ t ∈ seedAxioms, I.read t = I.truth := by
  have hequal : ∀ a b, I.read (.equal a b) = I.apply (I.value "=") [I.read a, I.read b] :=
    Interpretation.denote_equal I.value
  have hconj : ∀ a b, I.read (.conj a b) = I.apply (I.value "and") [I.read a, I.read b] :=
    Interpretation.denote_conj I.value
  have htruth : I.read .truth = I.truth := Interpretation.read_symbol _
  have hfalsehood : I.read .falsehood = I.falsehood := Interpretation.read_symbol _
  intro t ht
  simp only [seedAxioms, List.mem_cons, List.not_mem_nil, or_false] at ht
  rcases ht with rfl | rfl | rfl | rfl
  all_goals rw [hequal, hI.equal]
  · rw [hequal, htruth, hfalsehood]
    exact hI.unequal _ _ hI.distinct
  · rw [hconj, htruth]
    exact hI.conjuncts _ (by simp) (by simp)
  · rw [hconj, htruth, hfalsehood]
    exact hI.refuted _ (by simp)
  · rw [hconj, hfalsehood]
    exact hI.refuted _ (by simp)

def conclusions (n : Normalizer) (c : Condition) : List Term :=
  c.sequent.right.flatMap fun t => (n.normalize t).conjuncts

/-- Whether the reduced formulas of a condition are as formulas are read. -/
structure Plain (n : Normalizer) (c : Condition) : Prop where
  left : ∀ t ∈ c.sequent.left, (n.normalize t).plain = true
  right : ∀ t ∈ c.sequent.right, (n.normalize t).plain = true

theorem Plain.conclusions {n : Normalizer} {c : Condition} (h : Plain n c) :
    ∀ t ∈ conclusions n c, t.plain = true := by
  intro t ht
  obtain ⟨s, hs, hts⟩ := List.mem_flatMap.mp ht
  exact Term.plain_of_mem_splitOn (h.right s hs) t hts

theorem condition_new (n : Normalizer) (c : Condition) : (new n c).condition = c := by
  unfold new
  dsimp only
  exact List.foldlRecOn (motive := fun ob : Obligation => ob.condition = c) _ _ rfl fun _ h _ _ => h

theorem kept_new {n : Normalizer} {c : Condition} (hI : I.Standard) (hc : Plain n c)
    (hleft : ∀ t ∈ c.sequent.left, I.read (n.normalize t) = I.truth) :
    (new n c).Kept I (conclusions n c) := by
  have hstart : (⟨c, .empty, []⟩ : Obligation).Kept I [] := ⟨grounded_empty I, by simp⟩
  have hgoals := kept_foldl_addConjunct hI.toLawful (conclusions n c) hstart hc.conclusions
  obtain ⟨hassumed, hext⟩ := Model.extends_foldl (P := (Grounded · I))
    (f := fun m t => assumeUntilFalse (n.normalize t).conjuncts m) c.sequent.left (fun t ht m hm =>
      grounded_assumeUntilFalse hI.toLawful _ hm fun p hp =>
        ⟨Term.plain_of_mem_splitOn (hc.left t ht) p hp,
          (Term.read_conjuncts hI.toLawful (hc.left t ht)).mp (hleft t ht) p hp⟩) hgoals.grounded
  have hplain : ∀ t ∈ seedAxioms, t.plain = true := by decide
  obtain ⟨hseeded, hext'⟩ := Model.extends_foldl (P := (Grounded · I))
    (f := fun m t => (m.assume t).2) seedAxioms (fun t ht m hm =>
      hm.assume_plain hI.toLawful (hplain t ht) (read_seedAxioms hI t ht)) hassumed
  exact hgoals.setModel hseeded (hext.trans hext')

end Assuming

section Deciding

variable {ob : Obligation} {cs : List Term}

theorem Kept.not_contradiction (h : ob.Kept I cs) (hI : I.Standard) :
    ob.model.contradiction = false := by
  obtain ⟨hclosed, -, J, hJ, hs⟩ := h.grounded
  have hv := hclosed.filed.vocabulary
  by_contra hc
  have hroot := hclosed.root_falsehood_of_contradiction (Bool.not_eq_false _ ▸ hc)
  have heq := hs.respects.value_eq hv.truth_lt hv.falsehood_lt
    hroot.symm
  rw [hv.value_truth, hv.value_falsehood, hJ.truth_eq, hJ.falsehood_eq] at heq
  exact hI.distinct heq

theorem Kept.read_of_isMet (h : ob.Kept I cs) (hI : I.Lawful) {t : Term} (hp : t.plain = true)
    {goal : List Text} (hstands : StandsFor I ob.model goal t.disjuncts)
    (hmet : ob.isMet goal = true) : I.read t = I.truth := by
  obtain ⟨hclosed, -, J, hJ, hs⟩ := h.grounded
  have hv := hclosed.filed.vocabulary
  obtain ⟨g, hg, hroot⟩ := List.any_eq_true.mp hmet
  obtain ⟨-, hval⟩ := hs.value_rootOf? hclosed (beq_iff_eq.mp hroot)
  obtain ⟨d, hd, hread⟩ := hstands J hJ hs g hg
  have htrue : J.read d = J.truth := by
    rw [← hread, ← hval, Model.root, hs.respects.value_root hv hv.truth_lt, hv.value_truth]
  rw [← hJ.read_eq hp, ← hJ.truth_eq]
  exact Term.read_of_disjunct (hJ.lawful hI) hd htrue

/-- The status of a kept obligation is right. -/
theorem Kept.status_spec (h : ob.Kept I cs) (hI : I.Standard) (hcs : ∀ t ∈ cs, t.plain = true) :
    (ob.status = .proved → ∀ t ∈ cs, I.read t = I.truth) ∧ ob.status ≠ .falseAssumption := by
  unfold status
  rw [h.not_contradiction hI]
  constructor
  · intro hstatus t ht
    obtain ⟨goal, hgoal, hstands⟩ := h.goals t ht
    have hall : ob.goals.all ob.isMet = true := by
      by_contra hnot
      simp [hnot] at hstatus
    exact h.read_of_isMet hI.toLawful (hcs t ht) hstands (List.all_eq_true.mp hall goal hgoal)
  · split
    · contradiction
    · split <;> simp

end Deciding

end Obligation

end Discharge.Search
