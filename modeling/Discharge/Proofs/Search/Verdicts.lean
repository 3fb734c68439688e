import Discharge.Proofs.Congruence.TwoValued
import Discharge.Proofs.Search.Obligations

/-!
Verdicts on obligations are right. An interpretation with classical connectives that makes the
assumptions of a condition true, and everything that is inserted later, keeps its obligation from
being contradictory; and once all goals are met it makes the conclusions true. Nothing is asked of
the names in the terms. Instead, the interpretation reads what the model creates.
-/

namespace Discharge

open Congruence

universe u

variable {D : Type u} {I : Interpretation D}

namespace Term

theorem read_conjunct (hI : I.Lawful) {t c : Term} (hc : c ∈ t.conjuncts)
    (h : I.read t = I.truth) : I.read c = I.truth := by
  revert c
  refine splitOn_induction (P := fun t ps => I.read t = I.truth → ∀ {c : Term}, c ∈ ps →
    I.read c = I.truth) "and" ?_ ?_ t h
  · intro t _ h c hc
    rw [List.mem_singleton.mp hc]
    exact h
  · intro s args k hs ih h c hc
    obtain ⟨a, ha, hca⟩ := List.mem_flatMap.mp hc
    rw [Interpretation.read_apply, Interpretation.read_symbol, hs] at h
    exact ih a ha (hI.conjunct _ h _ (List.mem_map_of_mem ha)) hca

theorem read_of_conjuncts (hI : I.Lawful) (hempty : I.apply (I.value "and") [] = I.truth)
    {t : Term} (h : ∀ c ∈ t.conjuncts, I.read c = I.truth) : I.read t = I.truth := by
  revert h
  refine splitOn_induction (P := fun t ps => (∀ c ∈ ps, I.read c = I.truth) →
    I.read t = I.truth) "and" ?_ ?_ t
  · intro t _ h
    exact h t (List.mem_singleton_self t)
  · intro s args k hs ih h
    have hargs : ∀ d ∈ args.map I.read, d = I.truth := by
      intro d hd
      obtain ⟨a, ha, rfl⟩ := List.mem_map.mp hd
      exact ih a ha fun c hc => h c (List.mem_flatMap.mpr ⟨a, ha, hc⟩)
    rw [Interpretation.read_apply, Interpretation.read_symbol, hs]
    by_cases hne : args.map I.read = []
    · rw [hne]
      exact hempty
    · exact hI.conjuncts _ hne hargs

end Term

namespace Congruence.Interpretation

theorem twoValued_symbol (s : Symbol) : I.TwoValued (.symbol s) := by
  intro u hu
  simp [Term.applications] at hu

theorem twoValued_apply {fn : Term} {args : List Term} {k : Kind} (hfn : I.TwoValued fn)
    (hargs : ∀ a ∈ args, I.TwoValued a) (h : I.Decided (I.read fn) (args.map I.read)) :
    I.TwoValued (.apply fn args k) := by
  intro u hu
  rcases Term.mem_applications_apply.mp hu with rfl | hu | ⟨a, ha, hua⟩
  · exact h
  · exact hfn u hu
  · exact hargs a ha u hua

theorem Boolean.twoValued_equal (h : I.Boolean) {a b : Term} (ha : I.TwoValued a)
    (hb : I.TwoValued b) : I.TwoValued (.equal a b) := by
  refine twoValued_apply (twoValued_symbol _) (by simp [ha, hb]) ?_
  rw [read_symbol]
  exact h.decided_equal _

theorem twoValued_conj {a b : Term} (ha : I.TwoValued a) (hb : I.TwoValued b)
    (hva : I.TruthValue (I.read a)) (hvb : I.TruthValue (I.read b)) :
    I.TwoValued (.conj a b) :=
  twoValued_apply (twoValued_symbol _) (by simp [ha, hb]) fun _ => by simp [hva, hvb]

end Congruence.Interpretation

namespace Search

open Interpretation

structure Affirms (I : Interpretation D) (t : Term) : Prop where
  twoValued : I.TwoValued t
  holds : I.read t = I.truth

/-- A model in which two-valued terms were placed, and only true ones assumed. -/
def Concurs (m : Model) (I : Interpretation D) : Prop := m.Traces I I.Decided I.completed

theorem affirms_seedAxioms (hI : I.Boolean) : ∀ t ∈ seedAxioms, Affirms I t := by
  have htruth : I.TwoValued .truth := twoValued_symbol _
  have hfalsehood : I.TwoValued .falsehood := twoValued_symbol _
  have hvt : I.TruthValue (I.read .truth) := .inl (read_symbol _)
  have hvf : I.TruthValue (I.read .falsehood) := .inr (read_symbol _)
  intro t ht
  have htwo : I.TwoValued t := by
    simp only [seedAxioms, List.mem_cons, List.not_mem_nil, or_false] at ht
    rcases ht with rfl | rfl | rfl | rfl
    · exact hI.twoValued_equal (hI.twoValued_equal htruth hfalsehood) hfalsehood
    · exact hI.twoValued_equal (twoValued_conj htruth htruth hvt hvt) htruth
    · exact hI.twoValued_equal (twoValued_conj htruth hfalsehood hvt hvf) hfalsehood
    · exact hI.twoValued_equal (twoValued_conj hfalsehood hfalsehood hvf hvf) hfalsehood
  refine ⟨htwo, ?_⟩
  rw [← (sameWhere_completed I).read_eq t htwo]
  exact Obligation.read_seedAxioms hI.standard_completed t ht

theorem Affirms.conjunct (hI : I.Boolean) {t p : Term} (h : Affirms I t) (hp : p ∈ t.conjuncts) :
    Affirms I p := by
  have hsame := sameWhere_completed I
  have htwo : I.TwoValued p := Throughout.part h.twoValued hp
  refine ⟨htwo, ?_⟩
  rw [← hsame.read_eq p htwo, ← hsame.truth_eq]
  refine Term.read_conjunct hI.lawful_completed hp ?_
  rw [hsame.read_eq t h.twoValued, hsame.truth_eq, h.holds]

section Assuming

variable {m : Model}

theorem Concurs.assume (h : Concurs m I) (hI : I.Boolean) {t : Term} (ht : Affirms I t)
    (hread : (m.assume t).2.Reads I) : Concurs (m.assume t).2 I :=
  Model.Traces.assume h hI.lawful_completed (sameWhere_completed I) hread ht.twoValued ht.holds

theorem closed_foldl_assume (ts : List Term) (hm : m.Closed) :
    (ts.foldl (fun m t => (m.assume t).2) m).Closed ∧
      m.Extends (ts.foldl (fun m t => (m.assume t).2) m) :=
  Model.extends_foldl ts (fun t _ _ hm => Model.closed_assume hm t) hm

theorem concurs_foldl_assume (hI : I.Boolean) (ts : List Term) (hts : ∀ t ∈ ts, Affirms I t)
    (h : Concurs m I) (hread : (ts.foldl (fun m t => (m.assume t).2) m).Reads I) :
    Concurs (ts.foldl (fun m t => (m.assume t).2) m) I :=
  Model.foldl_of_reads (P := (Concurs · I)) (fun t _ _ hm => Model.closed_assume hm t)
    (fun t ht _ _ hm hr => hm.assume hI (hts t ht) hr) h.closed h hread

namespace Obligation

theorem closed_assumeUntilFalse (ts : List Term) (hm : m.Closed) :
    (assumeUntilFalse ts m).Closed ∧ m.Extends (assumeUntilFalse ts m) := by
  obtain ⟨us, -, heq, -⟩ := exists_prefix_assumeUntilFalse ts m
  rw [heq]
  exact closed_foldl_assume us hm

theorem concurs_assumeUntilFalse (hI : I.Boolean) (ts : List Term) (h : Concurs m I)
    (hts : ∀ t ∈ ts, Affirms I t) (hread : (assumeUntilFalse ts m).Reads I) :
    Concurs (assumeUntilFalse ts m) I := by
  obtain ⟨us, hus, heq, -⟩ := exists_prefix_assumeUntilFalse ts m
  rw [heq] at hread ⊢
  exact concurs_foldl_assume hI us (fun t ht => hts t (hus.subset ht)) h hread

theorem closed_representAll (ts : List Term) (hm : m.Closed) :
    (representAll ts m).2.Closed ∧ m.Extends (representAll ts m).2 := by
  induction ts generalizing m with
  | nil => exact ⟨hm, .refl m⟩
  | cons t rest ih =>
    obtain ⟨hc, hext, -⟩ := Model.closed_represent hm t
    obtain ⟨hc', hext'⟩ := ih hc
    rw [representAll]
    exact ⟨hc', hext.trans hext'⟩

theorem concurs_representAll (hI : I.Boolean) (ts : List Term) (h : Concurs m I)
    (hts : ∀ t ∈ ts, I.TwoValued t) (hread : (representAll ts m).2.Reads I) :
    Concurs (representAll ts m).2 I ∧
      ∀ i ∈ (representAll ts m).1, i < (representAll ts m).2.vocabulary.size ∧
        ∃ t ∈ ts, (representAll ts m).2.vocabulary.value I i = I.read t := by
  induction ts generalizing m with
  | nil => exact ⟨h, by simp [representAll]⟩
  | cons t rest ih =>
    obtain ⟨hc, -, hlt⟩ := Model.closed_represent h.closed t
    obtain ⟨-, hext⟩ := closed_representAll rest hc
    rw [representAll] at hread ⊢
    obtain ⟨hfirst, hval⟩ := Model.Traces.represent h hI.lawful_completed (sameWhere_completed I)
      (hread.of_extends hc.filed hext) (hts t List.mem_cons_self)
    obtain ⟨hrest, hvals⟩ := ih hfirst (fun s hs => hts s (List.mem_cons_of_mem _ hs)) hread
    refine ⟨hrest, List.forall_mem_cons.mpr ⟨⟨hext.lt hlt, t, List.mem_cons_self, ?_⟩, ?_⟩⟩
    · rw [hext.vocabulary.value_eq hlt]
      exact hval
    · intro i hi
      obtain ⟨hlt', s, hs, hval'⟩ := hvals i hi
      exact ⟨hlt', s, List.mem_cons_of_mem _ hs, hval'⟩

end Obligation

end Assuming

namespace Obligation

variable {ob : Obligation} {cs : List Term}

/-- An obligation whose conclusions have goals, each name of which has the value of a disjunct. -/
structure Stands (ob : Obligation) (I : Interpretation D) (conclusions : List Term) : Prop where
  concurs : Concurs ob.model I
  goals : ∀ t ∈ conclusions, ∃ goal ∈ ob.goals, ∀ g ∈ goal, ∃ d ∈ t.disjuncts,
    I.value g = I.read d

theorem stands_addConjunct (hI : I.Boolean) (h : ob.Stands I cs) {t : Term} (ht : I.TwoValued t)
    (hread : (ob.addConjunct t).model.Reads I) : (ob.addConjunct t).Stands I (cs ++ [t]) := by
  obtain ⟨hconcurs, hvals⟩ := concurs_representAll hI t.disjuncts h.concurs
    (fun d hd => Throughout.part ht hd) hread
  refine ⟨hconcurs, ?_⟩
  intro s hs
  rcases List.mem_append.mp hs with hs | hs
  · obtain ⟨goal, hgoal, hstands⟩ := h.goals s hs
    exact ⟨goal, List.mem_append_left _ hgoal, hstands⟩
  · rw [List.mem_singleton.mp hs]
    refine ⟨_, List.mem_append_right _ (List.mem_singleton_self _), ?_⟩
    intro g hg
    obtain ⟨i, hi, rfl⟩ := List.mem_map.mp (Text.mem_distinct.mp hg)
    obtain ⟨hlt, d, hd, hval⟩ := hvals i hi
    refine ⟨d, hd, ?_⟩
    rw [← hval]
    exact hconcurs.agrees.respects.value_root hconcurs.closed.filed.vocabulary hlt

theorem closed_foldl_addConjunct (ts : List Term) (hm : ob.model.Closed) :
    (ts.foldl addConjunct ob).model.Closed ∧
      ob.model.Extends (ts.foldl addConjunct ob).model := by
  refine List.foldlRecOn (motive := fun o => o.model.Closed ∧ ob.model.Extends o.model) ts
    addConjunct ⟨hm, .refl _⟩ ?_
  rintro o ⟨ho, hext⟩ t -
  obtain ⟨hc, hext'⟩ := closed_representAll t.disjuncts ho
  exact ⟨hc, hext.trans hext'⟩

theorem stands_foldl_addConjunct (hI : I.Boolean) (ts : List Term) (h : ob.Stands I cs)
    (hts : ∀ t ∈ ts, I.TwoValued t) (hread : (ts.foldl addConjunct ob).model.Reads I) :
    (ts.foldl addConjunct ob).Stands I (cs ++ ts) := by
  induction ts generalizing ob cs with
  | nil => simpa using h
  | cons t rest ih =>
    obtain ⟨hc, -⟩ := closed_representAll t.disjuncts h.concurs.closed
    obtain ⟨-, hext⟩ := @closed_foldl_addConjunct (ob.addConjunct t) rest hc
    have hfirst := stands_addConjunct hI h (hts t List.mem_cons_self)
      (hread.of_extends hc.filed hext)
    have hrest := ih hfirst (fun s hs => hts s (List.mem_cons_of_mem _ hs)) hread
    simpa using hrest

theorem foldl_assume_eq (ts : List Term) (ob : Obligation) :
    ts.foldl (fun ob t => (ob.assume t).2) ob =
      { ob with model := ts.foldl (fun m t => (m.assume t).2) ob.model } := by
  induction ts generalizing ob with
  | nil => rfl
  | cons t rest ih =>
    rw [List.foldl_cons, ih]
    rfl

def registered (n : Normalizer) (c : Condition) : Obligation :=
  (conclusions n c).foldl addConjunct ⟨c, .empty, []⟩

def assumed (n : Normalizer) (c : Condition) : Model :=
  c.sequent.left.foldl (fun m t => assumeUntilFalse (n.normalize t).conjuncts m)
    (registered n c).model

theorem new_eq (n : Normalizer) (c : Condition) : new n c = { registered n c with
    model := seedAxioms.foldl (fun m t => (m.assume t).2) (assumed n c) } := rfl

section Condition

variable {n : Normalizer} {c : Condition}

theorem closed_registered (n : Normalizer) (c : Condition) : (registered n c).model.Closed :=
  (closed_foldl_addConjunct _ Model.closed_empty).1

theorem closed_assumed (n : Normalizer) (c : Condition) :
    (assumed n c).Closed ∧ (registered n c).model.Extends (assumed n c) :=
  Model.extends_foldl _ (fun _ _ _ hm => closed_assumeUntilFalse _ hm) (closed_registered n c)

theorem stands_registered (hI : I.Boolean)
    (hright : ∀ t ∈ c.sequent.right, I.TwoValued (n.normalize t))
    (hread : (registered n c).model.Reads I) :
    (registered n c).Stands I (conclusions n c) := by
  have hstart : (⟨c, .empty, []⟩ : Obligation).Stands I [] :=
    ⟨Model.traces_empty I I.Decided I.completed, by simp⟩
  refine stands_foldl_addConjunct hI (conclusions n c) hstart ?_ hread
  intro p hp
  obtain ⟨t, ht, hpt⟩ := List.mem_flatMap.mp hp
  exact Throughout.part (hright t ht) hpt

theorem concurs_assumed (hI : I.Boolean)
    (hleft : ∀ t ∈ c.sequent.left, Affirms I (n.normalize t))
    (h : Concurs (registered n c).model I) (hread : (assumed n c).Reads I) :
    Concurs (assumed n c) I := by
  refine Model.foldl_of_reads (P := (Concurs · I)) (fun _ _ _ hm => closed_assumeUntilFalse _ hm)
    ?_ h.closed h hread
  intro t ht m _ hm hr
  exact concurs_assumeUntilFalse hI _ hm (fun p hp => (hleft t ht).conjunct hI hp) hr

theorem stands_new (hI : I.Boolean) (hleft : ∀ t ∈ c.sequent.left, Affirms I (n.normalize t))
    (hright : ∀ t ∈ c.sequent.right, I.TwoValued (n.normalize t)) {ts : List Term}
    (hts : ∀ t ∈ ts, Affirms I t)
    (hread : (ts.foldl (fun ob t => (ob.assume t).2) (new n c)).model.Reads I) :
    (ts.foldl (fun ob t => (ob.assume t).2) (new n c)).Stands I (conclusions n c) := by
  have hall : ∀ t ∈ seedAxioms ++ ts, Affirms I t := by
    intro t ht
    rcases List.mem_append.mp ht with ht | ht
    · exact affirms_seedAxioms hI t ht
    · exact hts t ht
  rw [foldl_assume_eq, new_eq] at hread ⊢
  dsimp only at hread ⊢
  rw [← List.foldl_append] at hread ⊢
  generalize seedAxioms ++ ts = axioms at hall hread ⊢
  obtain ⟨hclosed, hext⟩ := closed_assumed n c
  have hreadAssumed := hread.of_extends hclosed.filed (closed_foldl_assume axioms hclosed).2
  have hstands := stands_registered hI hright
    (hreadAssumed.of_extends (closed_registered n c).filed hext)
  have hconcurs := concurs_assumed hI hleft hstands.concurs hreadAssumed
  exact ⟨concurs_foldl_assume hI axioms hall hconcurs hread, hstands.goals⟩

theorem Stands.satisfied (h : ob.Stands I cs) (hread : ob.model.Reads I) :
    ob.model.Satisfied I.completed :=
  ⟨h.concurs.agrees.respects, hread.of_same (sameWhere_completed I) h.concurs.applies⟩

theorem Stands.not_contradiction (h : ob.Stands I cs) (hI : I.Boolean) :
    ob.model.contradiction = false := by
  have hclosed := h.concurs.closed
  have hv := hclosed.filed.vocabulary
  by_contra hc
  have hroot := hclosed.root_falsehood_of_contradiction (Bool.not_eq_false _ ▸ hc)
  have heq := h.concurs.agrees.respects.value_eq hv.truth_lt hv.falsehood_lt hroot.symm
  rw [hv.value_truth, hv.value_falsehood] at heq
  exact hI.distinct heq

theorem Stands.read_of_isMet (h : ob.Stands I cs) (hI : I.Boolean) (hread : ob.model.Reads I)
    {t : Term} (ht : I.TwoValued t) {goal : List Text}
    (hgoal : ∀ g ∈ goal, ∃ d ∈ t.disjuncts, I.value g = I.read d)
    (hmet : ob.isMet goal = true) : I.completed.read t = I.completed.truth := by
  have hsame := sameWhere_completed I
  have hs := h.satisfied hread
  have hv := h.concurs.closed.filed.vocabulary
  obtain ⟨g, hg, hroot⟩ := List.any_eq_true.mp hmet
  obtain ⟨-, hval⟩ := hs.value_rootOf? h.concurs.closed (beq_iff_eq.mp hroot)
  obtain ⟨d, hd, hgd⟩ := hgoal g hg
  have htwo : I.TwoValued d := Throughout.part ht hd
  refine Term.read_of_disjunct hI.lawful_completed hd ?_
  rw [Model.root, hs.respects.value_root hv hv.truth_lt, hv.value_truth] at hval
  rw [hsame.read_eq d htwo, ← hgd, ← hsame.value_eq, hval]

end Condition

/-- A condition whose assumptions are true is never refuted, and if it is proved its conclusions are
true, whatever else was inserted, as long as it was true too. -/
theorem status_sound (I : Interpretation D) (n : Normalizer) (c : Condition) (ts : List Term)
    (hI : I.Boolean) (hleft : ∀ t ∈ c.sequent.left, Affirms I (n.normalize t))
    (hright : ∀ t ∈ c.sequent.right, I.TwoValued (n.normalize t))
    (hts : ∀ t ∈ ts, Affirms I t)
    (hread : (ts.foldl (fun ob t => (ob.assume t).2) (new n c)).model.Reads I) :
    (ts.foldl (fun ob t => (ob.assume t).2) (new n c)).status ≠ .falseAssumption ∧
      ((ts.foldl (fun ob t => (ob.assume t).2) (new n c)).status = .proved →
        ∀ t ∈ c.sequent.right, I.read (n.normalize t) = I.truth) := by
  have hsame := sameWhere_completed I
  have h := stands_new hI hleft hright hts hread
  generalize ts.foldl (fun ob t => (ob.assume t).2) (new n c) = ob at h hread ⊢
  unfold status
  rw [h.not_contradiction hI]
  constructor
  · split
    · contradiction
    · split <;> simp
  · intro hstatus t ht
    have hall : ob.goals.all ob.isMet = true := by
      by_contra hnot
      simp [hnot] at hstatus
    have hempty : I.completed.apply (I.completed.value "and") [] = I.completed.truth := by
      rw [completed_of_truthValues (by simp)]
      exact (hI.conjunction [] (by simp)).2.mpr (by simp)
    rw [← hsame.read_eq _ (hright t ht), ← hsame.truth_eq]
    refine Term.read_of_conjuncts hI.lawful_completed hempty ?_
    intro p hp
    obtain ⟨goal, hgoal, hstands⟩ := h.goals p (List.mem_flatMap.mpr ⟨t, ht, hp⟩)
    exact h.read_of_isMet hI hread (Throughout.part (hright t ht) hp) hstands
      (List.all_eq_true.mp hall goal hgoal)

def replacingCondition : Condition :=
  let x (name : Text) : Term := .symbol ⟨name, .entity, .free⟩
  let p (t : Term) : Term := .call "p" .boolean [t]
  let fa : Term := .call "f" .entity [x "a"]
  { id := 1, sequent := ⟨[.conj (.equal fa (x "b")) (p (x "b"))], [.disj (p fa) (x "r")]⟩ }

/-- The condition is proved with another equation inserted, and its conclusion is true where all
names but those of functions and truth values have one sense. -/
theorem status_replacingCondition :
    let I := Interpretation.classical
      (fun op _ => if op == "p" then .decided true else .named .empty)
      (fun name => if name == "f" || name == "p" then .named name
        else if name.isOneOf ["¢c1", "¢c3"] then .decided true
        else if name.isOneOf ["r", "¢c2", "¢c4", "¢c5"] then .decided false else .named .empty)
    let ts : List Term := [.equal (.symbol ⟨"b", .entity, .free⟩) (.symbol ⟨"c", .entity, .free⟩)]
    (ts.foldl (fun ob t => (ob.assume t).2) (new {} replacingCondition)).status = .proved ∧
      ∀ t ∈ replacingCondition.sequent.right,
        I.read (Normalizer.normalize {} t) = I.truth := by
  intro I ts
  have hstatus : (ts.foldl (fun ob t => (ob.assume t).2) (new {} replacingCondition)).status =
      .proved := by
    decide +kernel
  have hread : (ts.foldl (fun ob t => (ob.assume t).2)
      (new {} replacingCondition)).model.Reads I := by
    change ∀ e ∈ Model.history _, _
    decide +kernel
  have hleft : ∀ t ∈ replacingCondition.sequent.left, Affirms I (Normalizer.normalize {} t) :=
    List.forall_mem_singleton.mpr ⟨by decide +kernel, by decide +kernel⟩
  have hright : ∀ t ∈ replacingCondition.sequent.right, I.TwoValued (Normalizer.normalize {} t) :=
    List.forall_mem_singleton.mpr (by decide +kernel)
  have hts : ∀ t ∈ ts, Affirms I t :=
    List.forall_mem_singleton.mpr ⟨by decide +kernel, by decide +kernel⟩
  exact ⟨hstatus, (status_sound I {} replacingCondition ts (boolean_classical _ _) hleft hright hts
    hread).2 hstatus⟩

end Obligation

end Search

end Discharge
