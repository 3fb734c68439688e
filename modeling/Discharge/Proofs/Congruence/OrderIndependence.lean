import Discharge.Proofs.Congruence.Knowledge
import Discharge.Proofs.Congruence.Persistence

/-!
The order of assertions does not matter. What a model knows, read as an interpretation, makes true
all that the model was made to assume. So it satisfies every other model that was made to assume the
same, up to what created symbols stand for, and classes that coincide there coincide here as well.
This needs that the truth values differ: in a contradictory model it depends on the order which rules
were missed.
-/

namespace Discharge

open Congruence

universe u

namespace Term

mutual

/-- The names whose values a term is read by: its symbols, and the written forms of anonymous
functions and of definitions by cases. -/
def constants : Term → List Text
  | symbol s => [s.name]
  | apply fn args _ => fn.constants ++ constantsAll args
  | lambda params body k => [(lambda params body k).render]
  | cases branches otherwise k => [(cases branches otherwise k).render]

def constantsAll : List Term → List Text
  | [] => []
  | t :: rest => t.constants ++ constantsAll rest

end

theorem constantsAll_eq_flatMap (ts : List Term) : constantsAll ts = ts.flatMap constants := by
  induction ts with
  | nil => rfl
  | cons t rest ih => rw [constantsAll, ih, List.flatMap_cons]

theorem constants_of_mem_splitOn {op : Text} {t c : Term} (hc : c ∈ t.splitOn op) :
    c.constants ⊆ t.constants := by
  revert c
  refine splitOn_induction (P := fun t ps => ∀ {c : Term}, c ∈ ps →
    c.constants ⊆ t.constants) op ?_ ?_ t
  · intro t _ c hc
    rw [List.mem_singleton.mp hc]
    exact List.Subset.refl _
  · intro s args k _ ih c hc
    obtain ⟨a, ha, hca⟩ := List.mem_flatMap.mp hc
    refine List.Subset.trans (ih a ha hca) ?_
    intro name hname
    rw [constants, constantsAll_eq_flatMap]
    exact List.mem_append_right _ (List.mem_flatMap.mpr ⟨a, ha, hname⟩)

/-- A term in which connectives are operators only and no created symbol is named. -/
structure Ordinary (t : Term) : Prop where
  applied : t.Applied fun _ _ => True
  uncreated : ∀ name ∈ t.constants, ∀ k, name ≠ Vocabulary.createdName k

theorem Ordinary.of_plain {t : Term} (ht : t.wellApplied = true)
    (hnames : ∀ name ∈ t.constants, plainName name = true) : t.Ordinary :=
  ⟨applied_of_wellApplied (fun _ _ _ => trivial) t ht,
    fun name hn => Model.ne_createdName_of_plain (hnames name hn)⟩

end Term

namespace Congruence

variable {D : Type u} {I J K : Interpretation D}

namespace Interpretation

mutual

theorem read_congr (t : Term) (hap : J.apply = I.apply)
    (hv : ∀ name ∈ t.constants, J.value name = I.value name) : J.read t = I.read t := by
  match t with
  | .symbol s =>
    rw [read_symbol, read_symbol]
    exact hv s.name (List.mem_singleton_self _)
  | .apply fn args k =>
    rw [read_apply, read_apply, hap,
      read_congr fn hap fun name hn => hv name (List.mem_append_left _ hn),
      readAll_congr args hap fun name hn => hv name (List.mem_append_right _ hn)]
  | .lambda params body k =>
    rw [read_lambda, read_lambda]
    exact hv _ (List.mem_singleton_self _)
  | .cases branches otherwise k =>
    rw [read_cases, read_cases]
    exact hv _ (List.mem_singleton_self _)

theorem readAll_congr (ts : List Term) (hap : J.apply = I.apply)
    (hv : ∀ name ∈ Term.constantsAll ts, J.value name = I.value name) :
    ts.map J.read = ts.map I.read := by
  match ts with
  | [] => rfl
  | t :: rest =>
    rw [List.map_cons, List.map_cons,
      read_congr t hap fun name hn => hv name (List.mem_append_left _ hn),
      readAll_congr rest hap fun name hn => hv name (List.mem_append_right _ hn)]

end

structure Renews (I J : Interpretation D) : Prop where
  apply_eq : J.apply = I.apply
  value_eq : ∀ name, (∀ k, name ≠ Vocabulary.createdName k) → J.value name = I.value name

theorem Renews.refl (I : Interpretation D) : I.Renews I := ⟨rfl, fun _ _ => rfl⟩

theorem Renews.trans (h : I.Renews J) (h' : J.Renews K) : I.Renews K :=
  ⟨h'.apply_eq.trans h.apply_eq, fun name hn => (h'.value_eq name hn).trans (h.value_eq name hn)⟩

theorem Renews.lawful (h : I.Renews J) (hI : I.Lawful) : J.Lawful :=
  Model.lawful_of_reading hI h.apply_eq h.value_eq

theorem Renews.value_plain (h : I.Renews J) {name : Text} (hn : plainName name = true) :
    J.value name = I.value name := h.value_eq name (Model.ne_createdName_of_plain hn)

theorem Renews.read_eq (h : I.Renews J) {t : Term}
    (ht : ∀ name ∈ t.constants, ∀ k, name ≠ Vocabulary.createdName k) : J.read t = I.read t :=
  read_congr t h.apply_eq fun name hn => h.value_eq name (ht name hn)

end Interpretation

namespace Model

variable {m n : Model}

section Truth

theorem Satisfied.read_of_holdsPart (h : m.Satisfied I) (hI : I.Lawful) (hm : m.Closed) {c : Term}
    (hc : m.HoldsPart c) : I.read c = I.truth := by
  have hup := h.upheld hI hm
  cases he : c.equation? with
  | some e =>
    obtain ⟨a, b⟩ := e
    obtain ⟨r, ha, hb⟩ := hc.equation he
    obtain ⟨s, k, hs, rfl⟩ := Term.eq_of_equation? he
    rw [Interpretation.read_apply, Interpretation.read_symbol, hs]
    refine (hI.equal _ _).mpr ?_
    rw [← (hup.value_find? hm a ha).2, (hup.value_find? hm b hb).2]
  | none =>
    have hv := hm.filed.vocabulary
    rw [← (hup.value_find? hm c (hc.other he)).2, ← hv.value_truth]
    exact h.respects.value_root hv hv.truth_lt

/-- An interpretation that makes the conjuncts of a term true agrees to asserting it. -/
theorem agrees_assert_of_conjuncts (hI : I.Lawful) (t : Term) (hm : m.Filed []) (ha : m.Agrees I)
    (ht : ∀ c ∈ t.conjuncts, I.read c = I.truth) (hread : (assert t m).Reads I) :
    (assert t m).Agrees I := by
  revert m
  revert ht
  refine Term.splitOn_induction (P := fun t ps => (∀ c ∈ ps, I.read c = I.truth) →
    ∀ {m : Model}, m.Filed [] → m.Agrees I → (assert t m).Reads I → (assert t m).Agrees I)
    "and" ?_ ?_ t
  · intro t _ ht m hm ha hread
    exact agrees_assert t hI hm ha (ht t (List.mem_singleton_self t)) hread
  · intro s args k hs ih ht m hm ha hread
    rw [assert_conjunction hs] at hread ⊢
    induction args generalizing m with
    | nil =>
      rw [assertAll]
      exact ha
    | cons a rest hrec =>
      have hfirst := advances_assert a hm
      have hrest := advances_assertAll rest hfirst.filed
      rw [assertAll] at hread ⊢
      refine hrec (fun b hb => ih b (List.mem_cons_of_mem _ hb)) ?_ hfirst.filed ?_ hread
      · intro c hc
        exact ht c (List.mem_append_right _ hc)
      · refine ih a List.mem_cons_self ?_ hm ha (hread.of_extends hfirst.filed hrest.later)
        intro c hc
        exact ht c (List.mem_append_left _ hc)

/-- A model that another reading of created symbols satisfies. -/
def Renewed (I : Interpretation D) (m : Model) : Prop := ∃ J, I.Renews J ∧ m.Satisfied J

theorem Renewed.exists_reading (h : m.Renewed I) (hm : m.Filed []) (hn : n.Filed [])
    (hext : m.Extends n) : ∃ J, I.Renews J ∧ m.Satisfied J ∧ n.Reads J := by
  obtain ⟨J, hJ, hs⟩ := h
  obtain ⟨K, hap, hvalue, hsK, hread⟩ := hs.exists_reading hm hn hext
  exact ⟨K, hJ.trans ⟨hap, hvalue⟩, hsK, hread⟩

theorem renewed_assume (hI : I.Lawful) (hm : m.Closed) (h : m.Renewed I) {t : Term}
    (ht : ∀ name ∈ t.constants, ∀ k, name ≠ Vocabulary.createdName k)
    (htrue : ∀ c ∈ t.conjuncts, I.read c = I.truth) : (m.assume t).2.Renewed I := by
  obtain ⟨hn, hext⟩ := closed_assume hm t
  obtain ⟨J, hJ, hs, hread⟩ := h.exists_reading hm.filed hn.filed hext
  have hassert := advances_assert t hm.filed
  obtain ⟨-, -, hcoarse⟩ := propagate_spec hassert.filed
  have hread' : (assert t m).Reads J := hread.of_extends hassert.filed hcoarse.extends
  have hagrees := agrees_assert_of_conjuncts (hJ.lawful hI) t hm.filed (agrees_of_satisfied hs hm)
    (fun c hc => by
      rw [hJ.read_eq fun name hn => ht name (Term.constants_of_mem_splitOn hc hn), htrue c hc]
      exact (hJ.value_plain (by decide)).symm) hread'
  exact ⟨J, hJ, (agrees_propagate (hJ.lawful hI) hassert.filed hread' hagrees).respects, hread⟩

theorem renewed_represent (hI : I.Lawful) (hm : m.Closed) (h : m.Renewed I) (t : Term) :
    (m.represent t).2.Renewed I := by
  obtain ⟨hn, hext, -⟩ := closed_represent hm t
  obtain ⟨J, hJ, hs, hread⟩ := h.exists_reading hm.filed hn.filed hext
  have hd := denotes_represent (hJ.lawful hI) hm (agrees_of_satisfied hs hm) hread
  exact ⟨J, hJ, hd.agrees.respects, hread⟩

theorem renewed_foldl_assume (hI : I.Lawful) (ts : List Term) (hm : m.Closed) (h : m.Renewed I)
    (hts : ∀ t ∈ ts, ∀ name ∈ t.constants, ∀ k, name ≠ Vocabulary.createdName k)
    (htrue : ∀ t ∈ ts, ∀ c ∈ t.conjuncts, I.read c = I.truth) :
    ((ts.map Input.assume).foldl feed m).Renewed I := by
  rw [List.foldl_map]
  exact (List.foldlRecOn (motive := fun n : Model => n.Closed ∧ n.Renewed I) ts _ ⟨hm, h⟩
    fun _ ⟨hn, hr⟩ t ht => ⟨(closed_assume hn t).1,
      renewed_assume hI hn hr (hts t ht) (htrue t ht)⟩).2

theorem holds_of_mem_foldl (hn : n.Closed) (hx : n.vocabulary.KeepsExchanges) {ts : List Term}
    {t : Term} (ht : t ∈ ts) (hm : m.Closed)
    (hext : ((ts.map Input.assume).foldl feed m).Extends n) : n.Holds t := by
  obtain ⟨o, ho, hstep⟩ := exists_step_of_mem (P := Closed) (fun i _ _ hm => closed_feed hm i)
    (List.mem_map_of_mem (f := Input.assume) ht) hm
  exact holds_of_assume ho hn hx (hstep.trans hext)

end Truth

section Knowing

variable {suits : Connective → Nat → Prop}

theorem value_knowledge_name (hm : m.Closed) (hcon : m.contradiction = false) {i : Nat}
    (hi : i < m.vocabulary.size) : m.vocabulary.value m.knowledge i = .known (m.root i) :=
  value_knowledge_of_rootOf? (fun _ => hcon) (hm.filed.vocabulary.rootOf?_name hi)

/-- What a model without contradiction knows satisfies it. -/
theorem satisfied_knowledge (hm : m.Closed) (hc : m.ConfinedTo suits)
    (hcon : m.contradiction = false) : m.Satisfied m.knowledge := by
  refine ⟨⟨?_⟩, ?_⟩
  · intro i j hi hj hroot
    rw [value_knowledge_name hm hcon hi, value_knowledge_name hm hcon hj]
    exact congrArg Point.known hroot
  · intro e he
    have hv := hm.filed.vocabulary
    have hx := hc.keepsExchanges hv
    have hroot : ∀ s, m.root (m.root s) = m.root s := hv.root_root
    obtain ⟨i, r, hr, rfl⟩ := exists_record_of_mem_history he
    have hfound := hm.result?_of_congruent hx he (Application.Congruent.refl _ _)
    have hargs : r.app.args.map (m.vocabulary.value m.knowledge) =
        (r.app.args.map m.root).map Point.known := by
      rw [List.map_map]
      refine List.map_congr_left fun s hs => value_knowledge_name hm hcon ?_
      exact hm.filed.places_lt hr s (List.mem_cons_of_mem _ hs)
    have hgrasp : m.grasp? (.known (m.root r.app.op)) ((r.app.args.map m.root).map Point.known) =
        some (m.root r.result) := by
      rw [grasp?_known (hroot _), ← hfound]
      · refine result?_congr (hroot _) ?_
        rw [List.map_map]
        exact List.map_congr_left fun s _ => hroot s
      · intro i hi
        obtain ⟨s, -, rfl⟩ := List.mem_map.mp hi
        exact hroot s
    rw [value_knowledge_name hm hcon (hm.filed.result_lt hr), Application.value, hargs,
      value_knowledge_name hm hcon (hm.filed.op_lt hr)]
    exact (apply_of_grasp? hgrasp).symm

end Knowing

/-- Whether two terms are represented in one class. -/
def Coincide (m : Model) (s t : Term) : Prop :=
  ((m.represent s).2.represent t).2.root (m.represent s).1 =
    ((m.represent s).2.represent t).2.root ((m.represent s).2.represent t).1

instance (m : Model) (s t : Term) : Decidable (m.Coincide s t) :=
  inferInstanceAs (Decidable (_ = _))

theorem Coincide.read_eq {s t : Term} (h : m.Coincide s t) (hm : m.Closed) (hI : I.Lawful)
    (hs : ((m.represent s).2.represent t).2.Satisfied I) : I.read s = I.read t := by
  obtain ⟨hc, -, hlt⟩ := closed_represent hm s
  obtain ⟨hc', hext, hlt'⟩ := closed_represent hc t
  have hv := hc'.filed.vocabulary
  have hfirst := (hs.of_extends hc.filed hext).value_represent hm hI
  rw [← hext.vocabulary.value_eq hlt] at hfirst
  rw [← hfirst, ← hs.value_represent hc hI, ← hs.respects.value_root hv (hext.lt hlt),
    ← hs.respects.value_root hv hlt']
  exact congrArg _ h

theorem Renewed.not_contradiction (h : m.Renewed I) (hm : m.Closed)
    (hne : I.truth ≠ I.falsehood) : m.contradiction = false := by
  obtain ⟨J, hJ, hs⟩ := h
  have hv := hm.filed.vocabulary
  cases hcon : m.contradiction with
  | false => rfl
  | true =>
    have heq := hs.respects.value_eq hv.truth_lt hv.falsehood_lt
      (hm.filed.contradiction_iff.mp hcon)
    rw [hv.value_truth, hv.value_falsehood] at heq
    exact (hne ((hJ.value_plain (by decide)).symm.trans
      (heq.trans (hJ.value_plain (by decide))))).elim

/-- Assumptions that are true in an interpretation make no contradiction, and make only terms
coincide that have one value. -/
theorem coincide_sound {ts : List Term} (hts : ∀ t ∈ ts, t.Ordinary) {s t : Term} (hs : s.Ordinary)
    (ht : t.Ordinary) (hI : I.Lawful) (hne : I.truth ≠ I.falsehood)
    (htrue : ∀ t ∈ ts, ∀ c ∈ t.conjuncts, I.read c = I.truth) :
    (ofInputs (ts.map .assume)).contradiction = false ∧
      ((ofInputs (ts.map .assume)).Coincide s t → I.read s = I.read t) := by
  have hm := closed_ofInputs (ts.map .assume)
  have hrenewed : (ofInputs (ts.map .assume)).Renewed I :=
    renewed_foldl_assume hI ts closed_empty ⟨I, .refl I, satisfied_empty I⟩
      (fun t ht => (hts t ht).uncreated) htrue
  refine ⟨hrenewed.not_contradiction hm hne, ?_⟩
  intro hcoincide
  obtain ⟨J, hJ, hsat⟩ := renewed_represent hI (closed_represent hm s).1
    (renewed_represent hI hm hrenewed s) t
  have hread := hcoincide.read_eq hm (hJ.lawful hI) hsat
  rw [hJ.read_eq hs.uncreated, hJ.read_eq ht.uncreated] at hread
  exact hread

/-- Assumptions without contradiction are true in some interpretation that gives two terms one value
only if they coincide: in what the model knows once it has represented both. -/
theorem coincide_complete {ts : List Term} (hts : ∀ t ∈ ts, t.Ordinary) {s t : Term}
    (hs : s.Ordinary) (ht : t.Ordinary) (hcon : (ofInputs (ts.map .assume)).contradiction = false) :
    ∃ K : Interpretation Point, K.Lawful ∧ K.truth ≠ K.falsehood ∧
      (∀ t ∈ ts, ∀ c ∈ t.conjuncts, K.read c = K.truth) ∧
      (K.read s = K.read t → (ofInputs (ts.map .assume)).Coincide s t) := by
  have hm := closed_ofInputs (ts.map .assume)
  obtain ⟨hms, hexts, -⟩ := closed_represent hm s
  obtain ⟨hn, hextt, -⟩ := closed_represent hms t
  have hcons : (((ofInputs (ts.map .assume)).represent s).2.represent t).2.contradiction =
      false := by
    have hfirst := ((conserves_represent hm hcon s).contradiction_eq hm hms).trans hcon
    exact ((conserves_represent hms hfirst t).contradiction_eq hms hn).trans hfirst
  have hconfined : (((ofInputs (ts.map .assume)).represent s).2.represent t).2.ConfinedTo
      fun _ _ => True := by
    refine confined_feed (i := .represent t) (confined_feed (i := .represent s)
      (confined_foldl_feed _ confined_empty closed_empty ?_) hm hs.applied) hms ht.applied
    intro i hi
    obtain ⟨u, hu, rfl⟩ := List.mem_map.mp hi
    exact (hts u hu).applied
  -- The interpretation is the knowledge of the model that represents both terms, since a term
  -- that is not represented has no class to be its value.
  generalize hgen : (((ofInputs (ts.map .assume)).represent s).2.represent t).2 = n at *
  have hx := hconfined.keepsExchanges hn.filed.vocabulary
  have hlaw := lawful_knowledge hn hconfined
  have hsat := satisfied_knowledge hn hconfined hcons
  refine ⟨n.knowledge, hlaw, truth_ne_falsehood_knowledge hn, ?_, ?_⟩
  · intro u hu c hc
    exact hsat.read_of_holdsPart hlaw hn
      (holds_of_mem_foldl hn hx hu closed_empty (hexts.trans hextt) c hc)
  · intro hread
    have hknown : ∀ {u : Term} {r : Nat}, n.find? u = some r → n.knowledge.read u = .known r := by
      intro u r hu
      obtain ⟨hlt, hvalue⟩ := (hsat.upheld hlaw hn).value_find? hn u hu
      rw [← hvalue, value_knowledge_name hn hcons hlt, root_find? hn hu]
    rw [hknown (find?_represent hm hn hx hextt),
      hknown (find?_represent hms hn hx (hgen ▸ .refl _)), Point.known.injEq] at hread
    rw [Coincide, hgen]
    exact hread

/-- Terms assumed in one order and in another make a contradiction in both or in neither, and if in
neither, the same terms coincide. -/
theorem coincide_perm {ts us : List Term} (hp : ts.Perm us) (hts : ∀ t ∈ ts, t.Ordinary)
    (s t : Term) (hs : s.Ordinary) (ht : t.Ordinary) :
    (ofInputs (ts.map .assume)).contradiction = (ofInputs (us.map .assume)).contradiction ∧
      ((ofInputs (ts.map .assume)).contradiction = false →
        ((ofInputs (ts.map .assume)).Coincide s t ↔ (ofInputs (us.map .assume)).Coincide s t)) := by
  have hone : ∀ {ts us : List Term}, ts.Perm us → (∀ u ∈ us, u.Ordinary) →
      (ofInputs (us.map .assume)).contradiction = false →
      (ofInputs (ts.map .assume)).contradiction = false ∧
        ((ofInputs (ts.map .assume)).Coincide s t →
          (ofInputs (us.map .assume)).Coincide s t) := by
    intro ts us hp hus hcon
    obtain ⟨K, hlaw, hne, htrue, hcomplete⟩ := coincide_complete hus hs ht hcon
    obtain ⟨hcon', hsound⟩ := coincide_sound (fun t ht => hus t (hp.mem_iff.mp ht)) hs ht hlaw hne
      fun t ht => htrue t (hp.mem_iff.mp ht)
    exact ⟨hcon', fun h => hcomplete (hsound h)⟩
  have hus : ∀ u ∈ us, u.Ordinary := fun u hu => hts u (hp.mem_iff.mpr hu)
  have hiff : (ofInputs (ts.map .assume)).contradiction = false ↔
      (ofInputs (us.map .assume)).contradiction = false :=
    ⟨fun h => (hone hp.symm hts h).1, fun h => (hone hp hus h).1⟩
  refine ⟨?_, fun hcon => ⟨(hone hp hus (hiff.mp hcon)).2, (hone hp.symm hts hcon).2⟩⟩
  cases hc : (ofInputs (ts.map .assume)).contradiction with
  | false => exact (hiff.mp hc).symm
  | true =>
    cases hc' : (ofInputs (us.map .assume)).contradiction with
    | false => exact absurd (hiff.mpr hc') (by simp [hc])
    | true => rfl

def chainedAssumptions : List Term :=
  let x (name : Text) : Term := .symbol ⟨name, .entity, .free⟩
  [.equal (.call "f" .entity [x "a"]) (x "b"), .equal (x "a") (x "c")]

/-- In both orders the second operand may stand for the first. -/
theorem coincide_chainedAssumptions :
    let x (name : Text) : Term := .symbol ⟨name, .entity, .free⟩
    let s : Term := .call "f" .entity [x "c"]
    (∀ t ∈ chainedAssumptions, t.Ordinary) ∧ s.Ordinary ∧ (x "b").Ordinary ∧
      chainedAssumptions.Perm chainedAssumptions.reverse ∧
      (ofInputs (chainedAssumptions.map .assume)).contradiction = false ∧
      (ofInputs (chainedAssumptions.map .assume)).Coincide s (x "b") ∧
      (ofInputs (chainedAssumptions.reverse.map .assume)).Coincide s (x "b") := by
  intro x s
  have hplain : ∀ t ∈ s :: x "b" :: chainedAssumptions,
      t.wellApplied = true ∧ ∀ name ∈ t.constants, plainName name = true := by decide +kernel
  have hord : ∀ t ∈ s :: x "b" :: chainedAssumptions, t.Ordinary :=
    fun t ht => .of_plain (hplain t ht).1 (hplain t ht).2
  obtain ⟨hs, hb, hts⟩ : s.Ordinary ∧ (x "b").Ordinary ∧ ∀ t ∈ chainedAssumptions, t.Ordinary := by
    simpa using hord
  have hcon : (ofInputs (chainedAssumptions.map .assume)).contradiction = false := by
    decide +kernel
  have hcoincide : (ofInputs (chainedAssumptions.map .assume)).Coincide s (x "b") := by
    decide +kernel
  have hperm := (List.reverse_perm chainedAssumptions).symm
  obtain ⟨-, hiff⟩ := coincide_perm hperm hts s (x "b") hs hb
  exact ⟨hts, hs, hb, hperm, hcon, hcoincide, (hiff hcon).mp hcoincide⟩

def contradictoryAssumptions : List Term :=
  let x : Term := .symbol ⟨"x", .boolean, .free⟩
  [.call "p" .boolean [.conj .truth x], .falsehood]

/-- In a contradictory model the conjunction is true if the contradiction came first, and undecided
if it came last. -/
theorem coincide_order :
    let s : Term := .conj .truth (.symbol ⟨"x", .boolean, .free⟩)
    (∀ t ∈ contradictoryAssumptions, t.Ordinary) ∧ s.Ordinary ∧ Term.truth.Ordinary ∧
      contradictoryAssumptions.Perm contradictoryAssumptions.reverse ∧
      (ofInputs (contradictoryAssumptions.reverse.map .assume)).Coincide s .truth ∧
      ¬ (ofInputs (contradictoryAssumptions.map .assume)).Coincide s .truth := by
  intro s
  have hplain : ∀ t ∈ s :: .truth :: contradictoryAssumptions,
      t.wellApplied = true ∧ ∀ name ∈ t.constants, plainName name = true := by decide +kernel
  have hord : ∀ t ∈ s :: .truth :: contradictoryAssumptions, t.Ordinary :=
    fun t ht => .of_plain (hplain t ht).1 (hplain t ht).2
  obtain ⟨hs, hb, hts⟩ : s.Ordinary ∧ Term.truth.Ordinary ∧
      ∀ t ∈ contradictoryAssumptions, t.Ordinary := by
    simpa using hord
  exact ⟨hts, hs, hb, (List.reverse_perm _).symm, by decide +kernel, by decide +kernel⟩

end Model

end Congruence

end Discharge
