import Discharge.Proofs.Congruence.Soundness
import Discharge.Proofs.Term.Meaning

/-!
Interpretations that satisfy a model: symbols of one class have one value, and every created
symbol has the value of what it was created for. An interpretation that satisfies a model
satisfies all earlier states of it and makes what was assumed on the way true, so a model says as
much as the terms that it was made from. The other way round, an interpretation that satisfies a
model can be changed at names yet to be created so that it reads the symbols that an input
creates.
-/

namespace Discharge.Congruence

universe u

variable {D : Type u} {I J : Interpretation D}

/-- Another reading of the names that models create. -/
structure Interpretation.Variant (I J : Interpretation D) : Prop where
  apply_eq : J.apply = I.apply
  value_eq : ∀ name, plainName name = true → J.value name = I.value name

namespace Interpretation

theorem Variant.refl (I : Interpretation D) : I.Variant I := ⟨rfl, fun _ _ => rfl⟩

theorem Variant.trans {K : Interpretation D} (h : I.Variant J) (h' : J.Variant K) : I.Variant K :=
  ⟨h'.apply_eq.trans h.apply_eq, fun name hn => (h'.value_eq name hn).trans (h.value_eq name hn)⟩

theorem Variant.truth_eq (h : I.Variant J) : J.truth = I.truth := h.value_eq "true" (by decide)

theorem Variant.falsehood_eq (h : I.Variant J) : J.falsehood = I.falsehood :=
  h.value_eq "false" (by decide)

theorem Variant.denote_eq (h : I.Variant J) {t : Term} (hp : t.plain = true) (σ : Text → D) :
    J.denote σ t = I.denote σ t :=
  denote_congr t (Term.named_of_plain t hp) h.apply_eq
    (fun s hs _ => h.value_eq s.name (Term.plainName_of_mem_symbols t hp hs)) fun _ _ _ => rfl

theorem Variant.read_eq (h : I.Variant J) {t : Term} (hp : t.plain = true) :
    J.read t = I.read t :=
  denote_congr t (Term.named_of_plain t hp) h.apply_eq
    (fun s hs _ => h.value_eq s.name (Term.plainName_of_mem_symbols t hp hs))
    fun s hs _ => h.value_eq s.name (Term.plainName_of_mem_symbols t hp hs)

theorem Lawful.of_value_eq (hI : I.Lawful) (hap : J.apply = I.apply)
    (hv : ∀ name ∈ (["true", "false", "=", "and", "or", "implies"] : List Text),
      J.value name = I.value name) : J.Lawful := by
  have ht : J.truth = I.truth := hv _ (by simp)
  have hf : J.falsehood = I.falsehood := hv _ (by simp)
  have heq : J.value "=" = I.value "=" := hv _ (by simp)
  have hand : J.value "and" = I.value "and" := hv _ (by simp)
  have hor : J.value "or" = I.value "or" := hv _ (by simp)
  have himp : J.value "implies" = I.value "implies" := hv _ (by simp)
  refine ⟨?_, ?_, ?_, ?_, ?_, ?_, ?_, ?_, ?_, ?_, ?_⟩
  all_goals simp only [hap, ht, hf, heq, hand, hor, himp]
  · exact hI.equal
  · exact hI.conjunct
  · exact hI.conjuncts
  · exact hI.refuted
  · exact hI.disjunct
  · exact hI.disjuncts
  · exact hI.refutes
  · exact hI.detached
  · exact hI.vacuous
  · exact hI.concluded
  · intro op args args' hop hp
    have hname : J.value op = I.value op := by
      simp only [isCommutative, Bool.or_eq_true, beq_iff_eq] at hop
      rcases hop with (rfl | rfl) | rfl
      · exact heq
      · exact hand
      · exact hor
    rw [hname]
    exact hI.exchange op args args' hop hp

theorem Variant.lawful (h : I.Variant J) (hI : I.Lawful) : J.Lawful := by
  refine hI.of_value_eq h.apply_eq ?_
  intro name hmem
  refine h.value_eq name ?_
  revert name
  decide

end Interpretation

namespace Model

/-- Symbols of one class have one value, and created ones that of what they were created for. -/
structure Satisfied (m : Model) (I : Interpretation D) : Prop where
  respects : m.vocabulary.Respects I
  reads : m.Reads I

section Earlier

variable {m n : Model}

theorem respects_of_extends (h : n.vocabulary.Respects I) (hext : m.Extends n) :
    m.vocabulary.Respects I := by
  refine ⟨?_⟩
  intro i j hi hj he
  rw [← hext.vocabulary.value_eq hi, ← hext.vocabulary.value_eq hj]
  exact h.value_eq (hext.lt hi) (hext.lt hj) (hext.vocabulary.root_eq hi hj he)

theorem Satisfied.of_extends (h : n.Satisfied I) (hm : m.Filed []) (hext : m.Extends n) :
    m.Satisfied I :=
  ⟨respects_of_extends h.respects hext, h.reads.of_extends hm hext⟩

theorem Satisfied.agrees_of_extends (h : n.Satisfied I) (hn : n.Closed) (hm : m.Filed [])
    (hext : m.Extends n) : m.Agrees I := by
  refine ⟨respects_of_extends h.respects hext, ?_⟩
  intro p hp
  have hlt := hm.pending_lt p hp
  have hroot := (hext.joined (Joined.of_mem_pending hp)).root_eq hn.pending_eq
  rw [← hext.vocabulary.value_eq hlt.1, ← hext.vocabulary.value_eq hlt.2]
  exact h.respects.value_eq (hext.lt hlt.1) (hext.lt hlt.2) hroot

theorem Satisfied.value_place (h : n.Satisfied I) (hI : I.Lawful) (hn : n.Closed) (hm : m.Filed [])
    {t : Term} (hext : (place t m).2.Extends n) :
    n.vocabulary.value I (place t m).1 = I.read t := by
  obtain ⟨hadv, hlt⟩ := advances_place t hm
  have hd := denotes_place t hI hm (h.agrees_of_extends hn hm (hadv.later.trans hext))
    (h.reads.of_extends hadv.filed hext)
  rw [hext.vocabulary.value_eq hlt, hd.value_eq]

theorem Satisfied.value_eq_of_joined (h : n.Satisfied I) (hn : n.Closed) (hext : m.Extends n)
    {a b : Nat} (ha : a < m.vocabulary.size) (hb : b < m.vocabulary.size) (hj : m.Joined a b) :
    n.vocabulary.value I a = n.vocabulary.value I b :=
  h.respects.value_eq (hext.lt ha) (hext.lt hb) ((hext.joined hj).root_eq hn.pending_eq)

theorem Satisfied.read_of_place_enqueue (h : n.Satisfied I) (hI : I.Lawful) (hn : n.Closed)
    (hm : m.Filed []) {t : Term}
    (hext : ((place t m).2.enqueue ((place t m).1, Vocabulary.truth)).Extends n) :
    I.read t = I.truth := by
  obtain ⟨hadv, hlt⟩ := advances_place t hm
  have hasks := asks_enqueue (place t m).2 ((place t m).1, Vocabulary.truth)
  have hlater := hasks.coarsens.extends.trans hext
  rw [← h.value_place hI hn hm hlater, ← hn.filed.vocabulary.value_truth]
  refine h.value_eq_of_joined hn hext ?_ ?_ (joined_enqueue _ _)
  · rw [hasks.vocabulary_eq]
    exact hlt
  · rw [hasks.vocabulary_eq]
    exact hadv.filed.vocabulary.truth_lt

theorem Satisfied.read_of_assert_other (h : n.Satisfied I) (hI : I.Lawful) (hn : n.Closed)
    (hm : m.Filed []) {t : Term} (hne : ∀ s args k, t ≠ .apply (.symbol s) args k)
    (hext : (assert t m).Extends n) : I.read t = I.truth := by
  rcases assert_other hne m with ⟨ht, -⟩ | ⟨hf, he⟩ | he
  · cases t with
    | symbol s =>
      simp only [Term.isTruth, Bool.and_eq_true, beq_iff_eq] at ht
      rw [Interpretation.read_symbol, ht.1]
      rfl
    | apply fn args k => simp [Term.isTruth] at ht
    | lambda params body k => simp [Term.isTruth] at ht
    | cases branches otherwise k => simp [Term.isTruth] at ht
  · -- Falsehood was assumed, so the truth values are one.
    rw [he] at hext
    have hasks := asks_enqueue m (Vocabulary.truth, Vocabulary.falsehood)
    have heq := h.value_eq_of_joined hn hext (a := Vocabulary.truth) (b := Vocabulary.falsehood)
      (by rw [hasks.vocabulary_eq]; exact hm.vocabulary.truth_lt)
      (by rw [hasks.vocabulary_eq]; exact hm.vocabulary.falsehood_lt) (joined_enqueue _ _)
    rw [hn.filed.vocabulary.value_truth, hn.filed.vocabulary.value_falsehood] at heq
    cases t with
    | symbol s =>
      simp only [Term.isFalsehood, Bool.and_eq_true, beq_iff_eq] at hf
      rw [Interpretation.read_symbol, hf.1, heq]
      rfl
    | apply fn args k => simp [Term.isFalsehood] at hf
    | lambda params body k => simp [Term.isFalsehood] at hf
    | cases branches otherwise k => simp [Term.isFalsehood] at hf
  · rw [he] at hext
    exact h.read_of_place_enqueue hI hn hm hext

mutual

theorem Satisfied.read_of_assert (t : Term) {m : Model} (h : n.Satisfied I) (hI : I.Lawful)
    (hn : n.Closed) (hm : m.Filed []) (hp : t.plain = true) (hext : (assert t m).Extends n) :
    I.read t = I.truth := by
  match t with
  | .apply (.symbol s) args k =>
    obtain ⟨-, hargs, hne⟩ := Term.plain_apply_iff.mp hp
    rcases assert_apply s args k m with ⟨hs, he⟩ | ⟨a, b, hs, rfl, he⟩ | he
    · rw [he] at hext
      have hall := Satisfied.read_of_assertAll args h hI hn hm hargs hext
      rw [Interpretation.read_apply, Interpretation.read_symbol, hs]
      refine hI.conjuncts _ ?_ ?_
      · simpa using hne (by rw [← hs]; rfl)
      · intro d hd
        obtain ⟨a, ha, rfl⟩ := List.mem_map.mp hd
        exact hall a ha
    · obtain ⟨hleft, hl⟩ := advances_place a hm
      obtain ⟨hright, hr⟩ := advances_place b hleft.filed
      rw [he] at hext
      have hasks := asks_enqueue (place b (place a m).2).2
        ((place a m).1, (place b (place a m).2).1)
      have hlater := hasks.coarsens.extends.trans hext
      have heq := h.value_eq_of_joined hn hext
        (a := (place a m).1) (b := (place b (place a m).2).1)
        (by rw [hasks.vocabulary_eq]; exact hright.later.lt hl)
        (by rw [hasks.vocabulary_eq]; exact hr) (joined_enqueue _ _)
      rw [h.value_place hI hn hm (hright.later.trans hlater),
        h.value_place hI hn hleft.filed hlater] at heq
      rw [Interpretation.read_apply, Interpretation.read_symbol, hs]
      exact (hI.equal _ _).mpr heq
    · rw [he] at hext
      exact h.read_of_place_enqueue hI hn hm hext
  | .symbol s => exact h.read_of_assert_other hI hn hm (by simp) hext
  | .apply (.apply fn as l) args k => exact h.read_of_assert_other hI hn hm (by simp) hext
  | .apply (.lambda ps body l) args k => exact h.read_of_assert_other hI hn hm (by simp) hext
  | .apply (.cases bs o l) args k => exact h.read_of_assert_other hI hn hm (by simp) hext
  | .lambda params body k => exact h.read_of_assert_other hI hn hm (by simp) hext
  | .cases branches otherwise k => exact h.read_of_assert_other hI hn hm (by simp) hext

theorem Satisfied.read_of_assertAll (ts : List Term) {m : Model} (h : n.Satisfied I)
    (hI : I.Lawful) (hn : n.Closed) (hm : m.Filed []) (hp : ∀ t ∈ ts, t.plain = true)
    (hext : (assertAll ts m).Extends n) : ∀ t ∈ ts, I.read t = I.truth := by
  match ts with
  | [] => simp
  | t :: rest =>
    have hfirst := advances_assert t hm
    have hrest := advances_assertAll rest hfirst.filed
    rw [assertAll] at hext
    have hhead := Satisfied.read_of_assert t h hI hn hm (hp t List.mem_cons_self)
      (hrest.later.trans hext)
    have htail := Satisfied.read_of_assertAll rest h hI hn hfirst.filed
      (fun b hb => hp b (List.mem_cons_of_mem _ hb)) hext
    exact List.forall_mem_cons.mpr ⟨hhead, htail⟩

end

theorem Satisfied.read_of_assume (hm : m.Closed) {t : Term} (h : (m.assume t).2.Satisfied I)
    (hI : I.Lawful) (hp : t.plain = true) : I.read t = I.truth := by
  obtain ⟨hn, -⟩ := closed_assume hm t
  obtain ⟨-, -, hcoarse⟩ := propagate_spec (advances_assert t hm.filed).filed
  exact h.read_of_assert t hI hn hm.filed hp hcoarse.extends

end Earlier

section Later

variable {m n : Model}

theorem value_app_congr {v : Vocabulary} {a : Application} (hap : J.apply = I.apply)
    (hv : ∀ s ∈ a.places, J.value (v.name s) = I.value (v.name s)) : a.value v J = a.value v I := by
  have hop : v.value J a.op = v.value I a.op := hv a.op Application.op_mem_places
  have hargs : a.args.map (v.value J) = a.args.map (v.value I) :=
    List.map_congr_left fun s hs => hv s (Application.arg_mem_places hs)
  rw [Application.value, Application.value, hap, hop, hargs]

/-- Definitions in order, each of a symbol by older ones, can be read one after another. -/
theorem exists_reading {v : Vocabulary} (hv : v.WellFormed) (added : List (Application × Nat))
    (I : Interpretation D) (hlt : ∀ e ∈ added, e.2 < v.size)
    (hplaces : ∀ e ∈ added, ∀ s ∈ e.1.places, s < e.2)
    (hsorted : added.Pairwise fun e f => e.2 < f.2) :
    ∃ J : Interpretation D, J.apply = I.apply ∧
      (∀ name, (∀ e ∈ added, v.name e.2 ≠ name) → J.value name = I.value name) ∧
      ∀ e ∈ added, v.value J e.2 = e.1.value v J := by
  induction added generalizing I with
  | nil => exact ⟨I, rfl, fun _ _ => rfl, by simp⟩
  | cons e rest ih =>
    obtain ⟨hfirst, hrest⟩ := List.pairwise_cons.mp hsorted
    let K : Interpretation D :=
      ⟨I.apply, fun name => if v.name e.2 = name then e.1.value v I else I.value name⟩
    obtain ⟨J, hap, hkeep, hreads⟩ := ih K (fun f hf => hlt f (List.mem_cons_of_mem _ hf))
      (fun f hf => hplaces f (List.mem_cons_of_mem _ hf)) hrest
    have helt := hlt e List.mem_cons_self
    -- Symbols up to the first result are not read anew by the rest.
    have hold : ∀ s, s ≤ e.2 → J.value (v.name s) = K.value (v.name s) := by
      intro s hs
      refine hkeep _ ?_
      intro f hf he
      have hef := hfirst f hf
      have hflt := hlt f (List.mem_cons_of_mem _ hf)
      have := hv.eq_of_name_eq hflt (by omega) he
      omega
    have hK : ∀ s, s < e.2 → K.value (v.name s) = I.value (v.name s) := by
      intro s hs
      refine if_neg ?_
      intro he
      have := hv.eq_of_name_eq helt (by omega) he
      omega
    refine ⟨J, hap, ?_, ?_⟩
    · intro name hname
      rw [hkeep name fun f hf => hname f (List.mem_cons_of_mem _ hf)]
      exact if_neg (hname e List.mem_cons_self)
    · have hself : v.value J e.2 = e.1.value v J := by
        have happ : e.1.value v J = e.1.value v I := by
          refine value_app_congr hap ?_
          intro s hs
          have hslt := hplaces e List.mem_cons_self s hs
          rw [hold s (by omega), hK s hslt]
        rw [Vocabulary.value, hold e.2 (Nat.le_refl _), happ]
        exact if_pos rfl
      exact List.forall_mem_cons.mpr ⟨hself, hreads⟩

/-- A model that was extended can be read by an interpretation that differs from one which satisfies
it in created names only, and that still satisfies the model as it was. -/
theorem Satisfied.exists_reading (h : m.Satisfied I) (hm : m.Filed []) (hn : n.Filed [])
    (hext : m.Extends n) : ∃ J : Interpretation D, J.apply = I.apply ∧
      (∀ name, (∀ k, name ≠ Vocabulary.createdName k) → J.value name = I.value name) ∧
      m.Satisfied J ∧ n.Reads J := by
  obtain ⟨added, he, hbounds, hplaces, hcreated, hsorted⟩ := hext.history
  obtain ⟨J, hap, hkeep, hreads⟩ := Model.exists_reading hn.vocabulary added I
    (fun e hmem => (hbounds e hmem).2) hplaces hsorted
  have hold : ∀ s, s < m.vocabulary.size →
      J.value (m.vocabulary.name s) = I.value (m.vocabulary.name s) := by
    intro s hs
    rw [← hext.vocabulary.name_eq hs]
    refine hkeep _ ?_
    intro e hmem hname
    have hb := hbounds e hmem
    have := hn.vocabulary.eq_of_name_eq hb.2 (hext.lt hs) hname
    omega
  have hreadm : m.Reads J := by
    intro e hmem
    obtain ⟨i, r, hr, rfl⟩ := exists_record_of_mem_history hmem
    rw [Vocabulary.value, hold _ (hm.result_lt hr),
      value_app_congr hap fun s hs => hold s (hm.places_lt hr s hs)]
    exact h.reads _ hmem
  refine ⟨J, hap, ?_, ⟨⟨?_⟩, hreadm⟩, ?_⟩
  · intro name hname
    refine hkeep name ?_
    intro e hmem he'
    obtain ⟨k, hk⟩ := hcreated e hmem
    exact hname k (he'.symm.trans hk)
  · intro i j hi hj hroot
    rw [Vocabulary.value, Vocabulary.value, hold i hi, hold j hj]
    exact h.respects.value_eq hi hj hroot
  · intro e hmem
    rw [he] at hmem
    rcases List.mem_append.mp hmem with hmem | hmem
    · obtain ⟨i, r, hr, rfl⟩ := exists_record_of_mem_history hmem
      rw [hext.vocabulary.value_eq (hm.result_lt hr), hext.vocabulary.value_app (hm.places_lt hr)]
      exact hreadm _ hmem
    · exact hreads e hmem

theorem ne_createdName_of_plain {name : Text} (h : plainName name = true) (k : Nat) :
    name ≠ Vocabulary.createdName k := by
  rintro rfl
  rw [plainName_createdName] at h
  contradiction

/-- Only created symbols are read anew, so the laws stay. -/
theorem lawful_of_reading (hI : I.Lawful) (hap : J.apply = I.apply)
    (hv : ∀ name, (∀ k, name ≠ Vocabulary.createdName k) → J.value name = I.value name) :
    J.Lawful := by
  refine hI.of_value_eq hap ?_
  intro name hname
  refine hv name (ne_createdName_of_plain ?_)
  revert name
  decide

theorem Satisfied.exists_variant (h : m.Satisfied I) (hm : m.Filed []) (hn : n.Filed [])
    (hext : m.Extends n) : ∃ J, I.Variant J ∧ m.Satisfied J ∧ n.Reads J := by
  obtain ⟨J, hap, hvalue, hs, hr⟩ := h.exists_reading hm hn hext
  exact ⟨J, ⟨hap, fun name hname => hvalue name (ne_createdName_of_plain hname)⟩, hs, hr⟩

theorem agrees_of_satisfied (h : m.Satisfied I) (hm : m.Closed) : m.Agrees I := by
  refine ⟨h.respects, ?_⟩
  rw [hm.pending_eq]
  simp

/-- A term that is true in all variants which satisfy a model can be assumed. -/
theorem exists_satisfied_assume {t : Term} (hI : I.Lawful) (hm : m.Closed)
    (h : ∃ J, I.Variant J ∧ m.Satisfied J)
    (ht : ∀ J, I.Variant J → m.Satisfied J → J.read t = J.truth) :
    ∃ J, I.Variant J ∧ (m.assume t).2.Satisfied J := by
  obtain ⟨J, hJ, hs⟩ := h
  obtain ⟨hn, hext⟩ := closed_assume hm t
  obtain ⟨K, hK, hsK, hread⟩ := hs.exists_variant hm.filed hn.filed hext
  have hvar := hJ.trans hK
  refine ⟨K, hvar, ?_, hread⟩
  exact (agrees_assume (hvar.lawful hI) hm (agrees_of_satisfied hsK hm) (ht K hvar hsK)
    hread).respects

theorem exists_satisfied_represent {t : Term} (hI : I.Lawful) (hm : m.Closed)
    (h : ∃ J, I.Variant J ∧ m.Satisfied J) :
    ∃ J, I.Variant J ∧ (m.represent t).2.Satisfied J := by
  obtain ⟨J, hJ, hs⟩ := h
  obtain ⟨hn, hext, -⟩ := closed_represent hm t
  obtain ⟨K, hK, hsK, hread⟩ := hs.exists_variant hm.filed hn.filed hext
  have hvar := hJ.trans hK
  refine ⟨K, hvar, ?_, hread⟩
  exact (denotes_represent (hvar.lawful hI) hm (agrees_of_satisfied hsK hm) hread).agrees.respects

theorem satisfied_empty (I : Interpretation D) : empty.Satisfied I :=
  ⟨(agrees_empty I).respects, by simp [Reads, history, empty]⟩

theorem Satisfied.value_represent {t : Term} (hm : m.Closed) (h : (m.represent t).2.Satisfied I)
    (hI : I.Lawful) : (m.represent t).2.vocabulary.value I (m.represent t).1 = I.read t := by
  obtain ⟨-, hext, -⟩ := closed_represent hm t
  have hearlier := h.of_extends hm.filed hext
  exact (denotes_represent hI hm (agrees_of_satisfied hearlier hm) h.reads).value_eq

end Later

end Model

end Discharge.Congruence
