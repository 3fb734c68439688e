import Discharge.Proofs.Congruence.Lookup

/-!
The applications that a model has facts about. Each of them stands in a term that the model was
given, and its symbols have the values that its parts have there. So whatever holds of operator and
operands wherever the terms apply one to others holds at every fact, and an interpretation may be
exchanged for a lawful one that differs from it nowhere in the terms.
-/

namespace Discharge

universe u

namespace Term

theorem mem_applications_apply {f : Term} {args : List Term} {k : Kind} {u : Term × List Term} :
    u ∈ (apply f args k).applications ↔
      u = (f, args) ∨ u ∈ f.applications ∨ ∃ a ∈ args, u ∈ a.applications := by
  rw [applications, applicationsAll_eq_flatMap, List.mem_cons, List.mem_append, List.mem_flatMap]

theorem mem_applications_self (f : Term) (args : List Term) (k : Kind) :
    (f, args) ∈ (apply f args k).applications :=
  mem_applications_apply.mpr (.inl rfl)

theorem applications_fn_subset (f : Term) (args : List Term) (k : Kind) :
    f.applications ⊆ (apply f args k).applications :=
  fun _ hu => mem_applications_apply.mpr (.inr (.inl hu))

theorem applications_arg_subset (f : Term) {args : List Term} (k : Kind) {a : Term}
    (ha : a ∈ args) : a.applications ⊆ (apply f args k).applications :=
  fun _ hu => mem_applications_apply.mpr (.inr (.inr ⟨a, ha, hu⟩))

theorem applications_of_mem_splitOn {op : Text} {t p : Term} (hp : p ∈ t.splitOn op) :
    p.applications ⊆ t.applications := by
  revert p
  refine splitOn_induction (P := fun t ps => ∀ {p : Term}, p ∈ ps →
    p.applications ⊆ t.applications) op ?_ ?_ t
  · intro t _ p hp
    rw [List.mem_singleton.mp hp]
    exact List.Subset.refl _
  · intro s args k _ ih p hp
    obtain ⟨a, ha, hpa⟩ := List.mem_flatMap.mp hp
    exact List.Subset.trans (ih a ha hpa) (applications_arg_subset _ k ha)

end Term

namespace Congruence

variable {D : Type u} {I J : Interpretation D} {Q : D → List D → Prop}

namespace Interpretation

/-- Whether something holds of operator and operands wherever a term applies one to others. -/
def Throughout (I : Interpretation D) (Q : D → List D → Prop) (t : Term) : Prop :=
  ∀ u ∈ t.applications, Q (I.read u.1) (u.2.map I.read)

namespace Throughout

variable {f : Term} {args : List Term} {k : Kind}

theorem here (h : I.Throughout Q (.apply f args k)) : Q (I.read f) (args.map I.read) :=
  h (f, args) (Term.mem_applications_self f args k)

theorem fn (h : I.Throughout Q (.apply f args k)) : I.Throughout Q f :=
  fun u hu => h u (Term.applications_fn_subset f args k hu)

theorem arg (h : I.Throughout Q (.apply f args k)) {a : Term} (ha : a ∈ args) :
    I.Throughout Q a :=
  fun u hu => h u (Term.applications_arg_subset f k ha hu)

theorem part {op : Text} {t p : Term} (h : I.Throughout Q t) (hp : p ∈ t.splitOn op) :
    I.Throughout Q p :=
  fun u hu => h u (Term.applications_of_mem_splitOn hp hu)

end Throughout

/-- Another interpretation of the same names that applies them alike where a condition holds. -/
structure SameWhere (I : Interpretation D) (Q : D → List D → Prop) (J : Interpretation D) :
    Prop where
  value_eq : J.value = I.value
  apply_eq : ∀ fn args, Q fn args → J.apply fn args = I.apply fn args

theorem SameWhere.refl (I : Interpretation D) (Q : D → List D → Prop) : I.SameWhere Q I :=
  ⟨rfl, fun _ _ _ => rfl⟩

theorem SameWhere.truth_eq (h : I.SameWhere Q J) : J.truth = I.truth := by
  rw [truth, truth, h.value_eq]

theorem SameWhere.falsehood_eq (h : I.SameWhere Q J) : J.falsehood = I.falsehood := by
  rw [falsehood, falsehood, h.value_eq]

mutual

theorem SameWhere.denote_eq (h : I.SameWhere Q J) (σ : Text → D) (t : Term)
    (ht : ∀ u ∈ t.applications, Q (I.denote σ u.1) (u.2.map (I.denote σ))) :
    J.denote σ t = I.denote σ t := by
  match t with
  | .symbol s => rw [denote, denote, h.value_eq]
  | .apply f args k =>
    have hfn := SameWhere.denote_eq h σ f fun u hu => ht u (Term.applications_fn_subset f args k hu)
    have hargs := SameWhere.denoteAll_eq h σ args fun a ha u hu =>
      ht u (Term.applications_arg_subset f k ha hu)
    have hhere := ht (f, args) (Term.mem_applications_self f args k)
    rw [denote, denote, hfn, hargs, denoteAll_eq_map]
    exact h.apply_eq _ _ hhere
  | .lambda params body k => rw [denote, denote, h.value_eq]
  | .cases branches otherwise k => rw [denote, denote, h.value_eq]

theorem SameWhere.denoteAll_eq (h : I.SameWhere Q J) (σ : Text → D) (ts : List Term)
    (hts : ∀ t ∈ ts, ∀ u ∈ t.applications, Q (I.denote σ u.1) (u.2.map (I.denote σ))) :
    J.denoteAll σ ts = I.denoteAll σ ts := by
  match ts with
  | [] => rw [denoteAll, denoteAll]
  | t :: rest =>
    rw [denoteAll, denoteAll, SameWhere.denote_eq h σ t (hts t List.mem_cons_self),
      SameWhere.denoteAll_eq h σ rest fun s hs => hts s (List.mem_cons_of_mem _ hs)]

end

theorem SameWhere.read_eq (h : I.SameWhere Q J) (t : Term) (ht : I.Throughout Q t) :
    J.read t = I.read t := by
  rw [read, read, h.value_eq]
  exact h.denote_eq I.value t ht

end Interpretation

theorem Vocabulary.Grows.applies {v w : Vocabulary} (g : v.Grows w) {a : Application}
    (ha : ∀ s ∈ a.places, s < v.size) (h : Q (v.value I a.op) (a.args.map (v.value I))) :
    Q (w.value I a.op) (a.args.map (w.value I)) := by
  have hargs : a.args.map (w.value I) = a.args.map (v.value I) :=
    List.map_congr_left fun s hs => g.value_eq (ha s (Application.arg_mem_places hs))
  rw [hargs, g.value_eq (ha a.op Application.op_mem_places)]
  exact h

namespace Model

/-- Whether something holds of the values of operator and operands at every fact on record. -/
def Applies (m : Model) (I : Interpretation D) (Q : D → List D → Prop) : Prop :=
  ∀ e ∈ m.history, Q (m.vocabulary.value I e.1.op) (e.1.args.map (m.vocabulary.value I))

variable {m n : Model}

theorem Applies.of_grows {stale : List Nat} (h : m.Applies I Q) (hm : m.Filed stale)
    (hh : n.history = m.history) (g : m.vocabulary.Grows n.vocabulary) : n.Applies I Q := by
  intro e he
  rw [hh] at he
  obtain ⟨i, r, hr, rfl⟩ := exists_record_of_mem_history he
  exact g.applies (hm.places_lt hr) (h _ he)

theorem Applies.fact (h : m.Applies I Q) (hm : m.Closed) (hrespects : m.vocabulary.Respects I)
    {f : Fact} (hf : f ∈ m.facts) :
    Q (m.vocabulary.value I f.app.op) (f.app.args.map (m.vocabulary.value I)) := by
  obtain ⟨i, r, hr, -, rfl⟩ := mem_facts.mp hf
  have hv := hm.filed.vocabulary
  have hargs := hrespects.map_value_root hv (l := r.app.args)
    fun s hs => hm.filed.symbols_lt hr s (Record.arg_mem_symbols hs)
  have hop := hrespects.value_root hv (hm.filed.op_lt hr)
  dsimp only [Application.canonical]
  rw [hargs, hop]
  exact h _ (mem_history hr)

theorem Reads.of_same (h : m.Reads I) (hsame : I.SameWhere Q J) (hq : m.Applies I Q) :
    m.Reads J := by
  have hvalue : m.vocabulary.value J = m.vocabulary.value I := by
    funext i
    rw [Vocabulary.value, Vocabulary.value, hsame.value_eq]
  intro e he
  rw [Application.value, hvalue, hsame.apply_eq _ _ (hq e he)]
  exact h e he

theorem applies_addSymbol (hm : m.Filed []) (h : m.Applies I Q) (name : Text) (k : Kind)
    (u : Usage) : (m.addSymbol name k u).2.Applies I Q :=
  h.of_grows hm rfl (Vocabulary.grows_add hm.vocabulary name k u)

theorem applies_propagate (hm : m.Filed []) (h : m.Applies I Q) : m.propagate.Applies I Q := by
  obtain ⟨-, -, hcoarse⟩ := propagate_spec hm
  exact h.of_grows hm hcoarse.history_eq hcoarse.vocabulary

theorem applies_enqueue (h : m.Applies I Q) (p : Nat × Nat) : (m.enqueue p).Applies I Q := by
  have hasks := asks_enqueue m p
  intro e he
  rw [hasks.history_eq] at he
  rw [hasks.vocabulary_eq]
  exact h e he

theorem applies_placeApplication (hm : m.Filed []) (h : m.Applies I Q) {app : Application}
    (k : Kind) (happ : ∀ s ∈ app.places, s < m.vocabulary.size)
    (hq : Q (m.vocabulary.value I app.op) (app.args.map (m.vocabulary.value I))) :
    (m.placeApplication app k).2.Applies I Q := by
  cases hk : m.table[app.key m.vocabulary]? with
  | some i =>
    rw [placeApplication_of_some hk]
    exact h
  | none =>
    obtain ⟨hdef, hv, hh⟩ := advances_define hm app k happ hk
    rw [placeApplication_of_none hk]
    refine applies_propagate hdef.filed ?_
    have g : m.vocabulary.Grows (m.define app k).vocabulary := hdef.later.vocabulary
    intro e he
    rw [hh] at he
    rcases List.mem_append.mp he with he | he
    · obtain ⟨i, r, hr, rfl⟩ := exists_record_of_mem_history he
      exact g.applies (hm.places_lt hr) (h _ he)
    · rw [List.mem_singleton.mp he]
      exact g.applies happ hq

theorem denotes_placeOperator (fn : Term) (hJ : J.Lawful) (hm : m.Filed []) (ha : m.Agrees J)
    (hread : (placeOperator fn m).2.Reads J) :
    (placeOperator fn m).2.Denotes J (placeOperator fn m).1 (J.read fn) := by
  match fn with
  | .symbol s =>
    rw [Interpretation.read_symbol]
    exact denotes_addSymbol hm ha s.name s.kind (usageOf s true)
  | .apply fn args k => exact denotes_place (.apply fn args k) hJ hm ha hread
  | .lambda params body k => exact denotes_place (.lambda params body k) hJ hm ha hread
  | .cases branches otherwise k => exact denotes_place (.cases branches otherwise k) hJ hm ha hread

section Placing

variable (hJ : J.Lawful) (hsame : I.SameWhere Q J)
include hJ hsame

mutual

theorem applies_place (t : Term) {m : Model} (hm : m.Filed []) (ha : m.Agrees J)
    (hq : m.Applies I Q) (hread : (place t m).2.Reads I) (ht : I.Throughout Q t) :
    (place t m).2.Applies I Q := by
  match t with
  | .symbol s =>
    rw [place]
    exact applies_addSymbol hm hq s.name s.kind (usageOf s false)
  | .apply fn args k =>
    obtain ⟨hop, hall, hplaces⟩ := advances_parts fn args hm
    obtain ⟨happlied, -⟩ := advances_placeApplication hall.filed _ k hplaces
    rw [place_apply] at hread ⊢
    have hreadAll := hread.of_extends hall.filed happlied.later
    have hreadOp := hreadAll.of_extends hop.filed hall.later
    have hqOp : (placeOperator fn m).2.Applies I Q := by
      match fn with
      | .symbol s => exact applies_addSymbol hm hq s.name s.kind (usageOf s true)
      | .apply fn args k => exact applies_place (.apply fn args k) hm ha hq hreadOp ht.fn
      | .lambda params body k => exact applies_place (.lambda params body k) hm ha hq hreadOp ht.fn
      | .cases branches otherwise k =>
        exact applies_place (.cases branches otherwise k) hm ha hq hreadOp ht.fn
    have hdenotes := denotes_placeOperator fn hJ hm ha (hreadOp.of_same hsame hqOp)
    have hqAll := applies_placeAll args hop.filed hdenotes.agrees hqOp hreadAll
      fun a harg => ht.arg harg
    obtain ⟨-, hvals⟩ := denotes_placeAll args hJ hop.filed hdenotes.agrees
      (hreadAll.of_same hsame hqAll)
    -- Operator and operands have the values that they have in the term.
    refine applies_placeApplication hall.filed hqAll k hplaces ?_
    have hvalue : ∀ v : Vocabulary, v.value I = v.value J := by
      intro v
      funext i
      rw [Vocabulary.value, Vocabulary.value, hsame.value_eq]
    have hfn := hall.later.vocabulary.value_eq (I := J) (advances_placeOperator fn hm).2
    rw [hdenotes.value_eq, hsame.read_eq fn ht.fn] at hfn
    rw [List.map_congr_left fun a harg => hsame.read_eq a (ht.arg harg)] at hvals
    rw [hvalue, hfn, hvals]
    exact ht.here
  | .lambda params body k =>
    rw [place]
    exact applies_addSymbol hm hq _ _ _
  | .cases branches otherwise k =>
    rw [place]
    exact applies_addSymbol hm hq _ _ _

theorem applies_placeAll (ts : List Term) {m : Model} (hm : m.Filed []) (ha : m.Agrees J)
    (hq : m.Applies I Q) (hread : (placeAll ts m).2.Reads I)
    (hts : ∀ t ∈ ts, I.Throughout Q t) : (placeAll ts m).2.Applies I Q := by
  match ts with
  | [] =>
    rw [placeAll]
    exact hq
  | t :: rest =>
    obtain ⟨hfirst, -⟩ := advances_place t hm
    obtain ⟨hrest, -⟩ := advances_placeAll rest hfirst.filed
    rw [placeAll] at hread ⊢
    have hreadFirst := hread.of_extends hfirst.filed hrest.later
    have hqFirst := applies_place t hm ha hq hreadFirst (hts t List.mem_cons_self)
    have hdenotes := denotes_place t hJ hm ha (hreadFirst.of_same hsame hqFirst)
    exact applies_placeAll rest hfirst.filed hdenotes.agrees hqFirst hread
      fun s hs => hts s (List.mem_cons_of_mem _ hs)

end

theorem applies_place_enqueue (hm : m.Filed []) (ha : m.Agrees J) (hq : m.Applies I Q) {t : Term}
    {p : Nat × Nat} (hread : ((place t m).2.enqueue p).Reads I) (ht : I.Throughout Q t) :
    ((place t m).2.enqueue p).Applies I Q := by
  have hasks := asks_enqueue (place t m).2 p
  exact applies_enqueue (applies_place hJ hsame t hm ha hq
    (reads_of_history_eq hread hasks.vocabulary_eq.symm hasks.history_eq.symm) ht) p

theorem applies_assert_other (hm : m.Filed []) (ha : m.Agrees J) (hq : m.Applies I Q) {t : Term}
    (hne : ∀ s args k, t ≠ .apply (.symbol s) args k) (hread : (assert t m).Reads I)
    (ht : I.Throughout Q t) : (assert t m).Applies I Q := by
  rcases assert_other hne m with ⟨-, he⟩ | ⟨-, he⟩ | he
  · rw [he]
    exact hq
  · rw [he]
    exact applies_enqueue hq _
  · rw [he] at hread ⊢
    exact applies_place_enqueue hJ hsame hm ha hq hread ht

mutual

theorem applies_assert (t : Term) {m : Model} (hm : m.Filed []) (ha : m.Agrees J)
    (hq : m.Applies I Q) (hread : (assert t m).Reads I) (ht : I.Throughout Q t)
    (htrue : J.read t = J.truth) : (assert t m).Applies I Q := by
  match t with
  | .apply (.symbol s) args k =>
    rcases assert_apply s args k m with ⟨hs, he⟩ | ⟨a, b, hs, rfl, he⟩ | he
    · rw [he] at hread ⊢
      rw [Interpretation.read_apply, Interpretation.read_symbol, hs] at htrue
      refine applies_assertAll args hm ha hq hread (fun a harg => ht.arg harg) ?_
      intro a hmem
      exact hJ.conjunct _ htrue _ (List.mem_map_of_mem hmem)
    · obtain ⟨hleft, -⟩ := advances_place a hm
      obtain ⟨hright, -⟩ := advances_place b hleft.filed
      rw [he] at hread ⊢
      have hasks := asks_enqueue (place b (place a m).2).2
        ((place a m).1, (place b (place a m).2).1)
      have hread' := reads_of_history_eq hread hasks.vocabulary_eq.symm hasks.history_eq.symm
      have hreadLeft := hread'.of_extends hleft.filed hright.later
      have hqLeft := applies_place hJ hsame a hm ha hq hreadLeft (ht.arg (by simp))
      have hdenotes := denotes_place a hJ hm ha (hreadLeft.of_same hsame hqLeft)
      exact applies_place_enqueue hJ hsame hleft.filed hdenotes.agrees hqLeft hread
        (ht.arg (by simp))
    · rw [he] at hread ⊢
      exact applies_place_enqueue hJ hsame hm ha hq hread ht
  | .symbol s => exact applies_assert_other hJ hsame hm ha hq (by simp) hread ht
  | .apply (.apply fn as l) args k =>
    exact applies_assert_other hJ hsame hm ha hq (by simp) hread ht
  | .apply (.lambda ps body l) args k =>
    exact applies_assert_other hJ hsame hm ha hq (by simp) hread ht
  | .apply (.cases bs o l) args k =>
    exact applies_assert_other hJ hsame hm ha hq (by simp) hread ht
  | .lambda params body k => exact applies_assert_other hJ hsame hm ha hq (by simp) hread ht
  | .cases branches otherwise k => exact applies_assert_other hJ hsame hm ha hq (by simp) hread ht

theorem applies_assertAll (ts : List Term) {m : Model} (hm : m.Filed []) (ha : m.Agrees J)
    (hq : m.Applies I Q) (hread : (assertAll ts m).Reads I) (hts : ∀ t ∈ ts, I.Throughout Q t)
    (htrue : ∀ t ∈ ts, J.read t = J.truth) : (assertAll ts m).Applies I Q := by
  match ts with
  | [] =>
    rw [assertAll]
    exact hq
  | t :: rest =>
    have hfirst := advances_assert t hm
    have hrest := advances_assertAll rest hfirst.filed
    rw [assertAll] at hread ⊢
    have hreadFirst := hread.of_extends hfirst.filed hrest.later
    have hqFirst := applies_assert t hm ha hq hreadFirst (hts t List.mem_cons_self)
      (htrue t List.mem_cons_self)
    have hagrees := agrees_assert t hJ hm ha (htrue t List.mem_cons_self)
      (hreadFirst.of_same hsame hqFirst)
    exact applies_assertAll rest hfirst.filed hagrees hqFirst hread
      (fun s hs => hts s (List.mem_cons_of_mem _ hs))
      fun s hs => htrue s (List.mem_cons_of_mem _ hs)

end

end Placing

/-- A model that was given only terms whose applications meet a condition. -/
structure Traces (m : Model) (I : Interpretation D) (Q : D → List D → Prop)
    (J : Interpretation D) : Prop where
  closed : m.Closed
  agrees : m.Agrees J
  applies : m.Applies I Q

theorem traces_empty (I : Interpretation D) (Q : D → List D → Prop) (J : Interpretation D) :
    empty.Traces I Q J :=
  ⟨closed_empty, agrees_empty J, by simp [Applies, history, empty]⟩

theorem Traces.assume (h : m.Traces I Q J) (hJ : J.Lawful) (hsame : I.SameWhere Q J) {t : Term}
    (hread : (m.assume t).2.Reads I) (ht : I.Throughout Q t) (htrue : I.read t = I.truth) :
    (m.assume t).2.Traces I Q J := by
  have hassert := advances_assert t h.closed.filed
  obtain ⟨hfiled, hdone, hcoarse⟩ := propagate_spec hassert.filed
  have hread' : (assert t m).Reads I := hread.of_extends hassert.filed hcoarse.extends
  have htrueJ : J.read t = J.truth := by rw [hsame.read_eq t ht, htrue, hsame.truth_eq]
  have hq := applies_assert hJ hsame t h.closed.filed h.agrees h.applies hread' ht htrueJ
  have hqAll : (m.assume t).2.Applies I Q := applies_propagate hassert.filed hq
  exact ⟨⟨hfiled, hdone⟩, agrees_assume hJ h.closed h.agrees htrueJ (hread.of_same hsame hqAll),
    hqAll⟩

theorem Traces.represent (h : m.Traces I Q J) (hJ : J.Lawful) (hsame : I.SameWhere Q J) {t : Term}
    (hread : (m.represent t).2.Reads I) (ht : I.Throughout Q t) :
    (m.represent t).2.Traces I Q J ∧
      (m.represent t).2.vocabulary.value J (m.represent t).1 = I.read t := by
  obtain ⟨hplace, -⟩ := advances_place t h.closed.filed
  obtain ⟨hfiled, hdone, hcoarse⟩ := propagate_spec hplace.filed
  have hread' : (place t m).2.Reads I := hread.of_extends hplace.filed hcoarse.extends
  have hq := applies_place hJ hsame t h.closed.filed h.agrees h.applies hread' ht
  have hqAll : (m.represent t).2.Applies I Q := applies_propagate hplace.filed hq
  have hdenotes := denotes_represent hJ h.closed h.agrees (hread.of_same hsame hqAll)
  exact ⟨⟨⟨hfiled, hdone⟩, hdenotes.agrees, hqAll⟩, by rw [hdenotes.value_eq, hsame.read_eq t ht]⟩

end Model

end Congruence

end Discharge
