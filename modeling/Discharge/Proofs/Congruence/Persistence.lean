import Discharge.Proofs.Congruence.Completeness
import Discharge.Proofs.Congruence.Conservation

namespace Discharge.Congruence.Model

variable {m n : Model}

section Known

theorem addSymbol_of_lookup? {name : Text} {i : Nat} (h : m.vocabulary.lookup? name = some i)
    (k : Kind) (u : Usage) : m.addSymbol name k u = (i, m) := by
  rw [addSymbol, Vocabulary.add_of_some h]

theorem placeConstant_of_rootOf? {t : Term} {r : Nat}
    (h : m.vocabulary.rootOf? t.render = some r) : m.placeConstant t = (r, m) := by
  obtain ⟨i, hi, rfl⟩ := Option.map_eq_some_iff.mp h
  rw [placeConstant, addSymbol_of_lookup? hi]
  rfl

mutual

theorem place_of_find? (t : Term) {r : Nat} (h : m.find? t = some r) : place t m = (r, m) := by
  match t with
  | .symbol s =>
    rw [find?_symbol] at h
    obtain ⟨i, hi, rfl⟩ := Option.map_eq_some_iff.mp h
    rw [place, addSymbol_of_lookup? hi]
    rfl
  | .apply fn args k =>
    rw [find?_apply] at h
    simp only [bind, pure, Option.bind_eq_some_iff, Option.some.injEq] at h
    obtain ⟨op, hop, is, his, i, hi, rfl⟩ := h
    rw [place_apply, placeOperator_of_findOperator? fn hop, placeAll_of_findAll? args his]
    exact placeApplication_of_some hi
  | .lambda params body k =>
    rw [find?_of_not_apply (by simp)] at h
    rw [place]
    exact placeConstant_of_rootOf? h
  | .cases branches otherwise k =>
    rw [find?_of_not_apply (by simp)] at h
    rw [place]
    exact placeConstant_of_rootOf? h

theorem placeOperator_of_findOperator? (fn : Term) {op : Nat} (h : m.findOperator? fn = some op) :
    placeOperator fn m = (op, m) := by
  match fn with
  | .symbol s => exact addSymbol_of_lookup? h _ _
  | .apply fn args k => exact place_of_find? (.apply fn args k) h
  | .lambda params body k => exact place_of_find? (.lambda params body k) h
  | .cases branches otherwise k => exact place_of_find? (.cases branches otherwise k) h

theorem placeAll_of_findAll? (ts : List Term) {is : List Nat} (h : m.findAll? ts = some is) :
    placeAll ts m = (is, m) := by
  match ts with
  | [] =>
    rw [findAll?] at h
    cases h
    rw [placeAll]
  | t :: rest =>
    rw [findAll?] at h
    simp only [bind, pure, Option.bind_eq_some_iff, Option.some.injEq] at h
    obtain ⟨i, hi, js, hjs, rfl⟩ := h
    rw [placeAll, place_of_find? t hi]
    simp only [placeAll_of_findAll? rest hjs]

end

theorem root_find? (hm : m.Closed) {t : Term} {r : Nat} (h : m.find? t = some r) :
    m.root r = r := by
  have hconstant : ∀ {name : Text}, m.vocabulary.rootOf? name = some r → m.root r = r := by
    intro name hr
    obtain ⟨i, -, rfl⟩ := Option.map_eq_some_iff.mp hr
    exact hm.filed.vocabulary.root_root i
  cases t with
  | symbol s => exact hconstant ((find?_symbol m s).symm.trans h)
  | apply fn args k =>
    rw [find?_apply] at h
    simp only [bind, pure, Option.bind_eq_some_iff, Option.some.injEq] at h
    obtain ⟨op, -, is, -, i, -, rfl⟩ := h
    exact hm.filed.vocabulary.root_root _
  | lambda params body k => exact hconstant ((find?_of_not_apply (by simp)).symm.trans h)
  | cases branches otherwise k => exact hconstant ((find?_of_not_apply (by simp)).symm.trans h)

theorem represent_of_find? (hm : m.Closed) {t : Term} {r : Nat} (h : m.find? t = some r) :
    m.represent t = (r, m) := by
  rw [represent, place_of_find? t h]
  simp only [propagate_of_pending_nil hm.pending_eq, root_find? hm h]

end Known

section Held

/-- Whether a model has the merge that asserting a term would ask for, if the term is no
conjunction. -/
structure HoldsPart (m : Model) (t : Term) : Prop where
  equation : ∀ {a b : Term}, t.equation? = some (a, b) →
    ∃ r, m.find? a = some r ∧ m.find? b = some r
  other : t.equation? = none → m.find? t = some (m.root Vocabulary.truth)

/-- Whether a model holds a term: all that asserting it would ask for was done. -/
def Holds (m : Model) (t : Term) : Prop := ∀ c ∈ t.conjuncts, m.HoldsPart c

theorem assert_part {t : Term} (ht : t.operator? ≠ some ("and" : Text)) (m : Model) :
    (∃ a b, t.equation? = some (a, b) ∧ assert t m =
      (place b (place a m).2).2.enqueue ((place a m).1, (place b (place a m).2).1)) ∨
    t.equation? = none ∧ (t.isTruth = true ∧ assert t m = m ∨
      t.isFalsehood = true ∧ assert t m = m.enqueue (Vocabulary.truth, Vocabulary.falsehood) ∨
      assert t m = (place t m).2.enqueue ((place t m).1, Vocabulary.truth)) := by
  cases he : t.equation? with
  | some e =>
    obtain ⟨s, k, hs, rfl⟩ := Term.eq_of_equation? he
    exact .inl ⟨e.1, e.2, rfl, assert_equation hs _ _ _ _⟩
  | none =>
    refine .inr ⟨rfl, ?_⟩
    have hnone : t.equation? = none := he
    match t with
    | .apply (.symbol s) args k =>
      rcases assert_apply s args k m with ⟨hs, -⟩ | ⟨a, b, hs, rfl, -⟩ | h
      · exact (ht (congrArg some hs)).elim
      · simp [Term.equation?, Term.operator?, Term.sides?, hs] at hnone
      · exact .inr (.inr h)
    | .symbol s => exact assert_other (by simp) m
    | .apply (.apply fn as l) args k => exact assert_other (by simp) m
    | .apply (.lambda ps body l) args k => exact assert_other (by simp) m
    | .apply (.cases bs o l) args k => exact assert_other (by simp) m
    | .lambda params body k => exact assert_other (by simp) m
    | .cases branches otherwise k => exact assert_other (by simp) m

theorem find?_of_isTruth (hm : m.Closed) {t : Term} (ht : t.isTruth = true) :
    m.find? t = some (m.root Vocabulary.truth) := by
  cases t with
  | symbol s =>
    simp only [Term.isTruth, Bool.and_eq_true, beq_iff_eq] at ht
    rw [find?_symbol, ht.1, Vocabulary.rootOf?, hm.filed.vocabulary.lookup?_truth]
    rfl
  | apply fn args k => simp [Term.isTruth] at ht
  | lambda params body k => simp [Term.isTruth] at ht
  | cases branches otherwise k => simp [Term.isTruth] at ht

theorem find?_of_isFalsehood (hm : m.Closed) {t : Term} (ht : t.isFalsehood = true) :
    m.find? t = some (m.root Vocabulary.falsehood) := by
  cases t with
  | symbol s =>
    simp only [Term.isFalsehood, Bool.and_eq_true, beq_iff_eq] at ht
    rw [find?_symbol, ht.1, Vocabulary.rootOf?, hm.filed.vocabulary.lookup?_falsehood]
    rfl
  | apply fn args k => simp [Term.isFalsehood] at ht
  | lambda params body k => simp [Term.isFalsehood] at ht
  | cases branches otherwise k => simp [Term.isFalsehood] at ht

theorem holdsPart_of_assert (hm : m.Filed []) (hn : n.Closed) (hx : n.vocabulary.KeepsExchanges)
    {t : Term} (ht : t.operator? ≠ some ("and" : Text)) (hext : (assert t m).Extends n) :
    n.HoldsPart t := by
  rcases assert_part ht m with ⟨a, b, he, hassert⟩ | ⟨he, hassert⟩
  · obtain ⟨s, k, hs, rfl⟩ := Term.eq_of_equation? he
    obtain ⟨hleft, -⟩ := advances_place a hm
    obtain ⟨hright, -⟩ := advances_place b hleft.filed
    have hsame := find?_of_assert_equation hm hn hx hs hext
    rw [hassert] at hext
    have hlater := (asks_enqueue _ _).coarsens.extends.trans hext
    have hfound := find?_place a hm hn hx (hright.later.trans hlater)
    refine ⟨?_, fun hnone => absurd (hnone.symm.trans he) (by simp)⟩
    intro a' b' he'
    cases he.symm.trans he'
    exact ⟨_, hfound, hsame ▸ hfound⟩
  · refine ⟨fun he' => absurd (he.symm.trans he') (by simp), fun _ => ?_⟩
    rcases hassert with ⟨htrue, -⟩ | ⟨hfalse, hassert⟩ | hassert
    · exact find?_of_isTruth hn htrue
    · rw [hassert] at hext
      rw [find?_of_isFalsehood hn hfalse]
      exact congrArg some ((hext.joined (joined_enqueue _ _)).root_eq hn.pending_eq).symm
    · rw [hassert] at hext
      rw [find?_place t hm hn hx ((asks_enqueue _ _).coarsens.extends.trans hext)]
      exact congrArg some ((hext.joined (joined_enqueue _ _)).root_eq hn.pending_eq)

theorem exists_assert_of_mem {ts : List Term} {t : Term} (ht : t ∈ ts) (hm : m.Filed []) :
    ∃ o : Model, o.Filed [] ∧ (assert t o).Extends (assertAll ts m) := by
  induction ts generalizing m with
  | nil => simp at ht
  | cons u rest ih =>
    have hfirst := advances_assert u hm
    rw [assertAll]
    rcases List.mem_cons.mp ht with rfl | ht
    · exact ⟨m, hm, (advances_assertAll rest hfirst.filed).later⟩
    · exact ih ht hfirst.filed

/-- What was asserted is held by every later state. -/
theorem holds_of_assert (hn : n.Closed) (hx : n.vocabulary.KeepsExchanges) (t : Term)
    (hm : m.Filed []) (hext : (assert t m).Extends n) : n.Holds t := by
  revert m
  refine Term.splitOn_induction (P := fun t ps => ∀ {m : Model}, m.Filed [] →
    (assert t m).Extends n → ∀ c ∈ ps, n.HoldsPart c) "and" ?_ ?_ t
  · intro t ht m hm hext c hc
    rw [List.mem_singleton.mp hc]
    exact holdsPart_of_assert hm hn hx ht hext
  · intro s args k hs ih m hm hext c hc
    obtain ⟨a, ha, hca⟩ := List.mem_flatMap.mp hc
    rw [assert_conjunction hs] at hext
    obtain ⟨o, ho, hlater⟩ := exists_assert_of_mem ha hm
    exact ih a ha ho (hlater.trans hext) c hca

theorem assert_of_holdsPart (hm : m.Closed) {t : Term} (ht : t.operator? ≠ some ("and" : Text))
    (h : m.HoldsPart t) : assert t m = m := by
  rcases assert_part ht m with ⟨a, b, he, hassert⟩ | ⟨he, hassert⟩
  · obtain ⟨r, ha, hb⟩ := h.equation he
    simp only [place_of_find? a ha, place_of_find? b hb] at hassert
    rw [hassert]
    exact enqueue_eq_self rfl
  · have hfound := h.other he
    rcases hassert with ⟨-, hassert⟩ | ⟨hfalse, hassert⟩ | hassert
    · exact hassert
    · -- `false` is held only once it is in the class of `true`: nothing is left to merge.
      rw [find?_of_isFalsehood hm hfalse] at hfound
      rw [hassert]
      exact enqueue_eq_self (Option.some.inj hfound).symm
    · simp only [place_of_find? t hfound] at hassert
      rw [hassert]
      exact enqueue_eq_self (hm.filed.vocabulary.root_root _)

theorem assertAll_eq_self {ts : List Term} (h : ∀ t ∈ ts, assert t m = m) :
    assertAll ts m = m := by
  induction ts with
  | nil => rw [assertAll]
  | cons t rest ih =>
    obtain ⟨ht, hrest⟩ := List.forall_mem_cons.mp h
    rw [assertAll, ht]
    exact ih hrest

/-- Asserting what is held asks for nothing. -/
theorem assert_of_holds (hm : m.Closed) (t : Term) (h : m.Holds t) : assert t m = m := by
  revert h
  refine Term.splitOn_induction (P := fun t ps => (∀ c ∈ ps, m.HoldsPart c) → assert t m = m)
    "and" ?_ ?_ t
  · intro t ht h
    exact assert_of_holdsPart hm ht (h t (List.mem_singleton_self t))
  · intro s args k hs ih h
    have hall : ∀ a ∈ args, assert a m = m :=
      fun a ha => ih a ha fun c hc => h c (List.mem_flatMap.mpr ⟨a, ha, hc⟩)
    rw [assert_conjunction hs]
    exact assertAll_eq_self hall

theorem assume_of_holds (hm : m.Closed) {t : Term} (h : m.Holds t) :
    m.assume t = (⟨0, 0⟩, m) := by
  rw [assume, assert_of_holds hm t h, propagate_of_pending_nil hm.pending_eq, Nat.sub_self,
    Nat.sub_self]

theorem holds_of_assume (hm : m.Closed) (hn : n.Closed) (hx : n.vocabulary.KeepsExchanges)
    {t : Term} (hext : (m.assume t).2.Extends n) : n.Holds t := by
  obtain ⟨-, -, hcoarse⟩ := propagate_spec (advances_assert t hm.filed).filed
  exact holds_of_assert hn hx t hm.filed (hcoarse.extends.trans hext)

end Held

/-- What was assumed once is assumed again without any change, and what was represented once is
represented in its class again, also without any change, as long as operands that were exchanged
once can still be. Symbols that share a class keep sharing one. -/
theorem persistent_ofInputs (inputs later : List Input) (t : Term) :
    ((later.foldl feed ((ofInputs inputs).assume t).2).vocabulary.KeepsExchanges →
      ((later.foldl feed ((ofInputs inputs).assume t).2).assume t).1.render = "" ∧
      ((later.foldl feed ((ofInputs inputs).assume t).2).assume t).2 =
        later.foldl feed ((ofInputs inputs).assume t).2) ∧
    ((later.foldl feed ((ofInputs inputs).represent t).2).vocabulary.KeepsExchanges →
      (later.foldl feed ((ofInputs inputs).represent t).2).represent t =
        ((later.foldl feed ((ofInputs inputs).represent t).2).root
            ((ofInputs inputs).represent t).1,
          later.foldl feed ((ofInputs inputs).represent t).2)) ∧
    ∀ i j, (ofInputs inputs).root i = (ofInputs inputs).root j →
      (ofInputs (inputs ++ later)).root i = (ofInputs (inputs ++ later)).root j := by
  have hm := closed_ofInputs inputs
  refine ⟨?_, ?_, ?_⟩
  · intro hx
    obtain ⟨hn, hext⟩ := closed_foldl_feed later (closed_assume hm t).1
    rw [assume_of_holds hn (holds_of_assume hm hn hx hext)]
    exact ⟨rfl, rfl⟩
  · intro hx
    obtain ⟨hn, hext⟩ := closed_foldl_feed later (closed_represent hm t).1
    exact represent_of_find? hn (find?_represent hm hn hx hext)
  · intro i j hij
    obtain ⟨hn, hext⟩ := closed_foldl_feed later hm
    rw [ofInputs, List.foldl_append]
    change (later.foldl feed (ofInputs inputs)).root i = (later.foldl feed (ofInputs inputs)).root j
    exact (hext.joined (Joined.of_root_eq hij)).root_eq hn.pending_eq

/-- The fact about `d = a` is retired in favour of that about `a = c` once `d` and `c` are merged,
and what was assumed of it still is. -/
theorem persistent_retiredEquation :
    let x (name : Text) : Term := .symbol ⟨name, .boolean, .free⟩
    let t : Term := .equal (.equal (x "d") (x "a")) (x "q")
    let before : List Input := [.represent (.equal (x "a") (x "c"))]
    let later : List Input := [.assume (.equal (x "d") (x "c")), .assume (.disj (x "q") (x "r"))]
    let n := later.foldl feed ((ofInputs before).assume t).2
    let o := later.foldl feed ((ofInputs before).represent t).2
    n.vocabulary.KeepsExchanges ∧ (n.assume t).1.render = "" ∧ (n.assume t).2 = n ∧
      o.vocabulary.KeepsExchanges ∧
      o.represent t = (o.root ((ofInputs before).represent t).1, o) := by
  intro x t before later n o
  have hn : n.vocabulary.KeepsExchanges := by decide +kernel
  have ho : o.vocabulary.KeepsExchanges := by decide +kernel
  obtain ⟨hassume, hrepresent, -⟩ := persistent_ofInputs before later t
  obtain ⟨hempty, hsame⟩ := hassume hn
  exact ⟨hn, hempty, hsame, ho, hrepresent ho⟩

/-- Once `=` has given way to a symbol that keeps its operands in order, an equation that was
assumed is new to the model. -/
theorem assumption_lost :
    let x (name : Text) : Term := .symbol ⟨name, .boolean, .free⟩
    let t : Term := .equal (.equal (x "d") (x "a")) (x "q")
    (.assume t : Input) ∈ exchangedEquation ∧
      ((ofInputs exchangedEquation).assume t).1 = ⟨1, 1⟩ := by
  intro x t
  exact ⟨by simp [exchangedEquation, t, x], by decide +kernel⟩

end Discharge.Congruence.Model
