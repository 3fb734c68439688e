import Discharge.Proofs.Congruence.Joining

/-!
Inputs that change nothing. A model counts its facts and its merges, and each step of placing a term
or making a merge that raises neither count adds symbols at most. Symbols without facts are of no
use to a match: an input that is counted as no change leaves the facts, the joins and their results
as they were.
-/

namespace Discharge.Congruence.Model

variable {m n o : Model}

/-- A later state with more symbols, but the facts and classes of before. -/
structure Widens (m n : Model) : Prop where
  vocabulary : m.vocabulary.Grows n.vocabulary
  root_eq : ∀ i, n.root i = m.root i
  records_eq : n.records = m.records

theorem Widens.refl (m : Model) : m.Widens m := ⟨.refl _, fun _ => rfl, rfl⟩

theorem Widens.trans (h : m.Widens n) (h' : n.Widens o) : m.Widens o where
  vocabulary := h.vocabulary.trans h'.vocabulary
  root_eq i := (h'.root_eq i).trans (h.root_eq i)
  records_eq := h'.records_eq.trans h.records_eq

section Counting

/-- A later state by its counts: neither falls, and if neither rises the model is only wider. -/
structure Counts (m n : Model) : Prop where
  facts_le : m.records.size ≤ n.records.size
  merges_le : m.merges ≤ n.merges
  widens : n.records.size = m.records.size → n.merges = m.merges → m.Widens n

theorem Counts.refl (m : Model) : m.Counts m :=
  ⟨Nat.le_refl _, Nat.le_refl _, fun _ _ => .refl m⟩

theorem Counts.trans (h : m.Counts n) (h' : n.Counts o) : m.Counts o where
  facts_le := h.facts_le.trans h'.facts_le
  merges_le := h.merges_le.trans h'.merges_le
  widens hfacts hmerges := by
    have hf := h.facts_le
    have hf' := h'.facts_le
    have hc := h.merges_le
    have hc' := h'.merges_le
    exact (h.widens (by omega) (by omega)).trans (h'.widens (by omega) (by omega))

theorem Widens.counts (h : m.Widens n) (hmerges : n.merges = m.merges) : m.Counts n :=
  ⟨by rw [h.records_eq], by rw [hmerges], fun _ _ => h⟩

theorem Asks.counts (h : m.Asks n) : m.Counts n := by
  obtain ⟨asked, rfl⟩ := h
  exact Widens.counts ⟨.refl _, fun _ => rfl, rfl⟩ rfl

theorem counts_addSymbol (h : m.Filed []) (name : Text) (k : Kind) (u : Usage) :
    m.Counts (m.addSymbol name k u).2 :=
  Widens.counts ⟨Vocabulary.grows_add h.vocabulary name k u,
    Vocabulary.root_add h.vocabulary name k u, rfl⟩ rfl

theorem size_history (m : Model) : m.history.length = m.records.size := by
  rw [history, List.length_map, Array.length_toList]

theorem foldl_refile_counts (moved : List Nat) (m : Model) :
    (moved.foldl refile m).records.size = m.records.size ∧
      (moved.foldl refile m).merges = m.merges := by
  refine ⟨?_, ?_⟩
  · rw [← size_history, (foldl_refile_frame moved m).2.1, size_history]
  · induction moved generalizing m with
    | nil => rfl
    | cons i rest ih =>
      obtain ⟨records, table, ⟨asked, he⟩, -⟩ := asks_refile m i
      rw [List.foldl_cons, ih, he]

theorem counts_unite (m : Model) (a b : Nat) : m.Counts (m.unite a b) := by
  by_cases hab : m.root a = m.root b
  · have he : m.unite a b = m := by
      simp [unite, hab]
    rw [he]
    exact .refl m
  · rw [unite_of_ne hab]
    obtain ⟨hfacts, hmerges⟩ := foldl_refile_counts (m.listing (m.givingWay a b)).toList
      (m.joined (m.vocabulary.merge (m.root a) (m.root b)).2
        (m.vocabulary.merge (m.root a) (m.root b)).1 (m.givingWay a b) m.pending)
    change _ = m.records.size at hfacts
    change _ = m.merges + 1 at hmerges
    refine ⟨by rw [hfacts], by rw [hmerges]; omega, ?_⟩
    intro _ hsame
    rw [hmerges] at hsame
    omega

theorem counts_propagateWithin (fuel : Nat) (m : Model) : m.Counts (propagateWithin fuel m) := by
  have hset : ∀ (m : Model) (pending : List (Nat × Nat)), m.Counts { m with pending } :=
    fun m pending => Widens.counts ⟨.refl _, fun _ => rfl, rfl⟩ rfl
  induction fuel generalizing m with
  | zero => exact hset m _
  | succ fuel ih =>
    unfold propagateWithin
    split
    · exact hset m _
    · rename_i p rest _
      exact ((hset m rest).trans (counts_unite _ p.1 p.2)).trans (ih _)

theorem counts_propagate (m : Model) : m.Counts m.propagate := counts_propagateWithin _ m

theorem insert_counts (m : Model) (app : Application) (result : Nat) :
    (m.insert app result).records.size = m.records.size + 1 ∧
      (m.insert app result).merges = m.merges := by
  obtain ⟨uses, he, -⟩ := m.entered_spec app result
  obtain ⟨asked, hasks⟩ := asks_check (m.entered app result) m.records.size
  rw [insert_eq, hasks, he]
  exact ⟨Array.size_push _, rfl⟩

theorem counts_placeApplication (m : Model) (app : Application) (kind : Kind) :
    m.Counts (m.placeApplication app kind).2 := by
  cases hk : m.table[app.key m.vocabulary]? with
  | some i =>
    rw [placeApplication_of_some hk]
    exact .refl m
  | none =>
    rw [placeApplication_of_none hk]
    refine Counts.trans (n := m.define app kind) ?_ (counts_propagate _)
    obtain ⟨hfacts, hmerges⟩ := insert_counts
      { m with vocabulary := (m.vocabulary.create kind).2 } app (m.vocabulary.create kind).1
    change (m.define app kind).records.size = m.records.size + 1 at hfacts
    change (m.define app kind).merges = m.merges at hmerges
    refine ⟨by omega, by omega, ?_⟩
    intro hsame
    omega

mutual

theorem counts_place (t : Term) {m : Model} (h : m.Filed []) : m.Counts (place t m).2 := by
  match t with
  | .symbol s =>
    rw [place]
    exact counts_addSymbol h s.name s.kind (usageOf s false)
  | .apply fn args k =>
    rw [place_apply]
    have hop := (advances_placeOperator fn h).1.filed
    exact ((counts_placeOperator fn h).trans (counts_placeAll args hop)).trans
      (counts_placeApplication _ _ k)
  | .lambda params body k =>
    rw [place]
    exact counts_addSymbol h _ _ .literal
  | .cases branches otherwise k =>
    rw [place]
    exact counts_addSymbol h _ _ .literal

theorem counts_placeOperator (fn : Term) {m : Model} (h : m.Filed []) :
    m.Counts (placeOperator fn m).2 := by
  match fn with
  | .symbol s => exact counts_addSymbol h s.name s.kind (usageOf s true)
  | .apply fn args k => exact counts_place (.apply fn args k) h
  | .lambda params body k => exact counts_addSymbol h _ _ .literal
  | .cases branches otherwise k => exact counts_addSymbol h _ _ .literal

theorem counts_placeAll (ts : List Term) {m : Model} (h : m.Filed []) :
    m.Counts (placeAll ts m).2 := by
  match ts with
  | [] =>
    rw [placeAll]
    exact .refl m
  | t :: rest =>
    rw [placeAll]
    exact (counts_place t h).trans (counts_placeAll rest (advances_place t h).1.filed)

end

theorem Counts.enqueue (h : m.Counts n) (p : Nat × Nat) : m.Counts (n.enqueue p) :=
  h.trans (asks_enqueue n p).counts

theorem counts_assert_other {t : Term} (ht : ∀ s args k, t ≠ .apply (.symbol s) args k)
    (h : m.Filed []) : m.Counts (assert t m) := by
  rcases assert_other ht m with ⟨-, he⟩ | ⟨-, he⟩ | he
  · rw [he]
    exact .refl m
  · rw [he]
    exact (Counts.refl m).enqueue _
  · rw [he]
    exact (counts_place t h).enqueue _

mutual

theorem counts_assert (t : Term) {m : Model} (h : m.Filed []) : m.Counts (assert t m) := by
  match t with
  | .apply (.symbol s) args k =>
    rcases assert_apply s args k m with ⟨-, he⟩ | ⟨a, b, -, -, he⟩ | he
    · rw [he]
      exact counts_assertAll args h
    · rw [he]
      exact ((counts_place a h).trans (counts_place b (advances_place a h).1.filed)).enqueue _
    · rw [he]
      exact (counts_place _ h).enqueue _
  | .symbol s => exact counts_assert_other (by simp) h
  | .apply (.apply fn as l) args k => exact counts_assert_other (by simp) h
  | .apply (.lambda ps body l) args k => exact counts_assert_other (by simp) h
  | .apply (.cases bs o l) args k => exact counts_assert_other (by simp) h
  | .lambda params body k => exact counts_assert_other (by simp) h
  | .cases branches otherwise k => exact counts_assert_other (by simp) h

theorem counts_assertAll (ts : List Term) {m : Model} (h : m.Filed []) :
    m.Counts (assertAll ts m) := by
  match ts with
  | [] =>
    rw [assertAll]
    exact .refl m
  | t :: rest =>
    rw [assertAll]
    exact (counts_assert t h).trans (counts_assertAll rest (advances_assert t h).filed)

end

/-- An assumption that is counted as no change only makes the model wider. -/
theorem widens_assume (hm : m.Closed) {t : Term} (h : (m.assume t).1.isEmpty = true) :
    m.Widens (m.assume t).2 := by
  have hc := (counts_assert t hm.filed).trans (counts_propagate _)
  simp only [Change.isEmpty, assume, Bool.and_eq_true, beq_iff_eq] at h
  have hfacts := hc.facts_le
  have hmerges := hc.merges_le
  exact hc.widens (by omega) (by omega)

end Counting

section Matching

theorem Widens.facts_eq (h : m.Widens n) : n.facts = m.facts := by
  have hroot : n.vocabulary.root = m.vocabulary.root := funext h.root_eq
  have hroot' : n.root = m.root := funext h.root_eq
  have hcanonical : Application.canonical n.vocabulary = Application.canonical m.vocabulary := by
    funext a
    rw [Application.canonical, Application.canonical, hroot]
  rw [facts, facts, h.records_eq, hcanonical, hroot']

theorem Widens.rootOf?_iff (h : m.Widens n) (hm : m.Closed) (hn : n.Closed) {i : Nat}
    (hi : i < m.vocabulary.size) {name : Text} :
    n.vocabulary.rootOf? name = some i ↔ m.vocabulary.rootOf? name = some i := by
  have hv := hm.filed.vocabulary
  have hw := hn.filed.vocabulary
  simp only [Vocabulary.rootOf?, Option.map_eq_some_iff]
  constructor
  · rintro ⟨j, hj, hroot⟩
    have hroot' : m.vocabulary.root j = i := (h.root_eq j).symm.trans hroot
    have hlt : j < m.vocabulary.size := hv.lt_of_root_lt (hroot'.symm ▸ hi)
    refine ⟨j, ?_, hroot'⟩
    rw [← hw.name_of_lookup? hj, h.vocabulary.name_eq hlt]
    exact hv.lookup?_name hlt
  · rintro ⟨j, hj, rfl⟩
    have hlt := hv.lt_of_lookup? hj
    refine ⟨j, ?_, h.root_eq j⟩
    rw [← hv.name_of_lookup? hj, ← h.vocabulary.name_eq hlt]
    exact hw.lookup?_name (Nat.lt_of_lt_of_le hlt h.vocabulary.size_le)

theorem Widens.rootOf?_beq (h : m.Widens n) (hm : m.Closed) (hn : n.Closed) {i : Nat}
    (hi : i < m.vocabulary.size) (name : Text) :
    (n.vocabulary.rootOf? name == some i) = (m.vocabulary.rootOf? name == some i) := by
  rw [Bool.eq_iff_iff, beq_iff_eq, beq_iff_eq]
  exact h.rootOf?_iff hm hn hi

theorem Widens.rootOf?_of_some (h : m.Widens n) (hm : m.Closed) (hn : n.Closed) {name : Text}
    {i : Nat} (hi : m.vocabulary.rootOf? name = some i) : n.vocabulary.rootOf? name = some i := by
  obtain ⟨j, hj, rfl⟩ := Option.map_eq_some_iff.mp hi
  have hlt := hm.filed.root_lt (hm.filed.vocabulary.lt_of_lookup? hj)
  exact (h.rootOf?_iff hm hn hlt).mpr hi

theorem Widens.unify_eq (h : m.Widens n) (hm : m.Closed) (hn : n.Closed) (v : Vocabulary)
    (s : Nat) {a : Nat} (ha : a < m.vocabulary.size) (b : Binding) :
    n.unify v s a b = m.unify v s a b := by
  simp only [unify, h.rootOf?_beq hm hn ha, h.vocabulary.name_eq ha]

theorem Widens.unifyAll_eq (h : m.Widens n) (hm : m.Closed) (hn : n.Closed) (v : Vocabulary)
    (ss as : List Nat) (has : ∀ a ∈ as, a < m.vocabulary.size) (b : Binding) :
    n.unifyAll v ss as b = m.unifyAll v ss as b := by
  match ss, as with
  | s :: ss, a :: as =>
    obtain ⟨ha, hrest⟩ := List.forall_mem_cons.mp has
    rw [unifyAll, unifyAll, h.unify_eq hm hn v s ha]
    exact congrArg _ (funext fun c => h.unifyAll_eq hm hn v ss as hrest c)
  | [], _ => simp only [unifyAll]
  | _ :: _, [] => simp only [unifyAll]

theorem Widens.orders_eq (h : m.Widens n) (hm : m.Closed) {f : Fact} (hf : f ∈ m.facts) :
    n.orders f = m.orders f := by
  have hop : f.app.op < m.vocabulary.size :=
    hm.symbols_fact_lt hf _ (Fact.op_mem_symbols _)
  unfold orders
  rw [h.vocabulary.name_eq hop]

theorem eligible_eq (m : Model) (v : Vocabulary) (p : Fact) : m.eligible v p =
    (m.facts.filter fun f => f.app.args.length == p.app.args.length &&
      ((v.usage (v.root p.app.op)).isVariable ||
        m.vocabulary.rootOf? (v.name (v.root p.app.op)) == some f.app.op)).flatMap m.orders := by
  unfold eligible
  dsimp only
  congr 1
  refine List.filter_congr fun f _ => congrArg _ ?_
  cases (v.usage (v.root p.app.op)).isVariable with
  | true => rfl
  | false =>
    cases m.vocabulary.rootOf? (v.name (v.root p.app.op)) with
    | none => rfl
    | some op => exact Bool.beq_comm

theorem Widens.eligible_eq (h : m.Widens n) (hm : m.Closed) (hn : n.Closed) (v : Vocabulary)
    (p : Fact) : n.eligible v p = m.eligible v p := by
  rw [Model.eligible_eq, Model.eligible_eq, h.facts_eq]
  have hfilter : ∀ f ∈ m.facts, (n.vocabulary.rootOf? (v.name (v.root p.app.op)) ==
      some f.app.op) = (m.vocabulary.rootOf? (v.name (v.root p.app.op)) == some f.app.op) := by
    intro f hf
    exact h.rootOf?_beq hm hn (hm.symbols_fact_lt hf _ (Fact.op_mem_symbols _)) _
  rw [List.filter_congr fun f hf => by rw [hfilter f hf]]
  exact List.flatMap_congr fun f hf => h.orders_eq hm (List.mem_filter.mp hf).1

/-- A wider model joins the same. -/
theorem Widens.join_eq (h : m.Widens n) (hm : m.Closed) (hn : n.Closed) (v : Vocabulary) :
    n.join v = m.join v := by
  funext bs p
  rw [join, join, h.eligible_eq hm hn]
  congr 1
  refine List.flatMap_congr fun b _ => List.filterMap_congr fun g hg => ?_
  obtain ⟨f, hf, -, hord⟩ := mem_eligible hg
  exact h.unifyAll_eq hm hn v _ _ (fun a ha => (hm.symbols_orders hf hord a ha).1) b

end Matching

end Discharge.Congruence.Model
