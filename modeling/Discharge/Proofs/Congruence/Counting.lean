import Discharge.Proofs.Congruence.Draining
import Discharge.Proofs.Congruence.Lookup

namespace Discharge.Congruence

theorem Vocabulary.classCount_of_new {v w : Vocabulary} (h : v.WellFormed)
    (hsize : w.size = v.size + 1) (hroot : ∀ i, w.root i = v.root i) :
    w.classCount = v.classCount + 1 := by
  have hnew : v.root v.size = v.size := root_of_ge h (Nat.le_refl _)
  rw [classCount, hsize, Finset.range_add_one, classCount]
  simp only [hroot]
  rw [Finset.filter_insert, if_pos hnew, Finset.card_insert_of_notMem (by simp)]

namespace Model

variable {m n o : Model}

section Spending

/-- A later state that was reached with so many new facts at most. Each new symbol is a new class,
and each class that is lost is counted. -/
structure Spends (facts : Nat) (m n : Model) : Prop where
  history : ∃ inserted, n.history = m.history ++ inserted ∧ inserted.length ≤ facts
  names : m.Names → n.Names
  merges_le : m.merges ≤ n.merges
  balance : n.vocabulary.classCount + n.merges + m.vocabulary.size =
    m.vocabulary.classCount + m.merges + n.vocabulary.size

variable {k l : Nat}

theorem Spends.trans (h : Spends k m n) (h' : Spends l n o) : Spends (k + l) m o := by
  obtain ⟨inserted, he, hlen⟩ := h.history
  obtain ⟨inserted', he', hlen'⟩ := h'.history
  have hb := h.balance
  have hb' := h'.balance
  refine ⟨⟨inserted ++ inserted', ?_, ?_⟩, fun hn => h'.names (h.names hn),
    Nat.le_trans h.merges_le h'.merges_le, by omega⟩
  · rw [he', he, List.append_assoc]
  · rw [List.length_append]
    omega

theorem Spends.mono (h : Spends k m n) (hle : k ≤ l) : Spends l m n := by
  obtain ⟨inserted, he, hlen⟩ := h.history
  exact ⟨⟨inserted, he, Nat.le_trans hlen hle⟩, h.names, h.merges_le, h.balance⟩

theorem Merges.spends (h : m.Merges n) (hnames : m.Names → n.Names) : Spends 0 m n := by
  refine ⟨⟨[], by simp [h.history_eq], Nat.le_refl _⟩, hnames, h.merges_le, ?_⟩
  rw [h.balance, h.size_eq]

theorem Spends.refl (m : Model) : Spends 0 m m := (Merges.refl m).spends id

theorem Asks.spends (h : m.Asks n) : Spends 0 m n := by
  refine Merges.spends ?_ h.names
  obtain ⟨asked, rfl⟩ := h
  exact ⟨rfl, rfl, Nat.le_refl _, rfl⟩

theorem spends_propagate (h : m.Filed []) : Spends 0 m m.propagate := by
  obtain ⟨hturns, -⟩ := turns_propagate h.anchored
  exact (hturns.merges h.anchored).2.spends fun hn => (hturns.inRange ⟨h.anchored, hn⟩).names

theorem spends_setVocabulary (h : m.vocabulary.WellFormed) {v : Vocabulary}
    (hsize : v.size = m.vocabulary.size + 1) (hroot : ∀ i, v.root i = m.root i) :
    Spends 0 m { m with vocabulary := v } := by
  have hcount := Vocabulary.classCount_of_new h hsize hroot
  refine ⟨⟨[], (List.append_nil _).symm, Nat.le_refl _⟩, fun hn => ⟨hn.table_lt, hn.uses_lt⟩,
    Nat.le_refl _, ?_⟩
  change v.classCount + m.merges + _ = _ + v.size
  omega

theorem spends_addSymbol (h : m.vocabulary.WellFormed) (name : Text) (kind : Kind) (u : Usage) :
    Spends 0 m (m.addSymbol name kind u).2 := by
  cases hl : m.vocabulary.lookup? name with
  | some i =>
    have hself : (m.addSymbol name kind u).2 = m := by simp [addSymbol, Vocabulary.add_of_some hl]
    rw [hself]
    exact .refl m
  | none =>
    exact spends_setVocabulary h (Vocabulary.size_add_of_none hl _ _)
      (Vocabulary.root_add h name kind u)

theorem spends_insert (m : Model) (app : Application) (result : Nat) :
    Spends 1 m (m.insert app result) := by
  obtain ⟨uses, he, -⟩ := m.entered_spec app result
  have hentered : Spends 1 m (m.entered app result) := by
    refine ⟨⟨[(app, result)], m.history_entered app result, Nat.le_refl _⟩,
      fun hn => hn.entered app result, ?_, ?_⟩
    · rw [he]
    · rw [he]
  rw [insert_eq]
  exact hentered.trans (asks_check _ _).spends

theorem spends_define (h : m.vocabulary.WellFormed) (app : Application) (kind : Kind) :
    Spends 1 m (m.define app kind) := by
  have hcreated := spends_setVocabulary h (Vocabulary.size_create h kind)
    (Vocabulary.root_create h kind)
  exact (hcreated.trans (spends_insert _ _ _)).mono (by omega)

theorem spends_placeApplication (h : m.Filed []) {app : Application} (kind : Kind)
    (happ : ∀ s ∈ app.places, s < m.vocabulary.size) :
    Spends 1 m (m.placeApplication app kind).2 := by
  cases hk : m.table[app.key m.vocabulary]? with
  | some i =>
    rw [placeApplication_of_some hk]
    exact (Spends.refl m).mono (by omega)
  | none =>
    rw [placeApplication_of_none hk]
    exact (spends_define h.vocabulary app kind).trans
      (spends_propagate (advances_define h app kind happ hk).1.filed)

mutual

/-- Each application in a term brings one fact at most. -/
theorem spends_place (t : Term) {m : Model} (h : m.Filed []) :
    Spends t.applications.length m (place t m).2 := by
  match t with
  | .symbol s =>
    rw [place]
    exact spends_addSymbol h.vocabulary _ _ _
  | .apply fn args kind =>
    obtain ⟨hop, hall, hplaces⟩ := advances_parts fn args h
    rw [place_apply]
    refine (((spends_placeOperator fn h).trans (spends_placeAll args hop.filed)).trans
      (spends_placeApplication hall.filed kind hplaces)).mono ?_
    simp [Term.applications]
  | .lambda params body kind =>
    rw [place]
    exact spends_addSymbol h.vocabulary _ _ _
  | .cases branches otherwise kind =>
    rw [place]
    exact spends_addSymbol h.vocabulary _ _ _

theorem spends_placeOperator (fn : Term) {m : Model} (h : m.Filed []) :
    Spends fn.applications.length m (placeOperator fn m).2 := by
  match fn with
  | .symbol s => exact spends_addSymbol h.vocabulary _ _ _
  | .apply fn args kind => exact spends_place (.apply fn args kind) h
  | .lambda params body kind => exact spends_place (.lambda params body kind) h
  | .cases branches otherwise kind => exact spends_place (.cases branches otherwise kind) h

theorem spends_placeAll (ts : List Term) {m : Model} (h : m.Filed []) :
    Spends (Term.applicationsAll ts).length m (placeAll ts m).2 := by
  match ts with
  | [] =>
    rw [placeAll]
    exact .refl m
  | t :: rest =>
    rw [placeAll]
    refine ((spends_place t h).trans (spends_placeAll rest (advances_place t h).1.filed)).mono ?_
    simp [Term.applicationsAll]

end

theorem spends_place_enqueue (h : m.Filed []) (t : Term) :
    Spends t.applications.length m ((place t m).2.enqueue ((place t m).1, Vocabulary.truth)) :=
  (spends_place t h).trans (asks_enqueue _ _).spends

theorem spends_assert_other (h : m.Filed []) {t : Term}
    (ht : ∀ s args k, t ≠ .apply (.symbol s) args k) :
    Spends t.applications.length m (assert t m) := by
  rcases assert_other ht m with ⟨-, he⟩ | ⟨-, he⟩ | he
  · rw [he]
    exact (Spends.refl m).mono (Nat.zero_le _)
  · rw [he]
    exact (asks_enqueue _ _).spends.mono (Nat.zero_le _)
  · rw [he]
    exact spends_place_enqueue h t

mutual

theorem spends_assert (t : Term) {m : Model} (h : m.Filed []) :
    Spends t.applications.length m (assert t m) := by
  match t with
  | .apply (.symbol s) args kind =>
    rcases assert_apply s args kind m with ⟨-, he⟩ | ⟨a, b, -, rfl, he⟩ | he
    · rw [he]
      refine (spends_assertAll args h).mono ?_
      simp [Term.applications]
    · rw [he]
      refine (((spends_place a h).trans (spends_place b (advances_place a h).1.filed)).trans
        (asks_enqueue _ _).spends).mono ?_
      simp only [Term.applications, Term.applicationsAll, List.length_cons, List.length_append,
        List.length_nil]
      omega
    · rw [he]
      exact spends_place_enqueue h _
  | .symbol s => exact spends_assert_other h (by simp)
  | .apply (.apply fn as l) args k => exact spends_assert_other h (by simp)
  | .apply (.lambda ps body l) args k => exact spends_assert_other h (by simp)
  | .apply (.cases bs o l) args k => exact spends_assert_other h (by simp)
  | .lambda params body k => exact spends_assert_other h (by simp)
  | .cases branches otherwise k => exact spends_assert_other h (by simp)

theorem spends_assertAll (ts : List Term) {m : Model} (h : m.Filed []) :
    Spends (Term.applicationsAll ts).length m (assertAll ts m) := by
  match ts with
  | [] =>
    rw [assertAll]
    exact .refl m
  | t :: rest =>
    rw [assertAll]
    refine ((spends_assert t h).trans (spends_assertAll rest (advances_assert t h).filed)).mono ?_
    simp [Term.applicationsAll]

end

theorem spends_assume (h : m.Filed []) (t : Term) :
    Spends t.applications.length m (m.assume t).2 :=
  (spends_assert t h).trans (spends_propagate (advances_assert t h).filed)

theorem spends_represent (h : m.Filed []) (t : Term) :
    Spends t.applications.length m (m.represent t).2 :=
  (spends_place t h).trans (spends_propagate (advances_place t h).1.filed)

end Spending

section Building

/-- Models that are built from nothing: symbols are named or created, and terms are assumed or only
represented. -/
inductive Built : Model → Prop
  | empty : Built .empty
  | name {m : Model} (name : Text) (kind : Kind) (u : Usage) :
    Built m → Built (m.addSymbol name kind u).2
  | create {m : Model} (kind : Kind) :
    Built m → Built { m with vocabulary := (m.vocabulary.create kind).2 }
  | assume {m : Model} (t : Term) : Built m → Built (m.assume t).2
  | represent {m : Model} (t : Term) : Built m → Built (m.represent t).2

theorem Built.closed (h : Built m) : m.Closed := by
  induction h with
  | empty => exact closed_empty
  | name name kind u _ ih =>
    exact ⟨(advances_addSymbol ih.filed name kind u).1.filed, ih.pending_eq⟩
  | create kind _ ih =>
    have hv := ih.filed.vocabulary
    exact ⟨filed_setVocabulary ih.filed (Vocabulary.wellFormed_create hv kind)
      (Vocabulary.grows_create hv kind) (Vocabulary.root_create hv kind), ih.pending_eq⟩
  | assume t _ ih => exact (closed_assume ih t).1
  | represent t _ ih => exact (closed_represent ih t).1

theorem Spends.balanced (h : Spends k m n)
    (hm : m.vocabulary.classCount + m.merges = m.vocabulary.size) :
    n.vocabulary.classCount + n.merges = n.vocabulary.size := by
  have := h.balance
  omega

/-- The symbols of a model are its classes and its merges together. -/
theorem Built.balanced (h : Built m) :
    m.vocabulary.classCount + m.merges = m.vocabulary.size := by
  induction h with
  | empty =>
    change Vocabulary.initial.classCount + 0 = Vocabulary.initial.size
    simp [Vocabulary.classCount, Vocabulary.initial_root]
  | name name kind u hm ih =>
    exact (spends_addSymbol hm.closed.filed.vocabulary name kind u).balanced ih
  | create kind hm ih =>
    have hv := hm.closed.filed.vocabulary
    exact (spends_setVocabulary hv (Vocabulary.size_create hv kind)
      (Vocabulary.root_create hv kind)).balanced ih
  | assume t hm ih => exact (spends_assume hm.closed.filed t).balanced ih
  | represent t hm ih => exact (spends_represent hm.closed.filed t).balanced ih

theorem names_empty : Names .empty := by
  constructor
  · intro k i hi
    have hnone : Model.empty.table[k]? = none := Std.TreeMap.getElem?_emptyc
    rw [hnone] at hi
    contradiction
  · intro k i hi
    have hnone : Model.empty.uses[k]? = none := Std.TreeMap.getElem?_emptyc
    rw [listing, hnone] at hi
    simp at hi

theorem Built.inRange (h : Built m) : m.InRange := by
  refine ⟨h.closed.filed.anchored, ?_⟩
  induction h with
  | empty => exact names_empty
  | name name kind u hm ih =>
    exact (spends_addSymbol hm.closed.filed.vocabulary name kind u).names ih
  | create kind hm ih => exact ⟨ih.table_lt, ih.uses_lt⟩
  | assume t hm ih => exact (spends_assume hm.closed.filed t).names ih
  | represent t hm ih => exact (spends_represent hm.closed.filed t).names ih

theorem assume_tells (h : Built m) (t : Term) :
    ∃ inserted joined, (m.assume t).2.history = m.history ++ inserted ∧
      inserted.length ≤ t.applications.length ∧
      (m.assume t).2.vocabulary.classCount + joined + m.vocabulary.size =
        m.vocabulary.classCount + (m.assume t).2.vocabulary.size ∧
      (m.assume t).1 = ⟨inserted.length, joined⟩ := by
  have hspends := spends_assume h.closed.filed t
  obtain ⟨inserted, hhistory, hlen⟩ := hspends.history
  have hbalance := hspends.balance
  have hle := hspends.merges_le
  have hsize := congrArg List.length hhistory
  simp only [history, List.length_append, List.length_map, Array.length_toList] at hsize
  refine ⟨inserted, (m.assume t).2.merges - m.merges, hhistory, hlen, by omega, ?_⟩
  have hfacts : (m.assume t).2.records.size - m.records.size = inserted.length := by omega
  rw [← hfacts]
  rfl

end Building

/-- From any state all indices of which name something, the loop ends where propagation does and
nowhere else. It comes by no state with another symbol or another fact, and each turn leaves less to
be done. A merge that is not dropped costs one class and is counted. Of a model that was built,
the symbols are the classes and the merges together. An assertion puts one fact on record
at most for each application in the term, and its text states how many and how many classes it
joined. -/
theorem propagation_accounted :
    (∀ m : Model, m.InRange →
      (m.Turns m.propagate ∧ m.propagate.pending = [] ∧
        ∀ n, m.Turns n → n.pending = [] → n = m.propagate) ∧
      (∀ n, m.Turns n → n.InRange ∧ n.vocabulary.entries = m.vocabulary.entries ∧
        n.history = m.history ∧
        ∀ o, n.Turn o → Prod.Lex (· < ·) (· < ·) o.outstanding n.outstanding) ∧
      ∀ a b, a < m.vocabulary.size → b < m.vocabulary.size →
        (m.root a = m.root b → m.unite a b = m) ∧
        (m.root a ≠ m.root b → (m.unite a b).merges = m.merges + 1 ∧
          (m.unite a b).vocabulary.classCount + 1 = m.vocabulary.classCount)) ∧
    ∀ m : Model, Built m → m.InRange ∧
      m.vocabulary.size - m.merges = m.vocabulary.classCount ∧ m.merges ≤ m.vocabulary.size ∧
      ∀ t, ∃ inserted joined, (m.assume t).2.history = m.history ++ inserted ∧
        inserted.length ≤ t.applications.length ∧
        (m.assume t).2.vocabulary.classCount + joined + m.vocabulary.size =
          m.vocabulary.classCount + (m.assume t).2.vocabulary.size ∧
        (m.assume t).1.render =
          if inserted.length = 0 ∧ joined = 0 then ("" : Text)
          else toString inserted.length ++ " new atoms, " ++ toString joined ++ " merges" := by
  constructor
  · intro m hm
    obtain ⟨hturns, hdone⟩ := turns_propagate hm.anchored
    refine ⟨⟨hturns, hdone, fun n hn hp => hn.eq_of_pending_nil hturns hp hdone⟩, ?_, ?_⟩
    · intro n hn
      obtain ⟨hanchored, hmerges⟩ := hn.merges hm.anchored
      exact ⟨hn.inRange hm, hmerges.entries_eq, hmerges.history_eq,
        fun o hturn => (hturn.spec hanchored).2.2⟩
    · intro a b ha hb
      refine ⟨unite_of_eq, ?_⟩
      intro hne
      obtain ⟨-, -, hmerges, hcount⟩ := unite_spec hm.anchored ha hb hne
      exact ⟨hmerges, hcount⟩
  · intro m hm
    have hbalanced := hm.balanced
    refine ⟨hm.inRange, by omega, by omega, ?_⟩
    intro t
    obtain ⟨inserted, joined, hhistory, hlen, hclasses, htold⟩ := assume_tells hm t
    refine ⟨inserted, joined, hhistory, hlen, hclasses, ?_⟩
    rw [htold, Change.render, Change.isEmpty]
    simp only [Bool.and_eq_true, beq_iff_eq]

def sideBySide : Model :=
  let x (name : Text) : Term := .symbol ⟨name, .integer, .free⟩
  let f (name : Text) : Term := .call "f" .integer [x name]
  ((empty.represent (f "a")).2.represent (f "b")).2

theorem built_sideBySide : Built sideBySide := (Built.empty.represent _).represent _

/-- Two symbols are to be merged, twice even, and the loop merges the applications as well. -/
theorem propagation_accounted_sideBySide :
    let waiting : Model := { sideBySide with pending := [(3, 5), (5, 3)] }
    let t : Term := .equal (.symbol ⟨"a", .integer, .free⟩) (.call "g" .integer [])
    (waiting.InRange ∧ waiting.Turns waiting.propagate ∧ waiting.propagate.pending = [] ∧
      waiting.propagate.merges = 2 ∧
      (waiting.unite 3 5).pending = [(6, 4), (3, 5), (5, 3)] ∧
      (waiting.unite 3 5).vocabulary.classCount + 1 = waiting.vocabulary.classCount) ∧
    sideBySide.InRange ∧
      sideBySide.vocabulary.size - sideBySide.merges = sideBySide.vocabulary.classCount ∧
      ∃ inserted, (sideBySide.assume t).2.history = sideBySide.history ++ inserted ∧
        inserted.length = 1 ∧ (sideBySide.assume t).1.render = "1 new atoms, 1 merges" := by
  intro waiting t
  obtain ⟨hrange, hcount, -, htells⟩ := propagation_accounted.2 sideBySide built_sideBySide
  have hwaiting : waiting.InRange := by
    refine ⟨⟨hrange.anchored.vocabulary, hrange.anchored.places_lt, hrange.anchored.result_lt, ?_⟩,
      ⟨hrange.names.table_lt, hrange.names.uses_lt⟩⟩
    decide +kernel
  obtain ⟨⟨hturns, hdone, -⟩, -, hunite⟩ := propagation_accounted.1 waiting hwaiting
  have hne : waiting.root 3 ≠ waiting.root 5 := by decide +kernel
  have hcost := (hunite 3 5 (by decide +kernel) (by decide +kernel)).2 hne
  have hrender : (sideBySide.assume t).1.render = "1 new atoms, 1 merges" := by decide +kernel
  have hsize : (sideBySide.assume t).2.history.length = sideBySide.history.length + 1 := by
    decide +kernel
  obtain ⟨inserted, -, hhistory, -⟩ := htells t
  rw [hhistory, List.length_append] at hsize
  exact ⟨⟨hwaiting, hturns, hdone, by decide +kernel, by decide +kernel, hcost.2⟩,
    hrange, hcount, inserted, hhistory, Nat.add_left_cancel hsize, hrender⟩

end Model

end Discharge.Congruence
