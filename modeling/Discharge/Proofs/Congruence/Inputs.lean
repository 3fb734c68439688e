import Discharge.Proofs.Congruence.Placing

namespace Discharge.Congruence.Model

theorem assert_apply (s : Symbol) (args : List Term) (k : Kind) (m : Model) :
    s.name = "and" ∧ assert (.apply (.symbol s) args k) m = assertAll args m ∨
    (∃ a b, s.name = "=" ∧ args = [a, b] ∧ assert (.apply (.symbol s) args k) m =
      (place b (place a m).2).2.enqueue ((place a m).1, (place b (place a m).2).1)) ∨
    assert (.apply (.symbol s) args k) m =
      (place (.apply (.symbol s) args k) m).2.enqueue
        ((place (.apply (.symbol s) args k) m).1, Vocabulary.truth) := by
  by_cases hand : s.name = "and"
  · left
    refine ⟨hand, ?_⟩
    unfold assert
    simp [hand]
  · right
    by_cases heq : s.name = "=" ∧ ∃ a b, args = [a, b]
    · left
      obtain ⟨hs, a, b, rfl⟩ := heq
      refine ⟨a, b, hs, rfl, ?_⟩
      unfold assert
      simp [hs, show ("=" : Text) ≠ "and" by decide]
    · right
      unfold assert
      simp only [beq_iff_eq, hand, if_false]
      split
      · rename_i a b hs
        exact (heq ⟨by simpa using hs, a, b, rfl⟩).elim
      · rfl

theorem assert_other {t : Term} (h : ∀ s args k, t ≠ .apply (.symbol s) args k) (m : Model) :
    t.isTruth = true ∧ assert t m = m ∨
    t.isFalsehood = true ∧ assert t m = m.enqueue (Vocabulary.truth, Vocabulary.falsehood) ∨
    assert t m = (place t m).2.enqueue ((place t m).1, Vocabulary.truth) := by
  have he : assert t m = if t.isTruth then m
      else if t.isFalsehood then m.enqueue (Vocabulary.truth, Vocabulary.falsehood)
      else (place t m).2.enqueue ((place t m).1, Vocabulary.truth) := by
    rw [assert]
    exact h
  rw [he]
  by_cases ht : t.isTruth = true
  · exact .inl ⟨ht, by simp [ht]⟩
  · right
    by_cases hf : t.isFalsehood = true
    · exact .inl ⟨hf, by simp [ht, hf]⟩
    · exact .inr (by simp [ht, hf])

theorem advances_enqueue {m n : Model} (h : m.Advances n) {p : Nat × Nat}
    (h₁ : p.1 < n.vocabulary.size) (h₂ : p.2 < n.vocabulary.size) : m.Advances (n.enqueue p) := by
  exact ⟨filed_enqueue h.filed h₁ h₂, h.later.trans (asks_enqueue n p).coarsens.extends⟩

theorem advances_place_enqueue {m : Model} (h : m.Filed []) (t : Term) :
    m.Advances ((place t m).2.enqueue ((place t m).1, Vocabulary.truth)) := by
  obtain ⟨hadv, hlt⟩ := advances_place t h
  exact advances_enqueue hadv hlt hadv.filed.vocabulary.truth_lt

theorem advances_assert_other {m : Model} (h : m.Filed []) {t : Term}
    (ht : ∀ s args k, t ≠ .apply (.symbol s) args k) : m.Advances (assert t m) := by
  rcases assert_other ht m with ⟨-, he⟩ | ⟨-, he⟩ | he
  · rw [he]
    exact ⟨h, .refl m⟩
  · rw [he]
    exact advances_enqueue ⟨h, .refl m⟩ h.vocabulary.truth_lt h.vocabulary.falsehood_lt
  · rw [he]
    exact advances_place_enqueue h t

mutual

theorem advances_assert (t : Term) {m : Model} (h : m.Filed []) : m.Advances (assert t m) := by
  match t with
  | .apply (.symbol s) args k =>
    rcases assert_apply s args k m with ⟨-, he⟩ | ⟨a, b, -, -, he⟩ | he
    · rw [he]
      exact advances_assertAll args h
    · obtain ⟨hleft, hl⟩ := advances_place a h
      obtain ⟨hright, hr⟩ := advances_place b hleft.filed
      rw [he]
      exact advances_enqueue (hleft.trans hright) (hright.later.lt hl) hr
    · rw [he]
      exact advances_place_enqueue h _
  | .symbol s => exact advances_assert_other h (by simp)
  | .apply (.apply fn as l) args k => exact advances_assert_other h (by simp)
  | .apply (.lambda ps body l) args k => exact advances_assert_other h (by simp)
  | .apply (.cases bs o l) args k => exact advances_assert_other h (by simp)
  | .lambda params body k => exact advances_assert_other h (by simp)
  | .cases branches otherwise k => exact advances_assert_other h (by simp)

theorem advances_assertAll (ts : List Term) {m : Model} (h : m.Filed []) :
    m.Advances (assertAll ts m) := by
  match ts with
  | [] =>
    rw [assertAll]
    exact ⟨h, .refl m⟩
  | t :: rest =>
    have hfirst := advances_assert t h
    rw [assertAll]
    exact hfirst.trans (advances_assertAll rest hfirst.filed)

end

theorem mem_facts {m : Model} {f : Fact} :
    f ∈ m.facts ↔ ∃ (i : Nat) (r : Record), m.records[i]? = some r ∧
      r.live = true ∧ f = ⟨r.app.canonical m.vocabulary, m.root r.result⟩ := by
  simp only [facts, List.mem_map, List.mem_filter, Array.mem_toList_iff, Array.mem_iff_getElem?]
  constructor
  · rintro ⟨r, ⟨⟨i, hr⟩, hl⟩, rfl⟩
    exact ⟨i, r, hr, hl, rfl⟩
  · rintro ⟨i, r, hr, hl, rfl⟩
    exact ⟨r, ⟨⟨i, hr⟩, hl⟩, rfl⟩

/-- A model between two inputs: it is filed, and no merge is pending. -/
structure Closed (m : Model) : Prop where
  filed : m.Filed []
  pending_eq : m.pending = []

theorem closed_empty : empty.Closed := by
  refine ⟨⟨Vocabulary.wellFormed_initial, ?_, ?_, ?_, ?_, ?_, ?_, ?_, ?_⟩, rfl⟩
  · simp [empty]
  · simp [empty]
  · intro k i
    simp [empty]
  · simp [empty]
  · simp [empty]
  · simp [empty]
  · simp [empty, root, Vocabulary.initial_root, Vocabulary.truth, Vocabulary.falsehood]
  · simp [empty]

theorem closed_assume {m : Model} (h : m.Closed) (t : Term) :
    (m.assume t).2.Closed ∧ m.Extends (m.assume t).2 := by
  have hassert := advances_assert t h.filed
  obtain ⟨hfiled, hdone, hext⟩ := propagate_spec hassert.filed
  exact ⟨⟨hfiled, hdone⟩, hassert.later.trans hext.extends⟩

theorem closed_represent {m : Model} (h : m.Closed) (t : Term) :
    (m.represent t).2.Closed ∧ m.Extends (m.represent t).2 ∧
      (m.represent t).1 < (m.represent t).2.vocabulary.size := by
  obtain ⟨hplace, hlt⟩ := advances_place t h.filed
  obtain ⟨hfiled, hdone, hext⟩ := propagate_spec hplace.filed
  exact ⟨⟨hfiled, hdone⟩, hplace.later.trans hext.extends,
    hfiled.root_lt (hext.extends.lt hlt)⟩

section Folding

variable {α : Type} {f : Model → α → Model} {P : Model → Prop} {m : Model}

theorem extends_foldl (as : List α)
    (hf : ∀ a ∈ as, ∀ m : Model, P m → P (f m a) ∧ m.Extends (f m a)) (h : P m) :
    P (as.foldl f m) ∧ m.Extends (as.foldl f m) := by
  refine List.foldlRecOn (motive := fun n => P n ∧ m.Extends n) as f ⟨h, .refl m⟩ ?_
  rintro n ⟨hn, hext⟩ a ha
  obtain ⟨hnext, hext'⟩ := hf a ha n hn
  exact ⟨hnext, hext.trans hext'⟩

theorem exists_step_of_mem {as : List α}
    (hf : ∀ a ∈ as, ∀ m : Model, P m → P (f m a) ∧ m.Extends (f m a)) {a : α} (ha : a ∈ as)
    (h : P m) : ∃ o, P o ∧ (f o a).Extends (as.foldl f m) := by
  obtain ⟨before, later, rfl⟩ := List.append_of_mem ha
  have hbefore := (extends_foldl before (fun b hb => hf b (List.mem_append_left _ hb)) h).1
  refine ⟨before.foldl f m, hbefore, ?_⟩
  rw [List.foldl_append, List.foldl_cons]
  exact (extends_foldl later (fun b hb => hf b (by simp [hb])) (hf a ha _ hbefore).1).2

end Folding

inductive Input where
  | assume (t : Term)
  | represent (t : Term)

def feed (m : Model) : Input → Model
  | .assume t => (m.assume t).2
  | .represent t => (m.represent t).2

def ofInputs (inputs : List Input) : Model := inputs.foldl feed empty

theorem closed_feed {m : Model} (h : m.Closed) (i : Input) :
    (m.feed i).Closed ∧ m.Extends (m.feed i) := by
  cases i with
  | assume t => exact closed_assume h t
  | represent t =>
    obtain ⟨hc, hext, -⟩ := closed_represent h t
    exact ⟨hc, hext⟩

theorem closed_foldl_feed (inputs : List Input) {m : Model} (h : m.Closed) :
    (inputs.foldl feed m).Closed ∧ m.Extends (inputs.foldl feed m) :=
  extends_foldl inputs (fun i _ _ hm => closed_feed hm i) h

theorem closed_ofInputs (inputs : List Input) : (ofInputs inputs).Closed :=
  (closed_foldl_feed inputs closed_empty).1

end Discharge.Congruence.Model
