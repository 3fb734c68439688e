import Mathlib.Data.List.Sort
import Discharge.Congruence.Fact
import Discharge.Proofs.Congruence.Classes

namespace Discharge.Congruence

theorem inOrder_eq_insertionSort (l : List Nat) : inOrder l = l.insertionSort (· ≤ ·) := by
  have hinsert : ∀ (a : Nat) (l : List Nat), insertInOrder a l = l.orderedInsert (· ≤ ·) a := by
    intro a l
    induction l with
    | nil => rfl
    | cons b rest ih => simp only [insertInOrder, List.orderedInsert_cons, ih]
  induction l with
  | nil => rfl
  | cons a rest ih =>
    change insertInOrder a (inOrder rest) = _
    rw [hinsert, ih, List.insertionSort_cons]

theorem inOrder_perm (l : List Nat) : (inOrder l).Perm l := by
  rw [inOrder_eq_insertionSort]
  exact List.perm_insertionSort _ l

theorem inOrder_eq_of_perm {l l' : List Nat} (h : l.Perm l') : inOrder l = inOrder l' := by
  have hp : (inOrder l).Perm (inOrder l') :=
    (inOrder_perm l).trans (h.trans (inOrder_perm l').symm)
  rw [inOrder_eq_insertionSort, inOrder_eq_insertionSort] at hp ⊢
  exact hp.eq_of_pairwise' (List.pairwise_insertionSort _ l) (List.pairwise_insertionSort _ l')

/-- Whether the class of a symbol holds an operator whose operands may be exchanged. -/
def Vocabulary.Exchanges (v : Vocabulary) (i : Nat) : Prop :=
  ∃ s < v.size, v.root s = v.root i ∧ isCommutative (v.name s) = true

theorem Vocabulary.Exchanges.congr {v : Vocabulary} {i j : Nat} (h : v.Exchanges i)
    (hr : v.root i = v.root j) : v.Exchanges j := by
  obtain ⟨s, hs, he, hc⟩ := h
  exact ⟨s, hs, he.trans hr, hc⟩

theorem Vocabulary.Exchanges.mono {v w : Vocabulary} (g : v.Grows w) {i : Nat} (hi : i < v.size)
    (h : v.Exchanges i) : w.Exchanges i := by
  obtain ⟨s, hs, he, hc⟩ := h
  exact ⟨s, Nat.lt_of_lt_of_le hs g.size_le, g.root_eq hs hi he, by rwa [g.name_eq hs]⟩

theorem Vocabulary.rootName_of_grows {v w : Vocabulary} (h : v.WellFormed) (g : v.Grows w) {i : Nat}
    (hi : i < v.size) (hr : w.root i = v.root i) : w.rootName i = v.rootName i := by
  rw [Vocabulary.rootName, hr]
  exact g.name_eq (h.root_lt hi)

theorem Application.op_mem_places {a : Application} : a.op ∈ a.places := List.mem_cons_self

theorem Application.arg_mem_places {a : Application} {s : Nat} (h : s ∈ a.args) : s ∈ a.places :=
  List.mem_cons_of_mem _ h

theorem Fact.op_mem_symbols (f : Fact) : f.app.op ∈ f.app.places ++ [f.result] :=
  List.mem_append_left _ Application.op_mem_places

namespace Application

variable {v w : Vocabulary} {a b c : Application}

theorem key_of_commutative (h : isCommutative (v.rootName a.op) = true) :
    a.key v = ⟨v.root a.op, inOrder (a.args.map v.root)⟩ := by
  simp only [Vocabulary.rootName] at h
  simp [key, canonical, h]

theorem key_of_not_commutative (h : isCommutative (v.rootName a.op) = false) :
    a.key v = ⟨v.root a.op, a.args.map v.root⟩ := by
  simp only [Vocabulary.rootName] at h
  simp [key, canonical, h]

theorem key_op (v : Vocabulary) (a : Application) : (a.key v).op = v.root a.op := by
  cases h : isCommutative (v.rootName a.op) with
  | true => rw [key_of_commutative h]
  | false => rw [key_of_not_commutative h]

theorem key_args_perm (v : Vocabulary) (a : Application) :
    (a.key v).args.Perm (a.args.map v.root) := by
  cases h : isCommutative (v.rootName a.op) with
  | true =>
    rw [key_of_commutative h]
    exact inOrder_perm _
  | false => rw [key_of_not_commutative h]

/-- Every symbol of a key is the root of a symbol of the application, and the other way round. -/
theorem mem_places_key {s : Nat} : s ∈ (a.key v).places ↔ ∃ i ∈ a.places, v.root i = s := by
  simp only [places, List.mem_cons, key_op, (key_args_perm v a).mem_iff, List.mem_map,
    exists_eq_or_imp]
  simp only [eq_comm]

theorem args_of_roots (hr : ∀ s ∈ a.places, w.root s = v.root s) :
    a.args.map w.root = a.args.map v.root :=
  List.map_congr_left fun s hs => hr s (arg_mem_places hs)

theorem key_congr (hr : ∀ s ∈ a.places, w.root s = v.root s)
    (hn : w.name (v.root a.op) = v.name (v.root a.op)) : a.key w = a.key v := by
  have hop : w.root a.op = v.root a.op := hr a.op op_mem_places
  have hargs := args_of_roots hr
  have hname : w.rootName a.op = v.rootName a.op := by
    rw [Vocabulary.rootName, hop, hn]
    rfl
  cases h : isCommutative (v.rootName a.op) with
  | true => rw [key_of_commutative h, key_of_commutative (hname ▸ h), hop, hargs]
  | false => rw [key_of_not_commutative h, key_of_not_commutative (hname ▸ h), hop, hargs]

theorem key_of_grows (h : v.WellFormed) (g : v.Grows w) (ha : ∀ s ∈ a.places, s < v.size)
    (hr : ∀ s ∈ a.places, w.root s = v.root s) : a.key w = a.key v :=
  key_congr hr (g.name_eq (h.root_lt (ha a.op op_mem_places)))

/-- Applications of one operator to the same operands, class by class. -/
structure Congruent (v : Vocabulary) (a b : Application) : Prop where
  op_eq : v.root a.op = v.root b.op
  args_perm : (a.args.map v.root).Perm (b.args.map v.root)
  args_eq : a.args.map v.root = b.args.map v.root ∨ v.Exchanges a.op

namespace Congruent

theorem refl (v : Vocabulary) (a : Application) : a.Congruent v a :=
  ⟨rfl, List.Perm.refl _, .inl rfl⟩

theorem trans (h : a.Congruent v b) (h' : b.Congruent v c) : a.Congruent v c := by
  refine ⟨h.op_eq.trans h'.op_eq, h.args_perm.trans h'.args_perm, ?_⟩
  rcases h.args_eq with he | hx
  · rcases h'.args_eq with he' | hx'
    · exact .inl (he.trans he')
    · exact .inr (hx'.congr h.op_eq.symm)
  · exact .inr hx

theorem mono (h : a.Congruent v b) (hv : v.WellFormed) (g : v.Grows w)
    (ha : ∀ s ∈ a.places, s < v.size) (hb : ∀ s ∈ b.places, s < v.size) : a.Congruent w b := by
  have hroot : ∀ s, s < v.size → w.root (v.root s) = w.root s := by
    intro s hs
    exact g.root_eq (hv.root_lt hs) hs (hv.root_root s)
  have hmap : ∀ l : List Nat, (∀ s ∈ l, s < v.size) → l.map w.root = (l.map v.root).map w.root := by
    intro l hl
    rw [List.map_map]
    apply List.map_congr_left
    intro s hs
    exact (hroot s (hl s hs)).symm
  have hma := hmap a.args fun s hs => ha s (by simp [places, hs])
  have hmb := hmap b.args fun s hs => hb s (by simp [places, hs])
  have hopa : a.op < v.size := ha a.op (by simp [places])
  have hopb : b.op < v.size := hb b.op (by simp [places])
  refine ⟨g.root_eq hopa hopb h.op_eq, ?_, ?_⟩
  · rw [hma, hmb]
    exact h.args_perm.map _
  · rcases h.args_eq with he | hx
    · left
      rw [hma, hmb, he]
    · exact .inr (hx.mono g hopa)

theorem of_key_eq (hv : v.WellFormed) (ha : a.op < v.size) (h : a.key v = b.key v) :
    a.Congruent v b := by
  have hop : v.root a.op = v.root b.op := by rw [← key_op v a, ← key_op v b, h]
  have hperm : (a.args.map v.root).Perm (b.args.map v.root) := by
    refine (key_args_perm v a).symm.trans ?_
    rw [h]
    exact key_args_perm v b
  refine ⟨hop, hperm, ?_⟩
  cases hc : isCommutative (v.rootName a.op) with
  | true => exact .inr ⟨v.root a.op, hv.root_lt ha, hv.root_root _, hc⟩
  | false =>
    have hb : isCommutative (v.rootName b.op) = false := by
      rw [Vocabulary.rootName, ← hop]
      exact hc
    rw [key_of_not_commutative hc, key_of_not_commutative hb] at h
    exact .inl (congrArg args h)

theorem key_eq (h : a.Congruent v b)
    (hx : v.Exchanges a.op → isCommutative (v.rootName a.op) = true) : a.key v = b.key v := by
  have hn : v.rootName b.op = v.rootName a.op := by
    rw [Vocabulary.rootName, ← h.op_eq]
    rfl
  cases hc : isCommutative (v.rootName a.op) with
  | true =>
    have hb : isCommutative (v.rootName b.op) = true := by rw [hn, hc]
    rw [key_of_commutative hc, key_of_commutative hb, h.op_eq, inOrder_eq_of_perm h.args_perm]
  | false =>
    have hb : isCommutative (v.rootName b.op) = false := by rw [hn, hc]
    rw [key_of_not_commutative hc, key_of_not_commutative hb, h.op_eq]
    rcases h.args_eq with he | hxa
    · rw [he]
    · rw [hx hxa] at hc
      contradiction

end Congruent

end Application

end Discharge.Congruence
