import Mathlib.Data.Fintype.Pigeonhole
import Std.Data.String.ToNat
import Discharge.Congruence.Vocabulary

namespace Discharge.Congruence

section Lookup

variable {α β : Type} [Ord α] [Std.TransOrd α] [Std.LawfulEqOrd α]

theorem getElem?_insert (t : Std.TreeMap α β) (k a : α) (b : β) [Decidable (k = a)] :
    (t.insert k b)[a]? = if k = a then some b else t[a]? := by
  rw [Std.TreeMap.getElem?_insert]
  simp [Std.LawfulEqCmp.compare_eq_iff_eq]

theorem getElem?_erase (t : Std.TreeMap α β) (k a : α) [Decidable (k = a)] :
    (t.erase k)[a]? = if k = a then none else t[a]? := by
  rw [Std.TreeMap.getElem?_erase]
  simp [Std.LawfulEqCmp.compare_eq_iff_eq]

end Lookup

namespace Vocabulary

structure WellFormed (v : Vocabulary) : Prop where
  roots_size : v.roots.size = v.size
  root_lt : ∀ {i}, i < v.size → v.root i < v.size
  root_root : ∀ i, v.root (v.root i) = v.root i
  root_best : ∀ {i}, i < v.size → v.prefers i (v.root i) = false
  lookup_iff : ∀ {name i}, v.lookup? name = some i ↔ i < v.size ∧ v.name i = name
  truth_entry : v.entries[truth]? = some ⟨"true", .boolean, .literal⟩
  falsehood_entry : v.entries[falsehood]? = some ⟨"false", .boolean, .literal⟩

/-- A later state of a vocabulary: symbols stay what they are, and classes are only joined. -/
structure Grows (v w : Vocabulary) : Prop where
  size_le : v.size ≤ w.size
  entry_eq : ∀ {i}, i < v.size → w.entry i = v.entry i
  root_eq : ∀ {i j}, i < v.size → j < v.size → v.root i = v.root j → w.root i = w.root j

theorem Grows.refl (v : Vocabulary) : v.Grows v where
  size_le := Nat.le_refl _
  entry_eq _ := rfl
  root_eq _ _ h := h

theorem Grows.trans {u v w : Vocabulary} (h : u.Grows v) (h' : v.Grows w) : u.Grows w where
  size_le := Nat.le_trans h.size_le h'.size_le
  entry_eq hi := by rw [h'.entry_eq (Nat.lt_of_lt_of_le hi h.size_le), h.entry_eq hi]
  root_eq hi hj hr := h'.root_eq (Nat.lt_of_lt_of_le hi h.size_le)
    (Nat.lt_of_lt_of_le hj h.size_le) (h.root_eq hi hj hr)

theorem Grows.name_eq {v w : Vocabulary} (h : v.Grows w) {i : Nat} (hi : i < v.size) :
    w.name i = v.name i := by
  simp [name, h.entry_eq hi]

theorem root_of_ge {v : Vocabulary} (h : v.WellFormed) {i : Nat} (hi : v.size ≤ i) :
    v.root i = i := by
  have hs := h.roots_size
  simp [root, Array.getElem?_eq_none (by omega : v.roots.size ≤ i)]

namespace WellFormed

variable {v : Vocabulary}

theorem lt_of_root_lt (h : v.WellFormed) {i : Nat} (hi : v.root i < v.size) : i < v.size := by
  by_cases hlt : i < v.size
  · exact hlt
  · rw [root_of_ge h (by omega)] at hi
    exact hi

theorem two_le_size (h : v.WellFormed) : 2 ≤ v.size := by
  have hf := h.falsehood_entry
  have : falsehood < v.entries.size := by
    by_cases hlt : falsehood < v.entries.size
    · exact hlt
    · simp [Array.getElem?_eq_none (Nat.le_of_not_lt hlt)] at hf
  exact this

theorem truth_lt (h : v.WellFormed) : truth < v.size := by
  have := h.two_le_size
  simp only [truth]; omega

theorem falsehood_lt (h : v.WellFormed) : falsehood < v.size := by
  have := h.two_le_size
  simp only [falsehood]; omega

theorem entry_truth (h : v.WellFormed) : v.entry truth = ⟨"true", .boolean, .literal⟩ := by
  simp [entry, h.truth_entry]

theorem entry_falsehood (h : v.WellFormed) : v.entry falsehood = ⟨"false", .boolean, .literal⟩ := by
  simp [entry, h.falsehood_entry]

theorem root_truth (h : v.WellFormed) : v.root truth = truth := by
  have hb := h.root_best h.truth_lt
  by_contra hne
  have hpos : truth < v.root truth := Nat.pos_of_ne_zero hne
  simp [prefers, usage, h.entry_truth, hpos] at hb

theorem root_falsehood (h : v.WellFormed) :
    v.root falsehood = falsehood ∨ v.root falsehood = truth := by
  have hb := h.root_best h.falsehood_lt
  by_contra hne
  simp only [not_or] at hne
  have hlt : falsehood < v.root falsehood := by
    simp only [truth, falsehood] at hne ⊢
    omega
  simp [prefers, usage, h.entry_falsehood, hlt] at hb

theorem eq_of_name_eq (h : v.WellFormed) {i j : Nat} (hi : i < v.size) (hj : j < v.size)
    (hn : v.name i = v.name j) : i = j := by
  have h₁ := h.lookup_iff.mpr ⟨hi, hn⟩
  have h₂ := h.lookup_iff.mpr ⟨hj, rfl⟩
  rw [h₁] at h₂
  exact Option.some.inj h₂

theorem lookup?_name (h : v.WellFormed) {i : Nat} (hi : i < v.size) :
    v.lookup? (v.name i) = some i := h.lookup_iff.mpr ⟨hi, rfl⟩

theorem rootOf?_name (h : v.WellFormed) {i : Nat} (hi : i < v.size) :
    v.rootOf? (v.name i) = some (v.root i) := by
  rw [rootOf?, h.lookup?_name hi, Option.map_some]

theorem lt_of_lookup? (h : v.WellFormed) {name : Text} {i : Nat} (hi : v.lookup? name = some i) :
    i < v.size := (h.lookup_iff.mp hi).1

theorem name_of_lookup? (h : v.WellFormed) {name : Text} {i : Nat}
    (hi : v.lookup? name = some i) : v.name i = name := (h.lookup_iff.mp hi).2

theorem lookup?_truth (h : v.WellFormed) : v.lookup? "true" = some truth :=
  h.lookup_iff.mpr ⟨h.truth_lt, by rw [name, h.entry_truth]⟩

theorem lookup?_falsehood (h : v.WellFormed) : v.lookup? "false" = some falsehood :=
  h.lookup_iff.mpr ⟨h.falsehood_lt, by rw [name, h.entry_falsehood]⟩

end WellFormed

section Adding

variable {v : Vocabulary}

theorem add_of_some {name : Text} {i : Nat} (h : v.lookup? name = some i) (k : Kind) (u : Usage) :
    v.add name k u = (i, v) := by
  simp [add, h]

theorem add_fst_of_none {name : Text} (h : v.lookup? name = none) (k : Kind) (u : Usage) :
    (v.add name k u).1 = v.size := by
  simp [add, h]

theorem size_add_of_none {name : Text} (h : v.lookup? name = none) (k : Kind) (u : Usage) :
    (v.add name k u).2.size = v.size + 1 := by
  simp [add, h, size]

theorem entries_add_of_none {name : Text} (h : v.lookup? name = none) (k : Kind) (u : Usage) :
    (v.add name k u).2.entries = v.entries.push ⟨name, k, u⟩ := by
  simp [add, h]

theorem entry_add_of_none {name : Text} (h : v.lookup? name = none) (k : Kind) (u : Usage) :
    (v.add name k u).2.entry v.size = ⟨name, k, u⟩ := by
  simp [entry, entries_add_of_none h, size]

theorem lookup?_add_of_none {name : Text} (h : v.lookup? name = none) (k : Kind) (u : Usage)
    (other : Text) :
    (v.add name k u).2.lookup? other = if name = other then some v.size else v.lookup? other := by
  simp only [lookup?] at h
  simp [add, lookup?, h, getElem?_insert]

theorem root_add (h : v.WellFormed) (name : Text) (k : Kind) (u : Usage) (i : Nat) :
    (v.add name k u).2.root i = v.root i := by
  cases hl : v.lookup? name with
  | some j => simp [add, hl]
  | none =>
    have hr : (v.add name k u).2.roots = v.roots.push v.size := by simp [add, hl]
    simp only [root, hr, Array.getElem?_push]
    by_cases hi : i = v.roots.size
    · rw [if_pos hi, Array.getElem?_eq_none (by omega), hi, h.roots_size]
      rfl
    · rw [if_neg hi]

theorem entry_add_of_lt (name : Text) (k : Kind) (u : Usage) {i : Nat} (hi : i < v.size) :
    (v.add name k u).2.entry i = v.entry i := by
  cases hl : v.lookup? name with
  | some j => simp [add, hl]
  | none =>
    have hne : i ≠ v.entries.size := Nat.ne_of_lt hi
    simp [entry, entries_add_of_none hl, Array.getElem?_push, hne]

theorem size_le_add (v : Vocabulary) (name : Text) (k : Kind) (u : Usage) :
    v.size ≤ (v.add name k u).2.size := by
  cases hl : v.lookup? name with
  | some j => simp [add, hl]
  | none => simp [size_add_of_none hl]

theorem grows_add (h : v.WellFormed) (name : Text) (k : Kind) (u : Usage) :
    v.Grows (v.add name k u).2 where
  size_le := v.size_le_add name k u
  entry_eq hi := entry_add_of_lt name k u hi
  root_eq _ _ hr := by rw [root_add h, root_add h, hr]

theorem add_fst_lt (h : v.WellFormed) (name : Text) (k : Kind) (u : Usage) :
    (v.add name k u).1 < (v.add name k u).2.size := by
  cases hl : v.lookup? name with
  | some j =>
    rw [add_of_some hl]
    exact h.lt_of_lookup? hl
  | none => simp [add_fst_of_none hl, size_add_of_none hl]

theorem name_add_fst (h : v.WellFormed) (name : Text) (k : Kind) (u : Usage) :
    (v.add name k u).2.name (v.add name k u).1 = name := by
  cases hl : v.lookup? name with
  | some j =>
    rw [add_of_some hl]
    exact h.name_of_lookup? hl
  | none => simp [Vocabulary.name, add_fst_of_none hl, entry_add_of_none hl]

theorem prefers_self (v : Vocabulary) (i : Nat) : v.prefers i i = false := by
  simp [prefers]

theorem prefers_add_of_lt (name : Text) (k : Kind) (u : Usage) {i j : Nat} (hi : i < v.size)
    (hj : j < v.size) : (v.add name k u).2.prefers i j = v.prefers i j := by
  simp [prefers, usage, entry_add_of_lt name k u hi, entry_add_of_lt name k u hj]

theorem getElem?_entries_add_of_lt (name : Text) (k : Kind) (u : Usage) {i : Nat}
    (hi : i < v.size) : (v.add name k u).2.entries[i]? = v.entries[i]? := by
  cases hl : v.lookup? name with
  | some j => simp [add, hl]
  | none =>
    have hne : i ≠ v.entries.size := Nat.ne_of_lt hi
    simp [entries_add_of_none hl, Array.getElem?_push, hne]

theorem lookup_iff_add_of_none (h : v.WellFormed) {name : Text} (hl : v.lookup? name = none)
    (k : Kind) (u : Usage) {other : Text} {i : Nat} :
    (v.add name k u).2.lookup? other = some i ↔
      i < (v.add name k u).2.size ∧ (v.add name k u).2.name i = other := by
  rw [lookup?_add_of_none hl, size_add_of_none hl]
  by_cases hi : i < v.size
  · have hn : (v.add name k u).2.name i = v.name i := by
      simp [Vocabulary.name, entry_add_of_lt name k u hi]
    have hne : name ≠ v.name i := by
      intro he
      rw [he, h.lookup?_name hi] at hl
      simp at hl
    rw [hn]
    by_cases ho : name = other
    · subst ho
      have : v.size ≠ i := by omega
      simp [this, Ne.symm hne]
    · rw [if_neg ho, h.lookup_iff]
      constructor
      · rintro ⟨-, hn⟩
        exact ⟨by omega, hn⟩
      · rintro ⟨-, hn⟩
        exact ⟨hi, hn⟩
  · have hold : v.lookup? other ≠ some i := fun he => hi (h.lt_of_lookup? he)
    by_cases he : i = v.size
    · subst he
      have hn : (v.add name k u).2.name v.size = name := by
        simp [Vocabulary.name, entry_add_of_none hl]
      rw [hn]
      by_cases ho : name = other
      · simp [ho]
      · simp [ho, hold]
    · have hge : ¬ i < v.size + 1 := by omega
      have hne : v.size ≠ i := fun e => he e.symm
      by_cases ho : name = other
      · simp [ho, hge, hne]
      · simp [ho, hge, hold]

theorem wellFormed_add (h : v.WellFormed) (name : Text) (k : Kind) (u : Usage) :
    (v.add name k u).2.WellFormed := by
  cases hl : v.lookup? name with
  | some j =>
    rw [add_of_some hl]
    exact h
  | none =>
    have hsize := size_add_of_none hl k u
    refine ⟨?_, ?_, ?_, ?_, ?_, ?_, ?_⟩
    · have hs := h.roots_size
      rw [hsize]
      simp [add, hl, hs]
    · intro i hi
      rw [root_add h]
      by_cases hlt : i < v.size
      · have := h.root_lt hlt
        omega
      · rw [root_of_ge h (by omega)]
        exact hi
    · intro i
      rw [root_add h, root_add h, h.root_root]
    · intro i hi
      rw [root_add h]
      by_cases hlt : i < v.size
      · rw [prefers_add_of_lt name k u hlt (h.root_lt hlt)]
        exact h.root_best hlt
      · rw [root_of_ge h (by omega)]
        exact prefers_self _ _
    · exact lookup_iff_add_of_none h hl k u
    · rw [getElem?_entries_add_of_lt name k u h.truth_lt]
      exact h.truth_entry
    · rw [getElem?_entries_add_of_lt name k u h.falsehood_lt]
      exact h.falsehood_entry

end Adding

section Initial

theorem initial_entries :
    initial.entries = #[⟨"true", .boolean, .literal⟩, ⟨"false", .boolean, .literal⟩] := by
  decide +kernel

theorem initial_roots : initial.roots = #[0, 1] := by decide +kernel

theorem initial_lookup? (name : Text) :
    initial.lookup? name =
      if "false" = name then some 1 else if "true" = name then some 0 else none := by
  have hbare : ∀ n, (⟨#[], #[], ∅, 0⟩ : Vocabulary).lookup? n = none := by
    intro n
    simp [lookup?]
  have hfalse : ((⟨#[], #[], ∅, 0⟩ : Vocabulary).add "true" .boolean .literal).2.lookup? "false" =
      none := by
    rw [lookup?_add_of_none (hbare _), if_neg (by decide), hbare]
  simp only [initial]
  rw [lookup?_add_of_none hfalse, lookup?_add_of_none (hbare _), size_add_of_none (hbare _), hbare]
  rfl

theorem initial_root (i : Nat) : initial.root i = i := by
  rw [root, initial_roots]
  match i with
  | 0 => rfl
  | 1 => rfl
  | i + 2 => rfl

theorem initial_size : initial.size = 2 := by
  rw [size, initial_entries]
  rfl

theorem initial_lookup_iff {name : Text} {i : Nat} :
    initial.lookup? name = some i ↔ i < initial.size ∧ initial.name i = name := by
  rw [initial_lookup?, initial_size, Vocabulary.name, entry, initial_entries]
  have hne : ("true" : Text) ≠ "false" := by decide
  match i with
  | 0 => by_cases h : ("false" : Text) = name <;> simp_all
  | 1 => by_cases h : ("false" : Text) = name <;> simp_all
  | i + 2 =>
    have : ¬ i + 2 < 2 := by omega
    by_cases h : ("false" : Text) = name <;> by_cases h' : ("true" : Text) = name <;> simp_all

theorem wellFormed_initial : initial.WellFormed where
  roots_size := by rw [initial_roots, initial_size]; rfl
  root_lt hi := by rw [initial_root]; exact hi
  root_root i := by rw [initial_root, initial_root]
  root_best _ := by rw [initial_root]; exact prefers_self _ _
  lookup_iff := initial_lookup_iff
  truth_entry := by rw [initial_entries]; rfl
  falsehood_entry := by rw [initial_entries]; rfl

end Initial

section Creating

variable {v : Vocabulary}

theorem createdName_injective {m n : Nat} (h : createdName m = createdName n) : m = n := by
  have hbytes := congrArg Text.toList h
  simp only [createdName, Text.toList_append, List.append_cancel_left_eq] at hbytes
  have htext : Text.ofString (toString m) = Text.ofString (toString n) := Text.ext hbytes
  have hstring : toString m = toString n := by
    apply String.toByteArray_inj.mp
    exact congrArg Text.bytes htext
  exact Nat.repr_injective hstring

/-- The search for a free number ends at one, or has gone past as many taken ones as it may. -/
theorem freeNumber_spec (v : Vocabulary) (fuel n : Nat) :
    v.contains (createdName (v.freeNumber fuel n)) = false ∨
      v.freeNumber fuel n = n + fuel ∧ ∀ k < fuel, v.contains (createdName (n + k)) = true := by
  induction fuel generalizing n with
  | zero => exact .inr ⟨rfl, by simp⟩
  | succ fuel ih =>
    cases hc : v.contains (createdName n) with
    | false => exact .inl (by simp [freeNumber, hc])
    | true =>
      have hstep : v.freeNumber (fuel + 1) n = v.freeNumber fuel (n + 1) := by
        simp [freeNumber, hc]
      rw [hstep]
      rcases ih (n + 1) with hfree | ⟨heq, htaken⟩
      · exact .inl hfree
      · refine .inr ⟨by omega, ?_⟩
        intro k hk
        cases k with
        | zero => exact hc
        | succ k =>
          have := htaken k (by omega)
          rwa [Nat.add_assoc, Nat.add_comm 1 k] at this

theorem exists_lookup?_of_contains (h : v.WellFormed) {name : Text} (hc : v.contains name = true) :
    ∃ i < v.size, v.name i = name := by
  have hs : (v.index[name]?).isSome := by
    rwa [Std.TreeMap.isSome_getElem?_eq_contains]
  obtain ⟨i, hi⟩ := Option.isSome_iff_exists.mp hs
  exact ⟨i, h.lookup_iff.mp hi⟩

/-- A vocabulary cannot hold more created names than it has symbols. -/
theorem exists_lookup?_of_mem_namesWhere (h : v.WellFormed) {p : Usage → Bool} {name : Text}
    (hn : name ∈ v.namesWhere p) : ∃ i, v.lookup? name = some i := by
  obtain ⟨e, he, rfl⟩ := List.mem_map.mp hn
  have hmem := Array.mem_toList_iff.mp (List.mem_filter.mp he).1
  obtain ⟨i, hi, hie⟩ := Array.mem_iff_getElem.mp hmem
  refine ⟨i, h.lookup_iff.mpr ⟨hi, ?_⟩⟩
  simp [name, entry, Array.getElem?_eq_getElem hi, hie]

theorem not_all_taken (h : v.WellFormed) (n : Nat)
    (ht : ∀ k < v.size + 1, v.contains (createdName (n + k)) = true) : False := by
  have hex : ∀ k : Fin (v.size + 1), ∃ i : Fin v.size, v.name i = createdName (n + k) := by
    intro k
    obtain ⟨i, hi, hn⟩ := exists_lookup?_of_contains h (ht k k.isLt)
    exact ⟨⟨i, hi⟩, hn⟩
  choose place hplace using hex
  obtain ⟨a, b, hne, heq⟩ := Fintype.exists_ne_map_eq_of_card_lt place (by simp)
  have hname : createdName (n + a) = createdName (n + b) := by
    rw [← hplace a, ← hplace b, heq]
  have := createdName_injective hname
  exact hne (Fin.ext (by omega))

theorem lookup?_freeNumber (h : v.WellFormed) (n : Nat) :
    v.lookup? (createdName (v.freeNumber v.size n)) = none := by
  have hfree : v.contains (createdName (v.freeNumber v.size n)) = false := by
    rcases freeNumber_spec v v.size n with hfree | ⟨heq, htaken⟩
    · exact hfree
    · cases hc : v.contains (createdName (v.freeNumber v.size n)) with
      | false => rfl
      | true =>
        refine (not_all_taken h n ?_).elim
        intro k hk
        by_cases hlt : k < v.size
        · exact htaken k hlt
        · have : k = v.size := by omega
          rw [this, ← heq]
          exact hc
  simp only [contains] at hfree
  simp only [lookup?]
  cases hi : v.index[createdName (v.freeNumber v.size n)]? with
  | none => rfl
  | some i =>
    have := Std.TreeMap.isSome_getElem?_eq_contains (t := v.index)
      (a := createdName (v.freeNumber v.size n))
    simp [hi, hfree] at this

theorem create_eq (v : Vocabulary) (k : Kind) :
    v.create k = ({ v with created := v.freeNumber v.size v.created + 1 } : Vocabulary).add
      (createdName (v.freeNumber v.size v.created)) k .created := rfl

theorem WellFormed.setCreated (h : v.WellFormed) (n : Nat) :
    ({ v with created := n } : Vocabulary).WellFormed := ⟨h.1, h.2, h.3, h.4, h.5, h.6, h.7⟩

theorem lookup?_create (h : v.WellFormed) :
    ({ v with created := v.freeNumber v.size v.created + 1 } : Vocabulary).lookup?
      (createdName (v.freeNumber v.size v.created)) = none :=
  lookup?_freeNumber h v.created

theorem wellFormed_create (h : v.WellFormed) (k : Kind) : (v.create k).2.WellFormed := by
  rw [create_eq]
  exact wellFormed_add (h.setCreated _) _ _ _

theorem grows_create (h : v.WellFormed) (k : Kind) : v.Grows (v.create k).2 := by
  rw [create_eq]
  obtain ⟨hs, he, hr⟩ := grows_add (h.setCreated (v.freeNumber v.size v.created + 1))
    (createdName (v.freeNumber v.size v.created)) k .created
  exact ⟨hs, he, hr⟩

theorem create_fst (h : v.WellFormed) (k : Kind) : (v.create k).1 = v.size := by
  rw [create_eq]
  exact add_fst_of_none (lookup?_create h) _ _

theorem size_create (h : v.WellFormed) (k : Kind) : (v.create k).2.size = v.size + 1 := by
  rw [create_eq]
  exact size_add_of_none (lookup?_create h) _ _

theorem entry_create (h : v.WellFormed) (k : Kind) :
    (v.create k).2.entry v.size =
      ⟨createdName (v.freeNumber v.size v.created), k, .created⟩ := by
  rw [create_eq]
  exact entry_add_of_none (lookup?_create h) _ _

theorem root_create (h : v.WellFormed) (k : Kind) (i : Nat) :
    (v.create k).2.root i = v.root i := by
  rw [create_eq]
  exact root_add (h.setCreated _) _ _ _ i

end Creating

section Merging

variable {v : Vocabulary}

theorem prefers_asymm {a b : Nat} (h : v.prefers a b = true) : v.prefers b a = false := by
  unfold prefers at *
  cases ha : v.usage a == .created <;> cases hb : v.usage b == .created <;> simp_all
  all_goals omega

theorem prefers_trans {a b c : Nat} (hab : v.prefers a b = false) (hbc : v.prefers b c = false) :
    v.prefers a c = false := by
  unfold prefers at *
  cases ha : v.usage a == .created <;> cases hb : v.usage b == .created <;>
    cases hc : v.usage c == .created <;> simp_all
  all_goals omega

/-- The vocabulary after one of two roots gave way to the other. -/
structure Joins (v w : Vocabulary) (winner loser : Nat) : Prop where
  entries_eq : w.entries = v.entries
  lookup_eq : ∀ name, w.lookup? name = v.lookup? name
  roots_size : w.roots.size = v.roots.size
  root_eq : ∀ i, w.root i = if v.root i = loser then winner else v.root i
  ne : winner ≠ loser
  winner_lt : winner < v.size
  loser_lt : loser < v.size
  root_winner : v.root winner = winner
  root_loser : v.root loser = loser
  prefers : v.prefers loser winner = false

theorem merge_joins (h : v.WellFormed) {a b : Nat} (ha : a < v.size) (hb : b < v.size)
    (hne : v.root a ≠ v.root b) :
    ∃ loser, (loser = v.root a ∧ (v.merge a b).1 = v.root b ∨
        loser = v.root b ∧ (v.merge a b).1 = v.root a) ∧
      v.Joins (v.merge a b).2 (v.merge a b).1 loser := by
  have hmap : ∀ winner loser, loser < v.size → ∀ i,
      ({ v with roots := v.roots.map fun r => if r == loser then winner else r } :
        Vocabulary).root i = if v.root i = loser then winner else v.root i := by
    intro winner loser hl i
    by_cases hi : i < v.roots.size
    · simp [root, hi]
    · have hs := h.roots_size
      have hnone := Array.getElem?_eq_none (Nat.le_of_not_lt hi)
      have : i ≠ loser := by omega
      simp [root, hnone, this]
  have hra := h.root_lt ha
  have hrb := h.root_lt hb
  cases hp : v.prefers (v.root b) (v.root a) with
  | true =>
    have hm : v.merge a b = (v.root b,
        { v with roots := v.roots.map fun r => if r == v.root a then v.root b else r }) := by
      simp [merge, hne, hp]
    rw [hm]
    exact ⟨v.root a, .inl ⟨rfl, rfl⟩, rfl, fun _ => rfl, by simp, hmap _ _ hra, Ne.symm hne, hrb,
      hra, h.root_root b, h.root_root a, prefers_asymm hp⟩
  | false =>
    have hm : v.merge a b = (v.root a,
        { v with roots := v.roots.map fun r => if r == v.root b then v.root a else r }) := by
      simp [merge, hne, hp]
    rw [hm]
    exact ⟨v.root b, .inr ⟨rfl, rfl⟩, rfl, fun _ => rfl, by simp, hmap _ _ hrb, hne, hra, hrb,
      h.root_root a, h.root_root b, hp⟩

namespace Joins

variable {w : Vocabulary} {winner loser : Nat}

theorem size_eq (j : v.Joins w winner loser) : w.size = v.size := by
  simp [size, j.entries_eq]

theorem entry_eq (j : v.Joins w winner loser) (i : Nat) : w.entry i = v.entry i := by
  simp [entry, j.entries_eq]

theorem name_eq (j : v.Joins w winner loser) (i : Nat) : w.name i = v.name i := by
  simp [name, j.entry_eq]

theorem root_of_ne (j : v.Joins w winner loser) {i : Nat} (hi : v.root i ≠ loser) :
    w.root i = v.root i := by
  rw [j.root_eq, if_neg hi]

theorem root_ne_loser (j : v.Joins w winner loser) (i : Nat) : w.root i ≠ loser := by
  rw [j.root_eq]
  split
  · exact j.ne
  · assumption

theorem grows (j : v.Joins w winner loser) : v.Grows w where
  size_le := Nat.le_of_eq j.size_eq.symm
  entry_eq _ := j.entry_eq _
  root_eq _ _ hr := by rw [j.root_eq, j.root_eq, hr]

theorem root_root (j : v.Joins w winner loser) (h : v.WellFormed) (i : Nat) :
    w.root (w.root i) = w.root i := by
  rw [j.root_eq i]
  split
  · rw [j.root_eq, if_neg (by rw [j.root_winner]; exact j.ne), j.root_winner]
  · rename_i hi
    rw [j.root_eq, if_neg (by rw [h.root_root]; exact hi), h.root_root]

theorem wellFormed (j : v.Joins w winner loser) (h : v.WellFormed) : w.WellFormed where
  roots_size := by rw [j.roots_size, j.size_eq, h.roots_size]
  root_lt {i} hi := by
    rw [j.size_eq] at hi ⊢
    rw [j.root_eq]
    split
    · exact j.winner_lt
    · exact h.root_lt hi
  root_root := j.root_root h
  root_best {i} hi := by
    rw [j.size_eq] at hi
    have hsame : ∀ a b, w.prefers a b = v.prefers a b := by
      intro a b
      simp [Vocabulary.prefers, usage, j.entry_eq]
    rw [hsame, j.root_eq]
    split
    · rename_i hl
      have hb := h.root_best hi
      rw [hl] at hb
      exact prefers_trans hb j.prefers
    · exact h.root_best hi
  lookup_iff {name i} := by rw [j.lookup_eq, j.size_eq, j.name_eq]; exact h.lookup_iff
  truth_entry := by rw [j.entries_eq]; exact h.truth_entry
  falsehood_entry := by rw [j.entries_eq]; exact h.falsehood_entry

end Joins

def classCount (v : Vocabulary) : Nat := ((Finset.range v.size).filter fun i => v.root i = i).card

theorem classCount_le_size (v : Vocabulary) : v.classCount ≤ v.size := by
  simpa [classCount] using Finset.card_filter_le (Finset.range v.size) fun i => v.root i = i

/-- A merge of two classes leaves one fewer. -/
theorem Joins.classCount_eq {w : Vocabulary} {winner loser : Nat}
    (j : v.Joins w winner loser) : w.classCount + 1 = v.classCount := by
  have hset : ((Finset.range w.size).filter fun i => w.root i = i) =
      ((Finset.range v.size).filter fun i => v.root i = i).erase loser := by
    ext i
    simp only [Finset.mem_filter, Finset.mem_range, Finset.mem_erase, j.size_eq]
    constructor
    · rintro ⟨hi, hr⟩
      have hne : i ≠ loser := fun e => j.root_ne_loser i (hr.trans e)
      refine ⟨hne, hi, ?_⟩
      rw [j.root_eq] at hr
      split at hr
      · rename_i hl
        rw [← hr, j.root_winner] at hl
        exact (j.ne hl).elim
      · exact hr
    · rintro ⟨hne, hi, hr⟩
      refine ⟨hi, ?_⟩
      rw [j.root_of_ne (by rw [hr]; exact hne), hr]
  have hmem : loser ∈ (Finset.range v.size).filter fun i => v.root i = i := by
    simp [j.loser_lt, j.root_loser]
  have hpos : 0 < v.classCount := Finset.card_pos.mpr ⟨loser, hmem⟩
  rw [classCount, hset, Finset.card_erase_of_mem hmem]
  change v.classCount - 1 + 1 = v.classCount
  omega

theorem root_eq_of_classCount_le_one (h : v.WellFormed) (hc : v.classCount ≤ 1) {a b : Nat}
    (ha : a < v.size) (hb : b < v.size) : v.root a = v.root b := by
  refine Finset.card_le_one.mp hc _ ?_ _ ?_
  · simp [h.root_lt ha, h.root_root]
  · simp [h.root_lt hb, h.root_root]

end Merging

end Vocabulary

end Discharge.Congruence
