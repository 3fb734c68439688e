import Mathlib.Data.List.Permutation
import Discharge.Congruence.Model

/-!
The rules of the connectives, read as demands: pairs that have to be equal if an application of a
connective is to have the result it has. The demands on the symbols of a fact are the merges that
its check asks for. Demands are kept by every function of the symbols, so they can be read off a
model as well as off the values that the symbols have.
-/

namespace Discharge.Congruence

universe u v

/-- The rules of the connectives: the merges that an application with the given roots asks for. -/
inductive Demand {α : Type u} (op : Text) (args : List α) (result t f : α) : α × α → Prop
  | equal {a : α} : op = "=" → args = [a, a] → Demand op args result t f (result, t)
  | equation {a b : α} : op = "=" → args = [a, b] → result = t → Demand op args result t f (a, b)
  | conjunct {a : α} : op = "and" → result = t → a ∈ args → Demand op args result t f (a, t)
  | refuted : op = "and" → f ∈ args → Demand op args result t f (result, f)
  | conjuncts : op = "and" → args ≠ [] → (∀ a ∈ args, a = t) → Demand op args result t f (result, t)
  | disjunct : op = "or" → t ∈ args → Demand op args result t f (result, t)
  | refutes {a : α} : op = "or" → result = f → a ∈ args → Demand op args result t f (a, f)
  | disjuncts : op = "or" → args ≠ [] → (∀ a ∈ args, a = f) → Demand op args result t f (result, f)
  | detached {b : α} : op = "implies" → args = [t, b] → result = t →
    Demand op args result t f (b, t)
  | vacuous {b : α} : op = "implies" → args = [f, b] → Demand op args result t f (result, t)
  | concluded {a : α} : op = "implies" → args = [a, t] → Demand op args result t f (result, t)

def Connective.name : Connective → Text
  | equality => "="
  | conjunction => "and"
  | disjunction => "or"
  | implication => "implies"

theorem Connective.named?_name (c : Connective) : named? c.name = some c := by
  cases c <;> decide

theorem Connective.name_of_named? {op : Text} {c : Connective} (h : named? op = some c) :
    op = c.name := by
  unfold named? at h
  repeat' split at h
  all_goals cases h
  all_goals rename_i he; exact eq_of_beq he

/-- An operator whose operands may be exchanged is a connective other than the implication. -/
theorem exists_connective_of_isCommutative {op : Text} (h : isCommutative op = true) :
    ∃ c : Connective, op = c.name ∧ c ≠ .implication := by
  simp only [isCommutative, Bool.or_eq_true, beq_iff_eq] at h
  rcases h with (rfl | rfl) | rfl
  · exact ⟨.equality, rfl, by simp⟩
  · exact ⟨.conjunction, rfl, by simp⟩
  · exact ⟨.disjunction, rfl, by simp⟩

/-- What the order of two operands does not matter to, and nothing about more than two, does not
depend on the order of operands. -/
theorem eq_of_perm_of_pair {α : Type u} {β : Type v} {f : List α → β}
    (hpair : ∀ a b, f [a, b] = f [b, a])
    (hmore : ∀ a b c l a' b' c' l', f (a :: b :: c :: l) = f (a' :: b' :: c' :: l'))
    {l l' : List α} (hp : l.Perm l') : f l = f l' := by
  match l, hp with
  | [], hp => rw [hp.nil_eq]
  | [a], hp => rw [List.singleton_perm.mp hp]
  | [a, b], hp =>
    rcases List.pair_perm.mp hp with rfl | rfl
    · rfl
    · exact hpair a b
  | a :: b :: c :: rest, hp =>
    match l', hp.length_eq with
    | a' :: b' :: c' :: rest', _ => exact hmore a b c rest a' b' c' rest'

theorem mem_consequences_iff {op : Text} {args : List Nat} {result t f : Nat} {p : Nat × Nat} :
    p ∈ consequences op args result t f ↔ Demand op args result t f p := by
  constructor
  · intro h
    unfold consequences at h
    split at h
    · rename_i a b hc
      have hop := Connective.name_of_named? hc
      simp only [List.mem_append, List.mem_ite_nil_right, List.mem_singleton, beq_iff_eq] at h
      rcases h with ⟨rfl, rfl⟩ | ⟨hr, rfl⟩
      · exact .equal hop rfl
      · exact .equation hop rfl hr
    · rename_i hc
      have hop := Connective.name_of_named? hc
      simp only [List.mem_append, List.mem_ite_nil_right, List.mem_map, List.mem_singleton,
        beq_iff_eq, List.contains_iff_mem, Bool.and_eq_true, Bool.not_eq_true',
        List.isEmpty_eq_false_iff, List.all_eq_true] at h
      rcases h with (⟨hr, a, ha, rfl⟩ | ⟨hf, rfl⟩) | ⟨⟨hne, hall⟩, rfl⟩
      · exact .conjunct hop hr ha
      · exact .refuted hop hf
      · exact .conjuncts hop hne hall
    · rename_i hc
      have hop := Connective.name_of_named? hc
      simp only [List.mem_append, List.mem_ite_nil_right, List.mem_map, List.mem_singleton,
        beq_iff_eq, List.contains_iff_mem, Bool.and_eq_true, Bool.not_eq_true',
        List.isEmpty_eq_false_iff, List.all_eq_true] at h
      rcases h with (⟨ht, rfl⟩ | ⟨hr, a, ha, rfl⟩) | ⟨⟨hne, hall⟩, rfl⟩
      · exact .disjunct hop ht
      · exact .refutes hop hr ha
      · exact .disjuncts hop hne hall
    · rename_i a b hc
      have hop := Connective.name_of_named? hc
      simp only [List.mem_append, List.mem_ite_nil_right, List.mem_singleton, beq_iff_eq,
        Bool.and_eq_true, Bool.or_eq_true] at h
      rcases h with ⟨⟨hr, rfl⟩, rfl⟩ | ⟨rfl | rfl, rfl⟩
      · exact .detached hop rfl hr
      · exact .vacuous hop rfl
      · exact .concluded hop rfl
    · simp at h
  · have heq := Connective.named?_name .equality
    have hand := Connective.named?_name .conjunction
    have hor := Connective.named?_name .disjunction
    have himp := Connective.named?_name .implication
    simp only [Connective.name] at heq hand hor himp
    intro h
    cases h with
    | equal hop ha => simp [consequences, hop, ha, heq]
    | equation hop ha hr => simp [consequences, hop, ha, hr, heq]
    | conjunct hop hr ha => simp [consequences, hop, hr, ha, hand]
    | refuted hop hf => simp [consequences, hop, hf, hand]
    | conjuncts hop hne hall => simp [consequences, hop, hand, hne]; exact .inr (.inr hall)
    | disjunct hop ht => simp [consequences, hop, ht, hor]
    | refutes hop hr ha => simp [consequences, hop, hr, ha, hor]
    | disjuncts hop hne hall => simp [consequences, hop, hor, hne]; exact .inr (.inr hall)
    | detached hop ha hr => simp [consequences, hop, ha, hr, himp]
    | vacuous hop ha => simp [consequences, hop, ha, himp]
    | concluded hop ha => simp [consequences, hop, ha, himp]

namespace Demand

variable {α : Type u} {op : Text} {args : List α} {result t f : α} {p : α × α}

theorem map {β : Type v} (h : Demand op args result t f p) (g : α → β) :
    Demand op (args.map g) (g result) (g t) (g f) (g p.1, g p.2) := by
  cases h with
  | equal hop ha => exact .equal hop (by rw [ha]; rfl)
  | equation hop ha hr => exact .equation hop (by rw [ha]; rfl) (by rw [hr])
  | conjunct hop hr ha => exact .conjunct hop (by rw [hr]) (List.mem_map_of_mem ha)
  | refuted hop hf => exact .refuted hop (List.mem_map_of_mem hf)
  | conjuncts hop hne hall =>
    refine .conjuncts hop (by simpa using hne) ?_
    intro b hb
    obtain ⟨a, ha, rfl⟩ := List.mem_map.mp hb
    rw [hall a ha]
  | disjunct hop ht => exact .disjunct hop (List.mem_map_of_mem ht)
  | refutes hop hr ha => exact .refutes hop (by rw [hr]) (List.mem_map_of_mem ha)
  | disjuncts hop hne hall =>
    refine .disjuncts hop (by simpa using hne) ?_
    intro b hb
    obtain ⟨a, ha, rfl⟩ := List.mem_map.mp hb
    rw [hall a ha]
  | detached hop ha hr => exact .detached hop (by rw [ha]; rfl) (by rw [hr])
  | vacuous hop ha => exact .vacuous hop (by rw [ha]; rfl)
  | concluded hop ha => exact .concluded hop (by rw [ha]; rfl)

theorem both {P : α → Prop} (h : Demand op args result t f p) (hargs : ∀ a ∈ args, P a)
    (hr : P result) (ht : P t) (hf : P f) : P p.1 ∧ P p.2 := by
  cases h <;> simp_all

/-- A rule about a falsehood that occurs nowhere asks for what it asks for with any other. -/
theorem of_absent (h : Demand op args result t f p) (hr : result ≠ f) (ha : f ∉ args) (g : α) :
    Demand op args result t g p := by
  cases h with
  | equal hop ha => exact .equal hop ha
  | equation hop ha hr => exact .equation hop ha hr
  | conjunct hop hr ha => exact .conjunct hop hr ha
  | refuted hop hf => exact (ha hf).elim
  | conjuncts hop hne hall => exact .conjuncts hop hne hall
  | disjunct hop ht => exact .disjunct hop ht
  | refutes hop he ha => exact (hr he).elim
  | disjuncts hop hne hall =>
    obtain ⟨a, rest, rfl⟩ := List.exists_cons_of_ne_nil hne
    exact (ha (by simp [hall a])).elim
  | detached hop ha hr => exact .detached hop ha hr
  | vacuous hop he => exact (ha (by simp [he])).elim
  | concluded hop ha => exact .concluded hop ha

end Demand

end Discharge.Congruence
