import Mathlib.Tactic.FinCases
import Mathlib.Tactic.IntervalCases
import Discharge.Proofs.Congruence.Inputs
import Discharge.Proofs.Term.Plain

namespace Discharge.Congruence

def symbolEntry (s : Symbol) (applied : Bool) : Entry := ⟨s.name, s.kind, Model.usageOf s applied⟩

def Vocabulary.All (v : Vocabulary) (P : Entry → Prop) : Prop := ∀ e ∈ v.entries, P e

namespace Vocabulary

variable {v : Vocabulary} {P : Entry → Prop}

theorem All.entry (h : v.All P) {i : Nat} (hi : i < v.size) : P (v.entry i) := by
  have he : v.entries[i]? = some (v.entry i) := by
    simp [Vocabulary.entry, Array.getElem?_eq_getElem hi]
  exact h _ (Array.mem_of_getElem? he)

theorem all_add (h : v.All P) {name : Text} {k : Kind} {u : Usage} (hn : P ⟨name, k, u⟩) :
    (v.add name k u).2.All P := by
  cases hl : v.lookup? name with
  | some i => simpa [add, hl] using h
  | none =>
    intro e he
    rw [entries_add_of_none hl] at he
    rcases Array.mem_push.mp he with he | rfl
    · exact h e he
    · exact hn

theorem all_create (h : v.All P) (hc : ∀ n k, P ⟨createdName n, k, .created⟩) (k : Kind) :
    (v.create k).2.All P :=
  all_add (v := { v with created := v.freeNumber v.size v.created + 1 }) h (hc _ k)

theorem entries_merge (v : Vocabulary) (a b : Nat) : (v.merge a b).2.entries = v.entries := by
  unfold merge
  dsimp only
  split <;> rfl

def Named (v : Vocabulary) : Prop := v.All fun e => e.name ≠ ""

theorem Named.name_ne (h : v.Named) {i : Nat} (hi : i < v.size) : v.name i ≠ "" := h.entry hi

theorem mem_digits_of_isDigit {c : Char} (h : c.isDigit = true) {byte : UInt8}
    (hb : byte ∈ String.utf8EncodeChar c) : byte ∈ ("0123456789" : Text).toList := by
  have hc : c ∈ ['0', '1', '2', '3', '4', '5', '6', '7', '8', '9'] := by
    simp only [Char.isDigit, Bool.and_eq_true, decide_eq_true_eq] at h
    have hlow : 48 ≤ c.toNat := h.1
    have hhigh : c.toNat ≤ 57 := h.2
    rw [← Char.ofNat_toNat c]
    generalize c.toNat = n at *
    interval_cases n <;> decide
  have hall : (String.utf8EncodeChar c).all ("0123456789" : Text).toList.contains = true := by
    fin_cases hc <;> decide
  exact List.contains_iff_mem.mp (List.all_eq_true.mp hall byte hb)

theorem mem_createdName {n : Nat} {byte : UInt8} (h : byte ∈ (createdName n).toList) :
    byte ∈ ("¢c0123456789" : Text).toList := by
  have hbytes : ("¢c0123456789" : Text).toList =
      ("¢c" : Text).toList ++ ("0123456789" : Text).toList := by decide
  rw [createdName, Text.toList_append] at h
  rw [hbytes]
  refine List.mem_append.mpr ((List.mem_append.mp h).imp_right ?_)
  intro hdigit
  change byte ∈ (Nat.repr n).toByteArray.data.toList at hdigit
  rw [Nat.repr, String.toByteArray_ofList, List.utf8Encode, List.data_toByteArray] at hdigit
  obtain ⟨c, hc, hmem⟩ := List.mem_flatMap.mp hdigit
  exact mem_digits_of_isDigit (Nat.isDigit_of_mem_toDigits (by decide) (by decide) hc) hmem

theorem createdName_ne (n : Nat) : createdName n ≠ "" := by
  intro h
  have hbytes := congrArg Text.toList h
  rw [createdName, Text.toList_append] at hbytes
  exact absurd (List.append_eq_nil_iff.mp hbytes).1 (by decide)

end Vocabulary

namespace Model

theorem entries_unite (m : Model) (a b : Nat) :
    (m.unite a b).vocabulary.entries = m.vocabulary.entries := by
  by_cases h : m.root a = m.root b
  · simp [unite, h]
  · rw [unite_of_ne h, (foldl_refile_frame _ _).1]
    exact m.vocabulary.entries_merge (m.root a) (m.root b)

theorem entries_propagateWithin (fuel : Nat) (m : Model) :
    (propagateWithin fuel m).vocabulary.entries = m.vocabulary.entries := by
  induction fuel generalizing m with
  | zero => rfl
  | succ fuel ih =>
    unfold propagateWithin
    split
    · rfl
    · rw [ih, entries_unite]
      rfl

section Entering

variable {m : Model} {P : Entry → Prop}

theorem all_propagate (h : m.vocabulary.All P) : m.propagate.vocabulary.All P := by
  unfold Vocabulary.All propagate
  rw [entries_propagateWithin]
  exact h

theorem all_enqueue (h : m.vocabulary.All P) (p : Nat × Nat) : (m.enqueue p).vocabulary.All P := by
  rw [(asks_enqueue m p).vocabulary_eq]
  exact h

theorem all_addSymbol (h : m.vocabulary.All P) {s : Symbol} {applied : Bool}
    (hs : P (symbolEntry s applied)) :
    (m.addSymbol s.name s.kind (usageOf s applied)).2.vocabulary.All P :=
  Vocabulary.all_add h hs

structure Admits (P : Entry → Prop) (symbols : List Symbol) : Prop where
  created : ∀ n k, P ⟨Vocabulary.createdName n, k, .created⟩
  symbol : ∀ s ∈ symbols, ∀ applied, P (symbolEntry s applied)

theorem Admits.mono {l l' : List Symbol} (h : Admits P l) (hsub : ∀ s ∈ l', s ∈ l) :
    Admits P l' :=
  ⟨h.created, fun s hs => h.symbol s (hsub s hs)⟩

theorem Admits.fn {fn : Term} {args : List Term} {k : Kind}
    (h : Admits P (Term.apply fn args k).symbols) : Admits P fn.symbols :=
  h.mono fun s hs => by simp [Term.symbols_apply, hs]

theorem Admits.args {fn : Term} {args : List Term} {k : Kind}
    (h : Admits P (Term.apply fn args k).symbols) : Admits P (Term.symbolsAll args) :=
  h.mono fun s hs => by rw [Term.symbols]; exact List.mem_append_right _ hs

theorem Admits.head {t : Term} {rest : List Term} (h : Admits P (Term.symbolsAll (t :: rest))) :
    Admits P t.symbols :=
  h.mono fun s hs => by rw [Term.symbolsAll]; exact List.mem_append_left _ hs

theorem Admits.tail {t : Term} {rest : List Term} (h : Admits P (Term.symbolsAll (t :: rest))) :
    Admits P (Term.symbolsAll rest) :=
  h.mono fun s hs => by rw [Term.symbolsAll]; exact List.mem_append_right _ hs

theorem all_placeApplication (h : m.vocabulary.All P)
    (hc : ∀ n k, P ⟨Vocabulary.createdName n, k, .created⟩) (app : Application) (k : Kind) :
    (m.placeApplication app k).2.vocabulary.All P := by
  cases hk : m.table[app.key m.vocabulary]? with
  | some i =>
    rw [placeApplication_of_some hk]
    exact h
  | none =>
    rw [placeApplication_of_none hk]
    refine all_propagate ?_
    rw [define, (insert_frame _ _ _).1]
    exact Vocabulary.all_create h hc k

mutual

theorem all_place (t : Term) {m : Model} (h : m.vocabulary.All P) (ht : t.applicative = true)
    (hP : Admits P t.symbols) : (place t m).2.vocabulary.All P := by
  match t with
  | .symbol s =>
    rw [place]
    exact all_addSymbol h (hP.symbol s (by simp [Term.symbols]) false)
  | .apply fn args k =>
    simp only [Term.applicative, Bool.and_eq_true] at ht
    have hop : (placeOperator fn m).2.vocabulary.All P := by
      match fn with
      | .symbol s => exact all_addSymbol h (hP.symbol s (by simp [Term.symbols]) true)
      | .apply fn args k => exact all_place (.apply fn args k) h ht.1 hP.fn
      | .lambda _ _ _ => simp [Term.applicative] at ht
      | .cases _ _ _ => simp [Term.applicative] at ht
    rw [place_apply]
    exact all_placeApplication (all_placeAll args hop ht.2 hP.args) hP.created _ _
  | .lambda _ _ _ => simp [Term.applicative] at ht
  | .cases _ _ _ => simp [Term.applicative] at ht

theorem all_placeAll (ts : List Term) {m : Model} (h : m.vocabulary.All P)
    (hts : Term.applicativeAll ts = true) (hP : Admits P (Term.symbolsAll ts)) :
    (placeAll ts m).2.vocabulary.All P := by
  match ts with
  | [] =>
    rw [placeAll]
    exact h
  | t :: rest =>
    simp only [Term.applicativeAll, Bool.and_eq_true] at hts
    rw [placeAll]
    exact all_placeAll rest (all_place t h hts.1 hP.head) hts.2 hP.tail

end

theorem all_assert_other {t : Term} (hne : ∀ s args k, t ≠ .apply (.symbol s) args k)
    (h : m.vocabulary.All P) (ht : t.applicative = true) (hP : Admits P t.symbols) :
    (assert t m).vocabulary.All P := by
  rcases assert_other hne m with ⟨-, he⟩ | ⟨-, he⟩ | he
  · rw [he]
    exact h
  · rw [he]
    exact all_enqueue h _
  · rw [he]
    exact all_enqueue (all_place t h ht hP) _

mutual

theorem all_assert (t : Term) {m : Model} (h : m.vocabulary.All P) (ht : t.applicative = true)
    (hP : Admits P t.symbols) : (assert t m).vocabulary.All P := by
  match t with
  | .apply (.symbol s) args k =>
    have hargs : Term.applicativeAll args = true := by
      simp only [Term.applicative, Bool.and_eq_true] at ht
      exact ht.2
    rcases assert_apply s args k m with ⟨-, he⟩ | ⟨a, b, -, rfl, he⟩ | he
    · rw [he]
      exact all_assertAll args h hargs hP.args
    · rw [he]
      simp only [Term.applicativeAll, Bool.and_eq_true] at hargs
      have hleft := all_place a h hargs.1 hP.args.head
      exact all_enqueue (all_place b hleft hargs.2.1 hP.args.tail.head) _
    · rw [he]
      exact all_enqueue (all_place _ h ht hP) _
  | .symbol s => exact all_assert_other (by simp) h ht hP
  | .apply (.apply fn as l) args k => exact all_assert_other (by simp) h ht hP
  | .apply (.lambda ps body l) args k => exact all_assert_other (by simp) h ht hP
  | .apply (.cases bs o l) args k => exact all_assert_other (by simp) h ht hP
  | .lambda params body k => exact all_assert_other (by simp) h ht hP
  | .cases branches otherwise k => exact all_assert_other (by simp) h ht hP

theorem all_assertAll (ts : List Term) {m : Model} (h : m.vocabulary.All P)
    (hts : Term.applicativeAll ts = true) (hP : Admits P (Term.symbolsAll ts)) :
    (assertAll ts m).vocabulary.All P := by
  match ts with
  | [] =>
    rw [assertAll]
    exact h
  | t :: rest =>
    simp only [Term.applicativeAll, Bool.and_eq_true] at hts
    rw [assertAll]
    exact all_assertAll rest (all_assert t h hts.1 hP.head) hts.2 hP.tail

end

theorem all_assume (h : m.vocabulary.All P) {t : Term} (ht : t.applicative = true)
    (hP : Admits P t.symbols) : (m.assume t).2.vocabulary.All P :=
  all_propagate (all_assert t h ht hP)

theorem all_represent (h : m.vocabulary.All P) {t : Term} (ht : t.applicative = true)
    (hP : Admits P t.symbols) : (m.represent t).2.vocabulary.All P :=
  all_propagate (all_place t h ht hP)

theorem all_empty (htruth : P ⟨"true", .boolean, .literal⟩)
    (hfalsehood : P ⟨"false", .boolean, .literal⟩) : empty.vocabulary.All P := by
  intro e he
  change e ∈ Vocabulary.initial.entries at he
  rw [Vocabulary.initial_entries] at he
  simp only [List.mem_toArray, List.mem_cons, List.not_mem_nil, or_false] at he
  rcases he with rfl | rfl
  · exact htruth
  · exact hfalsehood

end Entering

section Naming

variable {m : Model}

theorem admits_named {t : Term} (ht : t.named = true) :
    Admits (fun e => e.name ≠ "") t.symbols :=
  ⟨fun n _ => Vocabulary.createdName_ne n, fun _ hs _ => Term.name_ne_of_mem_symbols t ht hs⟩

theorem named_assume (h : m.vocabulary.Named) {t : Term} (ht : t.named = true) :
    (m.assume t).2.vocabulary.Named :=
  all_assume h (Term.applicative_of_named t ht) (admits_named ht)

theorem named_represent (h : m.vocabulary.Named) {t : Term} (ht : t.named = true) :
    (m.represent t).2.vocabulary.Named :=
  all_represent h (Term.applicative_of_named t ht) (admits_named ht)

theorem named_empty : empty.vocabulary.Named := all_empty (by decide) (by decide)

end Naming

end Model

end Discharge.Congruence
