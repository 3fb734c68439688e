import Discharge.Formula.Token
import Discharge.Proofs.Cache.KeyText
import Discharge.Proofs.Congruence.Classes
import Discharge.Proofs.Term.Legibility
import Discharge.Term.Substitution

/-!
Written terms are unambiguous. The terms in question have no anonymous functions, and their names
are made of the characters of names in formulas, or are operators that are applied. Two of them are
written alike just in case they are the same tree but for kinds and quantifiers. So whatever goes by
the written form goes by the tree: comparison, trivial equations, the entries of a substitution, and
the constants that a model has for definitions by cases.
-/

namespace Discharge

/-! ### Names -/

def isSpelling (c : Char) : Bool := Formula.Token.isNameChar c || c == '.'

/-- Whether a name is a non-empty string of letters, digits, `_`, `$` and dots. -/
def IsSpelled (name : Text) : Prop :=
  ∃ s : String, s ≠ "" ∧ s.toList.all isSpelling = true ∧ name = s

theorem toNat_of_mem_utf8EncodeChar {c : Char} {byte : UInt8}
    (hb : byte ∈ String.utf8EncodeChar c) (h : byte.toNat < 128) : c.toNat = byte.toNat := by
  change c.val.toNat = _
  simp only [String.utf8EncodeChar] at hb
  split_ifs at hb <;> simp only [List.mem_cons, List.not_mem_nil, or_false] at hb
  · rw [hb, UInt8.toNat_ofNat']
    omega
  · rcases hb with rfl | rfl <;> rw [UInt8.toNat_ofNat'] at h <;> omega
  · rcases hb with rfl | rfl | rfl <;> rw [UInt8.toNat_ofNat'] at h <;> omega
  · rcases hb with rfl | rfl | rfl | rfl <;> rw [UInt8.toNat_ofNat'] at h <;> omega

namespace Term

theorem endsWord_of_isSpelling {c : Char} (h : isSpelling c = true) {byte : UInt8}
    (hb : byte ∈ String.utf8EncodeChar c) : endsWord byte = false := by
  have hends : ∀ b ∈ ([32, 40, 41, 44, 59, 123, 125] : List UInt8),
      b.toNat < 128 ∧ isSpelling (Char.ofNat b.toNat) = false := by decide +kernel
  refine Bool.eq_false_iff.mpr fun hbyte => ?_
  obtain ⟨hlow, hno⟩ := hends byte (List.contains_iff_mem.mp hbyte)
  rw [← toNat_of_mem_utf8EncodeChar hb hlow, Char.ofNat_toNat, h] at hno
  cases hno

theorem clearName_of_isSpelled {name : Text} (h : IsSpelled name) : clearName name = true := by
  obtain ⟨s, hne, hall, rfl⟩ := h
  refine clearName_iff.mpr ⟨fun he => hne (Text.ofString_injective he), fun byte hb => ?_⟩
  rw [Text.toList_ofString] at hb
  obtain ⟨c, hc, hmem⟩ := List.mem_flatMap.mp hb
  exact endsWord_of_isSpelling (List.all_eq_true.mp hall c hc) hmem

theorem clearName_of_isOperation {name : Text} (h : isOperation name = true) :
    clearName name = true := by
  have hall : ∀ op ∈ (["=", "/=", "and", "or", "implies", "<=", "<", ">=", ">", "+", "-", "*", "/",
      "%"] : List Text), clearName op = true := by decide +kernel
  exact hall name (List.contains_iff_mem.mp h)

/-- Terms without anonymous functions in which symbols are spelled and what is applied is a spelled
symbol or an operator. -/
inductive Spelled : Term → Prop where
  | name (s : Symbol) (hs : IsSpelled s.name) : Spelled (symbol s)
  | application (s : Symbol) (args : List Term) (k : Kind)
    (hs : IsSpelled s.name ∨ isOperation s.name = true) (hargs : ∀ a ∈ args, Spelled a) :
    Spelled (apply (symbol s) args k)
  | branching (branches : List (Term × Term)) (otherwise : Term) (k : Kind)
    (hresults : ∀ b ∈ branches, Spelled b.1) (hconditions : ∀ b ∈ branches, Spelled b.2)
    (ho : Spelled otherwise) : Spelled (cases branches otherwise k)

theorem Spelled.clear {t : Term} (h : Spelled t) : t.clear = true := by
  induction h with
  | name s hs => exact clearName_of_isSpelled hs
  | application s args k hs _ ih =>
    exact clear_apply_iff.mpr ⟨hs.elim clearName_of_isSpelled clearName_of_isOperation, ih⟩
  | branching branches otherwise k _ _ _ ihr ihc iho =>
    exact clear_cases_iff.mpr ⟨fun b hb => ⟨ihr b hb, ihc b hb⟩, iho⟩

/-! ### Trees and written forms -/

mutual

theorem print_outline (t : Term) : t.outline.print = t.print := by
  match t with
  | symbol s => rfl
  | apply fn args k => rw [outline, print, print, print_outline fn, printAll_outlineAll args]
  | lambda params body k => rfl
  | cases branches otherwise k =>
    rw [outline, print, print, printBranches_outlineBranches branches, print_outline otherwise]

theorem printAll_outlineAll (ts : List Term) : printAll (outlineAll ts) = printAll ts := by
  match ts with
  | [] => rfl
  | t :: rest => rw [outlineAll, printAll, printAll, print_outline t, printAll_outlineAll rest]

theorem printBranches_outlineBranches (branches : List (Term × Term)) :
    printBranches (outlineBranches branches) = printBranches branches := by
  match branches with
  | [] => rfl
  | (result, condition) :: rest =>
    rw [outlineBranches, printBranches, printBranches, print_outline result,
      print_outline condition, printBranches_outlineBranches rest]

end

theorem render_eq_iff {a b : Term} (ha : a.clear = true) (hb : b.clear = true) :
    a.render = b.render ↔ a.outline = b.outline := by
  constructor
  · intro h
    exact Option.some.inj ((read?_render ha).symm.trans (h ▸ read?_render hb))
  · intro h
    rw [render, ← print_outline a, h, print_outline, render]

/-! ### Substitution -/

inductive Occurs (t : Term) : Term → Prop where
  | here : Occurs t t
  | function {fn : Term} {args : List Term} {k : Kind} (h : Occurs t fn) :
    Occurs t (apply fn args k)
  | argument {fn a : Term} {args : List Term} {k : Kind} (ha : a ∈ args) (h : Occurs t a) :
    Occurs t (apply fn args k)
  | body {params : List Symbol} {body : Term} {k : Kind} (h : Occurs t body) :
    Occurs t (lambda params body k)
  | result {branches : List (Term × Term)} {otherwise : Term} {k : Kind} {b : Term × Term}
    (hb : b ∈ branches) (h : Occurs t b.1) : Occurs t (cases branches otherwise k)
  | condition {branches : List (Term × Term)} {otherwise : Term} {k : Kind} {b : Term × Term}
    (hb : b ∈ branches) (h : Occurs t b.2) : Occurs t (cases branches otherwise k)
  | otherwise {branches : List (Term × Term)} {otherwise : Term} {k : Kind}
    (h : Occurs t otherwise) : Occurs t (cases branches otherwise k)

section Substituting

variable {t a : Term} {form : Text} {r : Term} {m : Substitution}

theorem Occurs.clear (h : Occurs t a) (ha : a.clear = true) : t.clear = true := by
  induction h with
  | here => exact ha
  | function _ ih =>
    obtain ⟨s, rfl⟩ := exists_symbol_of_clear_apply ha
    exact ih (clear_apply_iff.mp ha).1
  | argument hmem _ ih =>
    obtain ⟨s, rfl⟩ := exists_symbol_of_clear_apply ha
    exact ih ((clear_apply_iff.mp ha).2 _ hmem)
  | body => simp [Term.clear] at ha
  | result hb _ ih => exact ih ((clear_cases_iff.mp ha).1 _ hb).1
  | condition hb _ ih => exact ih ((clear_cases_iff.mp ha).1 _ hb).2
  | otherwise _ ih => exact ih (clear_cases_iff.mp ha).2

theorem get?_cons_self (m : Substitution) (form : Text) (r : Term) :
    Substitution.get? ((form, r) :: m) form = some r := by
  simp [Substitution.get?]

theorem get?_cons_of_ne (h : t.render ≠ form) :
    Substitution.get? ((form, r) :: m) t.render = m.get? t.render := by
  simp [Substitution.get?, Ne.symm h]

/-- Every term is looked up by its written form before its parts are. -/
theorem substitute_of_get? (h : m.get? a.render = some r) : a.substitute m = r := by
  cases a with
  | symbol s => exact congrArg (Option.getD · (symbol s)) h
  | apply fn args k | lambda params body k | cases branches otherwise k =>
    rw [substitute, h, Option.getD_some]

theorem substituteBranches_eq_map (m : Substitution) (branches : List (Term × Term)) :
    substituteBranches m branches = branches.map fun b => (b.1.substitute m, b.2.substitute m) := by
  induction branches with
  | nil => rfl
  | cons b rest ih => rw [substituteBranches, ih, List.map_cons]

theorem substitute_cons_of_ne (ha : a.clear = true) (h : ∀ t, Occurs t a → t.render ≠ form) :
    a.substitute ((form, r) :: m) = a.substitute m := by
  induction a, ha using clear_induction with
  | name s _ => exact congrArg (·.getD (symbol s)) (get?_cons_of_ne (h _ .here))
  | application s args k hclear ih =>
    have hself := get?_cons_of_ne (r := r) (m := m) (h _ .here)
    have hfn : Substitution.get? ((form, r) :: m) s.name = m.get? s.name :=
      get?_cons_of_ne (t := symbol s) (h _ (.function .here))
    have hargs : args.map (substitute ((form, r) :: m)) = args.map (substitute m) :=
      List.map_congr_left fun a ha => ih a ha ((clear_apply_iff.mp hclear).2 a ha)
        fun t ht => h t (.argument ha ht)
    simp only [substitute, hself, hfn, substituteAll_eq_map, hargs]
  | branching branches otherwise k hclear ih iho =>
    obtain ⟨hbranches, ho⟩ := clear_cases_iff.mp hclear
    have hself := get?_cons_of_ne (r := r) (m := m) (h _ .here)
    have hmap : branches.map (fun b => (b.1.substitute ((form, r) :: m),
        b.2.substitute ((form, r) :: m))) =
        branches.map fun b => (b.1.substitute m, b.2.substitute m) := by
      refine List.map_congr_left fun b hb => Prod.ext ?_ ?_
      · exact (ih b hb).1 (hbranches b hb).1 fun t ht => h t (.result hb ht)
      · exact (ih b hb).2 (hbranches b hb).2 fun t ht => h t (.condition hb ht)
    have hotherwise := iho ho fun t ht => h t (.otherwise ht)
    simp only [substitute, hself, substituteBranches_eq_map, hmap, hotherwise]

end Substituting

end Term

/-! ### Constants -/

namespace Congruence.Vocabulary

variable {v w : Vocabulary} {x y : Text} {k k' : Kind} {u u' : Usage}

theorem lookup?_of_grows_add (hv : v.WellFormed) (hw : w.WellFormed)
    (h : (v.add x k u).2.Grows w) : w.lookup? x = some (v.add x k u).1 := by
  have hlt := add_fst_lt hv x k u
  exact hw.lookup_iff.mpr ⟨hlt.trans_le h.size_le, (h.name_eq hlt).trans (name_add_fst hv x k u)⟩

theorem lookup?_eq_iff_of_grows_add (hv : v.WellFormed) (hw : w.WellFormed)
    (h : (v.add x k u).2.Grows w) : w.lookup? y = some (v.add x k u).1 ↔ x = y := by
  have hx := lookup?_of_grows_add hv hw h
  constructor
  · intro hy
    exact (hw.lookup_iff.mp hx).2.symm.trans (hw.lookup_iff.mp hy).2
  · rintro rfl
    exact hx

theorem add_fst_eq_iff_of_grows_add (hv : v.WellFormed) (hw : w.WellFormed)
    (h : (v.add x k u).2.Grows w) : (w.add y k' u').1 = (v.add x k u).1 ↔ x = y := by
  have hlater := lookup?_of_grows_add hw (wellFormed_add hw y k' u') (.refl _)
  rw [← lookup?_eq_iff_of_grows_add hv (wellFormed_add hw y k' u') (h.trans (grows_add hw y k' u')),
    hlater, Option.some_inj]

end Congruence.Vocabulary

/-! ### Unambiguity -/

namespace Term

open Congruence

/-- Whether the written forms of two terms stand for their trees: in comparisons, in equations, as
the names that substitution looks up, and as the names of symbols. -/
structure Unambiguous (a b : Term) : Prop where
  render_iff : a.render = b.render ↔ a.outline = b.outline
  same_iff : a.same b = true ↔ a.outline = b.outline
  trivial_iff : ∀ (s : Symbol) (k : Kind), s.name = "=" →
    ((apply (symbol s) [a, b] k).isTrivialEquation = true ↔ a.outline = b.outline)
  get?_iff : ∀ (r : Term) (m : Substitution),
    (a.outline = b.outline → Substitution.get? ((b.render, r) :: m) a.render = some r) ∧
    (a.outline ≠ b.outline → Substitution.get? ((b.render, r) :: m) a.render = m.get? a.render)
  substitute_of_eq : a.outline = b.outline → ∀ (r : Term) (m : Substitution),
    a.substitute ((b.render, r) :: m) = r
  substitute_of_ne : (∀ t, Occurs t a → t.outline ≠ b.outline) → ∀ (r : Term) (m : Substitution),
    a.substitute ((b.render, r) :: m) = a.substitute m
  /-- The symbol that was added for one term is found for the other, and is the one that would be
  added for it, however the vocabulary has grown in the meantime. -/
  constant_iff : ∀ {v w : Vocabulary} (k k' : Kind) (u u' : Usage), v.WellFormed → w.WellFormed →
    (v.add a.render k u).2.Grows w →
    (w.lookup? b.render = some (v.add a.render k u).1 ↔ a.outline = b.outline) ∧
    ((w.add b.render k' u').1 = (v.add a.render k u).1 ↔ a.outline = b.outline)

/-- Spelled terms that are written alike are the same tree, up to kinds and quantifiers. -/
theorem unambiguous_of_spelled {a b : Term} (ha : Spelled a) (hb : Spelled b) :
    Unambiguous a b := by
  have hiff : a.render = b.render ↔ a.outline = b.outline := render_eq_iff ha.clear hb.clear
  have hsame : a.same b = true ↔ a.outline = b.outline := beq_iff_eq.trans hiff
  have hget : a.outline = b.outline → ∀ (r : Term) (m : Substitution),
      Substitution.get? ((b.render, r) :: m) a.render = some r := fun h r m => by
    rw [hiff.mpr h, get?_cons_self]
  exact {
    render_iff := hiff
    same_iff := hsame
    trivial_iff := fun s k hs => by
      simp [isTrivialEquation, operator?, sides?, hs, hsame]
    get?_iff := fun r m => ⟨fun h => hget h r m, fun h => get?_cons_of_ne (mt hiff.mp h)⟩
    substitute_of_eq := fun h r m => substitute_of_get? (hget h r m)
    substitute_of_ne := fun h r m => substitute_cons_of_ne ha.clear fun t ht =>
      mt (render_eq_iff (ht.clear ha.clear) hb.clear).mp (h t ht)
    constant_iff := fun k k' u u' hv hw hgrows =>
      ⟨(Vocabulary.lookup?_eq_iff_of_grows_add hv hw hgrows).trans hiff,
        (Vocabulary.add_fst_eq_iff_of_grows_add hv hw hgrows).trans hiff⟩ }

section Keywords

variable {k : Kind} {q : Quantifier} {a b : Term}

def wordedCases (k : Kind) (q : Quantifier) (value : Term) : Term :=
  cases [(symbol ⟨"if", k, q⟩, symbol ⟨"otherwise", .boolean, q⟩)] value k

theorem spelled_word : Spelled (symbol ⟨"if", k, q⟩) ∧ Spelled (symbol ⟨"otherwise", k, q⟩) :=
  ⟨.name _ ⟨"if", by decide, by decide, rfl⟩, .name _ ⟨"otherwise", by decide, by decide, rfl⟩⟩

theorem spelled_minus (ha : Spelled a) (hb : Spelled b) : Spelled (call "-" k [a, b]) :=
  .application _ _ _ (.inr (show isOperation "-" = true by decide))
    (List.forall_mem_cons.mpr ⟨ha, List.forall_mem_singleton.mpr hb⟩)

theorem spelled_wordedCases (h : Spelled a) : Spelled (wordedCases k q a) :=
  .branching _ _ _ (List.forall_mem_singleton.mpr spelled_word.1)
    (List.forall_mem_singleton.mpr spelled_word.2) h

/-- `if - (if - otherwise)` in a definition by cases is told from `(if - if) - otherwise`, and not
from the same with other kinds and quantifiers. -/
theorem unambiguous_of_spelled_wordedCases :
    let word := symbol ⟨"if", .integer, .free⟩
    let last := symbol ⟨"otherwise", .integer, .free⟩
    let right := fun k q => wordedCases k q (call "-" k [word, call "-" k [word, last]])
    let left := wordedCases .integer .free
      (call "-" .integer [call "-" .integer [word, word], last])
    (Unambiguous (right .integer .free) (right .natural .universal) ∧
      (right .integer .free).outline = (right .natural .universal).outline) ∧
    Unambiguous (right .integer .free) left ∧ (right .integer .free).render ≠ left.render := by
  intro word last right left
  have hright : ∀ k q, Spelled (right k q) := fun k q => spelled_wordedCases
    (spelled_minus spelled_word.1 (spelled_minus spelled_word.1 spelled_word.2))
  have hleft : Spelled left :=
    spelled_wordedCases (spelled_minus (spelled_minus spelled_word.1 spelled_word.1) spelled_word.2)
  exact ⟨⟨unambiguous_of_spelled (hright .integer .free) (hright .natural .universal), rfl⟩,
    unambiguous_of_spelled (hright .integer .free) hleft, by decide +kernel⟩

end Keywords

end Term

end Discharge
