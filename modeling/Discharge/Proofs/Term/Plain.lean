import Discharge.Congruence.Vocabulary
import Discharge.Term.Substitution
import Discharge.Term.Parts

namespace Discharge

theorem Text.isEmpty_iff {t : Text} : t.isEmpty = true ↔ t = "" := by
  rw [isEmpty, beq_iff_eq, length_eq, List.length_eq_zero_iff]
  constructor
  · intro h
    exact ext (by rw [h]; decide)
  · rintro rfl
    decide

/-- Whether a name may stand in a formula: it is not empty, and it is none that models create. -/
def plainName (name : Text) : Bool := !name.isEmpty && !name.startsWith "¢c"

theorem startsWith_createdName (k : Nat) :
    (Congruence.Vocabulary.createdName k).startsWith "¢c" = true := by
  simp [Text.startsWith, Congruence.Vocabulary.createdName]

theorem plainName_createdName (k : Nat) :
    plainName (Congruence.Vocabulary.createdName k) = false := by
  simp [plainName, startsWith_createdName]

/-- Whether a name may be quantified: it is written in one piece, and it is neither a truth value
nor a connective. -/
def variableName (name : Text) : Bool :=
  !name.toList.contains 32 && !name.toList.contains 40 &&
    !name.isOneOf ["true", "false", "=", "and", "or", "implies"]

theorem Text.not_variableName_of_mem {name : Text}
    (h : name ∈ (["true", "false", "=", "and", "or", "implies"] : List Text)) :
    variableName name = false := by
  revert name
  decide

namespace Term

mutual

/-- Whether a term is made of plain names by application, and its conjunctions are not empty. -/
def plain : Term → Bool
  | symbol s => plainName s.name
  | apply fn args k =>
    fn.plain && plainAll args &&
      !((apply fn args k).operator? == some ("and" : Text) && args.isEmpty)
  | lambda _ _ _ => false
  | cases _ _ _ => false

def plainAll : List Term → Bool
  | [] => true
  | t :: rest => t.plain && plainAll rest

end

theorem plainAll_iff {ts : List Term} : plainAll ts = true ↔ ∀ t ∈ ts, t.plain = true := by
  induction ts with
  | nil => simp [plainAll]
  | cons t rest ih => simp [plainAll, ih]

theorem plain_apply_iff {fn : Term} {args : List Term} {k : Kind} :
    (apply fn args k).plain = true ↔ fn.plain = true ∧ (∀ t ∈ args, t.plain = true) ∧
      ((apply fn args k).operator? = some ("and" : Text) → args ≠ []) := by
  simp [plain, plainAll_iff, and_assoc, Decidable.imp_iff_not_or]

theorem plain_call {op : Text} {k : Kind} {args : List Term} (hop : plainName op = true)
    (hne : args ≠ []) (hargs : ∀ t ∈ args, t.plain = true) : (call op k args).plain = true :=
  plain_apply_iff.mpr ⟨hop, hargs, fun _ => hne⟩

mutual

def named : Term → Bool
  | symbol s => !s.name.isEmpty
  | apply fn args _ => fn.named && namedAll args
  | lambda _ _ _ => false
  | cases _ _ _ => false

def namedAll : List Term → Bool
  | [] => true
  | t :: rest => t.named && namedAll rest

end

theorem name_ne_of_named {s : Symbol} (h : (symbol s).named = true) : s.name ≠ "" := by
  intro he
  rw [named, he] at h
  exact absurd h (by decide)

theorem named_symbol {name : Text} {k : Kind} {q : Quantifier} (h : name ≠ "") :
    (symbol ⟨name, k, q⟩).named = true := by
  rw [named, Bool.not_eq_true']
  exact Bool.eq_false_iff.mpr fun he => h (Text.isEmpty_iff.mp he)

mutual

theorem named_of_plain (t : Term) (h : t.plain = true) : t.named = true := by
  match t with
  | symbol s =>
    simp only [plain, plainName, Bool.and_eq_true] at h
    simp only [named]
    exact h.1
  | apply fn args k =>
    obtain ⟨hfn, hargs, -⟩ := plain_apply_iff.mp h
    simp only [named, Bool.and_eq_true]
    exact ⟨named_of_plain fn hfn, namedAll_of_plain args hargs⟩
  | lambda _ _ _ => simp [plain] at h
  | cases _ _ _ => simp [plain] at h

theorem namedAll_of_plain (ts : List Term) (h : ∀ t ∈ ts, t.plain = true) :
    namedAll ts = true := by
  match ts with
  | [] => simp [namedAll]
  | t :: rest =>
    have hhead := named_of_plain t (h t List.mem_cons_self)
    have htail := namedAll_of_plain rest fun s hs => h s (List.mem_cons_of_mem _ hs)
    simp [namedAll, hhead, htail]

end

mutual

def applicative : Term → Bool
  | symbol _ => true
  | apply fn args _ => fn.applicative && applicativeAll args
  | lambda _ _ _ => false
  | cases _ _ _ => false

def applicativeAll : List Term → Bool
  | [] => true
  | t :: rest => t.applicative && applicativeAll rest

end

mutual

theorem applicative_of_named (t : Term) (h : t.named = true) : t.applicative = true := by
  match t with
  | symbol s => rfl
  | apply fn args k =>
    simp only [named, Bool.and_eq_true] at h
    simp only [applicative, Bool.and_eq_true]
    exact ⟨applicative_of_named fn h.1, applicativeAll_of_named args h.2⟩
  | lambda _ _ _ => simp [named] at h
  | cases _ _ _ => simp [named] at h

theorem applicativeAll_of_named (ts : List Term) (h : namedAll ts = true) :
    applicativeAll ts = true := by
  match ts with
  | [] => rfl
  | t :: rest =>
    simp only [namedAll, Bool.and_eq_true] at h
    simp only [applicativeAll, Bool.and_eq_true]
    exact ⟨applicative_of_named t h.1, applicativeAll_of_named rest h.2⟩

end

mutual

def applications : Term → List (Term × List Term)
  | symbol _ => []
  | apply fn args _ => (fn, args) :: (fn.applications ++ applicationsAll args)
  | lambda _ _ _ => []
  | cases _ _ _ => []

def applicationsAll : List Term → List (Term × List Term)
  | [] => []
  | t :: rest => t.applications ++ applicationsAll rest

end

theorem applicationsAll_eq_flatMap (ts : List Term) :
    applicationsAll ts = ts.flatMap applications := by
  induction ts with
  | nil => rfl
  | cons t rest ih => rw [applicationsAll, ih, List.flatMap_cons]

structure WellQuantified (t : Term) : Prop where
  uniform : ∀ s ∈ t.symbols, ∀ s' ∈ t.symbols, s.name = s'.name → s.quantifier = .universal →
    s'.quantifier = .universal
  variableName : ∀ s ∈ t.symbols, s.quantifier = .universal → variableName s.name = true

instance (t : Term) : Decidable t.WellQuantified :=
  decidable_of_iff ((∀ s ∈ t.symbols, ∀ s' ∈ t.symbols, s.name = s'.name →
      s.quantifier = .universal → s'.quantifier = .universal) ∧
    ∀ s ∈ t.symbols, s.quantifier = .universal → Discharge.variableName s.name = true)
    ⟨fun h => ⟨h.1, h.2⟩, fun h => ⟨h.uniform, h.variableName⟩⟩

theorem symbolsAll_eq_flatMap (ts : List Term) : symbolsAll ts = ts.flatMap symbols := by
  induction ts with
  | nil => rfl
  | cons t rest ih => simp [symbolsAll, ih]

theorem symbols_apply (fn : Term) (args : List Term) (k : Kind) :
    (apply fn args k).symbols = fn.symbols ++ args.flatMap symbols := by
  rw [symbols, symbolsAll_eq_flatMap]

theorem symbols_call (op : Text) (k : Kind) (args : List Term) :
    (call op k args).symbols = ⟨op, k, .free⟩ :: args.flatMap symbols := by
  rw [call, symbols_apply]
  rfl

theorem mem_symbols_implication {a b : Term} {s : Symbol} (h : s ∈ a.symbols ∨ s ∈ b.symbols) :
    s ∈ (implication a b).symbols := by
  rw [implication, symbols_call]
  rcases h with h | h
  · simp [h]
  · simp [h]

mutual

theorem name_ne_of_mem_symbols (t : Term) (ht : t.named = true) {s : Symbol}
    (hs : s ∈ t.symbols) : s.name ≠ "" := by
  match t with
  | symbol s' =>
    rw [symbols, List.mem_singleton] at hs
    subst hs
    exact name_ne_of_named ht
  | apply fn args k =>
    simp only [named, Bool.and_eq_true] at ht
    rw [symbols] at hs
    rcases List.mem_append.mp hs with hs | hs
    · exact name_ne_of_mem_symbols fn ht.1 hs
    · exact name_ne_of_mem_symbolsAll args ht.2 hs
  | lambda _ _ _ => simp [named] at ht
  | cases _ _ _ => simp [named] at ht

theorem name_ne_of_mem_symbolsAll (ts : List Term) (hts : namedAll ts = true) {s : Symbol}
    (hs : s ∈ symbolsAll ts) : s.name ≠ "" := by
  match ts with
  | [] => simp [symbolsAll] at hs
  | t :: rest =>
    simp only [namedAll, Bool.and_eq_true] at hts
    rw [symbolsAll] at hs
    rcases List.mem_append.mp hs with hs | hs
    · exact name_ne_of_mem_symbols t hts.1 hs
    · exact name_ne_of_mem_symbolsAll rest hts.2 hs

end

mutual

theorem plainName_of_mem_symbols (t : Term) (ht : t.plain = true) {s : Symbol}
    (hs : s ∈ t.symbols) : plainName s.name = true := by
  match t with
  | symbol s' =>
    rw [symbols, List.mem_singleton] at hs
    subst hs
    exact ht
  | apply fn args k =>
    obtain ⟨hfn, hargs, -⟩ := plain_apply_iff.mp ht
    rw [symbols] at hs
    rcases List.mem_append.mp hs with hs | hs
    · exact plainName_of_mem_symbols fn hfn hs
    · exact plainName_of_mem_symbolsAll args hargs hs
  | lambda _ _ _ => simp [plain] at ht
  | cases _ _ _ => simp [plain] at ht

theorem plainName_of_mem_symbolsAll (ts : List Term) (hts : ∀ t ∈ ts, t.plain = true) {s : Symbol}
    (hs : s ∈ symbolsAll ts) : plainName s.name = true := by
  match ts with
  | [] => simp [symbolsAll] at hs
  | t :: rest =>
    rw [symbolsAll] at hs
    rcases List.mem_append.mp hs with hs | hs
    · exact plainName_of_mem_symbols t (hts t List.mem_cons_self) hs
    · exact plainName_of_mem_symbolsAll rest (fun a ha => hts a (List.mem_cons_of_mem _ ha)) hs

end

/-- A blank or a bracket stands in the written form of every application. -/
theorem not_variableName_render (fn : Term) (args : List Term) (k : Kind) :
    variableName (apply fn args k).render = false := by
  have hwritten : (32 : UInt8) ∈ (apply fn args k).render.toList ∨
      (40 : UInt8) ∈ (apply fn args k).render.toList := by
    have hcall : ∀ (name : Text) (ps : List Printed),
        (40 : UInt8) ∈ (Printed.call name ps).text.toList := by
      intro name ps
      have hopen : (40 : UInt8) ∈ ("(" : Text).toList := by decide
      simp [Printed.call, hopen]
    rw [render, print]
    generalize printAll args = ps
    unfold Printed.application
    split
    · split
      · left
        have hblank : (32 : UInt8) ∈ (" " : Text).toList := by decide
        simp [hblank]
      · exact .inr (hcall _ _)
    · exact .inr (hcall _ _)
  rcases hwritten with h | h
  · simp [variableName, h]
  · simp [variableName, h]

/-- Whether the variables of a term can be replaced by name: names are quantified throughout or not
at all, and no application is written like a variable. -/
structure Substitutable (t : Term) : Prop where
  applicative : t.applicative = true
  uniform : ∀ s ∈ t.symbols, ∀ s' ∈ t.symbols, s.name = s'.name → s.quantifier = .universal →
    s'.quantifier = .universal
  apart : ∀ s ∈ t.symbols, s.quantifier = .universal → ∀ u ∈ t.applications,
    s.name ≠ (apply u.1 u.2 .entity).render

instance (t : Term) : Decidable t.Substitutable :=
  decidable_of_iff (t.applicative = true ∧
    (∀ s ∈ t.symbols, ∀ s' ∈ t.symbols, s.name = s'.name → s.quantifier = .universal →
      s'.quantifier = .universal) ∧
    ∀ s ∈ t.symbols, s.quantifier = .universal → ∀ u ∈ t.applications,
      s.name ≠ (apply u.1 u.2 .entity).render)
    ⟨fun h => ⟨h.1, h.2.1, h.2.2⟩, fun h => ⟨h.applicative, h.uniform, h.apart⟩⟩

theorem WellQuantified.substitutable {t : Term} (h : t.WellQuantified) (ht : t.named = true) :
    t.Substitutable := by
  refine ⟨applicative_of_named t ht, h.uniform, ?_⟩
  intro s hs hq u _ hn
  have hvar := h.variableName s hs hq
  rw [hn, not_variableName_render] at hvar
  contradiction

end Term

end Discharge
