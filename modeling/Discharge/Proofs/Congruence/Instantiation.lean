import Discharge.Proofs.Congruence.Joining
import Discharge.Proofs.Congruence.Knowledge
import Discharge.Proofs.Congruence.Persistence
import Discharge.Proofs.Congruence.Telling

namespace Discharge

open Congruence

namespace Term

mutual

/-- The symbols that a model has for a term. Anonymous functions and definitions by cases are
symbols by their written form. -/
def leaves : Term → List Symbol
  | symbol s => [s]
  | apply fn args _ => fn.leaves ++ leavesAll args
  | lambda params body k => [⟨(lambda params body k).render, k, .free⟩]
  | cases branches otherwise k => [⟨(cases branches otherwise k).render, k, .free⟩]

def leavesAll : List Term → List Symbol
  | [] => []
  | t :: rest => t.leaves ++ leavesAll rest

end

def constant (t : Term) : Bool := t.symbols.all fun s => s.quantifier != .universal

mutual

/-- Whether every variable stands where a match can bind it, which is outside of anonymous functions
and of definitions by cases. -/
def bindable : Term → Bool
  | symbol _ => true
  | apply fn args _ => fn.bindable && bindableAll args
  | lambda params body k => (lambda params body k).constant
  | cases branches otherwise k => (cases branches otherwise k).constant

def bindableAll : List Term → Bool
  | [] => true
  | t :: rest => t.bindable && bindableAll rest

end

theorem not_universal_of_constant {t : Term} (h : t.constant = true) {s : Symbol}
    (hs : s ∈ t.symbols) : s.quantifier ≠ .universal := by
  simpa using List.all_eq_true.mp h s hs

theorem not_variableName_of_compound {t : Term} (h : ∀ s, t ≠ symbol s) :
    variableName t.render = false := by
  match t with
  | symbol s => exact (h s rfl).elim
  | apply fn args k => exact not_variableName_render fn args k
  | lambda params body k =>
    have hopen : (40 : UInt8) ∈ ("lambda(" : Text).toList := by decide
    simp [variableName, render, print, hopen]
  | cases branches otherwise k =>
    have hblank : (32 : UInt8) ∈ (" otherwise\x7d\x7d" : Text).toList := by decide
    simp [variableName, render, print, hblank]

section Replacing

variable {θ : Substitution} {value : Text → Text}

/-- A substitution that puts nothing for what is not written like a variable. -/
def Nominal (θ : Substitution) : Prop := ∀ form, variableName form = false → θ.get? form = none

structure Replaces (θ : Substitution) (value : Text → Text) (t : Term) : Prop where
  variable_eq : ∀ s ∈ t.symbols, s.quantifier = .universal →
    ∃ k, θ.get? s.name = some (symbol ⟨value s.name, k, .free⟩)
  constant_eq : ∀ s ∈ t.symbols, s.quantifier ≠ .universal → θ.get? s.name = none

theorem Replaces.mono {t t' : Term} (h : Replaces θ value t)
    (hsub : ∀ s ∈ t'.symbols, s ∈ t.symbols) : Replaces θ value t' :=
  ⟨fun s hs => h.variable_eq s (hsub s hs), fun s hs => h.constant_eq s (hsub s hs)⟩

theorem get?_without (θ : Substitution) (name form : Text) (h : θ.get? form = none) :
    (θ.without name).get? form = none := by
  rw [Substitution.get?, Option.map_eq_none_iff, List.find?_eq_none] at h ⊢
  exact fun e he => h e (List.mem_filter.mp he).1

theorem get?_foldl_without (params : List Symbol) (form : Text) {θ : Substitution}
    (h : θ.get? form = none) :
    (params.foldl (fun m p => m.without p.name) θ).get? form = none := by
  induction params generalizing θ with
  | nil => exact h
  | cons p rest ih => exact ih (get?_without θ p.name form h)

mutual

theorem substitute_eq_self (t : Term) {θ : Substitution} (hθ : Nominal θ)
    (ht : ∀ s ∈ t.symbols, θ.get? s.name = none) : t.substitute θ = t := by
  match t with
  | symbol s => rw [substitute, ht s (by simp [symbols]), Option.getD_none]
  | apply fn args k =>
    rw [symbols] at ht
    rw [substitute, hθ _ (not_variableName_of_compound (by simp)), Option.getD_none,
      substitute_eq_self fn hθ fun s hs => ht s (List.mem_append_left _ hs),
      substituteAll_eq_self args hθ fun s hs => ht s (List.mem_append_right _ hs)]
  | lambda params body k =>
    rw [symbols] at ht
    rw [substitute, hθ _ (not_variableName_of_compound (by simp)), Option.getD_none,
      substitute_eq_self body (fun form hf => get?_foldl_without params form (hθ form hf))
        fun s hs => get?_foldl_without params s.name (ht s hs)]
  | cases branches otherwise k =>
    rw [symbols] at ht
    rw [substitute, hθ _ (not_variableName_of_compound (by simp)), Option.getD_none,
      substituteBranches_eq_self branches hθ fun s hs => ht s (List.mem_append_left _ hs),
      substitute_eq_self otherwise hθ fun s hs => ht s (List.mem_append_right _ hs)]

theorem substituteAll_eq_self (ts : List Term) {θ : Substitution} (hθ : Nominal θ)
    (hts : ∀ s ∈ symbolsAll ts, θ.get? s.name = none) : substituteAll θ ts = ts := by
  match ts with
  | [] => rfl
  | t :: rest =>
    rw [symbolsAll] at hts
    rw [substituteAll, substitute_eq_self t hθ fun s hs => hts s (List.mem_append_left _ hs),
      substituteAll_eq_self rest hθ fun s hs => hts s (List.mem_append_right _ hs)]

theorem substituteBranches_eq_self (bs : List (Term × Term)) {θ : Substitution} (hθ : Nominal θ)
    (hbs : ∀ s ∈ symbolsBranches bs, θ.get? s.name = none) : substituteBranches θ bs = bs := by
  match bs with
  | [] => rfl
  | (result, condition) :: rest =>
    rw [symbolsBranches] at hbs
    rw [substituteBranches,
      substitute_eq_self result hθ fun s hs => hbs s (by simp [hs]),
      substitute_eq_self condition hθ fun s hs => hbs s (by simp [hs]),
      substituteBranches_eq_self rest hθ fun s hs => hbs s (by simp [hs])]

end

/-- The substitution that puts symbols for the variables of a term. -/
def valuation (t : Term) (value : Text → Text) : Substitution :=
  t.vars.map fun v => (v.name, symbol ⟨value v.name, v.kind, .free⟩)

theorem get?_valuation (t : Term) (value : Text → Text) (form : Text) :
    (t.valuation value).get? form =
      (t.vars.find? fun v => v.name == form).map fun v => symbol ⟨value form, v.kind, .free⟩ := by
  rw [Substitution.get?, valuation, List.find?_map, Option.map_map]
  refine Option.map_congr fun v hv => ?_
  have hname : v.name = form := by simpa using List.find?_some hv
  rw [Function.comp_apply, hname]

theorem WellQuantified.mono {t t' : Term} (h : t.WellQuantified)
    (hsub : ∀ s ∈ t'.symbols, s ∈ t.symbols) : t'.WellQuantified :=
  ⟨fun s hs s' hs' => h.uniform s (hsub s hs) s' (hsub s' hs'),
    fun s hs => h.variableName s (hsub s hs)⟩

theorem WellQuantified.nominal_valuation {t : Term} (h : t.WellQuantified) (value : Text → Text) :
    Nominal (t.valuation value) := by
  intro form hform
  rw [get?_valuation, Option.map_eq_none_iff, List.find?_eq_none]
  intro v hv hname
  obtain ⟨hmem, hu⟩ := mem_vars hv
  have hvar := h.variableName v hmem hu
  rw [eq_of_beq hname, hform] at hvar
  cases hvar

theorem WellQuantified.replaces_valuation {t : Term} (h : t.WellQuantified)
    (value : Text → Text) : Replaces (t.valuation value) value t := by
  refine ⟨?_, ?_⟩
  · intro s hs hu
    obtain ⟨v, hv, hname⟩ := exists_mem_vars hs hu
    rw [get?_valuation]
    cases hfind : t.vars.find? fun v => v.name == s.name with
    | none => exact (List.find?_eq_none.mp hfind v hv (by simp [hname])).elim
    | some w => exact ⟨w.kind, rfl⟩
  · intro s hs hu
    rw [get?_valuation, Option.map_eq_none_iff, List.find?_eq_none]
    intro v hv hname
    obtain ⟨hmem, huniv⟩ := mem_vars hv
    exact hu (h.uniform v hmem s hs (eq_of_beq hname) huniv)

end Replacing

end Term

namespace Congruence

theorem exists_perm_of_map_eq {α β : Type} {f : α → Option β} {as as' : List α}
    (h : as.Perm as') {bs : List β} (hbs : as.map f = bs.map some) :
    ∃ bs', as'.map f = bs'.map some ∧ bs.Perm bs' := by
  induction h generalizing bs with
  | nil => exact ⟨bs, hbs, List.Perm.refl bs⟩
  | cons a _ ih =>
    obtain ⟨b, rest, rfl⟩ : ∃ b rest, bs = b :: rest := by
      cases bs with
      | nil => simp at hbs
      | cons b rest => exact ⟨b, rest, rfl⟩
    simp only [List.map_cons, List.cons.injEq] at hbs
    obtain ⟨rest', hrest', hperm⟩ := ih hbs.2
    exact ⟨b :: rest', by simp [hbs.1, hrest'], hperm.cons b⟩
  | swap a a' _ =>
    obtain ⟨b, b', rest, rfl⟩ : ∃ b b' rest, bs = b :: b' :: rest := by
      match bs with
      | [] => simp at hbs
      | [b] => simp at hbs
      | b :: b' :: rest => exact ⟨b, b', rest, rfl⟩
    simp only [List.map_cons, List.cons.injEq] at hbs
    exact ⟨b' :: b :: rest, by simp [hbs], List.Perm.swap b' b rest⟩
  | trans _ _ ih ih' =>
    obtain ⟨cs, hcs, hperm⟩ := ih hbs
    obtain ⟨ds, hds, hperm'⟩ := ih' hcs
    exact ⟨ds, hds, hperm.trans hperm'⟩

theorem Vocabulary.eq_of_prefers {v : Vocabulary} {a b : Nat} (h : v.prefers a b = false)
    (h' : v.prefers b a = false) : a = b := by
  unfold prefers at h h'
  dsimp only at h h'
  cases ha : v.usage a == .created <;> cases hb : v.usage b == .created <;>
    simp [ha, hb] at h h' <;> omega

theorem Vocabulary.Named.of_grows {v w : Vocabulary} (h : w.Named) (hgrows : v.Grows w) :
    v.Named := by
  intro e he
  obtain ⟨i, hi, rfl⟩ := Array.mem_iff_getElem.mp he
  have hentry : v.entry i = v.entries[i] := by
    rw [Vocabulary.entry, Array.getElem?_eq_getElem hi, Option.getD_some]
  rw [← hentry, ← hgrows.entry_eq hi]
  exact h.name_ne (Nat.lt_of_lt_of_le hi hgrows.size_le)

/-- Whether a model finds, for the classes that a binding gives to the operator and the operands of
a fact of a pattern, the class that it gives to the result. -/
def Binding.Answers (b : Binding) (v : Vocabulary) (m : Model) (p : Fact) : Prop :=
  ∃ op args r, b.class? v m p.app.op = some op ∧
    p.app.args.map (b.class? v m) = args.map some ∧ b.class? v m p.result = some r ∧
    m.result? ⟨op, args⟩ = some r

namespace Model

variable {m n : Model} {θ : Substitution} {σ : Text → Text}

mutual

/-- An instance is found where the term is found under the names of its variables. -/
theorem find?_substitute (hm : m.Closed) (t : Term) (hθ : Term.Nominal θ) (ht : t.bindable = true)
    (h : Term.Replaces θ σ t) : m.find? (t.substitute θ) = m.find? (t.under σ) := by
  match t with
  | .symbol s =>
    rw [find?_under_symbol, Term.substitute, Symbol.nameUnder]
    by_cases hu : s.quantifier = .universal
    · obtain ⟨k, hk⟩ := h.variable_eq s (by simp [Term.symbols]) hu
      rw [hk, if_pos hu]
      rfl
    · rw [h.constant_eq s (by simp [Term.symbols]) hu, if_neg hu]
      rfl
  | .apply fn args k =>
    rw [Term.bindable, Bool.and_eq_true] at ht
    rw [Term.substitute, hθ _ (Term.not_variableName_of_compound (by simp)), Option.getD_none,
      Term.under, find?_apply_eq hm, find?_apply_eq hm,
      find?_substitute hm fn hθ ht.1 (h.mono fun s hs => by simp [Term.symbols_apply, hs]),
      findAll?_substituteAll hm args hθ ht.2 fun a ha => h.mono fun s hs => ?_]
    rw [Term.symbols_apply]
    exact List.mem_append_right _ (List.mem_flatMap.mpr ⟨a, ha, hs⟩)
  | .lambda params body k =>
    rw [Term.bindable] at ht
    rw [Term.substitute_eq_self _ hθ, Term.under]
    exact fun s hs => h.constant_eq s hs (Term.not_universal_of_constant ht hs)
  | .cases branches otherwise k =>
    rw [Term.bindable] at ht
    rw [Term.substitute_eq_self _ hθ, Term.under]
    exact fun s hs => h.constant_eq s hs (Term.not_universal_of_constant ht hs)

theorem findAll?_substituteAll (hm : m.Closed) (ts : List Term) (hθ : Term.Nominal θ)
    (hts : Term.bindableAll ts = true) (h : ∀ t ∈ ts, Term.Replaces θ σ t) :
    m.findAll? (Term.substituteAll θ ts) = m.findAll? (Term.underAll σ ts) := by
  match ts with
  | [] => rfl
  | t :: rest =>
    rw [Term.bindableAll, Bool.and_eq_true] at hts
    rw [Term.substituteAll, Term.underAll, findAll?, findAll?,
      find?_substitute hm t hθ hts.1 (h t List.mem_cons_self),
      findAll?_substituteAll hm rest hθ hts.2 fun u hu => h u (List.mem_cons_of_mem _ hu)]

end

mutual

theorem exists_rootOf?_of_bindable (hm : m.Closed) (t : Term) (ht : t.bindable = true) {r : Nat}
    (h : m.find? (t.under σ) = some r) :
    ∀ s ∈ t.symbols, s.quantifier = .universal → ∃ i, m.vocabulary.rootOf? (σ s.name) = some i := by
  match t with
  | .symbol s =>
    intro s' hs' hu
    rw [List.mem_singleton.mp hs'] at hu ⊢
    rw [find?_under_symbol, Symbol.nameUnder, if_pos hu] at h
    exact ⟨r, h⟩
  | .apply fn args k =>
    rw [Term.bindable, Bool.and_eq_true] at ht
    rw [Term.under, find?_apply_eq hm] at h
    simp only [Option.bind_eq_some_iff] at h
    obtain ⟨op, hop, is, his, -⟩ := h
    intro s hs hu
    rcases List.mem_append.mp hs with hs | hs
    · exact exists_rootOf?_of_bindable hm fn ht.1 hop s hs hu
    · exact exists_rootOf?_of_bindableAll hm args ht.2 his s hs hu
  | .lambda params body k =>
    rw [Term.bindable] at ht
    exact fun s hs hu => (Term.not_universal_of_constant ht hs hu).elim
  | .cases branches otherwise k =>
    rw [Term.bindable] at ht
    exact fun s hs hu => (Term.not_universal_of_constant ht hs hu).elim

theorem exists_rootOf?_of_bindableAll (hm : m.Closed) (ts : List Term)
    (hts : Term.bindableAll ts = true) {is : List Nat}
    (h : m.findAll? (Term.underAll σ ts) = some is) :
    ∀ s ∈ Term.symbolsAll ts, s.quantifier = .universal →
      ∃ i, m.vocabulary.rootOf? (σ s.name) = some i := by
  match ts with
  | [] => simp [Term.symbolsAll]
  | t :: rest =>
    rw [Term.bindableAll, Bool.and_eq_true] at hts
    rw [Term.underAll, findAll?] at h
    simp only [bind, Option.bind_eq_some_iff, pure, Option.some.injEq] at h
    obtain ⟨i, hi, js, hjs, -⟩ := h
    intro s hs hu
    rcases List.mem_append.mp hs with hs | hs
    · exact exists_rootOf?_of_bindable hm t hts.1 hi s hs hu
    · exact exists_rootOf?_of_bindableAll hm rest hts.2 hjs s hs hu

end

theorem lt_of_mem_findAll? (hm : m.Closed) {ts : List Term} {is : List Nat}
    (h : m.findAll? ts = some is) : ∀ i ∈ is, i < m.vocabulary.size := by
  induction ts generalizing is with
  | nil =>
    rw [findAll?] at h
    cases h
    simp
  | cons t rest ih =>
    rw [findAll?] at h
    simp only [bind, Option.bind_eq_some_iff, pure, Option.some.injEq] at h
    obtain ⟨i, hi, js, hjs, rfl⟩ := h
    exact List.forall_mem_cons.mpr ⟨lt_of_find? hm hi, ih hjs⟩

theorem root_enqueue_propagate (m : Model) (hm : m.Filed []) {a b : Nat}
    (ha : a < m.vocabulary.size) (hb : b < m.vocabulary.size) :
    m.Coarsens (m.enqueue (a, b)).propagate ∧
      (m.enqueue (a, b)).propagate.root a = (m.enqueue (a, b)).propagate.root b := by
  obtain ⟨-, hdone, hcoarse⟩ := propagate_spec (filed_enqueue hm (p := (a, b)) ha hb)
  exact ⟨(asks_enqueue m (a, b)).coarsens.trans hcoarse,
    (hcoarse.joined (joined_enqueue m (a, b))).root_eq hdone⟩

section Solving

variable {v : Vocabulary} {b : Binding} {p : Fact}

theorem result?_of_extends (hm : m.Closed) (hn : n.Closed) (hx : n.vocabulary.KeepsExchanges)
    (hext : m.Extends n) {app : Application} (happ : ∀ s ∈ app.places, s < m.vocabulary.size)
    {r : Nat} (h : m.result? app = some r) :
    n.result? ⟨n.root app.op, app.args.map n.root⟩ = some (n.root r) := by
  obtain ⟨i, hi, rfl⟩ := Option.map_eq_some_iff.mp h
  have hplace : m.placeApplication app .entity = _ := placeApplication_of_some hi
  have hfound := result?_placeApplication hm.filed hn hx (k := .entity) happ
    (by rw [hplace]; exact hext)
  rw [hplace] at hfound
  rw [← hfound]
  have hroot := hn.filed.vocabulary.root_root
  refine result?_congr (hroot _) ?_
  rw [List.map_map]
  exact List.map_congr_left fun s _ => hroot s

theorem class?_of_extends (hm : m.Closed) (hn : n.Closed) (hx : n.vocabulary.KeepsExchanges)
    (hext : m.Extends n) {s a : Nat} (h : b.class? v m s = some a) :
    b.class? v n s = some (n.root a) :=
  find?_of_extends hm hn hx hext (t := .symbol ⟨b.text v s, .entity, .free⟩) h

/-- A fact that a binding solved is answered by every later model. -/
theorem answers_of_solves (hm : m.Closed) (hn : n.Closed) (hx : n.vocabulary.KeepsExchanges)
    (hext : m.Extends n) (h : b.Solves v m p) : b.Answers v n p := by
  obtain ⟨f, hf, g, hg, hclasses⟩ := h.becomes
  have hlater : (p.app.places ++ [p.result]).map (b.class? v n) =
      ((g.app.places ++ [g.result]).map n.root).map some := by
    refine List.ext_getElem? fun i => ?_
    have hi := congrArg (·[i]?) hclasses
    simp only [List.getElem?_map] at hi ⊢
    cases hp : (p.app.places ++ [p.result])[i]? with
    | none =>
      rw [hp, Option.map_none] at hi
      rw [Option.map_eq_none_iff.mp hi.symm]
      rfl
    | some s =>
      rw [hp, Option.map_some] at hi
      obtain ⟨a, ha, hclass⟩ := Option.map_eq_some_iff.mp hi.symm
      rw [ha, Option.map_some, Option.map_some, Option.map_some,
        class?_of_extends hm hn hx hext hclass.symm]
  simp only [Application.places, List.cons_append, List.map_cons, List.map_append, List.map_nil,
    List.cons.injEq] at hlater
  obtain ⟨hop, hrest⟩ := hlater
  obtain ⟨hargs, hresult⟩ := List.append_inj' hrest rfl
  refine ⟨_, _, _, hop, hargs, (List.cons.inj hresult).1, ?_⟩
  exact result?_of_extends hm hn hx hext (fun s hs => (hm.symbols_orders hf hg s
    (List.mem_append_left _ hs)).1) (hm.result?_orders hf hg)

end Solving

end Model

end Congruence

end Discharge
