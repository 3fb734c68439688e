import Discharge.Proofs.Congruence.Instantiation
import Discharge.Proofs.Congruence.Patterns
import Discharge.Proofs.Search.Derivations
import Discharge.Proofs.Search.Instances
import Discharge.Proofs.Search.Rules

/-!
Patterns in which the goal and the symbols of the conclusion are still themselves. As long as the
facts of such a pattern are answered, whatever is found for the conclusion in the pattern is found
for its instance in the model.
-/

namespace Discharge.Search

open Congruence

/-- The goal of a rule that works backwards, as a symbol of its pattern. -/
def goalSymbol : Symbol := ⟨goalName, .boolean, .universal⟩

namespace Draft

variable {d : Draft} {t : Term} {b : Binding} {n : Model}

/-- Whether a symbol stands for itself in the pattern of a draft, which binds it if and only if it is
quantified. -/
def Keeps (d : Draft) (s : Symbol) : Prop :=
  ∀ i ∈ d.vocabulary.lookup? s.name, d.vocabulary.root i = i ∧
    (d.vocabulary.usage i).isVariable = decide (s.quantifier = .universal)

instance (d : Draft) (s : Symbol) : Decidable (d.Keeps s) :=
  inferInstanceAs (Decidable (∀ i ∈ d.vocabulary.lookup? s.name, _ ∧ _))

/-- A draft in whose pattern the goal, the symbols of a term and the operators whose operands may be
exchanged stand for themselves. -/
structure Intact (d : Draft) (t : Term) : Prop where
  goal : d.Keeps goalSymbol
  leaves : ∀ s ∈ t.leaves, d.Keeps s
  exchanges : ∀ i < d.requiredModel.vocabulary.size,
    isCommutative (d.requiredModel.vocabulary.name i) = true →
      d.vocabulary.root i = i ∧ (d.vocabulary.usage i).isVariable = false

instance (d : Draft) (t : Term) : Decidable (d.Intact t) :=
  decidable_of_iff (d.Keeps goalSymbol ∧ (∀ s ∈ t.leaves, d.Keeps s) ∧
    ∀ i < d.requiredModel.vocabulary.size,
      isCommutative (d.requiredModel.vocabulary.name i) = true →
        d.vocabulary.root i = i ∧ (d.vocabulary.usage i).isVariable = false)
    ⟨fun h => ⟨h.1, h.2.1, h.2.2⟩, fun h => ⟨h.goal, h.leaves, h.exchanges⟩⟩

theorem root_required (d : Draft) {i : Nat} (hi : i < d.requiredModel.vocabulary.size) :
    d.vocabulary.root (d.requiredModel.root i) = d.vocabulary.root i :=
  d.grows_vocabulary.root_eq (d.closed_requiredModel.filed.root_lt hi) hi
    (d.closed_requiredModel.filed.vocabulary.root_root i)

theorem class?_required {i : Nat} (hi : i < d.requiredModel.vocabulary.size) :
    b.class? d.vocabulary n (d.requiredModel.root i) = b.class? d.vocabulary n i := by
  rw [← Binding.class?_root d.wellFormed_vocabulary (d.requiredModel.root i), d.root_required hi,
    Binding.class?_root d.wellFormed_vocabulary]

/-- A symbol that stands for itself in the pattern is found under its name. -/
theorem Keeps.class?_eq {s : Symbol} (h : d.Keeps s) {i : Nat}
    (hi : d.requiredModel.vocabulary.rootOf? s.name = some i) :
    b.class? d.vocabulary n i = n.vocabulary.rootOf? (s.nameUnder (d.rule.valueOf b)) := by
  obtain ⟨j, hj, rfl⟩ := Option.map_eq_some_iff.mp hi
  obtain ⟨hlt, hj'⟩ := lookup?_vocabulary hj
  have hname := d.wellFormed_vocabulary.name_of_lookup? hj'
  obtain ⟨hroot, hvar⟩ := h j hj'
  change b.class? d.vocabulary n (d.requiredModel.root j) = _
  rw [class?_required hlt, Binding.class?_of_root hroot, hvar, hname, Symbol.nameUnder]
  by_cases hu : s.quantifier = .universal
  · -- A variable without a value of its own has none at all, for it is the root of its class.
    have hvalue : d.rule.valueOf b s.name = b.get s.name := by
      have hclass : d.rule.pattern.rootOf? s.name = some j := by
        change d.vocabulary.rootOf? s.name = _
        rw [Vocabulary.rootOf?, hj', Option.map_some, hroot]
      unfold Rule.valueOf
      rw [hclass]
      dsimp only
      split
      · rfl
      · exact congrArg b.get hname
    simp only [decide_eq_true_eq, if_pos hu, hvalue]
  · simp only [decide_eq_true_eq, if_neg hu]

theorem root_required_eq_self {i : Nat} (hi : i < d.requiredModel.vocabulary.size)
    (hroot : d.vocabulary.root i = i) : d.requiredModel.root i = i := by
  have hv := d.closed_requiredModel.filed.vocabulary
  have hlt := d.closed_requiredModel.filed.root_lt hi
  have hbest := d.wellFormed_vocabulary.root_best
    (Nat.lt_of_lt_of_le hlt d.grows_vocabulary.size_le)
  rw [d.root_required hi, hroot, Vocabulary.prefers, Vocabulary.usage, Vocabulary.usage,
    d.grows_vocabulary.entry_eq hlt, d.grows_vocabulary.entry_eq hi] at hbest
  exact Vocabulary.eq_of_prefers hbest (hv.root_best hi)

theorem Intact.keepsExchanges (h : d.Intact t) : d.requiredModel.vocabulary.KeepsExchanges := by
  intro i hi hcomm
  have hroot := root_required_eq_self hi (h.exchanges i hi hcomm).1
  change isCommutative (d.requiredModel.vocabulary.name (d.requiredModel.root i)) = true
  rw [hroot]
  exact hcomm

theorem Intact.exchanges_of_class? (h : d.Intact t) (hn : n.Closed)
    (hx : n.vocabulary.KeepsExchanges) {i op : Nat} (hi : i < d.requiredModel.vocabulary.size)
    (hcomm : isCommutative (d.requiredModel.vocabulary.name i) = true)
    (hop : b.class? d.vocabulary n i = some op) :
    isCommutative (n.vocabulary.rootName op) = true := by
  obtain ⟨hroot, hconst⟩ := h.exchanges i hi hcomm
  rw [Binding.class?_of_root hroot, hconst, if_neg (by simp), Vocabulary.rootOf?,
    Option.map_eq_some_iff, d.grows_vocabulary.name_eq hi] at hop
  obtain ⟨j, hj, rfl⟩ := hop
  have hv := hn.filed.vocabulary
  rw [Vocabulary.rootName, hv.root_root]
  refine hx j (hv.lt_of_lookup? hj) ?_
  rw [hv.name_of_lookup? hj]
  exact hcomm

/-- The result of an answered fact is found whichever way its operands are ordered. -/
theorem Intact.result?_of_perm (h : d.Intact t) (hn : n.Closed) (hx : n.vocabulary.KeepsExchanges)
    {p : Fact} (hp : p ∈ d.requiredModel.facts) (hb : b.Answers d.vocabulary n p) {is : List Nat}
    (hperm : p.app.args.Perm is) (hsame : p.app.args = is ∨
      isCommutative (d.requiredModel.vocabulary.name p.app.op) = true) :
    ∃ op js, b.class? d.vocabulary n p.app.op = some op ∧
      is.map (b.class? d.vocabulary n) = js.map some ∧
      n.result? ⟨op, js⟩ = b.class? d.vocabulary n p.result := by
  obtain ⟨op, args, r, hop, hargs, hres, hfound⟩ := hb
  rcases hsame with rfl | hcomm
  · exact ⟨op, args, hop, hargs, hfound.trans hres.symm⟩
  · obtain ⟨js, hjs, hperm'⟩ := exists_perm_of_map_eq hperm hargs
    have hlt := d.closed_requiredModel.symbols_fact_lt hp p.app.op p.op_mem_symbols
    refine ⟨op, js, hop, hjs, ?_⟩
    rw [hres, ← hfound]
    exact (Model.result?_perm (h.exchanges_of_class? hn hx hlt hcomm hop) hperm').symm

mutual

theorem Intact.find?_under (h : d.Intact t) (hn : n.Closed) (hx : n.vocabulary.KeepsExchanges)
    (hb : ∀ p ∈ d.requiredModel.facts, b.Answers d.vocabulary n p) (u : Term)
    (hsub : ∀ s ∈ u.leaves, s ∈ t.leaves) {i : Nat} (hi : d.requiredModel.find? u = some i) :
    n.find? (u.under (d.rule.valueOf b)) = b.class? d.vocabulary n i := by
  have hp := d.closed_requiredModel
  match u with
  | .symbol s =>
    rw [Model.find?_under_symbol]
    exact ((h.leaves s (hsub s List.mem_cons_self)).class?_eq hi).symm
  | .apply fn args k =>
    rw [Term.leaves] at hsub
    rw [Model.find?_apply_eq hp] at hi
    simp only [Option.bind_eq_some_iff] at hi
    obtain ⟨op, hop, is, his, hres⟩ := hi
    -- The pattern found the application through a fact, which the model answers.
    obtain ⟨f, hf, rfl, hfop, hperm, hsame⟩ := hp.exists_fact hres
    obtain ⟨op', js, hop', hjs, hfound⟩ := h.result?_of_perm hn hx hf (hb f hf) hperm hsame
    have hoplt := Model.lt_of_find? hp hop
    rw [hfop] at hop'
    rw [class?_required hoplt] at hop'
    have hclasses : is.map (b.class? d.vocabulary n) = js.map some := by
      rw [← hjs, List.map_map]
      refine List.map_congr_left fun s hs => ?_
      exact (class?_required (Model.lt_of_mem_findAll? hp his s hs)).symm
    have hfn := h.find?_under hn hx hb fn (fun s hs => hsub s (List.mem_append_left _ hs)) hop
    have hargs := h.findAll?_underAll hn hx hb args
      (fun s hs => hsub s (List.mem_append_right _ hs)) his hclasses
    rw [Term.under, Model.find?_apply_eq hn, hfn, hargs, hop', ← hfound]
    rfl
  | .lambda params body k =>
    exact ((h.leaves _ (hsub _ List.mem_cons_self)).class?_eq hi).symm
  | .cases branches otherwise k =>
    exact ((h.leaves _ (hsub _ List.mem_cons_self)).class?_eq hi).symm

theorem Intact.findAll?_underAll (h : d.Intact t) (hn : n.Closed)
    (hx : n.vocabulary.KeepsExchanges)
    (hb : ∀ p ∈ d.requiredModel.facts, b.Answers d.vocabulary n p) (us : List Term)
    (hsub : ∀ s ∈ Term.leavesAll us, s ∈ t.leaves) {is js : List Nat}
    (his : d.requiredModel.findAll? us = some is)
    (hjs : is.map (b.class? d.vocabulary n) = js.map some) :
    n.findAll? (Term.underAll (d.rule.valueOf b) us) = some js := by
  match us with
  | [] =>
    rw [Model.findAll?] at his
    cases his
    rw [Term.underAll, Model.findAll?, List.map_eq_nil_iff.mp hjs.symm]
  | u :: rest =>
    rw [Term.leavesAll] at hsub
    rw [Model.findAll?] at his
    simp only [bind, Option.bind_eq_some_iff, pure, Option.some.injEq] at his
    obtain ⟨i, hi, ks, hks, rfl⟩ := his
    obtain ⟨j, js, rfl⟩ : ∃ j js', js = j :: js' := by
      cases js with
      | nil => simp at hjs
      | cons j js => exact ⟨j, js, rfl⟩
    simp only [List.map_cons, List.cons.injEq] at hjs
    have hfirst := h.find?_under hn hx hb u
      (fun s hs => hsub s (List.mem_append_left _ hs)) hi
    have hrest := h.findAll?_underAll hn hx hb rest
      (fun s hs => hsub s (List.mem_append_right _ hs)) hks hjs.2
    rw [Term.underAll, Model.findAll?, hfirst, hjs.1, hrest]
    rfl

end

end Draft

section Searching

variable {r : Rule} {ob : Obligation}

theorem Rule.valueOf_eq_get {b : Binding} {name : Text} (h : b.get name ≠ "") :
    r.valueOf b name = b.get name := by
  unfold valueOf
  exact if_pos (by simpa using mt Text.isEmpty_iff.mp h)

theorem Rule.valueOf_eq_empty {b : Binding} {name : Text} (h : b.get name = "")
    (hroot : ∀ i, r.pattern.rootOf? name = some i → b.get (r.pattern.name i) = "") :
    r.valueOf b name = "" := by
  unfold valueOf
  rw [h]
  cases hi : r.pattern.rootOf? name with
  | none => rfl
  | some i => exact hroot i hi

theorem Rule.extends_of_mem_foldl_narrow (hm : ob.model.Closed)
    (hnames : ob.model.vocabulary.Named) (hv : r.pattern.WellFormed) (ps : List Fact)
    (hps : ∀ p ∈ ps, ∀ s ∈ p.app.places ++ [p.result], s < r.pattern.size) {bs : List Binding}
    (hbs : ∀ b ∈ bs, b.Rooted r.pattern) :
    ∀ b ∈ ps.foldl (r.narrow ob.model) bs, ∃ c ∈ bs, c.Extends b := by
  induction ps generalizing bs with
  | nil => exact fun b hb => ⟨b, hb, .refl b⟩
  | cons p rest ih =>
    have hjoin : ∀ b ∈ r.narrow ob.model bs p, b.Rooted r.pattern ∧ ∃ c ∈ bs, c.Extends b := by
      intro b hb
      unfold narrow at hb
      dsimp only at hb
      split at hb
      · exact ⟨hbs b hb, b, hb, .refl b⟩
      · obtain ⟨c, hc, hext, hrooted, -⟩ := Model.solves_of_mem_join hm hnames hv
          (hps p List.mem_cons_self) hbs hb
        exact ⟨hrooted, c, hc, hext⟩
    intro b hb
    obtain ⟨c, hc, hext⟩ := ih (fun q hq => hps q (List.mem_cons_of_mem _ hq))
      (fun c hc => (hjoin c hc).1) b hb
    obtain ⟨c', hc', hext'⟩ := (hjoin c hc).2
    exact ⟨c', hc', hext'.trans hext⟩

theorem Draft.solves_of_mem_search {d : Draft} (heq : d.equation = false)
    (hne : d.requiredModel.facts ≠ []) (hm : ob.model.Closed)
    (hnames : ob.model.vocabulary.Named)
    (hstart : ∀ b ∈ d.rule.startBindings ob, b.Rooted d.vocabulary) {reach : Reach} {b : Binding}
    (hb : b ∈ d.rule.search ob reach) :
    (∃ c ∈ d.rule.startBindings ob, c.Extends b) ∧
      ∀ p ∈ d.requiredModel.facts, b.Solves d.vocabulary ob.model p := by
  have hkind : ¬ d.rule.searchesByKind = true := mt (Draft.searchesByKind_rule heq).mp hne
  unfold Rule.search at hb
  rw [if_neg hkind] at hb
  obtain ⟨optional, hoptional, hb⟩ := Rule.exists_of_mem_findMatches hb
  have hjoined : ∀ c ∈ d.rule.required.foldl (ob.model.join d.rule.pattern)
      (d.rule.startBindings ob), ∃ a ∈ d.rule.startBindings ob, a.Extends c ∧
        c.Rooted d.vocabulary ∧ ∀ p ∈ d.requiredFacts, c.Solves d.vocabulary ob.model p :=
    fun c hc => Model.solves_of_mem_foldl_join hm hnames d.wellFormed_vocabulary d.requiredFacts
      (fun p hp => Draft.symbols_required_lt hp) hstart hc
  obtain ⟨c, hc, hext⟩ := Rule.extends_of_mem_foldl_narrow (r := d.rule) hm hnames
    d.wellFormed_vocabulary optional (fun p hp => Draft.symbols_optional_lt (hoptional hp))
    (fun c hc => (hjoined c hc).choose_spec.2.2.1) b hb
  obtain ⟨a, ha, hext', -, hsolves⟩ := hjoined c hc
  refine ⟨⟨a, ha, hext'.trans hext⟩, fun p hp => ?_⟩
  exact (hsolves p (Draft.mem_requiredFacts.mpr hp)).extends hext

end Searching

end Discharge.Search
