import Discharge.Proofs.Search.Matches
import Discharge.Proofs.Congruence.Matching
import Discharge.Proofs.Congruence.Representation
import Discharge.Proofs.Term.Meaning

/-!
What the pattern of a rule says. A pattern consists of the facts and classes of a model in which
the required term was assumed, but a match looks at the facts only. It says as much as the
required term as long as no constant has been merged into another symbol: under a binding that
fulfills the facts of such a pattern, the required term is true.
-/

namespace Discharge.Search

open Congruence

universe u

variable {D : Type u} {J : Interpretation D}

namespace Draft

theorem closed_requiredModel (d : Draft) : d.requiredModel.Closed := by
  unfold requiredModel
  split
  · exact Model.closed_empty
  · split
    · exact (Model.closed_assume Model.closed_empty _).1
    · exact (Model.closed_represent Model.closed_empty _).1

theorem closed_model (d : Draft) : d.model.Closed ∧ d.requiredModel.Extends d.model := by
  unfold model
  split
  · obtain ⟨hclosed, hext, -⟩ := Model.closed_represent d.closed_requiredModel d.rest
    exact ⟨hclosed, hext⟩
  · exact ⟨d.closed_requiredModel, .refl _⟩

theorem vocabulary_spec (d : Draft) :
    d.vocabulary.WellFormed ∧ d.model.vocabulary.Grows d.vocabulary := by
  refine List.foldlRecOn (motive := fun v : Vocabulary => v.WellFormed ∧ d.model.vocabulary.Grows v)
    _ _ ⟨d.closed_model.1.filed.vocabulary, .refl _⟩ ?_
  rintro v ⟨h, hgrows⟩ s -
  exact ⟨Vocabulary.wellFormed_add h s.name s.kind .universal,
    hgrows.trans (Vocabulary.grows_add h s.name s.kind .universal)⟩

theorem wellFormed_vocabulary (d : Draft) : d.vocabulary.WellFormed := d.vocabulary_spec.1

theorem grows_vocabulary (d : Draft) : d.requiredModel.vocabulary.Grows d.vocabulary :=
  d.closed_model.2.vocabulary.trans d.vocabulary_spec.2

theorem mem_requiredFacts {d : Draft} {f : Fact} :
    f ∈ d.requiredFacts ↔ f ∈ d.requiredModel.facts := by
  simp [requiredFacts, Fact.byQuantifiers]

theorem requiredFacts_eq_nil {d : Draft} :
    d.requiredFacts = [] ↔ d.requiredModel.facts = [] := by
  simp only [List.eq_nil_iff_forall_not_mem, mem_requiredFacts]

theorem symbols_required_lt {d : Draft} {f : Fact} (hf : f ∈ d.requiredFacts) :
    ∀ s ∈ f.app.places ++ [f.result], s < d.vocabulary.size := by
  intro s hs
  have hlt := d.closed_requiredModel.symbols_fact_lt (mem_requiredFacts.mp hf) s hs
  exact Nat.lt_of_lt_of_le hlt d.grows_vocabulary.size_le

theorem symbols_optional_lt {d : Draft} {f : Fact} (hf : f ∈ d.optionalFacts) :
    ∀ s ∈ f.app.places ++ [f.result], s < d.vocabulary.size := by
  intro s hs
  simp only [optionalFacts, Fact.byQuantifiers, List.mem_mergeSort, List.mem_filter] at hf
  exact Nat.lt_of_lt_of_le (d.closed_model.1.symbols_fact_lt hf.1 s hs)
    d.vocabulary_spec.2.size_le

/-- The variables that have values before any fact is found. -/
def seeds (d : Draft) : List Text :=
  if d.requiredModel.facts.isEmpty then d.vocabulary.universals else [goalName]

/-- A draft whose pattern says as much as its required term. -/
structure Precise (d : Draft) : Prop where
  stated : d.required.isApplication = true ∨ d.required.isTruth = true
  /-- No constant has been merged into another symbol, which would stand for it in the facts. -/
  constant : ∀ i < d.requiredModel.vocabulary.size, d.vocabulary.usage i = .literal →
    d.vocabulary.root i = i
  seed : ∀ name ∈ d.seeds, ∀ i ∈ d.vocabulary.lookup? name,
    d.vocabulary.root i = i ∧ (d.vocabulary.usage i).isVariable = true

instance (d : Draft) : Decidable d.Precise :=
  decidable_of_iff ((d.required.isApplication = true ∨ d.required.isTruth = true) ∧
    (∀ i < d.requiredModel.vocabulary.size, d.vocabulary.usage i = .literal →
      d.vocabulary.root i = i) ∧
    ∀ name ∈ d.seeds, ∀ i ∈ d.vocabulary.lookup? name,
      d.vocabulary.root i = i ∧ (d.vocabulary.usage i).isVariable = true)
    ⟨fun h => ⟨h.1, h.2.1, h.2.2⟩, fun h => ⟨h.stated, h.constant, h.seed⟩⟩

/-- A draft whose pattern finds nothing: it has no facts, and no single variable to try. -/
def Silent (d : Draft) : Prop :=
  d.requiredModel.facts = [] ∧ d.vocabulary.universals.length ≠ 1

instance (d : Draft) : Decidable d.Silent :=
  inferInstanceAs (Decidable (_ ∧ _))

/-- A draft whose rule inserts nothing unless its required term is true. -/
def Faithful (d : Draft) : Prop := d.Silent ∨ d.Precise

instance (d : Draft) : Decidable d.Faithful :=
  inferInstanceAs (Decidable (_ ∨ _))

def WellQuantified (d : Draft) : Prop := (Term.implication d.required d.insert).WellQuantified

def assignment (d : Draft) (b : Binding) (J : Interpretation D) (name : Text) : D :=
  match d.requiredModel.vocabulary.lookup? name with
  | some i => b.assigned d.vocabulary J i
  | none => J.value (if d.insert.vars.any (·.name == name) then d.rule.valueOf b name else name)

/-- The interpretation of a draft's names by a binding. -/
def reading (d : Draft) (b : Binding) (J : Interpretation D) : Interpretation D :=
  ⟨J.apply, d.assignment b J⟩

def Quantifies (d : Draft) (name : Text) : Prop :=
  ∃ s ∈ (Term.implication d.required d.insert).symbols, s.name = name ∧ s.quantifier = .universal

/-- The symbols of a pattern that are no constants were created, or they are quantified. -/
theorem all_requiredModel {d : Draft} (hp : d.required.plain = true) :
    d.requiredModel.vocabulary.All fun e =>
      plainName e.name = true → ¬ d.Quantifies e.name → e.usage = .literal := by
  have hempty : Model.empty.vocabulary.All fun e =>
      plainName e.name = true → ¬ d.Quantifies e.name → e.usage = .literal :=
    Model.all_empty (fun _ _ => rfl) (fun _ _ => rfl)
  have hadmits : Model.Admits (fun e => plainName e.name = true → ¬ d.Quantifies e.name →
      e.usage = .literal) d.required.symbols := by
    refine ⟨?_, ?_⟩
    · intro n k hn
      rw [plainName_createdName] at hn
      contradiction
    · intro s hs applied _ hfree
      have hne : s.quantifier ≠ .universal := fun hu =>
        hfree ⟨s, Term.mem_symbols_implication (.inl hs), rfl, hu⟩
      simp [symbolEntry, Model.usageOf, hne]
  have happlicative := Term.applicative_of_named _ (Term.named_of_plain _ hp)
  unfold requiredModel
  split
  · exact hempty
  · split
    · exact Model.all_assume hempty happlicative hadmits
    · exact Model.all_represent hempty happlicative hadmits

section Reading

variable {d : Draft} {b : Binding}

theorem lookup?_vocabulary {name : Text} {i : Nat}
    (hi : d.requiredModel.vocabulary.lookup? name = some i) :
    i < d.requiredModel.vocabulary.size ∧ d.vocabulary.lookup? name = some i := by
  have hlt := d.closed_requiredModel.filed.vocabulary.lt_of_lookup? hi
  have hname := d.closed_requiredModel.filed.vocabulary.name_of_lookup? hi
  refine ⟨hlt, d.wellFormed_vocabulary.lookup_iff.mpr ⟨?_, ?_⟩⟩
  · exact Nat.lt_of_lt_of_le hlt d.grows_vocabulary.size_le
  · rw [d.grows_vocabulary.name_eq hlt, hname]

theorem Precise.assignment_constant (h : d.Precise) (hp : d.required.plain = true) {name : Text}
    (hn : plainName name = true) (hfree : ¬ d.Quantifies name) :
    d.assignment b J name = J.value name := by
  unfold assignment
  split
  · rename_i i hi
    obtain ⟨hlt, hi'⟩ := lookup?_vocabulary hi
    have hname := d.wellFormed_vocabulary.name_of_lookup? hi'
    have hentry := (d.all_requiredModel hp).entry hlt
    rw [← d.grows_vocabulary.entry_eq hlt] at hentry
    have hu : d.vocabulary.usage i = .literal :=
      hentry (by rw [← hname] at hn; exact hn) (by rw [← hname] at hfree; exact hfree)
    have hroot := h.constant i hlt hu
    rw [Binding.assigned, Vocabulary.rootName, hroot, hu, hname]
    rfl
  · rw [if_neg]
    intro hany
    obtain ⟨v, hv, hvn⟩ := List.any_eq_true.mp hany
    obtain ⟨hmem, huniv⟩ := Term.mem_vars hv
    exact hfree ⟨v, Term.mem_symbols_implication (.inr hmem), eq_of_beq hvn, huniv⟩

theorem WellQuantified.not_quantifies (hq : d.WellQuantified) {s : Symbol}
    (hs : s ∈ d.required.symbols) (hf : s.quantifier ≠ .universal) : ¬ d.Quantifies s.name := by
  rintro ⟨s', hs', hn, hu⟩
  exact hf (hq.uniform s' hs' s (Term.mem_symbols_implication (.inl hs)) hn hu)

theorem Precise.lawful_reading (h : d.Precise) (hq : d.WellQuantified)
    (hp : d.required.plain = true) (hJ : J.Lawful) : (d.reading b J).Lawful := by
  refine hJ.of_value_eq rfl ?_
  intro name hmem
  refine h.assignment_constant hp ?_ ?_
  · revert name
    decide
  · rintro ⟨s, hs, hn, hu⟩
    have hvar := hq.variableName s hs hu
    rw [hn, Text.not_variableName_of_mem hmem] at hvar
    contradiction

theorem value_reading {i : Nat} (hi : i < d.requiredModel.vocabulary.size) :
    d.requiredModel.vocabulary.value (d.reading b J) i = b.assigned d.vocabulary J i := by
  have hv := d.closed_requiredModel.filed.vocabulary
  rw [Vocabulary.value, reading]
  dsimp only
  rw [assignment, hv.lookup?_name hi]

theorem respects_reading : d.requiredModel.vocabulary.Respects (d.reading b J) := by
  refine ⟨?_⟩
  intro i j hi hj hroot
  have hsame := d.grows_vocabulary.root_eq hi hj hroot
  rw [value_reading hi, value_reading hj, Binding.assigned, Binding.assigned,
    Vocabulary.rootName, Vocabulary.rootName, hsame]

theorem reads_reading (hI : (d.reading b J).Lawful)
    (hfull : ∀ p ∈ d.requiredModel.facts, b.Fulfills d.vocabulary J p) :
    d.requiredModel.Reads (d.reading b J) := by
  have hm := d.closed_requiredModel
  have hv := hm.filed.vocabulary
  have hresp := d.respects_reading (b := b) (J := J)
  intro e he
  obtain ⟨i, r, hr, rfl⟩ := Model.exists_record_of_mem_history he
  -- A fact that is not live any more is congruent to one that is, and has its result.
  obtain ⟨j, r', hr', hl, hcong, hres⟩ := hm.covered hr
  have hfact := (hfull _ (Model.mem_facts.mpr ⟨j, r', hr', hl, rfl⟩)).holds
  have hroot : ∀ s < d.requiredModel.vocabulary.size,
      b.assigned d.vocabulary J (d.requiredModel.root s) =
        d.requiredModel.vocabulary.value (d.reading b J) s := by
    intro s hs
    rw [← value_reading (hm.filed.root_lt hs)]
    exact hresp.value_root hv hs
  have hargs : (r'.app.args.map d.requiredModel.root).map (b.assigned d.vocabulary J) =
      r'.app.args.map (d.requiredModel.vocabulary.value (d.reading b J)) := by
    rw [List.map_map]
    refine List.map_congr_left fun s hs => hroot s ?_
    exact hm.filed.symbols_lt hr' s (Record.arg_mem_symbols hs)
  have hlive : d.requiredModel.vocabulary.value (d.reading b J) r'.result =
      r'.app.value d.requiredModel.vocabulary (d.reading b J) := by
    have hop := hroot _ (hm.filed.op_lt hr')
    rw [hroot _ (hm.filed.result_lt hr')] at hfact
    rw [hfact, Application.value, ← hargs, ← hop]
    rfl
  rw [hresp.value_eq (hm.filed.result_lt hr) (hm.filed.result_lt hr') hres, hlive]
  exact (hcong.value_eq hI hresp hv (hm.filed.places_lt hr) (hm.filed.places_lt hr')).symm

/-- Under a binding that fulfills the facts of a precise pattern the required term is true. -/
theorem Precise.denote_required (h : d.Precise) (hq : d.WellQuantified)
    (hp : d.required.plain = true) (htrue : d.asTrue = true) (hJ : J.Lawful)
    (hfull : ∀ p ∈ d.requiredModel.facts, b.Fulfills d.vocabulary J p) :
    J.denote (d.assignment b J) d.required = J.truth := by
  have hlaw := h.lawful_reading (b := b) hq hp hJ
  have hread : (d.reading b J).read d.required = (d.reading b J).truth := by
    rcases h.stated with happ | ht
    · -- The model of the pattern assumes the term, so the term is true where it is satisfied.
      have hmodel : d.requiredModel = (Model.empty.assume d.required).2 := by
        simp [requiredModel, happ, htrue]
      have hsat : (Model.empty.assume d.required).2.Satisfied (d.reading b J) := by
        rw [← hmodel]
        exact ⟨respects_reading, reads_reading hlaw hfull⟩
      exact hsat.read_of_assume Model.closed_empty hlaw hp
    · obtain ⟨s, hs⟩ : ∃ s, d.required = .symbol s := by
        cases hr : d.required with
        | symbol s => exact ⟨s, rfl⟩
        | apply fn args k => simp [hr, Term.isTruth] at ht
        | lambda params body k => simp [hr, Term.isTruth] at ht
        | cases branches otherwise k => simp [hr, Term.isTruth] at ht
      simp only [hs, Term.isTruth, Bool.and_eq_true, beq_iff_eq] at ht
      rw [hs, Interpretation.read_symbol, ht.1]
      rfl
  have htruth : (d.reading b J).truth = J.truth := by
    refine h.assignment_constant hp (by decide) ?_
    rintro ⟨s, hs, hn, hu⟩
    have hvar := hq.variableName s hs hu
    rw [hn] at hvar
    exact absurd hvar (by decide)
  rw [← htruth, ← hread]
  symm
  refine Interpretation.denote_congr (I := J) (J := d.reading b J) (σ := d.assignment b J)
    (τ := (d.reading b J).value) d.required (Term.named_of_plain _ hp) rfl ?_ ?_
  · intro s hs hf
    exact h.assignment_constant hp (Term.plainName_of_mem_symbols _ hp hs)
      (hq.not_quantifies hs hf)
  · intro s _ _
    rfl

theorem assignment_insert (hb : b.Rooted d.vocabulary) {w : Symbol} (hw : w ∈ d.insert.vars)
    (hval : d.rule.valueOf b w.name ≠ "") :
    d.assignment b J w.name = J.value (d.rule.valueOf b w.name) := by
  have hv := d.wellFormed_vocabulary
  unfold assignment
  split
  · rename_i i hi
    obtain ⟨hlt, hi'⟩ := lookup?_vocabulary hi
    unfold Rule.valueOf at hval ⊢
    dsimp only at hval ⊢
    split at hval
    · -- The variable has a value of its own, which only the root of a class can have.
      rename_i hown
      rw [if_pos hown]
      obtain ⟨j, hj, hjn, hroot, hu⟩ := hb w.name hval
      have hij : i = j := by
        rw [← hjn, hv.lookup?_name hj] at hi'
        exact (Option.some.inj hi').symm
      rw [hij, Binding.assigned, Vocabulary.rootName, hroot, if_pos hu, hjn]
    · rename_i hown
      rw [if_neg hown]
      have hroot : d.rule.pattern.rootOf? w.name = some (d.vocabulary.root i) := by
        change d.vocabulary.rootOf? w.name = _
        rw [Vocabulary.rootOf?, hi']
        rfl
      rw [hroot] at hval ⊢
      obtain ⟨j, hj, hjn, -, hu⟩ := hb _ hval
      have hij : j = d.vocabulary.root i :=
        hv.eq_of_name_eq hj (hv.root_lt (hv.lt_of_lookup? hi')) hjn
      rw [hij] at hu
      rw [Binding.assigned, if_pos hu]
      rfl
  · rw [if_pos]
    exact List.any_eq_true.mpr ⟨w, hw, beq_self_eq_true _⟩

end Reading

end Draft

end Discharge.Search
