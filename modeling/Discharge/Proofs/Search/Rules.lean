import Discharge.Proofs.Search.Patterns
import Discharge.Proofs.Search.RuleForms

/-!
Rules are sound. What a rule inserts under a binding that it found is true wherever the model is
satisfied: an instance of the theorem, or the conclusion of an implication whose premise the pattern
found, or that a goal which is the conclusion is no weaker than the premise.
-/

namespace Discharge.Search

open Congruence

universe u

variable {D : Type u} {I J : Interpretation D}

namespace Rule

variable {r : Rule} {ob : Obligation}

theorem rooted_unbound (names : List Text) (v : Vocabulary) :
    (Binding.unbound names).Rooted v := by
  intro name hn
  exact (hn (Binding.get_unbound names name)).elim

theorem mem_foldl_narrow (hs : ob.model.Satisfied J) (hJ : J.Lawful) (hm : ob.model.Closed)
    (hnames : ob.model.vocabulary.Named) (hv : r.pattern.WellFormed) (ps : List Fact)
    (hps : ∀ p ∈ ps, ∀ s ∈ p.app.places ++ [p.result], s < r.pattern.size) {bs : List Binding}
    {required : List Fact} (hbs : ∀ b ∈ bs, b.Rooted r.pattern ∧
      ∀ p ∈ required, b.Fulfills r.pattern J p) :
    ∀ b ∈ ps.foldl (r.narrow ob.model) bs, b.Rooted r.pattern ∧
      ∀ p ∈ required, b.Fulfills r.pattern J p := by
  induction ps generalizing bs with
  | nil => exact hbs
  | cons p rest ih =>
    refine ih (fun q hq => hps q (List.mem_cons_of_mem _ hq)) ?_
    intro b hb
    unfold narrow at hb
    dsimp only at hb
    split at hb
    · exact hbs b hb
    · obtain ⟨c, hc, hext, hrooted, -⟩ := Model.mem_join hs hJ hm hnames hv
        (hps p List.mem_cons_self) (fun c hc => (hbs c hc).1) hb
      exact ⟨hrooted, fun q hq => ((hbs c hc).2 q hq).extends hext⟩

end Rule

namespace Draft

variable {d : Draft} {ob : Obligation}

theorem Precise.rooted_seed (h : d.Precise) {name : Text} (hn : name ∈ d.seeds) {i : Nat}
    (hi : d.vocabulary.lookup? name = some i) (names : List Text) (value : Text) :
    ((Binding.unbound names).set name value).Rooted d.vocabulary := by
  have hv := d.wellFormed_vocabulary
  obtain ⟨hroot, hu⟩ := h.seed name hn i hi
  rw [← hv.name_of_lookup? hi]
  exact (Rule.rooted_unbound names d.vocabulary).set (hv.lt_of_lookup? hi) hroot hu value

theorem Precise.rooted_startBindings (h : d.Precise) (hne : d.requiredModel.facts ≠ []) :
    ∀ b ∈ d.rule.startBindings ob, b.Rooted d.vocabulary := by
  intro b hb
  unfold Rule.startBindings at hb
  dsimp only at hb
  split at hb
  · rename_i hc
    obtain ⟨g, -, rfl⟩ := List.mem_map.mp hb
    obtain ⟨i, hi⟩ := Vocabulary.exists_lookup?_of_contains d.wellFormed_vocabulary hc
    have hseed : goalName ∈ d.seeds := by
      simp [seeds, hne]
    exact h.rooted_seed hseed (d.wellFormed_vocabulary.lookup_iff.mpr hi) _ _
  · rw [List.mem_singleton.mp hb]
    exact Rule.rooted_unbound _ _

theorem Precise.rooted_findByKind (h : d.Precise) (he : d.requiredModel.facts = []) :
    ∀ b ∈ d.rule.findByKind ob, b.Rooted d.vocabulary := by
  intro b hb
  unfold Rule.findByKind at hb
  split at hb
  · rename_i wild hwild
    obtain ⟨actual, -, rfl⟩ := List.mem_map.mp hb
    have hmem : wild ∈ d.vocabulary.universals := by
      change wild ∈ d.rule.pattern.universals
      rw [hwild]
      exact List.mem_singleton_self _
    obtain ⟨i, hi⟩ := Vocabulary.exists_lookup?_of_mem_namesWhere d.wellFormed_vocabulary hmem
    exact h.rooted_seed (by simp [seeds, he, hmem]) hi _ _
  · simp at hb

theorem searchesByKind_rule (heq : d.equation = false) :
    d.rule.searchesByKind = true ↔ d.requiredModel.facts = [] := by
  rw [← requiredFacts_eq_nil, Rule.searchesByKind]
  change (d.requiredFacts.isEmpty || (d.allowNew && d.equation && _)) = true ↔ _
  simp [heq]

/-- Whatever the rule of a precise draft finds fulfills the facts of its pattern. -/
theorem Precise.mem_search (h : d.Precise) (heq : d.equation = false)
    (hs : ob.model.Satisfied J) (hJ : J.Lawful) (hm : ob.model.Closed)
    (hnames : ob.model.vocabulary.Named) {reach : Reach} {b : Binding}
    (hb : b ∈ d.rule.search ob reach) :
    b.Rooted d.vocabulary ∧ ∀ p ∈ d.requiredModel.facts, b.Fulfills d.vocabulary J p := by
  unfold Rule.search at hb
  split at hb
  · rename_i hkind
    have he := (searchesByKind_rule heq).mp hkind
    exact ⟨h.rooted_findByKind he b hb, by simp [he]⟩
  · rename_i hkind
    have hne : d.requiredModel.facts ≠ [] := fun he => hkind ((searchesByKind_rule heq).mpr he)
    obtain ⟨optional, hoptional, hb⟩ := Rule.exists_of_mem_findMatches hb
    refine Rule.mem_foldl_narrow (r := d.rule) hs hJ hm hnames d.wellFormed_vocabulary
      optional (fun p hp => symbols_optional_lt (hoptional hp)) ?_ b hb
    intro c hc
    obtain ⟨-, -, -, hrooted, hfull⟩ := Model.mem_foldl_join hs hJ hm hnames
      d.wellFormed_vocabulary d.requiredFacts (fun p hp => symbols_required_lt hp)
      (h.rooted_startBindings hne) hc
    exact ⟨hrooted, fun p hp => hfull p (mem_requiredFacts.mpr hp)⟩

theorem Silent.search_eq_nil (h : d.Silent) (heq : d.equation = false) (reach : Reach) :
    d.rule.search ob reach = [] := by
  rw [Rule.search, if_pos ((searchesByKind_rule heq).mpr h.1), Rule.findByKind]
  split
  · rename_i wild hwild
    refine (h.2 ?_).elim
    change d.rule.pattern.universals.length = 1
    rw [hwild]
    rfl
  · rfl

/-- The values that a found binding gives make the required term of a faithful draft true. -/
theorem Faithful.exists_assignment (h : d.Faithful) (hq : d.WellQuantified)
    (hp : d.required.plain = true) (htrue : d.asTrue = true) (heq : d.equation = false)
    (hs : ob.model.Satisfied J) (hJ : J.Lawful) (hm : ob.model.Closed)
    (hnames : ob.model.vocabulary.Named) {reach : Reach} {b : Binding}
    (hb : b ∈ d.rule.search ob reach) (hbind : d.rule.bindsInsert b = true) :
    ∃ σ : Text → D, J.denote σ d.required = J.truth ∧
      ∀ w ∈ d.insert.vars, σ w.name = J.value (d.rule.valueOf b w.name) := by
  rcases h with h | h
  · rw [h.search_eq_nil heq] at hb
    simp at hb
  · obtain ⟨hrooted, hfull⟩ := h.mem_search heq hs hJ hm hnames hb
    refine ⟨d.assignment b J, h.denote_required hq hp htrue hJ hfull, ?_⟩
    intro w hw
    refine assignment_insert hrooted hw ?_
    have hval := List.all_eq_true.mp hbind w hw
    intro hempty
    rw [hempty] at hval
    exact absurd hval (by decide)

end Draft

/-- Whether the inserted term is true under a binding wherever the model is satisfied. -/
def Rule.Licensed (r : Rule) (I : Interpretation D) (m : Model) (b : Binding) : Prop :=
  ∀ J, I.Variant J → m.Satisfied J →
    J.denote (fun name => J.value (r.valueOf b name)) r.insert = J.truth

/-- A rule that inserts only what is true in an interpretation. -/
structure Rule.Sound (r : Rule) (I : Interpretation D) : Prop where
  plain : r.insert.plain = true
  wellQuantified : r.insert.WellQuantified
  ground : r.isGround = true → I.read r.insert = I.truth
  licensed : ∀ (ob : Obligation) (reach : Reach) (b : Binding), ob.model.Closed →
    ob.model.vocabulary.Named → b ∈ r.search ob reach → r.bindsInsert b = true →
    r.Licensed I ob.model b

/-- The draft of the rule that finds the premise of an implication and inserts its conclusion. -/
def forwardDraft (assertion premise conclusion : Term) : Draft :=
  ⟨"", assertion, premise, conclusion, conclusion, true, false, false⟩

def goalDraft (assertion premise conclusion : Term) : Draft :=
  let goal := Term.universal goalName .boolean
  let insert := Term.equal (.disj premise goal) goal
  ⟨"", assertion, .equal conclusion goal, insert, insert, true, false, false⟩

/-- A theorem that can be trusted: it is a term as formulas are read, and if it is an implication,
the patterns that are made of its premise and of its conclusion say as much as these. -/
structure Trusted (assertion : Term) : Prop where
  plain : assertion.plain = true
  wellQuantified : assertion.WellQuantified
  faithful : assertion.vars ≠ [] → assertion.operator? = some ("implies" : Text) →
    ∀ sides ∈ assertion.sides?,
      (∀ s ∈ assertion.symbols, s.name = goalName → s.quantifier = .universal) ∧
      (forwardDraft assertion sides.1 sides.2).Faithful ∧
      (goalDraft assertion sides.1 sides.2).Faithful

instance (assertion : Term) : Decidable (Trusted assertion) :=
  decidable_of_iff (assertion.plain = true ∧ assertion.WellQuantified ∧ (assertion.vars ≠ [] →
    assertion.operator? = some ("implies" : Text) → ∀ sides ∈ assertion.sides?,
      (∀ s ∈ assertion.symbols, s.name = goalName → s.quantifier = .universal) ∧
      (forwardDraft assertion sides.1 sides.2).Faithful ∧
      (goalDraft assertion sides.1 sides.2).Faithful))
    ⟨fun h => ⟨h.1, h.2.1, h.2.2⟩, fun h => ⟨h.plain, h.wellQuantified, h.faithful⟩⟩

-- The pattern of this premise has no trace of `p`, which was merged into `true`.
example : ¬ Trusted (.implication
    (.conj (.symbol ⟨"p", .boolean, .free⟩) (.call "f" .boolean [.universal "x" .integer]))
    (.call "g" .boolean [.universal "x" .integer])) := by
  decide +kernel

theorem sound_whole {r : Rule} {A : Term} (hr : r.insert = A) (hA : Trusted A) (hT : I.Holds A) :
    r.Sound I := by
  subst hr
  refine ⟨hA.plain, hA.wellQuantified, fun _ => hT _, ?_⟩
  intro ob reach b _ _ _ _ J hJ _
  rw [hJ.denote_eq hA.plain, hT, hJ.truth_eq]

section Implication

variable {A premise conclusion : Term}

theorem eq_apply_of_sides? (hs : A.sides? = some (premise, conclusion)) :
    ∃ fn k, A = .apply fn [premise, conclusion] k := by
  unfold Term.sides? at hs
  split at hs
  · cases hs
    exact ⟨_, _, rfl⟩
  · cases hs

theorem eq_apply_of_implication (hq : A.WellQuantified)
    (hop : A.operator? = some ("implies" : Text)) : ∃ fn args k, A = .apply fn args k ∧
      ∀ σ : Text → D, I.denote σ fn = I.value "implies" := by
  cases A with
  | apply fn args k =>
    refine ⟨fn, args, k, rfl, fun σ => ?_⟩
    cases fn with
    | symbol s =>
      have hname : s.name = "implies" := by simpa [Term.operator?] using hop
      have hfree : s.quantifier ≠ .universal := by
        intro hu
        have hvar := hq.variableName s (by simp [Term.symbols]) hu
        rw [hname] at hvar
        exact absurd hvar (by decide)
      rw [Interpretation.denote, if_neg hfree, hname]
    | apply | lambda | cases => simp [Term.operator?] at hop
  | symbol | lambda | cases => simp [Term.operator?] at hop

theorem implication_value (hq : A.WellQuantified) (hop : A.operator? = some ("implies" : Text))
    (hs : A.sides? = some (premise, conclusion)) (σ : Text → D) :
    I.denote σ A =
      I.apply (I.value "implies") [I.denote σ premise, I.denote σ conclusion] := by
  obtain ⟨fn, args, k, rfl, hfn⟩ := eq_apply_of_implication (I := I) hq hop
  obtain ⟨fn', k', hA⟩ := eq_apply_of_sides? hs
  cases hA
  rw [Interpretation.denote, hfn, Interpretation.denoteAll_eq_map]
  rfl

theorem mem_symbols_of_sides? (hs : A.sides? = some (premise, conclusion)) {s : Symbol}
    (h : s ∈ premise.symbols ∨ s ∈ conclusion.symbols) : s ∈ A.symbols := by
  obtain ⟨fn, k, rfl⟩ := eq_apply_of_sides? hs
  rw [Term.symbols_apply]
  rcases h with h | h
  · simp [h]
  · simp [h]

theorem plain_of_sides? (hs : A.sides? = some (premise, conclusion)) (hp : A.plain = true) :
    premise.plain = true ∧ conclusion.plain = true := by
  obtain ⟨fn, k, rfl⟩ := eq_apply_of_sides? hs
  obtain ⟨-, hargs, -⟩ := Term.plain_apply_iff.mp hp
  exact ⟨hargs premise (by simp), hargs conclusion (by simp)⟩

def addedSymbols : List Symbol :=
  [⟨"implies", .boolean, .free⟩, ⟨"=", .boolean, .free⟩, ⟨"or", .boolean, .free⟩,
    ⟨goalName, .boolean, .universal⟩]

theorem universal_iff_of_added : ∀ s ∈ addedSymbols,
    s.quantifier = .universal ↔ s.name = goalName := by decide

theorem variableName_of_added : ∀ s ∈ addedSymbols,
    variableName s.name = decide (s.quantifier = .universal) := by decide

theorem wellQuantified_of_symbols {t : Term} (hq : A.WellQuantified)
    (hgoal : ∀ s ∈ A.symbols, s.name = goalName → s.quantifier = .universal)
    (h : ∀ s ∈ t.symbols, s ∈ A.symbols ∨ s ∈ addedSymbols) : t.WellQuantified := by
  refine ⟨?_, ?_⟩
  · intro s hs s' hs' hn hu
    rcases h s hs with hs | hs
    · rcases h s' hs' with hs' | hs'
      · exact hq.uniform s hs s' hs' hn hu
      · have hvar := hq.variableName s hs hu
        rw [hn, variableName_of_added s' hs'] at hvar
        exact of_decide_eq_true hvar
    · have hg := (universal_iff_of_added s hs).mp hu
      rcases h s' hs' with hs' | hs'
      · exact hgoal s' hs' (hn.symm.trans hg)
      · exact (universal_iff_of_added s' hs').mpr (hn.symm.trans hg)
  · intro s hs hu
    rcases h s hs with hs | hs
    · exact hq.variableName s hs hu
    · rw [variableName_of_added s hs]
      exact decide_eq_true hu

theorem wellQuantified_forward (hq : A.WellQuantified)
    (hgoal : ∀ s ∈ A.symbols, s.name = goalName → s.quantifier = .universal)
    (hs : A.sides? = some (premise, conclusion)) :
    (forwardDraft A premise conclusion).WellQuantified := by
  refine wellQuantified_of_symbols hq hgoal ?_
  intro s hmem
  simp only [forwardDraft, Term.implication, Term.symbols_call, List.flatMap_cons,
    List.flatMap_nil, List.append_nil, List.mem_cons, List.mem_append] at hmem
  rcases hmem with rfl | h | h
  · exact .inr (by simp [addedSymbols])
  · exact .inl (mem_symbols_of_sides? hs (.inl h))
  · exact .inl (mem_symbols_of_sides? hs (.inr h))

theorem wellQuantified_goal (hq : A.WellQuantified)
    (hgoal : ∀ s ∈ A.symbols, s.name = goalName → s.quantifier = .universal)
    (hs : A.sides? = some (premise, conclusion)) :
    (goalDraft A premise conclusion).WellQuantified := by
  refine wellQuantified_of_symbols hq hgoal ?_
  intro s hmem
  have hgoals : (Term.universal goalName .boolean).symbols =
      [⟨goalName, .boolean, .universal⟩] := rfl
  simp only [goalDraft, Term.implication, Term.equal, Term.disj, Term.symbols_call, hgoals,
    List.flatMap_cons, List.flatMap_nil, List.append_nil, List.mem_cons, List.mem_append,
    List.not_mem_nil, or_false] at hmem
  rcases hmem with rfl | (rfl | h | rfl) | rfl | (rfl | h | rfl) | rfl
  · exact .inr (by simp [addedSymbols])
  · exact .inr (by simp [addedSymbols])
  · exact .inl (mem_symbols_of_sides? hs (.inr h))
  · exact .inr (by simp [addedSymbols])
  · exact .inr (by simp [addedSymbols])
  · exact .inr (by simp [addedSymbols])
  · exact .inl (mem_symbols_of_sides? hs (.inl h))
  · exact .inr (by simp [addedSymbols])
  · exact .inr (by simp [addedSymbols])

theorem Draft.Faithful.relabel {d : Draft} (h : d.Faithful) (name : Text) (allowNew : Bool) :
    Draft.Faithful { d with name, allowNew } := by
  rcases h with h | h
  · exact .inl h
  · exact .inr ⟨h.stated, h.constant, h.seed⟩

theorem sound_of_draft {d : Draft} (hp : d.required.plain = true) (hinsert : d.insert.plain = true)
    (hq : d.WellQuantified) (hd : d.Faithful) (htrue : d.asTrue = true) (heq : d.equation = false)
    (hvars : d.entire.vars ≠ []) (hI : I.Lawful)
    (hentails : ∀ J σ, I.Variant J → J.denote σ d.required = J.truth →
      J.denote σ d.insert = J.truth) : d.rule.Sound I := by
  have hsub : d.insert.WellQuantified :=
    ⟨fun s hs s' hs' => hq.uniform s (Term.mem_symbols_implication (.inr hs)) s'
        (Term.mem_symbols_implication (.inr hs')),
      fun s hs => hq.variableName s (Term.mem_symbols_implication (.inr hs))⟩
  refine ⟨hinsert, hsub, ?_, ?_⟩
  · intro hground
    exact (hvars (List.isEmpty_iff.mp hground)).elim
  · intro ob reach b hm hnames hb hbind J hJ hs
    obtain ⟨σ, hrequired, hσ⟩ := hd.exists_assignment hq hp htrue heq hs (hJ.lawful hI) hm hnames
      hb hbind
    rw [← hentails J σ hJ hrequired]
    exact Term.denote_congr_vars (Term.named_of_plain _ hinsert) fun w hw => (hσ w hw).symm

theorem sound_forward (hI : I.Lawful) (hA : Trusted A) (hT : I.Holds A) (hvars : A.vars ≠ [])
    (hop : A.operator? = some ("implies" : Text)) (hs : A.sides? = some (premise, conclusion))
    (name : Text) (allowNew : Bool) :
    (Draft.mk name A premise conclusion conclusion true allowNew false).rule.Sound I := by
  obtain ⟨hgoal, hfaithful, -⟩ := hA.faithful hvars hop (premise, conclusion) hs
  obtain ⟨hpremise, hconclusion⟩ := plain_of_sides? hs hA.plain
  refine sound_of_draft hpremise hconclusion (wellQuantified_forward hA.wellQuantified hgoal hs)
    (hfaithful.relabel name allowNew) rfl rfl hvars hI ?_
  intro J σ hJ hrequired
  have hvalue := implication_value (I := J) hA.wellQuantified hop hs σ
  rw [hJ.denote_eq hA.plain, hT, ← hJ.truth_eq, hrequired] at hvalue
  exact (hJ.lawful hI).detached _ hvalue.symm

theorem disjunction_of_implication (hI : I.Lawful) {a b : D}
    (himp : I.apply (I.value "implies") [a, b] = I.truth) (ha : a = I.truth ∨ a = I.falsehood)
    (hb : b = I.truth ∨ b = I.falsehood) : I.apply (I.value "or") [a, b] = b := by
  rcases hb with rfl | rfl
  · exact hI.disjunct _ (by simp)
  · rcases ha with rfl | rfl
    · rw [hI.detached _ himp]
      exact hI.disjunct _ (by simp)
    · exact hI.disjuncts _ (by simp) (by simp)

theorem sound_goal (hI : I.Lawful) (hA : Trusted A) (hT : I.Holds A) (hvars : A.vars ≠ [])
    (hop : A.operator? = some ("implies" : Text)) (hs : A.sides? = some (premise, conclusion))
    (hdecides : I.Decides premise ∧ I.Decides conclusion) (name : Text) (allowNew : Bool) :
    (goalRule name A premise conclusion allowNew).Sound I := by
  obtain ⟨hgoal, -, hfaithful⟩ := hA.faithful hvars hop (premise, conclusion) hs
  obtain ⟨hpremise, hconclusion⟩ := plain_of_sides? hs hA.plain
  have hplain : (Term.universal goalName .boolean).plain = true := by decide
  refine sound_of_draft (d := ⟨name, A, _, _, _, true, allowNew, false⟩) ?_ ?_
    (wellQuantified_goal hA.wellQuantified hgoal hs) (hfaithful.relabel name allowNew) rfl rfl
    hvars hI ?_
  · exact Term.plain_call (by decide) (by simp) (by simp [hconclusion, hplain])
  · have hdisj : (Term.disj premise (Term.universal goalName .boolean)).plain = true :=
      Term.plain_call (by decide) (by simp) (by simp [hpremise, hplain])
    exact Term.plain_call (by decide) (by simp) (by simp [hdisj, hplain])
  · intro J σ hJ hrequired
    have hJl := hJ.lawful hI
    have hvalue := implication_value (I := J) hA.wellQuantified hop hs σ
    rw [hJ.denote_eq hA.plain, hT, ← hJ.truth_eq] at hvalue
    rw [Interpretation.denote_equal, hJl.equal] at hrequired
    rw [Interpretation.denote_equal, hJl.equal, Interpretation.denote_disj, ← hrequired]
    refine disjunction_of_implication hJl hvalue.symm ?_ ?_
    · rw [hJ.denote_eq hpremise, hJ.truth_eq, hJ.falsehood_eq]
      exact hdecides.1 σ
    · rw [hJ.denote_eq hconclusion, hJ.truth_eq, hJ.falsehood_eq]
      exact hdecides.2 σ

/-- All rules of a theorem that can be trusted and holds are sound. -/
theorem sound_rulesOf (hI : I.Lawful) (hA : Trusted A) (hT : I.Holds A)
    (hdecides : A.operator? = some ("implies" : Text) → ∀ a ∈ A.arguments, I.Decides a)
    {name : Text} {allowNew : Bool} {rules : List Rule} (h : rulesOf name A allowNew = .ok rules) :
    ∀ r ∈ rules, r.Sound I := by
  intro r hr
  cases stems_of_rulesOf h hr with
  | whole => exact sound_whole rfl hA hT
  | equation => exact sound_whole rfl hA hT
  | @backward premise conclusion hvars hop hs =>
    have hmem : premise ∈ A.arguments ∧ conclusion ∈ A.arguments := by
      obtain ⟨fn, k, rfl⟩ := eq_apply_of_sides? hs
      simp [Term.arguments]
    exact sound_goal hI hA hT hvars hop hs ⟨hdecides hop _ hmem.1, hdecides hop _ hmem.2⟩ _ _
  | forward hvars hop hs => exact sound_forward hI hA hT hvars hop hs _ _

end Implication

end Discharge.Search
