import Discharge.Proofs.Search.Intactness

namespace Discharge.Search

open Congruence

variable {name : Text} {A P Q : Term} {allowNew : Bool} {b : Binding} {n : Model}
  {ob : Obligation}

/-- The draft of the rule that works backwards from the conclusion of an implication. -/
def backwardDraft (name : Text) (A P Q : Term) (allowNew : Bool) : Draft :=
  { goalDraft A P Q with name, allowNew }

theorem requiredModel_backwardDraft : (backwardDraft name A P Q allowNew).requiredModel =
    (Model.empty.assume (.equal Q (.symbol goalSymbol))).2 := rfl

theorem Draft.Intact.relabel {t : Term} (h : (goalDraft A P Q).Intact t) (name : Text)
    (allowNew : Bool) : (backwardDraft name A P Q allowNew).Intact t :=
  ⟨h.goal, h.leaves, h.exchanges⟩

/-- In an intact pattern the conclusion is found in the class of the goal. -/
theorem exists_find?_conclusion (h : (backwardDraft name A P Q allowNew).Intact Q) :
    ∃ r, (backwardDraft name A P Q allowNew).requiredModel.find? Q = some r ∧
      (backwardDraft name A P Q allowNew).requiredModel.find? (.symbol goalSymbol) = some r := by
  have hassert := Model.advances_assert (.equal Q (.symbol goalSymbol)) Model.closed_empty.filed
  have hlater := (Model.propagate_spec hassert.filed).2.2.extends
  have hop : (Term.equal Q (.symbol goalSymbol)).operator? ≠ some ("and" : Text) := by
    change some ("=" : Text) ≠ some ("and" : Text)
    decide
  exact (Model.holdsPart_of_assert Model.closed_empty.filed
    (backwardDraft name A P Q allowNew).closed_requiredModel h.keepsExchanges hop
    hlater).equation rfl

theorem facts_ne_nil (h : (backwardDraft name A P Q allowNew).Intact Q) {fn : Term}
    {args : List Term} {k : Kind} (hQ : Q = .apply fn args k) :
    (backwardDraft name A P Q allowNew).requiredModel.facts ≠ [] := by
  obtain ⟨r, hr, -⟩ := exists_find?_conclusion h
  have hm := (backwardDraft name A P Q allowNew).closed_requiredModel
  subst hQ
  rw [Model.find?_apply_eq hm] at hr
  simp only [Option.bind_eq_some_iff] at hr
  obtain ⟨op, -, is, -, hres⟩ := hr
  obtain ⟨f, hf, -⟩ := hm.exists_fact hres
  exact List.ne_nil_of_mem hf

theorem exists_goal_of_mem_startBindings (h : (backwardDraft name A P Q allowNew).Intact Q)
    (hb : b ∈ (backwardDraft name A P Q allowNew).rule.startBindings ob) :
    b.Rooted (backwardDraft name A P Q allowNew).vocabulary ∧ b.get goalName ∈ ob.openGoals := by
  obtain ⟨r, -, hr⟩ := exists_find?_conclusion h
  obtain ⟨j, hj, -⟩ := Option.map_eq_some_iff.mp hr
  obtain ⟨-, hj⟩ := Draft.lookup?_vocabulary hj
  have hv := (backwardDraft name A P Q allowNew).wellFormed_vocabulary
  have hname := hv.name_of_lookup? hj
  obtain ⟨hroot, hvar⟩ := h.goal j hj
  have hcontains : (backwardDraft name A P Q allowNew).rule.pattern.contains goalName = true := by
    change Std.TreeMap.contains _ _ = true
    rw [Std.TreeMap.contains_eq_isSome_getElem?]
    exact Option.isSome_iff_exists.mpr ⟨j, hj⟩
  unfold Rule.startBindings at hb
  rw [if_pos hcontains] at hb
  obtain ⟨g, hg, rfl⟩ := List.mem_map.mp hb
  refine ⟨?_, ?_⟩
  · rw [show goalName = _ from hname.symm]
    exact (Rule.rooted_unbound _ _).set (hv.lt_of_lookup? hj) hroot (hvar.trans rfl) g
  · rw [Binding.get_set, if_pos rfl]
    exact hg

theorem answers_of_mem_search (h : (backwardDraft name A P Q allowNew).Intact Q) {fn : Term}
    {args : List Term} {k : Kind} (hQ : Q = .apply fn args k) (hm : ob.model.Closed)
    (hnames : ob.model.vocabulary.Named) {reach : Reach}
    (hb : b ∈ (backwardDraft name A P Q allowNew).rule.search ob reach) :
    b.get goalName ∈ ob.openGoals ∧
      ∀ p ∈ (backwardDraft name A P Q allowNew).requiredModel.facts,
        b.Solves (backwardDraft name A P Q allowNew).vocabulary ob.model p := by
  have hstart := fun c (hc : c ∈ (backwardDraft name A P Q allowNew).rule.startBindings ob) =>
    exists_goal_of_mem_startBindings h hc
  obtain ⟨⟨c, hc, hext⟩, hsolves⟩ := Draft.solves_of_mem_search rfl (facts_ne_nil h hQ) hm hnames
    (fun c hc => (hstart c hc).1) hb
  obtain ⟨-, hgoal⟩ := hstart c hc
  refine ⟨?_, hsolves⟩
  rw [hext goalName]
  · exact hgoal
  · obtain ⟨i, hi, -, hname⟩ := Rule.isRootName_of_mem_openGoals hm hgoal
    rw [← hname]
    exact hnames.name_ne hi

/-- A draft without facts whose goal has given way to an older symbol. -/
structure Draft.Yields (d : Draft) (s : Symbol) : Prop where
  facts_eq : d.requiredModel.facts = []
  goal_mem : goalName ∈ d.vocabulary.universals
  rootName_ne : ∀ i < d.vocabulary.size, d.vocabulary.rootName i ≠ goalName
  symbol_mem : s.quantifier = .universal → variableName s.name = true →
    s.name ∈ d.vocabulary.universals

theorem entry_addSymbol_empty (s : Symbol) {i : Nat} {m : Model}
    (h : Model.empty.addSymbol s.name s.kind (Model.usageOf s false) = (i, m)) :
    m.vocabulary.name i = s.name ∧ m.vocabulary.usage i ≠ .created ∧
      (s.quantifier = .universal → variableName s.name = true →
        m.vocabulary.usage i = .universal) := by
  obtain ⟨rfl, rfl⟩ := Prod.mk.inj h
  refine ⟨Vocabulary.name_add_fst Vocabulary.wellFormed_initial _ _ _, ?_⟩
  change (Vocabulary.initial.add _ _ _).2.usage (Vocabulary.initial.add _ _ _).1 ≠ _ ∧
    (_ → _ → (Vocabulary.initial.add _ _ _).2.usage (Vocabulary.initial.add _ _ _).1 = _)
  cases hl : Vocabulary.initial.lookup? s.name with
  | none =>
    rw [Vocabulary.add_fst_of_none hl, Vocabulary.usage, Vocabulary.entry_add_of_none hl]
    refine ⟨Model.usageOf_ne_created s false, fun hu _ => ?_⟩
    simp [Model.usageOf, hu]
  | some i =>
    -- The symbol is one of the truth values.
    rw [Vocabulary.add_of_some hl]
    rw [Vocabulary.initial_lookup?] at hl
    dsimp only
    split at hl
    · rename_i hname
      cases hl
      rw [← hname]
      exact ⟨by decide +kernel, fun _ hvar => absurd hvar (by decide)⟩
    · split at hl
      · rename_i hname
        cases hl
        rw [← hname]
        exact ⟨by decide +kernel, fun _ hvar => absurd hvar (by decide)⟩
      · cases hl

theorem lookup?_goal_addSymbol_empty {s : Symbol} (hs : s.name ≠ goalName) {i : Nat} {m : Model}
    (h : Model.empty.addSymbol s.name s.kind (Model.usageOf s false) = (i, m)) :
    m.vocabulary.lookup? goalName = none := by
  obtain ⟨rfl, rfl⟩ := Prod.mk.inj h
  have hinitial : Vocabulary.initial.lookup? goalName = none := by
    rw [Vocabulary.initial_lookup?]
    decide
  change (Vocabulary.initial.add _ _ _).2.lookup? goalName = none
  cases hl : Vocabulary.initial.lookup? s.name with
  | none => rw [Vocabulary.lookup?_add_of_none hl, if_neg hs, hinitial]
  | some i => rw [Vocabulary.add_of_some hl, hinitial]

/-- A goal that was merged with an older symbol yields to it. -/
theorem yields_of_merged {d : Draft} {s : Symbol} {i j : Nat} (hfacts : d.requiredModel.facts = [])
    (hij : i < j) (hj : j < d.vocabulary.size) (hmerged : d.vocabulary.root i = d.vocabulary.root j)
    (hname : d.vocabulary.name i = s.name) (hcreated : d.vocabulary.usage i ≠ .created)
    (huniv : s.quantifier = .universal → variableName s.name = true →
      d.vocabulary.usage i = .universal)
    (hentry : d.vocabulary.entry j = ⟨goalName, .boolean, .universal⟩) : d.Yields s := by
  have hv := d.wellFormed_vocabulary
  have hi := Nat.lt_trans hij hj
  have hgoal : d.vocabulary.name j = goalName := congrArg Entry.name hentry
  have husage : d.vocabulary.usage j = .universal := congrArg Entry.usage hentry
  refine ⟨hfacts, ?_, ?_, ?_⟩
  · rw [← hgoal]
    exact Vocabulary.name_mem_namesWhere hj (by rw [husage]; rfl)
  · intro k hk hroot
    -- The older symbol would be a better root than the goal.
    have hlost : d.vocabulary.root k = j :=
      hv.eq_of_name_eq (hv.root_lt hk) hj (hroot.trans hgoal.symm)
    have hbest := hv.root_best hi
    rw [hmerged, ← hlost, hv.root_root, hlost, Vocabulary.prefers, husage] at hbest
    simp only [beq_eq_false_iff_ne.mpr hcreated] at hbest
    exact absurd hbest (by simp [hij])
  · intro hu hvar
    rw [← hname]
    exact Vocabulary.name_mem_namesWhere hi (by rw [huniv hu hvar]; rfl)

theorem requiredModel_of_place {i : Nat} {m : Model} (hplace : Model.place Q Model.empty =
    (m.root i, m)) : (backwardDraft name A P Q allowNew).requiredModel =
      ((m.addSymbol goalName .boolean .universal).2.enqueue (m.root i,
        (m.addSymbol goalName .boolean .universal).2.root
          (m.addSymbol goalName .boolean .universal).1)).propagate := by
  rw [requiredModel_backwardDraft, Model.assume]
  unfold Term.equal Term.call
  rw [Model.assert_equation rfl, hplace]
  rfl

theorem yields_of_leaf {s : Symbol} (hs : s.name ≠ goalName)
    (hplace : Model.place Q Model.empty =
      ((Model.empty.addSymbol s.name s.kind (Model.usageOf s false)).2.root
        (Model.empty.addSymbol s.name s.kind (Model.usageOf s false)).1,
        (Model.empty.addSymbol s.name s.kind (Model.usageOf s false)).2)) :
    (backwardDraft name A P Q allowNew).Yields s := by
  obtain ⟨hfirst, hilt⟩ := Model.advances_addSymbol Model.closed_empty.filed s.name s.kind
    (Model.usageOf s false)
  have hempty : (Model.empty.addSymbol s.name s.kind (Model.usageOf s false)).2.history = [] := rfl
  cases hconclusion : Model.empty.addSymbol s.name s.kind (Model.usageOf s false) with
  | mk i m₁ =>
  rw [hconclusion] at hfirst hilt hplace hempty
  obtain ⟨hname, hcreated, huniv⟩ := entry_addSymbol_empty s hconclusion
  have hnone := lookup?_goal_addSymbol_empty hs hconclusion
  obtain ⟨hsecond, hjlt⟩ := Model.advances_addSymbol hfirst.filed goalName .boolean .universal
  have hj : (m₁.addSymbol goalName .boolean .universal).1 = m₁.vocabulary.size :=
    Vocabulary.add_fst_of_none hnone .boolean .universal
  have hentry := Vocabulary.entry_add_of_none hnone .boolean .universal
  have hlast := (m₁.addSymbol goalName .boolean .universal).2.root_enqueue_propagate hsecond.filed
    (hsecond.later.lt (hfirst.filed.root_lt hilt)) (hsecond.filed.root_lt hjlt)
  rw [← @requiredModel_of_place name A P _ allowNew _ _ hplace] at hlast
  obtain ⟨hcoarse, hmerged⟩ := hlast
  have hgrows := hcoarse.vocabulary.trans
    (backwardDraft name A P Q allowNew).grows_vocabulary
  have hgrows₁ := hsecond.later.vocabulary.trans hgrows
  rw [(hsecond.later.trans hcoarse.extends).root_root hfirst.filed hilt,
    hcoarse.extends.root_root hsecond.filed hjlt, hj] at hmerged
  rw [hj] at hjlt
  refine yields_of_merged (i := i) (j := m₁.vocabulary.size) ?_ hilt
    (Nat.lt_of_lt_of_le hjlt hgrows.size_le) ?_ ?_ ?_ ?_ ?_
  · have hhistory : (backwardDraft name A P Q allowNew).requiredModel.history = [] :=
      hcoarse.history_eq.trans hempty
    rw [Model.history, List.map_eq_nil_iff] at hhistory
    rw [Model.facts, hhistory]
    rfl
  · exact (backwardDraft name A P Q allowNew).grows_vocabulary.root_eq
      (hcoarse.extends.lt (hsecond.later.lt hilt)) (hcoarse.extends.lt hjlt) hmerged
  · rw [hgrows₁.name_eq hilt, hname]
  · rw [Vocabulary.usage, hgrows₁.entry_eq hilt]
    exact hcreated
  · intro hu hvar
    rw [Vocabulary.usage, hgrows₁.entry_eq hilt]
    exact huniv hu hvar
  · rw [hgrows.entry_eq hjlt]
    exact hentry

theorem exists_variable (hs : A.sides? = some (P, Q)) (hA : A.WellQuantified) (hvars : A.vars ≠ [])
    (hop : A.operator? = some ("implies" : Text)) :
    ∃ x ∈ A.symbols, x.quantifier = .universal ∧ (x ∈ P.symbols ∨ x ∈ Q.symbols) := by
  obtain ⟨x, hx⟩ := List.exists_mem_of_ne_nil _ hvars
  obtain ⟨hmem, hu⟩ := Term.mem_vars hx
  refine ⟨x, hmem, hu, ?_⟩
  obtain ⟨fn, k, rfl⟩ := eq_apply_of_sides? hs
  obtain ⟨s, rfl⟩ : ∃ s, fn = .symbol s := by
    cases fn with
    | symbol s => exact ⟨s, rfl⟩
    | apply fn args k' => simp [Term.operator?] at hop
    | lambda params body k' => simp [Term.operator?] at hop
    | cases branches otherwise k' => simp [Term.operator?] at hop
  have hname : s.name = "implies" := by simpa [Term.operator?] using hop
  have hvar := hA.variableName x hmem hu
  simp only [Term.symbols, Term.symbolsAll, List.append_nil, List.mem_append,
    List.mem_singleton] at hmem
  rcases hmem with rfl | hmem
  · rw [hname] at hvar
    exact absurd hvar (by decide)
  · exact hmem

theorem not_bindsInsert_of_yields {s : Symbol} (hs : A.sides? = some (P, Q))
    (hA : A.WellQuantified) (hvars : A.vars ≠ []) (hfree : ∀ v ∈ A.symbols, v.name ≠ goalName)
    (hop : A.operator? = some ("implies" : Text))
    (hQ : ∀ v ∈ Q.symbols, v.quantifier = .universal → v = s)
    (h : (backwardDraft name A P Q allowNew).Yields s) {reach : Reach}
    (hb : b ∈ (backwardDraft name A P Q allowNew).rule.search ob reach) :
    ¬ (backwardDraft name A P Q allowNew).rule.bindsInsert b = true := by
  rw [Rule.search, if_pos ((Draft.searchesByKind_rule rfl).mpr h.facts_eq)] at hb
  unfold Rule.findByKind at hb
  split at hb
  · rename_i wild hwild
    change (backwardDraft name A P Q allowNew).vocabulary.universals = [wild] at hwild
    have hgoal := h.goal_mem
    rw [hwild, List.mem_singleton] at hgoal
    subst hgoal
    obtain ⟨actual, -, rfl⟩ := List.mem_map.mp hb
    have hunbound : ∀ other, other ≠ goalName → ((Binding.unbound
        (backwardDraft name A P Q allowNew).rule.vars).set goalName actual).get other = "" := by
      intro other hne
      rw [Binding.get_set, if_neg (Ne.symm hne), Binding.get_unbound]
    obtain ⟨x, hx, hu, hside⟩ := exists_variable hs hA hvars hop
    have hne := hfree x hx
    rcases hside with hx' | hx'
    · -- A variable of the premise has to be bound, and it is not in the class of the goal.
      have hmem : x ∈ (backwardDraft name A P Q allowNew).insert.symbols := by
        simp [backwardDraft, goalDraft, Term.equal, Term.disj, Term.symbols_call, hx']
      obtain ⟨v, hv, hname⟩ := Term.exists_mem_vars hmem hu
      intro hbind
      have hval := List.all_eq_true.mp hbind v hv
      rw [hname] at hval
      have hnone : (backwardDraft name A P Q allowNew).rule.valueOf ((Binding.unbound
          (backwardDraft name A P Q allowNew).rule.vars).set goalName actual) x.name = "" := by
        refine Rule.valueOf_eq_empty (hunbound x.name hne) fun i hi => ?_
        obtain ⟨j, hj, rfl⟩ := Option.map_eq_some_iff.mp hi
        exact hunbound _ (h.rootName_ne j
          ((backwardDraft name A P Q allowNew).wellFormed_vocabulary.lt_of_lookup? hj))
      rw [hnone] at hval
      exact absurd hval (by decide)
    · -- A variable that is the conclusion is looked for as well.
      obtain rfl := hQ x hx' hu
      have hmem := h.symbol_mem hu (hA.variableName x hx hu)
      rw [hwild, List.mem_singleton] at hmem
      exact (hne hmem).elim
  · simp at hb

/-- A term that is no application is one symbol to a model, and a variable only if it is one. -/
theorem exists_leaf {t : Term} (ht : ∀ fn args k, t ≠ .apply fn args k) (hb : t.bindable = true) :
    ∃ s : Symbol, (t = .symbol s ∨ variableName s.name = false ∧ t.constant = true) ∧
      ∀ m : Model, Model.place t m =
        ((m.addSymbol s.name s.kind (Model.usageOf s false)).2.root
          (m.addSymbol s.name s.kind (Model.usageOf s false)).1,
          (m.addSymbol s.name s.kind (Model.usageOf s false)).2) := by
  match t with
  | .symbol s => exact ⟨s, .inl rfl, fun _ => rfl⟩
  | .apply fn args k => exact (ht fn args k rfl).elim
  | .lambda params body k =>
    exact ⟨⟨(Term.lambda params body k).render, k, .free⟩,
      .inr ⟨Term.not_variableName_of_compound (by simp), hb⟩, fun _ => rfl⟩
  | .cases branches otherwise k =>
    exact ⟨⟨(Term.cases branches otherwise k).render, k, .free⟩,
      .inr ⟨Term.not_variableName_of_compound (by simp), hb⟩, fun _ => rfl⟩

end Discharge.Search
