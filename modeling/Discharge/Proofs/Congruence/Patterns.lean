import Discharge.Proofs.Congruence.Bindings
import Discharge.Proofs.Congruence.Knowledge

/-!
Patterns of terms. A term is made into a pattern by representing it in a model of its own, whose
facts are then joined in another model. The pattern has the symbols of the term and the symbols that
were created for its subterms. Nothing is asserted in it, so no two symbols of the term have become
one class, and the created ones are accounted for by its facts.
-/

namespace Discharge

open Congruence

namespace Term

/-- A term that a model takes at its word: connectives are operators, with two operands if these may
be exchanged, and no name has a comma or could be that of a created symbol. -/
structure Regular (t : Term) : Prop where
  wellApplied : t.wellApplied = true
  commaFree : ∀ s ∈ t.symbols, s.name.CommaFree
  not_created : ∀ s ∈ t.symbols, ∀ k, s.name ≠ Vocabulary.createdName k

mutual

theorem applicative_of_wellApplied (t : Term) (ht : t.wellApplied = true) :
    t.applicative = true := by
  match t with
  | symbol s => rfl
  | apply (symbol s) args k =>
    rw [wellApplied, Bool.and_eq_true, wellAppliedAll_iff] at ht
    rw [applicative, applicative, Bool.true_and]
    exact applicativeAll_of_wellApplied args ht.2
  | apply (apply fn as l) args k =>
    rw [wellApplied, Bool.and_eq_true, wellAppliedAll_iff] at ht
    · rw [applicative, Bool.and_eq_true]
      exact ⟨applicative_of_wellApplied (apply fn as l) ht.1,
        applicativeAll_of_wellApplied args ht.2⟩
    · simp
  | apply (lambda _ _ _) args k => simp [wellApplied] at ht
  | apply (cases _ _ _) args k => simp [wellApplied] at ht
  | lambda _ _ _ => simp [wellApplied] at ht
  | cases _ _ _ => simp [wellApplied] at ht

theorem applicativeAll_of_wellApplied (ts : List Term) (hts : ∀ t ∈ ts, t.wellApplied = true) :
    applicativeAll ts = true := by
  match ts with
  | [] => rfl
  | t :: rest =>
    rw [applicativeAll, Bool.and_eq_true]
    exact ⟨applicative_of_wellApplied t (hts t List.mem_cons_self),
      applicativeAll_of_wellApplied rest fun a ha => hts a (List.mem_cons_of_mem _ ha)⟩

end

theorem Regular.applicative {t : Term} (h : t.Regular) : t.applicative = true :=
  applicative_of_wellApplied t h.wellApplied

theorem regular_of_startsWith {t : Term} (ht : t.wellApplied = true)
    (hs : ∀ s ∈ t.symbols, s.name.CommaFree ∧ s.name.startsWith "¢c" = false) : t.Regular := by
  refine ⟨ht, fun s hmem => (hs s hmem).1, ?_⟩
  intro s hmem k he
  have hstart := (hs s hmem).2
  rw [he, startsWith_createdName] at hstart
  contradiction

/-- A term whose quantified symbols can be told from its constants. -/
structure Schematic (t : Term) : Prop where
  uniform : ∀ s ∈ t.symbols, ∀ s' ∈ t.symbols, s.name = s'.name → s.quantifier = .universal →
    s'.quantifier = .universal
  unreserved : ∀ s ∈ t.symbols, s.quantifier = .universal →
    s.name ∉ (["true", "false", "=", "and", "or", "implies"] : List Text)

instance (t : Term) : Decidable t.Schematic :=
  decidable_of_iff ((∀ s ∈ t.symbols, ∀ s' ∈ t.symbols, s.name = s'.name →
      s.quantifier = .universal → s'.quantifier = .universal) ∧
    ∀ s ∈ t.symbols, s.quantifier = .universal →
      s.name ∉ (["true", "false", "=", "and", "or", "implies"] : List Text))
    ⟨fun h => ⟨h.1, h.2⟩, fun h => ⟨h.uniform, h.unreserved⟩⟩

end Term

namespace Congruence

inductive Entry.Stems (t : Term) : Entry → Prop
  | created (n : Nat) (k : Kind) : Stems t ⟨Vocabulary.createdName n, k, .created⟩
  | truth : Stems t ⟨"true", .boolean, .literal⟩
  | falsehood : Stems t ⟨"false", .boolean, .literal⟩
  | symbol {s : Symbol} (hs : s ∈ t.symbols) (applied : Bool) : Stems t (symbolEntry s applied)

namespace Model

section Accounting

variable {m n : Model}

def Accounted (m : Model) : Prop := ∀ i < m.vocabulary.size, m.vocabulary.usage i = .created →
  ∃ e ∈ m.history, e.2 = i

theorem Accounted.of_extends (h : m.Accounted) (hext : m.Extends n)
    (hnew : ∀ i, m.vocabulary.size ≤ i → i < n.vocabulary.size →
      n.vocabulary.usage i = .created → ∃ e ∈ n.history, e.2 = i) : n.Accounted := by
  intro i hi hu
  by_cases hold : i < m.vocabulary.size
  · rw [Vocabulary.usage, hext.vocabulary.entry_eq hold] at hu
    obtain ⟨e, he, hres⟩ := h i hold hu
    exact ⟨e, hext.mem_history he, hres⟩
  · exact hnew i (Nat.le_of_not_lt hold) hi hu

theorem accounted_addSymbol (h : m.Accounted) (hm : m.Filed []) (name : Text) (k : Kind)
    {u : Usage} (hu : u ≠ .created) : (m.addSymbol name k u).2.Accounted := by
  refine h.of_extends (advances_addSymbol hm name k u).1.later ?_
  intro i hle hlt hcreated
  cases hl : m.vocabulary.lookup? name with
  | some j =>
    rw [addSymbol, Vocabulary.add_of_some hl] at hlt
    exact absurd hlt (Nat.not_lt.mpr hle)
  | none =>
    have hsize := Vocabulary.size_add_of_none hl k u
    change i < (m.vocabulary.add name k u).2.size at hlt
    obtain rfl : i = m.vocabulary.size := by omega
    change (m.vocabulary.add name k u).2.usage _ = _ at hcreated
    rw [Vocabulary.usage, Vocabulary.entry_add_of_none hl] at hcreated
    exact (hu hcreated).elim

theorem accounted_propagate (h : m.Accounted) (hm : m.Filed []) : m.propagate.Accounted := by
  refine h.of_extends (propagate_spec hm).2.2.extends ?_
  intro i hle hlt
  rw [Vocabulary.size, propagate, entries_propagateWithin] at hlt
  exact absurd hlt (Nat.not_lt.mpr hle)

theorem accounted_placeApplication (h : m.Accounted) (hm : m.Filed []) {app : Application}
    (k : Kind) (happ : ∀ s ∈ app.places, s < m.vocabulary.size) :
    (m.placeApplication app k).2.Accounted := by
  cases hk : m.table[app.key m.vocabulary]? with
  | some i =>
    rw [placeApplication_of_some hk]
    exact h
  | none =>
    obtain ⟨hdef, hv, hh⟩ := advances_define hm app k happ hk
    rw [placeApplication_of_none hk]
    refine accounted_propagate (h.of_extends hdef.later ?_) hdef.filed
    intro i hle hlt _
    rw [hv, Vocabulary.size_create hm.vocabulary] at hlt
    rw [hh]
    exact ⟨(app, m.vocabulary.size), by simp, by dsimp only; omega⟩

theorem usageOf_ne_created (s : Symbol) (applied : Bool) : usageOf s applied ≠ .created := by
  unfold usageOf
  split
  · simp
  · split <;> simp

mutual

theorem accounted_place (t : Term) {m : Model} (h : m.Accounted) (hm : m.Filed []) :
    (place t m).2.Accounted := by
  match t with
  | .symbol s =>
    rw [place]
    exact accounted_addSymbol h hm s.name s.kind (usageOf_ne_created s false)
  | .apply fn args k =>
    obtain ⟨hop, hall, hlt⟩ := advances_parts fn args hm
    have hfn : (placeOperator fn m).2.Accounted := by
      match fn with
      | .symbol s => exact accounted_addSymbol h hm s.name s.kind (usageOf_ne_created s true)
      | .apply f as k => exact accounted_place (.apply f as k) h hm
      | .lambda params body k => exact accounted_place (.lambda params body k) h hm
      | .cases branches otherwise k => exact accounted_place (.cases branches otherwise k) h hm
    rw [place_apply]
    exact accounted_placeApplication (accounted_placeAll args hfn hop.filed) hall.filed k hlt
  | .lambda params body k =>
    rw [place]
    exact accounted_addSymbol h hm _ _ (by simp)
  | .cases branches otherwise k =>
    rw [place]
    exact accounted_addSymbol h hm _ _ (by simp)

theorem accounted_placeAll (ts : List Term) {m : Model} (h : m.Accounted) (hm : m.Filed []) :
    (placeAll ts m).2.Accounted := by
  match ts with
  | [] =>
    rw [placeAll]
    exact h
  | t :: rest =>
    rw [placeAll]
    exact accounted_placeAll rest (accounted_place t h hm) (advances_place t hm).1.filed

end

theorem accounted_empty : empty.Accounted := by
  intro i hi hu
  have hi : i < 2 := by rw [← Vocabulary.initial_size]; exact hi
  change (Vocabulary.initial.entries[i]?.getD default).usage = _ at hu
  rw [Vocabulary.initial_entries] at hu
  interval_cases i <;> simp at hu

end Accounting

/-- A term on its own, as the facts that a match of it looks for. -/
def pattern (t : Term) : Model := (empty.represent t).2

def patternResult (t : Term) : Nat := (empty.represent t).1

/-- The bindings under which all facts of a term's pattern hold in the model. -/
def matchesOf (m : Model) (t : Term) : List Binding :=
  (Fact.byQuantifiers (pattern t).vocabulary (pattern t).facts).foldl
    (m.join (pattern t).vocabulary) [Binding.unbound (pattern t).vocabulary.vars]

section Compiling

theorem all_foldl_feed {P : Entry → Prop} (inputs : List Input)
    (hin : ∀ i ∈ inputs, i.term.applicative = true ∧ Admits P i.term.symbols) {m : Model}
    (h : m.vocabulary.All P) : (inputs.foldl feed m).vocabulary.All P := by
  refine List.foldlRecOn (motive := fun n => n.vocabulary.All P) inputs feed h ?_
  intro n hn i hi
  obtain ⟨happlicative, hadmits⟩ := hin i hi
  cases i with
  | assume u => exact all_assume hn happlicative hadmits
  | represent u => exact all_represent hn happlicative hadmits

theorem commaFree_ofInputs {inputs : List Input} (hin : ∀ i ∈ inputs, i.term.Regular) :
    (ofInputs inputs).vocabulary.All fun e => e.name.CommaFree := by
  refine all_foldl_feed inputs ?_ (all_empty (by decide) (by decide))
  intro i hi
  have hr := hin i hi
  exact ⟨hr.applicative, fun n _ => Text.commaFree_createdName n, fun s hs _ => hr.commaFree s hs⟩

theorem named_ofInputs {inputs : List Input} (hin : ∀ i ∈ inputs, i.term.Regular)
    (hne : ∀ i ∈ inputs, ∀ s ∈ i.term.symbols, s.name ≠ "") :
    (ofInputs inputs).vocabulary.Named := by
  refine all_foldl_feed inputs ?_ named_empty
  intro i hi
  exact ⟨(hin i hi).applicative, fun n _ => Vocabulary.createdName_ne n,
    fun s hs _ => hne i hi s hs⟩

variable {t : Term}

theorem closed_pattern (t : Term) : (pattern t).Closed := (closed_represent closed_empty t).1

theorem confined_pattern (h : t.wellApplied = true) : (pattern t).Confined := by
  have hall : (ofInputs [.represent t]).Confined :=
    confined_ofInputs (List.forall_mem_singleton.mpr h)
  exact hall

theorem accounted_pattern (t : Term) : (pattern t).Accounted :=
  accounted_propagate (accounted_place t accounted_empty closed_empty.filed)
    (advances_place t closed_empty.filed).1.filed

theorem exists_fact_of_created {s : Nat} (hs : s < (pattern t).vocabulary.size)
    (hu : (pattern t).vocabulary.usage s = .created) :
    ∃ f ∈ (pattern t).facts, f.result = (pattern t).root s ∧
      ∀ y ∈ f.app.places, ∃ x < s, (pattern t).root x = y := by
  obtain ⟨e, he, rfl⟩ := accounted_pattern t s hs hu
  have hplaces : ∀ x ∈ e.1.places, x < e.2 := by
    obtain ⟨added, heq, -, hadded, -⟩ := (closed_represent closed_empty t).2.1.history
    refine hadded e ?_
    rw [pattern, heq] at he
    simpa [history, empty] using he
  obtain ⟨i, r, hrec, rfl⟩ := exists_record_of_mem_history he
  obtain ⟨j, r', hrec', hlive, hcong, hres⟩ := (closed_pattern t).covered hrec
  refine ⟨_, mem_facts.mpr ⟨j, r', hrec', hlive, rfl⟩, hres.symm, ?_⟩
  intro y hy
  rcases List.mem_cons.mp hy with rfl | hy
  · exact ⟨r.app.op, hplaces _ List.mem_cons_self, hcong.op_eq⟩
  · obtain ⟨x, hx, hroot⟩ := List.mem_map.mp (hcong.args_perm.mem_iff.mpr hy)
    exact ⟨x, hplaces x (List.mem_cons_of_mem _ hx), hroot⟩

theorem stems_pattern (h : t.applicative = true) {i : Nat} (hi : i < (pattern t).vocabulary.size) :
    ((pattern t).vocabulary.entry i).Stems t :=
  (all_represent (all_empty .truth .falsehood) h ⟨.created, fun _ hs => .symbol hs⟩).entry hi

theorem find?_pattern (h : t.wellApplied = true) :
    (pattern t).find? t = some (patternResult t) := by
  have hp := closed_pattern t
  rw [find?_represent closed_empty hp ((confined_pattern h).keepsExchanges hp.filed.vocabulary)
    (.refl _)]
  exact congrArg some (hp.filed.vocabulary.root_root _)

theorem name_ne_pattern (h : t.Regular) {i : Nat} (hi : i < (pattern t).vocabulary.size)
    (hu : (pattern t).vocabulary.usage i ≠ .created) (k : Nat) :
    (pattern t).vocabulary.name i ≠ Vocabulary.createdName k := by
  have hstem := stems_pattern h.applicative hi
  rw [Vocabulary.name]
  rw [Vocabulary.usage] at hu
  generalize (pattern t).vocabulary.entry i = e at hstem hu
  cases hstem with
  | created n k => exact (hu rfl).elim
  | truth => exact ne_createdName_of_plain (by decide) k
  | falsehood => exact ne_createdName_of_plain (by decide) k
  | symbol hs applied => exact h.not_created _ hs k

theorem value_classical_injective {a b : Text}
    (h : (Interpretation.classical (fun _ _ => .named .empty) .named).value a =
      (Interpretation.classical (fun _ _ => .named .empty) .named).value b) : a = b := by
  simp only [Interpretation.classical] at h
  split_ifs at h <;> simp_all

/-- No two symbols of the term are one class: values can be chosen that tell them apart. -/
theorem root_pattern (h : t.Regular) {i : Nat} (hi : i < (pattern t).vocabulary.size)
    (hu : (pattern t).vocabulary.usage i ≠ .created) : (pattern t).root i = i := by
  have hp := (closed_pattern t).filed.vocabulary
  have hlt := hp.root_lt hi
  obtain ⟨J, hap, hvalue, -, hread⟩ :=
    (satisfied_empty (Interpretation.classical (fun _ _ => .named .empty) .named)).exists_reading
      closed_empty.filed (closed_pattern t).filed (closed_represent closed_empty t).2.1
  have hJ : J.Lawful := lawful_of_reading (Interpretation.lawful_classical _ _) hap hvalue
  have hsame := (denotes_represent hJ closed_empty (agrees_empty J) hread).agrees.respects.value_eq
    hlt hi (hp.root_root i)
  -- A root is created only if its whole class was.
  have hroot : (pattern t).vocabulary.usage ((pattern t).root i) ≠ .created := by
    intro hc
    have hbest := hp.root_best hi
    change (pattern t).vocabulary.usage ((pattern t).vocabulary.root i) = _ at hc
    simp [Vocabulary.prefers, hc, hu] at hbest
  exact hp.eq_of_name_eq hlt hi (value_classical_injective
    ((hvalue _ (name_ne_pattern h hlt hroot)).symm.trans
      (hsame.trans (hvalue _ (name_ne_pattern h hi hu)))))

theorem isVariable_usageOf (s : Symbol) (applied : Bool) :
    (usageOf s applied).isVariable = decide (s.quantifier = .universal) := by
  unfold usageOf
  by_cases h : s.quantifier = .universal
  · cases applied <;> simp [h, Usage.isVariable]
  · simp [h, Usage.isVariable]

theorem symbol_pattern (hr : t.Regular) (hq : t.Schematic) {s : Symbol} (hs : s ∈ t.symbols)
    {i : Nat} (hi : (pattern t).vocabulary.lookup? s.name = some i) :
    (pattern t).root i = i ∧
      ((pattern t).vocabulary.usage i).isVariable = decide (s.quantifier = .universal) := by
  have hp := (closed_pattern t).filed.vocabulary
  have hlt := hp.lt_of_lookup? hi
  have hname : ((pattern t).vocabulary.entry i).name = s.name := hp.name_of_lookup? hi
  have hstem := stems_pattern hr.applicative hlt
  have huse : (pattern t).vocabulary.usage i ≠ .created ∧
      ((pattern t).vocabulary.usage i).isVariable = decide (s.quantifier = .universal) := by
    rw [Vocabulary.usage]
    generalize (pattern t).vocabulary.entry i = e at hstem hname
    have hreserved : e.name ∈ (["true", "false", "=", "and", "or", "implies"] : List Text) →
        s.quantifier ≠ .universal := by
      intro hmem hu
      rw [hname] at hmem
      exact hq.unreserved s hs hu hmem
    -- The entry may have been made for another symbol of the same name, which is quantified alike.
    cases hstem with
    | created n k => exact (hr.not_created s hs n hname.symm).elim
    | truth => exact ⟨by simp, (decide_eq_false (hreserved (by simp))).symm⟩
    | falsehood => exact ⟨by simp, (decide_eq_false (hreserved (by simp))).symm⟩
    | @symbol s' hs' applied =>
      have hsame : s'.quantifier = .universal ↔ s.quantifier = .universal :=
        ⟨hq.uniform s' hs' s hs hname, hq.uniform s hs s' hs' hname.symm⟩
      refine ⟨usageOf_ne_created s' applied, ?_⟩
      rw [← decide_eq_decide.mpr hsame]
      exact isVariable_usageOf s' applied
  exact ⟨root_pattern hr hlt huse.1, huse.2⟩

/-- A symbol that a match binds was created for a subterm or is a variable of the term. -/
theorem exists_var_pattern (hr : t.Regular) {i : Nat} (hi : i < (pattern t).vocabulary.size)
    (hu : ((pattern t).vocabulary.usage i).isVariable = true)
    (hc : (pattern t).vocabulary.usage i ≠ .created) :
    ∃ x ∈ t.vars, x.name = (pattern t).vocabulary.name i := by
  have hstem := stems_pattern hr.applicative hi
  rw [Vocabulary.name]
  rw [Vocabulary.usage] at hu hc
  generalize (pattern t).vocabulary.entry i = e at hstem hu hc
  cases hstem with
  | created n k => exact (hc rfl).elim
  | truth => simp [Usage.isVariable] at hu
  | falsehood => simp [Usage.isVariable] at hu
  | @symbol s hs applied =>
    exact Term.exists_mem_vars hs (of_decide_eq_true ((isVariable_usageOf s applied).symm.trans hu))

theorem not_isVariable_pattern (hr : t.Regular) (hq : t.Schematic) {i : Nat}
    (hi : i < (pattern t).vocabulary.size)
    (hcomm : isCommutative ((pattern t).vocabulary.name i) = true) :
    ((pattern t).vocabulary.usage i).isVariable = false := by
  by_contra hu
  rw [Bool.not_eq_false] at hu
  obtain ⟨c, hname, -⟩ := exists_connective_of_isCommutative hcomm
  by_cases hc : (pattern t).vocabulary.usage i = .created
  · have hstem := stems_pattern hr.applicative hi
    rw [Vocabulary.usage] at hu hc
    rw [Vocabulary.name] at hcomm
    generalize (pattern t).vocabulary.entry i = e at hstem hu hc hcomm
    cases hstem with
    | created n k => exact named?_of_isCommutative hcomm (named?_createdName n)
    | truth => cases hc
    | falsehood => cases hc
    | symbol hs applied => exact usageOf_ne_created _ applied hc
  · obtain ⟨x, hx, hxname⟩ := exists_var_pattern hr hi hu hc
    obtain ⟨hmem, huniv⟩ := Term.mem_vars hx
    refine hq.unreserved x hmem huniv ?_
    rw [hxname, hname]
    cases c <;> decide

end Compiling

end Model

end Congruence

end Discharge
