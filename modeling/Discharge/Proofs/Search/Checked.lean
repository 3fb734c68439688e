import Discharge.Proofs.Congruence.CheckedMatching
import Discharge.Proofs.Search.Goals
import Discharge.Proofs.Search.Patterns
import Discharge.Proofs.Search.Rules
import Discharge.Search.Ranking

namespace Discharge.Search

open Congruence

/-- Whether the model is closed and the goals are names in it. -/
structure Obligation.Posed (ob : Obligation) : Prop where
  model : ob.model.Closed
  known : ∀ goal ∈ ob.goals, ∀ name ∈ goal, ∃ i, ob.model.vocabulary.lookup? name = some i

structure Rule.Formed (r : Rule) : Prop where
  pattern : r.pattern.WellFormed
  required_lt : ∀ p ∈ r.required, ∀ s ∈ p.app.places ++ [p.result], s < r.pattern.size
  optional_lt : ∀ p ∈ r.optional, ∀ s ∈ p.app.places ++ [p.result], s < r.pattern.size

namespace Checked

section Obligations

def addGoal (ob : Obligation) (alternatives : List Nat) : Except Fault Obligation := do
  let names ← alternatives.mapM fun i => ob.model.vocabulary.nameAt (ob.model.root i)
  return { ob with goals := ob.goals ++ [Text.distinct names] }

def representAll : List Term → Model → Except Fault (List Nat × Model)
  | [], m => .ok ([], m)
  | t :: rest, m => do
    let (i, m) ← Congruence.Checked.represent m t
    let (is, m) ← representAll rest m
    return (i :: is, m)

def addConjunct (ob : Obligation) (t : Term) : Except Fault Obligation := do
  let (alternatives, m) ← representAll t.disjuncts ob.model
  addGoal { ob with model := m } alternatives

def assumed (m : Model) (t : Term) : Except Fault Model :=
  return (← Congruence.Checked.assume m t).2

def assumeUntilFalse : List Term → Model → Except Fault Model
  | [], m => .ok m
  | t :: rest, m => do
    let m ← assumed m t
    if m.contradiction then return m else assumeUntilFalse rest m

def obligation (n : Normalizer) (c : Condition) : Except Fault Obligation := do
  let start : Obligation := ⟨c, .empty, []⟩
  let ob ← (c.sequent.right.flatMap fun t => (n.normalize t).conjuncts).foldlM addConjunct start
  let m ← c.sequent.left.foldlM (fun m t => assumeUntilFalse (n.normalize t).conjuncts m) ob.model
  return { ob with model := ← seedAxioms.foldlM assumed m }

def isMet (ob : Obligation) (goal : List Text) : Except Fault Bool := do
  let roots ← goal.mapM fun g => return ob.model.root (← ob.model.vocabulary.indexOf g)
  return roots.any (· == ob.model.root Vocabulary.truth)

def openGoals (ob : Obligation) : Except Fault (List Text) := do
  let goals ← ob.goals.mapM fun g => return (g, ← isMet ob g)
  let names ← ((goals.filter fun g => !g.2).flatMap Prod.fst).mapM ob.model.vocabulary.rootNameOf
  return Text.distinct names

def status (ob : Obligation) : Except Fault Status := do
  if ob.model.contradiction then return .falseAssumption
  else if !ob.goals.isEmpty && (← ob.goals.mapM (isMet ob)).all id then return .proved
  else return .evaluating

def assume (ob : Obligation) (t : Term) : Except Fault (Change × Obligation) := do
  let (c, m) ← Congruence.Checked.assume ob.model t
  return (c, { ob with model := m })

end Obligations

end Checked

namespace Obligation

variable {ob : Obligation}

theorem Posed.setModel (h : ob.Posed) {m : Model} (hm : m.Closed) (hext : ob.model.Extends m) :
    Posed { ob with model := m } := by
  refine ⟨hm, fun goal hgoal name hname => ?_⟩
  obtain ⟨i, hi⟩ := h.known goal hgoal name hname
  obtain ⟨hlt, hn⟩ := h.model.filed.vocabulary.lookup_iff.mp hi
  exact ⟨i, hm.filed.vocabulary.lookup_iff.mpr
    ⟨hext.lt hlt, (hext.vocabulary.name_eq hlt).trans hn⟩⟩

theorem Posed.assume (h : ob.Posed) (t : Term) : (ob.assume t).2.Posed :=
  h.setModel (Model.closed_assume h.model t).1 (Model.closed_assume h.model t).2

theorem Posed.addGoal (h : ob.Posed) {alternatives : List Nat}
    (hlt : ∀ i ∈ alternatives, i < ob.model.vocabulary.size) : (ob.addGoal alternatives).Posed := by
  refine ⟨h.model, fun goal hgoal name hname => ?_⟩
  rcases List.mem_append.mp hgoal with hgoal | hgoal
  · exact h.known goal hgoal name hname
  · rw [List.mem_singleton.mp hgoal] at hname
    obtain ⟨i, hi, rfl⟩ := List.mem_map.mp (Text.mem_distinct.mp hname)
    have hv := h.model.filed.vocabulary
    exact ⟨_, hv.lookup?_name (hv.root_lt (hlt i hi))⟩

theorem Posed.addConjunct (h : ob.Posed) (t : Term) : (ob.addConjunct t).Posed := by
  obtain ⟨hclosed, hext⟩ := closed_representAll t.disjuncts h.model
  exact (h.setModel hclosed hext).addGoal (lt_of_mem_representAll t.disjuncts h.model)

theorem posed_registered (n : Normalizer) (c : Condition) : (registered n c).Posed :=
  List.foldlRecOn _ _ ⟨Model.closed_empty, by simp⟩ fun _ h t _ => h.addConjunct t

theorem posed_new (n : Normalizer) (c : Condition) : (new n c).Posed := by
  obtain ⟨hassumed, hext⟩ := closed_assumed n c
  obtain ⟨hseeded, hext'⟩ := closed_foldl_assume seedAxioms hassumed
  exact (posed_registered n c).setModel hseeded (hext.trans hext')

end Obligation

namespace Checked

section Obligations

variable {ob : Obligation} {m : Model}

theorem addGoal_eq (h : ob.Posed) {alternatives : List Nat}
    (hlt : ∀ i ∈ alternatives, i < ob.model.vocabulary.size) :
    addGoal ob alternatives = .ok (ob.addGoal alternatives) := by
  rw [addGoal, mapM_eq_ok fun i hi => Vocabulary.nameAt_eq (h.model.filed.root_lt (hlt i hi))]
  rfl

theorem representAll_eq (ts : List Term) {m : Model} (hm : m.Closed) :
    representAll ts m = .ok (Obligation.representAll ts m) := by
  induction ts generalizing m with
  | nil => rfl
  | cons t rest ih =>
    rw [representAll, Congruence.Checked.represent_eq hm.filed]
    dsimp only [bind, Except.bind]
    rw [ih (Model.closed_represent hm t).1]
    rfl

theorem addConjunct_eq (h : ob.Posed) (t : Term) :
    addConjunct ob t = .ok (ob.addConjunct t) := by
  obtain ⟨hclosed, hext⟩ := Obligation.closed_representAll t.disjuncts h.model
  rw [addConjunct, representAll_eq _ h.model]
  exact addGoal_eq (h.setModel hclosed hext) (Obligation.lt_of_mem_representAll _ h.model)

theorem assumed_eq (hm : m.Closed) (t : Term) : assumed m t = .ok (m.assume t).2 := by
  rw [assumed, Congruence.Checked.assume_eq hm.filed]
  rfl

theorem assumeUntilFalse_eq (ts : List Term) {m : Model} (hm : m.Closed) :
    assumeUntilFalse ts m = .ok (Obligation.assumeUntilFalse ts m) := by
  induction ts generalizing m with
  | nil => rfl
  | cons t rest ih =>
    rw [assumeUntilFalse, assumed_eq hm, Obligation.assumeUntilFalse]
    dsimp only [bind, Except.bind]
    split
    · rfl
    · exact ih (Model.closed_assume hm t).1

theorem obligation_eq (n : Normalizer) (c : Condition) :
    obligation n c = .ok (Obligation.new n c) := by
  have hgoals : (Obligation.conclusions n c).foldlM addConjunct ⟨c, .empty, []⟩ =
      .ok (Obligation.registered n c) :=
    foldlM_eq_ok (P := Obligation.Posed) (fun ob hob t _ => ⟨addConjunct_eq hob t, hob.addConjunct t⟩)
      ⟨Model.closed_empty, by simp⟩
  have hleft : c.sequent.left.foldlM (fun m t => assumeUntilFalse (n.normalize t).conjuncts m)
      (Obligation.registered n c).model = .ok (Obligation.assumed n c) :=
    foldlM_eq_ok (P := Model.Closed) (fun m hm t _ =>
      ⟨assumeUntilFalse_eq _ hm, (Obligation.closed_assumeUntilFalse _ hm).1⟩)
      (Obligation.closed_registered n c)
  have hseed : seedAxioms.foldlM assumed (Obligation.assumed n c) =
      .ok (seedAxioms.foldl (fun m t => (m.assume t).2) (Obligation.assumed n c)) :=
    foldlM_eq_ok (P := Model.Closed)
      (fun m hm t _ => ⟨assumed_eq hm t, (Model.closed_assume hm t).1⟩)
      (Obligation.closed_assumed n c).1
  unfold Obligation.conclusions at hgoals
  simp only [obligation, hgoals, bind, Except.bind, hleft, hseed]
  rfl

theorem isMet_eq {goal : List Text}
    (hgoal : ∀ name ∈ goal, ∃ i, ob.model.vocabulary.lookup? name = some i) :
    isMet ob goal = .ok (ob.isMet goal) := by
  have hindex : ∀ g ∈ goal, (do return ob.model.root (← ob.model.vocabulary.indexOf g) :
      Except Fault Nat) = .ok (((ob.model.vocabulary.rootOf? g).getD 0)) := by
    intro g hg
    obtain ⟨i, hi⟩ := hgoal g hg
    rw [Vocabulary.indexOf_eq hi, Vocabulary.rootOf?, hi]
    rfl
  rw [isMet, mapM_eq_ok hindex]
  refine congrArg Except.ok (Bool.eq_iff_iff.mpr ?_)
  simp only [Obligation.isMet, List.any_map, List.any_eq_true]
  refine exists_congr fun g => and_congr_right fun hg => ?_
  obtain ⟨i, hi⟩ := hgoal g hg
  simp [Vocabulary.rootOf?, hi]

theorem openGoals_eq (h : ob.Posed) : openGoals ob = .ok ob.openGoals := by
  have hmet : ∀ g ∈ ob.goals, (do return (g, ← isMet ob g) : Except Fault (List Text × Bool)) =
      .ok (g, ob.isMet g) := fun g hg => by
    rw [isMet_eq (h.known g hg)]
    rfl
  have hunmet : ((ob.goals.map fun g => (g, ob.isMet g)).filter fun g => !g.2).flatMap Prod.fst =
      (ob.goals.filter fun g => !ob.isMet g).flatten := by
    rw [List.filter_map, List.flatMap_map, List.flatMap_def]
    simp [Function.comp_def]
  have hnames : ∀ name ∈ (ob.goals.filter fun g => !ob.isMet g).flatten,
      ∃ i, ob.model.vocabulary.lookup? name = some i := fun name hname => by
    obtain ⟨goal, hgoal, hmem⟩ := List.mem_flatten.mp hname
    exact h.known goal (List.mem_filter.mp hgoal).1 name hmem
  have hroots : ∀ name ∈ (ob.goals.filter fun g => !ob.isMet g).flatten,
      ob.model.vocabulary.rootNameOf name =
        .ok (((ob.model.vocabulary.rootOf? name).map ob.model.vocabulary.name).getD default) ∧
      (ob.model.vocabulary.rootOf? name).map ob.model.vocabulary.name =
        some (((ob.model.vocabulary.rootOf? name).map ob.model.vocabulary.name).getD default) := by
    intro name hname
    obtain ⟨i, hi⟩ := hnames name hname
    rw [Vocabulary.rootNameOf_eq hi, Vocabulary.rootOf?, hi]
    exact ⟨rfl, rfl⟩
  rw [openGoals, mapM_eq_ok hmet]
  dsimp only [bind, Except.bind]
  rw [hunmet, mapM_eq_ok fun name hname => (hroots name hname).1]
  refine congrArg Except.ok (congrArg Text.distinct ?_)
  rw [List.flatMap_def, ← List.filterMap_flatten, ← List.filterMap_eq_map']
  exact (List.filterMap_congr fun name hname => (hroots name hname).2).symm

theorem status_eq (h : ob.Posed) : status ob = .ok ob.status := by
  rw [status, mapM_eq_ok fun g hg => isMet_eq (h.known g hg), Obligation.status]
  split
  · rfl
  · dsimp only [bind, Except.bind]
    rw [List.all_map, Function.id_comp]
    split <;> rfl

theorem assume_eq (h : ob.Posed) (t : Term) : assume ob t = .ok (ob.assume t) := by
  rw [assume, Congruence.Checked.assume_eq h.model.filed]
  rfl

end Obligations

section Drafts

def requiredModel (d : Draft) : Except Fault Model := do
  if !d.required.isApplication then return .empty
  else if d.asTrue then assumed .empty d.required
  else return (← Congruence.Checked.represent .empty d.required).2

def model (d : Draft) : Except Fault Model := do
  let m ← requiredModel d
  if d.needsRest then return (← Congruence.Checked.represent m d.rest).2 else return m

def vocabulary (d : Draft) : Except Fault Vocabulary :=
  return d.entire.vars.foldl (fun v s => (v.add s.name s.kind .universal).2) (← model d).vocabulary

def requiredFacts (d : Draft) : Except Fault (List Fact) := do
  let m ← requiredModel d
  Congruence.Checked.byQuantifiers m.vocabulary m.facts

def labelled (v : Vocabulary) (f : Fact) : Except Fault (Fact × Text × List Text) :=
  return (f, ← Congruence.Checked.labelFact v f, ← Congruence.Checked.names v f.app)

def optionalFacts (d : Draft) : Except Fault (List Fact) := do
  let v ← vocabulary d
  let known ← (← requiredFacts d).mapM (Congruence.Checked.labelFact v)
  let wanted := d.insert.vars.map Symbol.name
  let facts ← (← model d).facts.mapM (labelled v)
  Congruence.Checked.byQuantifiers v ((facts.filter fun (_, label, names) =>
    !known.contains label && !names.contains goalName && names.any wanted.contains).map Prod.fst)

def rule (d : Draft) : Except Fault Rule := do
  return { d.rule with
    pattern := ← vocabulary d
    required := ← requiredFacts d
    optional := ← optionalFacts d }

def equationRule (name : Text) (assertion find other : Term) (allowNew : Bool) :
    Except Fault (Option Rule) := do
  if !find.isApplication then return none
  else
    let r ← rule (Draft.mk name assertion find other assertion false allowNew true)
    return some { r with smallEnd := find.names.length < other.names.length }

def goalRule (name : Text) (assertion premise conclusion : Term) (allowNew : Bool) :
    Except Fault Rule :=
  let goal := Term.universal goalName .boolean
  let insert := Term.equal (.disj premise goal) goal
  rule (Draft.mk name assertion (.equal conclusion goal) insert insert true allowNew false)

def rulesOf (name : Text) (assertion : Term) (allowNew : Bool) : Except Fault (List Rule) := do
  let whole := rule (Draft.mk name assertion assertion assertion assertion false allowNew false)
  if assertion.vars.isEmpty then return [← whole]
  else match assertion.operator?.bind Connective.named? with
    | some .equality =>
      let (a, b) ← assertion.sides
      return (← equationRule (name ++ "_left") assertion a b allowNew).toList ++
        (← equationRule (name ++ "_right") assertion b a allowNew).toList
    | some .implication =>
      let (premise, conclusion) ← assertion.sides
      return [← goalRule (name ++ "_goalSearch") assertion premise conclusion allowNew,
        ← rule (Draft.mk name assertion premise conclusion conclusion true allowNew false)]
    | _ => return [← whole]

theorem requiredModel_eq (d : Draft) : requiredModel d = .ok d.requiredModel := by
  unfold requiredModel Draft.requiredModel
  split
  · rfl
  · split
    · exact assumed_eq Model.closed_empty d.required
    · rw [Congruence.Checked.represent_eq Model.closed_empty.filed]
      rfl

theorem model_eq (d : Draft) : model d = .ok d.model := by
  rw [model, requiredModel_eq, Draft.model]
  dsimp only [bind, Except.bind]
  split
  · rw [Congruence.Checked.represent_eq d.closed_requiredModel.filed]
    rfl
  · rfl

theorem vocabulary_eq (d : Draft) : vocabulary d = .ok d.vocabulary := by
  rw [vocabulary, model_eq]
  rfl

theorem requiredFacts_eq (d : Draft) : requiredFacts d = .ok d.requiredFacts := by
  have hm := d.closed_requiredModel
  rw [requiredFacts, requiredModel_eq]
  exact Congruence.Checked.byQuantifiers_eq hm.filed.vocabulary fun f hf s hs =>
    hm.symbols_fact_lt hf s (List.mem_append_left _ hs)

theorem optionalFacts_eq (d : Draft) : optionalFacts d = .ok d.optionalFacts := by
  have hv := d.wellFormed_vocabulary
  have hfact : ∀ f ∈ d.model.facts, ∀ s ∈ f.app.places ++ [f.result], s < d.vocabulary.size :=
    fun f hf s hs =>
      Nat.lt_of_lt_of_le (d.closed_model.1.symbols_fact_lt hf s hs) d.vocabulary_spec.2.size_le
  have hlabelled : ∀ f ∈ d.model.facts, labelled d.vocabulary f =
      .ok (f, f.label d.vocabulary, f.app.names d.vocabulary) := by
    intro f hf
    rw [labelled, Congruence.Checked.labelFact_eq hv (hfact f hf),
      Congruence.Checked.names_eq hv fun s hs => hfact f hf s (List.mem_append_left _ hs)]
    rfl
  rw [optionalFacts, vocabulary_eq]
  dsimp only [bind, Except.bind]
  rw [requiredFacts_eq]
  dsimp only
  rw [mapM_eq_ok fun f hf => Congruence.Checked.labelFact_eq hv (Draft.symbols_required_lt hf),
    model_eq]
  dsimp only
  rw [mapM_eq_ok hlabelled]
  dsimp only
  rw [List.filter_map, List.map_map, Congruence.Checked.byQuantifiers_eq hv]
  · rw [Draft.optionalFacts]
    simp [Function.comp_def]
  · intro f hf s hs
    simp only [List.mem_map, List.mem_filter, Function.comp_apply] at hf
    obtain ⟨f, ⟨hf, -⟩, rfl⟩ := hf
    exact hfact f hf s (List.mem_append_left _ hs)

theorem rule_eq (d : Draft) : rule d = .ok d.rule := by
  rw [rule, vocabulary_eq, requiredFacts_eq, optionalFacts_eq]
  rfl

theorem equationRule_eq (name : Text) (assertion find other : Term) (allowNew : Bool) :
    equationRule name assertion find other allowNew =
      .ok (Search.equationRule name assertion find other allowNew) := by
  rw [equationRule, rule_eq, Search.equationRule]
  split <;> rfl

theorem rulesOf_eq (name : Text) (assertion : Term) (allowNew : Bool) :
    rulesOf name assertion allowNew = Search.rulesOf name assertion allowNew := by
  unfold rulesOf Search.rulesOf
  dsimp only
  rw [rule_eq]
  split
  · rfl
  · generalize assertion.operator?.bind Connective.named? = op
    match op with
    | some .equality =>
      cases assertion.sides with
      | error f => rfl
      | ok sides =>
        dsimp only [bind, Except.bind]
        rw [equationRule_eq, equationRule_eq]
    | some .implication =>
      cases assertion.sides with
      | error f => rfl
      | ok sides =>
        dsimp only [bind, Except.bind]
        rw [goalRule, rule_eq, rule_eq]
        rfl
    | some .conjunction | some .disjunction | none => rfl

end Drafts

end Checked

theorem Draft.formed_rule (d : Draft) : d.rule.Formed :=
  ⟨d.wellFormed_vocabulary, fun _ hp => Draft.symbols_required_lt hp,
    fun _ hp => Draft.symbols_optional_lt hp⟩

theorem formed_rulesOf {name : Text} {assertion : Term} {allowNew : Bool} {rules : List Rule}
    (h : rulesOf name assertion allowNew = .ok rules) : ∀ r ∈ rules, r.Formed := by
  intro r hr
  cases stems_of_rulesOf h hr with
  | whole => exact Draft.formed_rule _
  | equation label find other smallEnd =>
    obtain ⟨hpattern, hrequired, hoptional⟩ :=
      (Draft.mk label assertion find other assertion false allowNew true).formed_rule
    exact ⟨hpattern, hrequired, hoptional⟩
  | backward => exact Draft.formed_rule _
  | forward => exact Draft.formed_rule _

namespace Checked

section Offers

variable (r : Rule)

def startBindings (ob : Obligation) : Except Fault (List Binding) := do
  let unbound := Binding.unbound r.vars
  if r.pattern.contains goalName then
    return (← openGoals ob).map fun g => unbound.set goalName g
  else return [unbound]

def narrow (m : Model) (bindings : List Binding) (f : Fact) : Except Fault (List Binding) := do
  let narrowed ← Congruence.Checked.join m r.pattern bindings f
  return if narrowed.isEmpty then bindings else narrowed

def findMatches (ob : Obligation) (reach : Reach) : Except Fault (List Binding) := do
  let joined ← (reach.first r.required).foldlM (Congruence.Checked.join ob.model r.pattern)
    (← startBindings r ob)
  match reach.after r.required.length with
  | none => return []
  | some reach => (reach.first r.optional).foldlM (narrow r ob.model) joined

def findByKind (ob : Obligation) : Except Fault (List Binding) :=
  match r.pattern.universals with
  | [wild] => do
    let e ← r.pattern.entryAt (← r.pattern.indexOf wild)
    return ((ob.model.vocabulary.rootsOfKind e.kind).filter (· != wild)).map fun actual =>
      (Binding.unbound r.vars).set wild actual
  | _ => return []

def valueOf (b : Binding) (name : Text) : Except Fault Text := do
  let own := b.get name
  if !own.isEmpty then return own
  else if r.pattern.contains name then return b.get (← r.pattern.rootNameOf name)
  else return ""

def bindsInsert (b : Binding) : Except Fault Bool := do
  let values ← r.insertVariables.mapM fun v => valueOf r b v.name
  return values.all (!·.isEmpty)

def present (v : Vocabulary) (value : Text) : Except Fault Text :=
  if !value.isEmpty && v.contains value then v.rootNameOf value else .ok value

def bindingKey (v : Vocabulary) (b : Binding) : Except Fault Text := do
  let vars ← r.pattern.vars.mapM fun name => return (name, ← r.pattern.usageOf name)
  let parts ← (vars.filter fun x => x.2.isQuantified).mapM fun (name, _) => do
    return name ++ "=" ++ (← present v (← valueOf r b name)) ++ ";"
  return Text.join parts

def search (ob : Obligation) (reach : Reach) : Except Fault (List Binding) :=
  if r.searchesByKind then findByKind r ob else findMatches r ob reach

def offer (ob : Obligation) (reach : Reach) (o : Offers) : Except Fault (Nat × Offers) := do
  if r.isGround then return (1, { o with pending := [] })
  else
    let v := ob.model.vocabulary
    let bindings ← (← search r ob reach).mapM fun b => return (b, ← bindsInsert r b)
    let found ← (bindings.filter Prod.snd).mapM fun (b, _) =>
      return Offer.mk b (← bindingKey r v b) (v.score b)
    let fresh := firstOfKey Offer.key (found.filter fun f => !o.taken.contains f.key)
    let pending := fresh.mergeSort fun a b => a.score ≤ b.score
    return (pending.length, { o with pending })

def instantiate (m : Model) (b : Binding) : Except Fault Term := do
  let values ← r.insertVariables.mapM fun v => do
    return (v.name, Term.symbol ⟨← valueOf r b v.name, v.kind, .free⟩)
  Congruence.Checked.simplify m (r.insert.substitute values)

def draw (m : Model) : (pending : List Offer) → (taken : List Text) →
    Except Fault (Option Candidate × List Offer × List Text)
  | [], taken => .ok (none, [], taken)
  | o :: rest, taken => do
    let t ← instantiate r m o.binding
    if t.isTrivialEquation then draw m rest (o.key :: taken)
    else return (some ⟨r.name, t, o.binding, o.score⟩, rest, o.key :: taken)

def next (m : Model) (o : Offers) : Except Fault (Option Candidate × Offers) := do
  if r.isGround then
    if o.used then return (none, o)
    else return (some { rule := r.name, term := r.insert }, { o with used := true })
  else
    let (c, pending, taken) ← draw r m o.pending o.taken
    return (c, { o with pending, taken })

def isUnmatchable (v : Vocabulary) : Except Fault Bool := do
  let operators ← r.required.mapM fun f => do
    let name ← r.pattern.nameAt (r.pattern.root f.app.op)
    return (name, ← r.pattern.usageOf name)
  return operators.any fun x => !x.2.isVariable && !v.contains x.1

def rank (applied : Int) (helpers : List Text) (v : Vocabulary) : Except Fault Int := do
  let unmatchable ← isUnmatchable r v
  return Decimal.wrapped (applied + (if r.smallEnd then 1 else 0) +
    (if unmatchable || !r.hasHelper helpers v then unmatchablePenalty else 0))

end Offers

section Offers

variable {r : Rule} {ob : Obligation} {m : Model}

theorem startBindings_eq (r : Rule) (h : ob.Posed) :
    startBindings r ob = .ok (r.startBindings ob) := by
  rw [startBindings, openGoals_eq h, Rule.startBindings]
  split <;> rfl

theorem findMatches_eq (hr : r.Formed) (h : ob.Posed) (reach : Reach) :
    findMatches r ob reach = .ok (r.findMatches ob reach) := by
  have hjoin : (reach.first r.required).foldlM (Congruence.Checked.join ob.model r.pattern)
      (r.startBindings ob) =
        .ok ((reach.first r.required).foldl (ob.model.join r.pattern) (r.startBindings ob)) := by
    refine foldlM_eq_ok (P := fun _ => True) (fun bindings _ p hp => ⟨?_, trivial⟩) trivial
    exact Congruence.Checked.join_eq h.model hr.pattern
      (hr.required_lt p (reach.first_subset _ hp)) bindings
  have hnarrow (reach : Reach) (bindings : List Binding) :
      (reach.first r.optional).foldlM (narrow r ob.model) bindings =
        .ok ((reach.first r.optional).foldl (r.narrow ob.model) bindings) := by
    refine foldlM_eq_ok (P := fun _ => True) (fun bindings _ p hp => ⟨?_, trivial⟩) trivial
    rw [narrow, Congruence.Checked.join_eq h.model hr.pattern
      (hr.optional_lt p (reach.first_subset _ hp))]
    rfl
  rw [findMatches, startBindings_eq r h, ok_bind, hjoin, ok_bind, Rule.findMatches]
  cases reach.after r.required.length with
  | none => rfl
  | some rest => exact hnarrow rest _

theorem findByKind_eq (hr : r.Formed) (ob : Obligation) :
    findByKind r ob = .ok (r.findByKind ob) := by
  unfold findByKind Rule.findByKind
  cases hu : r.pattern.universals with
  | nil => rfl
  | cons wild rest =>
    cases rest with
    | cons _ _ => rfl
    | nil =>
      obtain ⟨i, hi⟩ := Vocabulary.exists_lookup?_of_mem_namesWhere hr.pattern
        (show wild ∈ r.pattern.namesWhere _ from hu ▸ List.mem_singleton_self wild)
      dsimp only
      rw [Vocabulary.indexOf_eq hi]
      dsimp only [bind, Except.bind]
      rw [Vocabulary.entryAt_eq (hr.pattern.lt_of_lookup? hi), Vocabulary.entryOf, hi]
      rfl

theorem valueOf_eq (r : Rule) (b : Binding) (name : Text) :
    valueOf r b name = .ok (r.valueOf b name) := by
  unfold valueOf Rule.valueOf
  dsimp only
  split
  · rfl
  · rw [Vocabulary.contains_eq, Vocabulary.rootOf?]
    cases hi : r.pattern.lookup? name with
    | none => rfl
    | some i =>
      rw [Vocabulary.rootNameOf_eq hi]
      rfl

theorem bindsInsert_eq (r : Rule) (b : Binding) : bindsInsert r b = .ok (r.bindsInsert b) := by
  rw [bindsInsert, mapM_eq_ok fun v _ => valueOf_eq r b v.name]
  refine congrArg Except.ok ?_
  rw [List.all_map]
  rfl

theorem present_eq (v : Vocabulary) (value : Text) : present v value =
    .ok ((if value.isEmpty then none else (v.rootOf? value).map v.name).getD value) := by
  rw [present, Vocabulary.contains_eq, Vocabulary.rootOf?]
  cases value.isEmpty with
  | true => rfl
  | false =>
    cases hi : v.lookup? value with
    | none => rfl
    | some i => exact Vocabulary.rootNameOf_eq hi

theorem bindingKey_eq (hr : r.Formed) (v : Vocabulary) (b : Binding) :
    bindingKey r v b = .ok (r.bindingKey v b) := by
  have husage : ∀ name ∈ r.pattern.vars, (do return (name, ← r.pattern.usageOf name) :
      Except Fault (Text × Usage)) = .ok (name, (r.pattern.entryOf name).usage) := by
    intro name hname
    obtain ⟨i, hi⟩ := Vocabulary.exists_lookup?_of_mem_namesWhere hr.pattern hname
    rw [Vocabulary.usageOf_eq hi, Vocabulary.entryOf, hi]
    rfl
  have hpart (x : Text × Usage) : (do return x.1 ++ "=" ++ (← present v (← valueOf r b x.1)) ++ ";" :
      Except Fault Text) = .ok (x.1 ++ "=" ++ ((if (r.valueOf b x.1).isEmpty then none
        else (v.rootOf? (r.valueOf b x.1)).map v.name).getD (r.valueOf b x.1)) ++ ";") := by
    rw [valueOf_eq]
    dsimp only [bind, Except.bind]
    rw [present_eq]
    rfl
  rw [bindingKey, mapM_eq_ok husage, ok_bind, mapM_eq_ok fun x _ => hpart x, ok_bind,
    Rule.bindingKey, ← Vocabulary.filter_vars hr.pattern]
  refine congrArg Except.ok (congrArg Text.join ?_)
  rw [List.filter_map, List.map_map]
  rfl

theorem search_eq (hr : r.Formed) (h : ob.Posed) (reach : Reach) :
    search r ob reach = .ok (r.search ob reach) := by
  unfold search Rule.search
  split
  · exact findByKind_eq hr ob
  · exact findMatches_eq hr h reach

theorem offer_eq (hr : r.Formed) (h : ob.Posed) (reach : Reach) (o : Offers) :
    offer r ob reach o = .ok (r.offer ob reach o) := by
  have hbinds : ∀ b ∈ r.search ob reach, (do return (b, ← bindsInsert r b) :
      Except Fault (Binding × Bool)) = .ok (b, r.bindsInsert b) := fun b _ => by
    rw [bindsInsert_eq]
    rfl
  have hoffer (x : Binding × Bool) : (do
      return Offer.mk x.1 (← bindingKey r ob.model.vocabulary x.1) (ob.model.vocabulary.score x.1) :
        Except Fault Offer) = .ok (Offer.mk x.1 (r.bindingKey ob.model.vocabulary x.1)
          (ob.model.vocabulary.score x.1)) := by
    rw [bindingKey_eq hr]
    rfl
  unfold offer Rule.offer
  split
  · rfl
  · rw [search_eq hr h]
    dsimp only
    rw [ok_bind, mapM_eq_ok hbinds, ok_bind, mapM_eq_ok fun x _ => hoffer x, ok_bind]
    simp only [List.filter_map, List.map_map, Function.comp_def]
    rfl

theorem instantiate_eq (r : Rule) (hm : m.Closed) (b : Binding) :
    instantiate r m b = .ok (r.instantiate m b) := by
  have hvalues : ∀ v ∈ r.insertVariables, (do
      return (v.name, Term.symbol ⟨← valueOf r b v.name, v.kind, .free⟩) : Except Fault (Text × Term)) =
      .ok (v.name, Term.symbol ⟨r.valueOf b v.name, v.kind, .free⟩) := fun v _ => by
    rw [valueOf_eq]
    rfl
  rw [instantiate, mapM_eq_ok hvalues]
  exact Congruence.Checked.simplify_eq hm _

theorem draw_eq (r : Rule) (hm : m.Closed) (pending : List Offer) (taken : List Text) :
    draw r m pending taken = .ok (r.draw m pending taken) := by
  induction pending generalizing taken with
  | nil => rfl
  | cons o rest ih =>
    rw [draw, instantiate_eq r hm, Rule.draw]
    dsimp only [bind, Except.bind]
    split
    · exact ih _
    · rfl

theorem next_eq (r : Rule) (hm : m.Closed) (o : Offers) : next r m o = .ok (r.next m o) := by
  rw [next, draw_eq r hm, Rule.next]
  split
  · split <;> rfl
  · rfl

theorem isUnmatchable_eq (hr : r.Formed) (v : Vocabulary) :
    isUnmatchable r v = .ok (r.isUnmatchable v) := by
  have hoperator : ∀ f ∈ r.required, (do
      let name ← r.pattern.nameAt (r.pattern.root f.app.op)
      return (name, ← r.pattern.usageOf name) : Except Fault (Text × Usage)) =
      .ok (r.pattern.rootName f.app.op, r.pattern.usage (r.pattern.root f.app.op)) := by
    intro f hf
    have hlt := hr.pattern.root_lt (hr.required_lt f hf f.app.op f.op_mem_symbols)
    rw [Vocabulary.nameAt_eq hlt]
    dsimp only [bind, Except.bind]
    rw [Vocabulary.usageOf_eq (hr.pattern.lookup?_name hlt)]
    rfl
  rw [isUnmatchable, mapM_eq_ok hoperator]
  refine congrArg Except.ok ?_
  rw [List.any_map]
  rfl

theorem rank_eq (hr : r.Formed) (applied : Int) (helpers : List Text) (v : Vocabulary) :
    rank r applied helpers v = .ok (r.rank applied helpers v) := by
  rw [rank, isUnmatchable_eq hr]
  rfl

end Offers

end Checked

end Discharge.Search
