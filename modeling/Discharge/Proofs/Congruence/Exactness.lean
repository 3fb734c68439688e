import Discharge.Proofs.Congruence.Joining
import Discharge.Proofs.Congruence.Patterns

/-!
Matching is exact. The matches of a term in a model are the ways to name its variables by roots of
the model so that the model knows the term, each found once, and the symbol that stands for the term
in its pattern is bound to the class that the model knows. A match is right because solved facts
carry over, from the leaves of the term up. No match is missed because what the model knows of the
term is an interpretation of its pattern, whose values are a choice of classes that realizes every
fact; only in a contradictory model, where the rules of the connectives about `false` are no longer
applied, matches of terms that mention `false` may be missed.
-/

namespace Discharge.Congruence.Model

variable {m : Model} {t : Term} {b : Binding}

section Sound

theorem mem_byQuantifiers {v : Vocabulary} {facts : List Fact} {p : Fact} :
    p ∈ Fact.byQuantifiers v facts ↔ p ∈ facts := by
  simp [Fact.byQuantifiers]

theorem solves_of_mem_matchesOf (hm : m.Closed) (hnames : m.vocabulary.Named)
    (hb : b ∈ m.matchesOf t) : b.Fits (pattern t).vocabulary m ∧
      ∀ p ∈ (pattern t).facts, b.Solves (pattern t).vocabulary m p := by
  have hp := closed_pattern t
  have hlt : ∀ p ∈ Fact.byQuantifiers (pattern t).vocabulary (pattern t).facts,
      ∀ s ∈ p.app.places ++ [p.result], s < (pattern t).vocabulary.size :=
    fun p hmem => hp.symbols_fact_lt (mem_byQuantifiers.mp hmem)
  have hfits : ∀ c ∈ [Binding.unbound (pattern t).vocabulary.vars],
      c.Fits (pattern t).vocabulary m := by
    simpa using Binding.fits_unbound (pattern t).vocabulary m
  obtain ⟨-, -, -, -, hsolves⟩ := solves_of_mem_foldl_join hm hnames hp.filed.vocabulary _ hlt
    (fun c hc => (hfits c hc).rooted) hb
  exact ⟨fits_of_mem_foldl_join hm hp.filed.vocabulary _ hlt hfits hb,
    fun p hmem => hsolves p (mem_byQuantifiers.mpr hmem)⟩

theorem exchanges_of_class? (hm : m.Closed) (hc : m.Confined) (hr : t.Regular) (hq : t.Schematic)
    {i op : Nat} (hi : i < (pattern t).vocabulary.size) (hroot : (pattern t).root i = i)
    (hcomm : isCommutative ((pattern t).vocabulary.name i) = true)
    (hop : b.class? (pattern t).vocabulary m i = some op) :
    isCommutative (m.vocabulary.rootName op) = true := by
  have hconst := not_isVariable_pattern hr hq hi hcomm
  rw [Binding.class?_of_root hroot, hconst, if_neg (by simp), Vocabulary.rootOf?,
    Option.map_eq_some_iff] at hop
  obtain ⟨j, hj, rfl⟩ := hop
  have hv := hm.filed.vocabulary
  rw [Vocabulary.rootName, hv.root_root]
  refine hc.keepsExchanges hv j (hv.lt_of_lookup? hj) ?_
  rw [hv.name_of_lookup? hj]
  exact hcomm

theorem result?_of_solves_perm (hm : m.Closed) (hc : m.Confined) (hr : t.Regular)
    (hq : t.Schematic) {p : Fact} (hp : p ∈ (pattern t).facts)
    (hb : b.Solves (pattern t).vocabulary m p) {is : List Nat} (hperm : p.app.args.Perm is)
    (hsame : p.app.args = is ∨ isCommutative ((pattern t).vocabulary.name p.app.op) = true) :
    ∃ op js, b.class? (pattern t).vocabulary m p.app.op = some op ∧
      is.map (b.class? (pattern t).vocabulary m) = js.map some ∧
      m.result? ⟨op, js⟩ = b.class? (pattern t).vocabulary m p.result := by
  obtain ⟨op, args, r, hop, hargs, hres, hfound⟩ := hm.result?_of_solves hb
  rcases hsame with rfl | hcomm
  · exact ⟨op, args, hop, hargs, hfound.trans hres.symm⟩
  · -- The operator is a connective of the pattern and of the model, so there are two operands.
    have hclosed := closed_pattern t
    have hlen := (confined_pattern hr.wellApplied).length_args hclosed.filed.vocabulary hp hcomm
    obtain ⟨x, y, hxy⟩ := List.length_eq_two.mp hlen
    have hmem := p.op_mem_symbols
    have hexchange := exchanges_of_class? hm hc hr hq (hclosed.symbols_fact_lt hp _ hmem)
      (hclosed.root_fact hp _ hmem) hcomm hop
    rw [hxy] at hargs hperm
    obtain ⟨a, c, rfl⟩ : ∃ a c, args = [a, c] := by
      refine List.length_eq_two.mp ?_
      have hlength := congrArg List.length hargs
      simpa using hlength.symm
    simp only [List.map_cons, List.map_nil, List.cons.injEq, and_true] at hargs
    rcases List.pair_perm.mp hperm with rfl | rfl
    · exact ⟨op, [a, c], hop, by simp [hargs], hfound.trans hres.symm⟩
    · refine ⟨op, [c, a], hop, by simp [hargs], ?_⟩
      rw [hres, ← hfound]
      exact result?_perm hexchange (List.Perm.swap _ _ _)

mutual

theorem find?_under_of_solves (hm : m.Closed) (hc : m.Confined) (hr : t.Regular)
    (hq : t.Schematic) (hb : ∀ p ∈ (pattern t).facts, b.Solves (pattern t).vocabulary m p)
    (u : Term) (hu : u.applicative = true) (hsub : ∀ s ∈ u.symbols, s ∈ t.symbols) {i : Nat}
    (hi : (pattern t).find? u = some i) :
    m.find? (u.under b.get) = b.class? (pattern t).vocabulary m i := by
  have hp := closed_pattern t
  have hv := hp.filed.vocabulary
  match u with
  | .symbol s =>
    rw [find?_symbol, Vocabulary.rootOf?, Option.map_eq_some_iff] at hi
    obtain ⟨j, hj, rfl⟩ := hi
    obtain ⟨hroot, hvar⟩ := symbol_pattern hr hq (hsub s List.mem_cons_self) hj
    rw [find?_under_symbol, Binding.class?_root hv, Binding.class?_of_root hroot, hvar,
      hv.name_of_lookup? hj, Symbol.nameUnder]
    simp only [decide_eq_true_eq]
  | .apply fn args k =>
    rw [Term.applicative, Bool.and_eq_true] at hu
    rw [Term.symbols] at hsub
    rw [find?_apply_eq hp] at hi
    simp only [Option.bind_eq_some_iff] at hi
    obtain ⟨op, hop, is, his, hres⟩ := hi
    -- The pattern found the application through a fact, which the binding takes to the model.
    obtain ⟨f, hf, rfl, hfop, hperm, hsame⟩ := hp.exists_fact hres
    obtain ⟨op', js, hop', hjs, hfound⟩ :=
      result?_of_solves_perm hm hc hr hq hf (hb f hf) hperm hsame
    have hfn := find?_under_of_solves hm hc hr hq hb fn hu.1
      (fun s hs => hsub s (List.mem_append_left _ hs)) hop
    have hclasses : is.map (b.class? (pattern t).vocabulary m) = js.map some := by
      rw [← hjs, List.map_map]
      exact List.map_congr_left fun s _ => (Binding.class?_root hv s).symm
    have hargs := findAll?_under_of_solves hm hc hr hq hb args hu.2
      (fun s hs => hsub s (List.mem_append_right _ hs)) his hclasses
    rw [hfop] at hop'
    rw [Term.under, find?_apply_eq hm, hfn, hargs, ← Binding.class?_root hv, ← hfound]
    change (b.class? _ m ((pattern t).root op)).bind _ = _
    rw [hop']
    rfl
  | .lambda _ _ _ => simp [Term.applicative] at hu
  | .cases _ _ _ => simp [Term.applicative] at hu

theorem findAll?_under_of_solves (hm : m.Closed) (hc : m.Confined) (hr : t.Regular)
    (hq : t.Schematic) (hb : ∀ p ∈ (pattern t).facts, b.Solves (pattern t).vocabulary m p)
    (us : List Term) (hus : Term.applicativeAll us = true)
    (hsub : ∀ s ∈ Term.symbolsAll us, s ∈ t.symbols) {is js : List Nat}
    (his : (pattern t).findAll? us = some is)
    (hjs : is.map (b.class? (pattern t).vocabulary m) = js.map some) :
    m.findAll? (Term.underAll b.get us) = some js := by
  match us with
  | [] =>
    rw [findAll?] at his
    cases his
    rw [Term.underAll, findAll?, List.map_eq_nil_iff.mp hjs.symm]
  | u :: rest =>
    rw [Term.applicativeAll, Bool.and_eq_true] at hus
    rw [Term.symbolsAll] at hsub
    rw [findAll?] at his
    simp only [bind, Option.bind_eq_some_iff, pure, Option.some.injEq] at his
    obtain ⟨i, hi, ks, hks, rfl⟩ := his
    obtain ⟨j, js, rfl⟩ : ∃ j js', js = j :: js' := by
      cases js with
      | nil => simp at hjs
      | cons j js => exact ⟨j, js, rfl⟩
    simp only [List.map_cons, List.cons.injEq] at hjs
    have hfirst := find?_under_of_solves hm hc hr hq hb u hus.1
      (fun s hs => hsub s (List.mem_append_left _ hs)) hi
    have hrest := findAll?_under_of_solves hm hc hr hq hb rest hus.2
      (fun s hs => hsub s (List.mem_append_right _ hs)) hks hjs.2
    rw [Term.underAll, findAll?, hfirst, hjs.1, hrest]
    rfl

end

mutual

theorem exists_rootOf?_of_find? {σ : Text → Text} (hm : m.Closed) (u : Term)
    (hu : u.applicative = true) {r : Nat} (h : m.find? (u.under σ) = some r) :
    ∀ s ∈ u.symbols, ∃ i, m.vocabulary.rootOf? (s.nameUnder σ) = some i := by
  match u with
  | .symbol s =>
    rw [find?_under_symbol] at h
    intro s' hs'
    rw [List.mem_singleton.mp hs']
    exact ⟨r, h⟩
  | .apply fn args k =>
    rw [Term.applicative, Bool.and_eq_true] at hu
    rw [Term.under, find?_apply_eq hm] at h
    simp only [Option.bind_eq_some_iff] at h
    obtain ⟨op, hop, is, his, -⟩ := h
    intro s hs
    rcases List.mem_append.mp hs with hs | hs
    · exact exists_rootOf?_of_find? hm fn hu.1 hop s hs
    · exact exists_rootOf?_of_findAll? hm args hu.2 his s hs
  | .lambda _ _ _ => simp [Term.applicative] at hu
  | .cases _ _ _ => simp [Term.applicative] at hu

theorem exists_rootOf?_of_findAll? {σ : Text → Text} (hm : m.Closed) (us : List Term)
    (hus : Term.applicativeAll us = true) {is : List Nat}
    (h : m.findAll? (Term.underAll σ us) = some is) :
    ∀ s ∈ Term.symbolsAll us, ∃ i, m.vocabulary.rootOf? (s.nameUnder σ) = some i := by
  match us with
  | [] => simp [Term.symbolsAll]
  | u :: rest =>
    rw [Term.applicativeAll, Bool.and_eq_true] at hus
    rw [Term.underAll, findAll?] at h
    simp only [bind, Option.bind_eq_some_iff, pure, Option.some.injEq] at h
    obtain ⟨i, hi, js, hjs, -⟩ := h
    intro s hs
    rcases List.mem_append.mp hs with hs | hs
    · exact exists_rootOf?_of_find? hm u hus.1 hi s hs
    · exact exists_rootOf?_of_findAll? hm rest hus.2 hjs s hs

end

theorem find?_of_mem_matchesOf (hm : m.Closed) (hc : m.Confined) (hnames : m.vocabulary.Named)
    (hr : t.Regular) (hq : t.Schematic) (happ : t.isApplication = true) (hb : b ∈ m.matchesOf t) :
    (∀ x ∈ t.vars, m.IsRootName (b.get x.name)) ∧ ∃ r, m.find? (t.under b.get) = some r ∧
      b.class? (pattern t).vocabulary m (patternResult t) = some r := by
  obtain ⟨hfits, hsolves⟩ := solves_of_mem_matchesOf hm hnames hb
  have hp := closed_pattern t
  have hresult := find?_pattern hr.wellApplied
  have happlicative := hr.applicative
  have hfind := find?_under_of_solves hm hc hr hq hsolves t happlicative (fun _ hs => hs) hresult
  obtain ⟨r, hclass⟩ :
      ∃ r, b.class? (pattern t).vocabulary m (patternResult t) = some r := by
    cases t with
    | apply fn args k =>
      rw [find?_apply_eq hp] at hresult
      simp only [Option.bind_eq_some_iff] at hresult
      obtain ⟨op, -, is, -, hres⟩ := hresult
      obtain ⟨f, hf, hfres, -⟩ := hp.exists_fact hres
      obtain ⟨-, -, r, -, -, hclass, -⟩ := hm.result?_of_solves (hsolves f hf)
      exact ⟨r, hfres ▸ hclass⟩
    | symbol s => simp [Term.isApplication, Term.arguments] at happ
    | lambda params body k => simp [Term.isApplication, Term.arguments] at happ
    | cases branches otherwise k => simp [Term.isApplication, Term.arguments] at happ
  refine ⟨?_, r, hfind.trans hclass, hclass⟩
  intro x hx
  obtain ⟨hmem, hu⟩ := Term.mem_vars hx
  obtain ⟨i, hi⟩ := exists_rootOf?_of_find? hm t happlicative (hfind.trans hclass) x hmem
  rw [Symbol.nameUnder, if_pos hu] at hi
  refine hfits.valued x.name ?_
  intro he
  rw [he, hnames.rootOf?_empty hm.filed.vocabulary] at hi
  cases hi

end Sound

section Distinct

variable {b' : Binding}

/-- The values of the variables determine what every symbol of the pattern stands for. -/
theorem class?_eq_of_vars (hm : m.Closed) (hr : t.Regular)
    (hb : ∀ p ∈ (pattern t).facts, b.Solves (pattern t).vocabulary m p)
    (hb' : ∀ p ∈ (pattern t).facts, b'.Solves (pattern t).vocabulary m p)
    (hvars : ∀ x ∈ t.vars, b.get x.name = b'.get x.name) (s : Nat)
    (hs : s < (pattern t).vocabulary.size) :
    b.class? (pattern t).vocabulary m s = b'.class? (pattern t).vocabulary m s := by
  have hv := (closed_pattern t).filed.vocabulary
  -- The induction is on age: a created symbol is the result of a fact about older ones.
  induction s using Nat.strongRecOn with
  | ind s ih =>
    by_cases hcreated : (pattern t).vocabulary.usage s = .created
    · obtain ⟨f, hf, hres, hplaces⟩ := exists_fact_of_created hs hcreated
      have hresult := hm.class?_result_eq (hb f hf) (hb' f hf) fun y hy => by
        obtain ⟨x, hx, rfl⟩ := hplaces y hy
        exact (Binding.class?_root hv x).trans
          ((ih x hx (Nat.lt_trans hx hs)).trans (Binding.class?_root hv x).symm)
      rw [hres] at hresult
      exact (Binding.class?_root hv s).symm.trans (hresult.trans (Binding.class?_root hv s))
    · have hroot := root_pattern hr hs hcreated
      rw [Binding.class?_of_root hroot, Binding.class?_of_root hroot]
      split
      · rename_i hu
        obtain ⟨x, hx, hname⟩ := exists_var_pattern hr hs hu hcreated
        rw [← hname, hvars x hx]
      · rfl

theorem eq_of_vars (hm : m.Closed) (hnames : m.vocabulary.Named) (hr : t.Regular)
    (hb : b ∈ m.matchesOf t) (hb' : b' ∈ m.matchesOf t)
    (hvars : ∀ x ∈ t.vars, b.get x.name = b'.get x.name) : b = b' := by
  obtain ⟨hfits, hsolves⟩ := solves_of_mem_matchesOf hm hnames hb
  obtain ⟨hfits', hsolves'⟩ := solves_of_mem_matchesOf hm hnames hb'
  have hclass := class?_eq_of_vars hm hr hsolves hsolves' hvars
  refine hfits'.ordered.eq_of_get_eq (hfits.names_eq.trans hfits'.names_eq.symm) ?_
  intro name _
  by_cases hempty : b.get name = "" ∧ b'.get name = ""
  · rw [hempty.1, hempty.2]
  · -- A variable that has a value in one of them is a root, so its class decides its value.
    obtain ⟨i, hi, rfl, hroot, hu⟩ : ∃ i < (pattern t).vocabulary.size,
        (pattern t).vocabulary.name i = name ∧ (pattern t).vocabulary.root i = i ∧
          ((pattern t).vocabulary.usage i).isVariable = true := by
      rcases not_and_or.mp hempty with hne | hne
      · exact hfits.rooted name hne
      · exact hfits'.rooted name hne
    refine hfits.get_eq hfits' hm.filed.vocabulary hnames ?_
    have hsame := hclass i hi
    rw [Binding.class?_of_root hroot, Binding.class?_of_root hroot, if_pos hu, if_pos hu] at hsame
    exact hsame

theorem pairwise_matchesOf (hm : m.Closed) (hnames : m.vocabulary.Named) (hr : t.Regular) :
    (m.matchesOf t).Pairwise fun b b' => ∃ x ∈ t.vars, b.get x.name ≠ b'.get x.name := by
  have hkeys : (m.matchesOf t).Pairwise fun b b' => b.key ≠ b'.key :=
    pairwise_foldl_join _ (List.pairwise_singleton _ _)
  refine hkeys.imp_of_mem ?_
  intro b b' hb hb' hne
  by_contra hall
  push Not at hall
  exact hne (congrArg Binding.key (eq_of_vars hm hnames hr hb hb' hall))

end Distinct

section Complete

/-- What the model knows, with names for the variables of a term. -/
noncomputable def knowledgeUnder (m : Model) (t : Term) (σ : Text → Text) :
    Interpretation Point where
  apply := m.knowledge.apply
  value name :=
    if name ∈ t.vars.map Symbol.name then
      ((m.vocabulary.rootOf? (σ name)).map Point.known).getD (.unknown name)
    else m.knowledge.value name

variable {σ : Text → Text}

theorem lawful_knowledgeUnder (hm : m.Closed) (hc : m.Confined) (hq : t.Schematic) :
    (m.knowledgeUnder t σ).Lawful := by
  refine (lawful_knowledge hm hc).of_value_eq rfl ?_
  intro name hname
  refine if_neg ?_
  intro hmem
  obtain ⟨x, hx, rfl⟩ := List.mem_map.mp hmem
  obtain ⟨hs, hu⟩ := Term.mem_vars hx
  exact hq.unreserved x hs hu hname

theorem value_knowledgeUnder (hq : t.Schematic)
    (hfalse : m.contradiction = false ∨ ∀ s ∈ t.symbols, s.name ≠ "false") {s : Symbol}
    (hs : s ∈ t.symbols) {i : Nat} (hi : m.vocabulary.rootOf? (s.nameUnder σ) = some i) :
    (m.knowledgeUnder t σ).value s.name = .known i := by
  rw [Symbol.nameUnder] at hi
  dsimp only [knowledgeUnder]
  split at hi
  · rename_i hu
    obtain ⟨x, hx, hname⟩ := Term.exists_mem_vars hs hu
    rw [if_pos (hname ▸ List.mem_map_of_mem hx), hi]
    rfl
  · rename_i hu
    have hfree : s.name ∉ t.vars.map Symbol.name := by
      intro hmem
      obtain ⟨x, hx, hname⟩ := List.mem_map.mp hmem
      obtain ⟨hxs, hxu⟩ := Term.mem_vars hx
      exact hu (hq.uniform x hxs s hs hname hxu)
    rw [if_neg hfree]
    exact value_knowledge_of_rootOf? (fun he => hfalse.resolve_right fun h => h s hs he) hi

theorem mem_orders_self (m : Model) (f : Fact) : f ∈ m.orders f := by
  unfold orders
  split
  · split <;> simp
  · simp

theorem exists_orders_of_grasp? (hm : m.Closed) (hc : m.Confined) {fn : Point} {args : List Point}
    {r : Nat} (h : m.grasp? fn args = some r) :
    ∃ f ∈ m.facts, ∃ g ∈ m.orders f,
      fn.index :: (args.map Point.index ++ [r]) = g.app.places ++ [g.result] := by
  obtain ⟨-, -, -, f, hf, rfl, hop, hperm, hsame⟩ := hm.exists_fact_of_grasp? h
  refine ⟨f, hf, ?_⟩
  rcases hsame with hargs | hcomm
  · refine ⟨f, mem_orders_self m f, ?_⟩
    rw [Application.places, hop, hargs]
    rfl
  · obtain ⟨x, y, hxy⟩ := List.length_eq_two.mp (hc.length_args hm.filed.vocabulary hf hcomm)
    have horders : m.orders f = [f, ⟨⟨f.app.op, [y, x]⟩, f.result⟩] := by
      simp only [orders, hxy, hcomm, if_true]
    rw [hxy] at hperm
    rcases List.pair_perm.mp hperm with hargs | hargs
    · refine ⟨f, mem_orders_self m f, ?_⟩
      rw [Application.places, hop, hxy, hargs]
      rfl
    · refine ⟨⟨⟨f.app.op, [y, x]⟩, f.result⟩, by simp [horders], ?_⟩
      rw [Application.places, hop, hargs]
      rfl

section Reading

variable {J : Interpretation Point}
  (hvalue : ∀ name, (∀ k, name ≠ Vocabulary.createdName k) →
    J.value name = (m.knowledgeUnder t σ).value name)

include hvalue

theorem rootOf?_of_constant (hr : t.Regular) (hq : t.Schematic) {s i : Nat}
    (hs : s < (pattern t).vocabulary.size)
    (hu : ((pattern t).vocabulary.usage s).isVariable = false)
    (hi : (pattern t).vocabulary.value J s = .known i) :
    m.vocabulary.rootOf? ((pattern t).vocabulary.name s) = some i := by
  have hcreated : (pattern t).vocabulary.usage s ≠ .created := by
    intro he
    rw [he] at hu
    cases hu
  have hfree : (pattern t).vocabulary.name s ∉ t.vars.map Symbol.name := by
    intro hname
    obtain ⟨x, hx, hxname⟩ := List.mem_map.mp hname
    obtain ⟨hxs, hxu⟩ := Term.mem_vars hx
    have hlookup := (closed_pattern t).filed.vocabulary.lookup_iff.mpr ⟨hs, hxname.symm⟩
    rw [(symbol_pattern hr hq hxs hlookup).2, hxu] at hu
    simp at hu
  refine rootOf?_of_value_knowledge ?_
  rw [Vocabulary.value, hvalue _ (name_ne_pattern hr hs hcreated)] at hi
  dsimp only [knowledgeUnder] at hi
  rw [if_neg hfree] at hi
  exact hi

theorem realizes_of_traces (hm : m.Closed) (hc : m.Confined) (hr : t.Regular) (hq : t.Schematic)
    (hap : J.apply = m.knowledge.apply) (hread : (pattern t).Reads J)
    (htraces : (pattern t).Traces J m.Grasps J) {p : Fact} (hp : p ∈ (pattern t).facts) :
    m.Realizes (pattern t).vocabulary (fun s => ((pattern t).vocabulary.value J s).index) p := by
  have hclosed := htraces.closed
  have hlt := hclosed.symbols_fact_lt hp
  obtain ⟨c, hgrasp⟩ := Option.isSome_iff_exists.mp
    (htraces.applies.fact hclosed htraces.agrees.respects hp)
  have hresult : (pattern t).vocabulary.value J p.result = .known c := by
    rw [htraces.agrees.value_fact hclosed hread hp, Application.value, hap]
    exact apply_of_grasp? hgrasp
  refine ⟨fun s hs => ⟨hlt s hs, hclosed.root_fact hp s hs⟩, ?_, ?_⟩
  · intro s hs hu
    obtain ⟨⟨op, hop, -⟩, hargs, -⟩ := hm.exists_fact_of_grasp? hgrasp
    obtain ⟨i, hi⟩ : ∃ i, (pattern t).vocabulary.value J s = .known i := by
      simp only [Application.places, List.cons_append, List.mem_cons, List.mem_append,
        List.not_mem_nil, or_false] at hs
      rcases hs with rfl | hs | rfl
      · exact ⟨op, hop⟩
      · obtain ⟨i, hi, -⟩ := exists_of_knows (hargs _ (List.mem_map_of_mem hs))
        exact ⟨i, hi⟩
      · exact ⟨c, hresult⟩
    rw [hi]
    exact rootOf?_of_constant hvalue hr hq (hlt s hs) hu hi
  · obtain ⟨f, hf, g, hg, heq⟩ := exists_orders_of_grasp? hm hc hgrasp
    refine ⟨f, hf, g, hg, ?_⟩
    rw [← heq]
    simp only [Application.places, List.cons_append, List.map_cons, List.map_append,
      List.map_nil, List.map_map, hresult]
    rfl

end Reading

theorem exists_realizes (hm : m.Closed) (hc : m.Confined) (hr : t.Regular) (hq : t.Schematic)
    (hfalse : m.contradiction = false ∨ ∀ s ∈ t.symbols, s.name ≠ "false") {r : Nat}
    (hfind : m.find? (t.under σ) = some r) :
    ∃ κ : Nat → Nat, (∀ p ∈ (pattern t).facts, m.Realizes (pattern t).vocabulary κ p) ∧
      ∀ x ∈ t.vars, ∀ i, (pattern t).vocabulary.lookup? x.name = some i →
        m.vocabulary.rootOf? (σ x.name) = some (κ i) := by
  have hp := closed_pattern t
  -- Created symbols are read as the applications that they stand for.
  obtain ⟨J, hap, hvalue, -, hread⟩ := (satisfied_empty (m.knowledgeUnder t σ)).exists_reading
    closed_empty.filed hp.filed (closed_represent closed_empty t).2.1
  have hsymbol : ∀ s ∈ t.symbols, ∀ i, m.vocabulary.rootOf? (s.nameUnder σ) = some i →
      J.value s.name = .known i := by
    intro s hs i hi
    rw [hvalue s.name (hr.not_created s hs)]
    exact value_knowledgeUnder hq hfalse hs hi
  have hJ : J.Lawful := lawful_of_reading (lawful_knowledgeUnder hm hc hq) hap hvalue
  obtain ⟨-, -, hthrough⟩ := read_of_find? hm hap t hr.applicative hsymbol hfind
  obtain ⟨htraces, -⟩ := (traces_empty J m.Grasps J).represent hJ (.refl J _) hread hthrough
  refine ⟨_, fun p hmem => realizes_of_traces hvalue hm hc hr hq hap hread htraces hmem, ?_⟩
  intro x hx i hi
  obtain ⟨hxs, hxu⟩ := Term.mem_vars hx
  obtain ⟨j, hj⟩ := exists_rootOf?_of_find? hm t hr.applicative hfind x hxs
  have hval := hsymbol x hxs j hj
  rw [Symbol.nameUnder, if_pos hxu] at hj
  dsimp only [Vocabulary.value]
  rw [hj, hp.filed.vocabulary.name_of_lookup? hi, hval]
  rfl

/-- No way to name the variables by roots so that the model knows the term is missed. -/
theorem exists_mem_matchesOf (hm : m.Closed) (hc : m.Confined)
    (hnamed : m.vocabulary.Named) (hcomma : m.vocabulary.All fun e => e.name.CommaFree)
    (hr : t.Regular) (hq : t.Schematic) (happ : t.isApplication = true)
    (hfalse : m.contradiction = false ∨ ∀ s ∈ t.symbols, s.name ≠ "false")
    (hσ : ∀ x ∈ t.vars, m.IsRootName (σ x.name)) {r : Nat}
    (hfind : m.find? (t.under σ) = some r) :
    ∃ b ∈ m.matchesOf t, ∀ x ∈ t.vars, b.get x.name = σ x.name := by
  have hv := (closed_pattern t).filed.vocabulary
  obtain ⟨κ, hrealizes, hvars⟩ := exists_realizes hm hc hr hq hfalse hfind
  obtain ⟨b, hb, hfollows⟩ := exists_mem_foldl_join hm hv hcomma
    (Fact.byQuantifiers (pattern t).vocabulary (pattern t).facts)
    (fun p hp => hrealizes p (mem_byQuantifiers.mp hp))
    (List.forall_mem_singleton.mpr (Binding.fits_unbound _ m)) List.mem_cons_self
    (fun s _ hne => (hne (Binding.get_unbound _ _)).elim)
  refine ⟨b, hb, ?_⟩
  intro x hx
  obtain ⟨hfits, -⟩ := solves_of_mem_matchesOf hm hnamed hb
  have hbound : b.get x.name ≠ "" := by
    obtain ⟨hroots, -⟩ := find?_of_mem_matchesOf hm hc hnamed hr hq happ hb
    obtain ⟨i, hi, -, hname⟩ := hroots x hx
    rw [← hname]
    exact hnamed.name_ne hi
  obtain ⟨i, hi, hname, -⟩ := hfits.rooted x.name hbound
  have hget := hfollows i hi (by rw [hname]; exact hbound)
  obtain ⟨j, hj, hjname⟩ := (hσ x hx).rootOf? hm.filed.vocabulary
  rw [hvars x hx i (hv.lookup_iff.mpr ⟨hi, hname⟩)] at hj
  rw [← hname, hget, Option.some.inj hj, hname]
  exact hjname

end Complete

/-- The matches of a term are exactly the ways to name its variables by roots so that the model
knows it. -/
theorem matchesOf_exact (inputs : List Input) (t : Term) (hin : ∀ i ∈ inputs, i.term.Regular)
    (hne : ∀ i ∈ inputs, ∀ s ∈ i.term.symbols, s.name ≠ "") (hr : t.Regular) (hq : t.Schematic)
    (happ : t.isApplication = true) :
    (∀ b ∈ (ofInputs inputs).matchesOf t,
      (∀ x ∈ t.vars, (ofInputs inputs).IsRootName (b.get x.name)) ∧
        ∃ r, (ofInputs inputs).find? (t.under b.get) = some r ∧
          b.class? (pattern t).vocabulary (ofInputs inputs) (patternResult t) = some r) ∧
    ((ofInputs inputs).matchesOf t).Pairwise
      (fun b b' => ∃ x ∈ t.vars, b.get x.name ≠ b'.get x.name) ∧
    ((ofInputs inputs).contradiction = false ∨ (∀ s ∈ t.symbols, s.name ≠ "false") →
      ∀ σ : Text → Text, (∀ x ∈ t.vars, (ofInputs inputs).IsRootName (σ x.name)) →
        ((ofInputs inputs).find? (t.under σ)).isSome = true →
        ∃ b ∈ (ofInputs inputs).matchesOf t, ∀ x ∈ t.vars, b.get x.name = σ x.name) := by
  have hm := closed_ofInputs inputs
  have hc := confined_ofInputs fun i hi => (hin i hi).wellApplied
  have hnamed := named_ofInputs hin hne
  refine ⟨fun b hb => find?_of_mem_matchesOf hm hc hnamed hr hq happ hb,
    pairwise_matchesOf hm hnamed hr, ?_⟩
  intro hfalse σ hσ hfind
  obtain ⟨r, hfind⟩ := Option.isSome_iff_exists.mp hfind
  exact exists_mem_matchesOf hm hc hnamed (commaFree_ofInputs hin) hr hq happ hfalse hσ hfind

def conjunctionInputs : List Input :=
  [.represent (.call "f" .boolean
    [.conj (.symbol ⟨"a", .boolean, .free⟩) (.symbol ⟨"b", .boolean, .free⟩)])]

/-- The operands of a conjunction are matched in either order. -/
theorem matchesOf_conjunctionInputs :
    let t : Term := .call "f" .boolean [.conj (.universal "x" .boolean) (.universal "y" .boolean)]
    (∀ i ∈ conjunctionInputs, i.term.Regular) ∧
      (∀ i ∈ conjunctionInputs, ∀ s ∈ i.term.symbols, s.name ≠ "") ∧ t.Regular ∧ t.Schematic ∧
      t.isApplication = true ∧ (ofInputs conjunctionInputs).contradiction = false ∧
      (∃ b ∈ (ofInputs conjunctionInputs).matchesOf t, b.get "x" = "a" ∧ b.get "y" = "b") ∧
      ∃ b ∈ (ofInputs conjunctionInputs).matchesOf t, b.get "x" = "b" ∧ b.get "y" = "a" := by
  intro t
  have hin : ∀ i ∈ conjunctionInputs, i.term.Regular :=
    List.forall_mem_singleton.mpr (Term.regular_of_startsWith (by decide) (by decide))
  have hne : ∀ i ∈ conjunctionInputs, ∀ s ∈ i.term.symbols, s.name ≠ "" :=
    List.forall_mem_singleton.mpr (by decide)
  have hr : t.Regular := Term.regular_of_startsWith (by decide) (by decide)
  have hq : t.Schematic := by decide
  have hc : (ofInputs conjunctionInputs).contradiction = false := by decide +kernel
  obtain ⟨-, -, hcomplete⟩ := matchesOf_exact conjunctionInputs t hin hne hr hq (by decide)
  obtain ⟨b, hb, hget⟩ := hcomplete (.inl hc) (fun n => if n = "x" then "a" else "b")
    (by decide +kernel) (by decide +kernel)
  obtain ⟨b', hb', hget'⟩ := hcomplete (.inl hc) (fun n => if n = "x" then "b" else "a")
    (by decide +kernel) (by decide +kernel)
  exact ⟨hin, hne, hr, hq, by decide, hc,
    ⟨b, hb, hget ⟨"x", .boolean, .universal⟩ (by decide),
      hget ⟨"y", .boolean, .universal⟩ (by decide)⟩,
    ⟨b', hb', hget' ⟨"x", .boolean, .universal⟩ (by decide),
      hget' ⟨"y", .boolean, .universal⟩ (by decide)⟩⟩

/-- Whether names for the variables of a term are missed by all its matches, although the model
knows the term under them. -/
def Misses (m : Model) (t : Term) (σ : Text → Text) : Prop :=
  (∀ x ∈ t.vars, m.IsRootName (σ x.name)) ∧ (m.find? (t.under σ)).isSome = true ∧
    ∀ b ∈ m.matchesOf t, ∃ x ∈ t.vars, b.get x.name ≠ σ x.name

instance (m : Model) (t : Term) (σ : Text → Text) : Decidable (m.Misses t σ) :=
  inferInstanceAs (Decidable (_ ∧ _ ∧ _))

/-- A match is missed in a contradictory model if the term mentions `false`, and so are matches of
quantified truth values and connectives, while values without a name let a match find too much. -/
theorem matchesOf_inexact :
    let x (name : Text) : Term := .symbol ⟨name, .boolean, .free⟩
    let v (name : Text) : Term := .universal name .boolean
    let t : Term := .conj .falsehood (v "y")
    ((∀ i ∈ contradictoryInputs, i.term.Regular) ∧ t.Regular ∧ t.Schematic ∧
      t.isApplication = true ∧ (ofInputs contradictoryInputs).Misses t fun _ => "x") ∧
    ((ofInputs [.represent (.call "g" .boolean [x "a"])]).Misses
      (.call "g" .boolean [v "true"]) fun _ => "a") ∧
    ((ofInputs [.represent (.call "h" .boolean [x "a", x "a"])]).Misses
      (.apply (v "=") [x "a", x "a"] .boolean) fun _ => "h") ∧
    ∃ b ∈ (ofInputs [.represent (.call "f" .boolean [x "", x "a"])]).matchesOf
        (.call "f" .boolean [v "x", v "x"]),
      (ofInputs [.represent (.call "f" .boolean [x "", x "a"])]).find?
        ((Term.call "f" .boolean [v "x", v "x"]).under b.get) = none := by
  intro x v t
  have hin : ∀ i ∈ contradictoryInputs, i.term.Regular := by
    refine List.forall_mem_cons.mpr ⟨?_, List.forall_mem_singleton.mpr ?_⟩
    · exact Term.regular_of_startsWith (by decide) (by decide)
    · exact Term.regular_of_startsWith (by decide) (by decide)
  have hr : t.Regular := Term.regular_of_startsWith (by decide) (by decide)
  refine ⟨⟨hin, hr, by decide, by decide, ?_⟩, ?_, ?_, ?_⟩
  · decide +kernel
  · decide +kernel
  · decide +kernel
  · decide +kernel

end Discharge.Congruence.Model
