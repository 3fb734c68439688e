import Discharge.Proofs.Search.Backward

namespace Discharge.Search

open Congruence

section Finding

variable {name : Text} {A P Q : Term} {allowNew : Bool} {b : Binding} {n : Model}
  {ob : Obligation}

/-- A theorem from whose conclusion the search works backwards to equal goals only. -/
structure Pursuable (A P Q : Term) : Prop where
  wellQuantified : A.WellQuantified
  /-- The theorem does not use the name that stands for the goal. -/
  reserved : ∀ v ∈ A.symbols, v.name ≠ goalName
  bindable : Q.bindable = true
  /-- The pattern does not decide the conclusion. -/
  intact : ∀ fn args k, Q = .apply fn args k → (goalDraft A P Q).Intact Q

theorem not_bindsInsert_of_leaf (hs : A.sides? = some (P, Q)) (hA : Pursuable A P Q)
    (hvars : A.vars ≠ []) (hop : A.operator? = some ("implies" : Text))
    (hQ : ∀ fn args k, Q ≠ .apply fn args k) {reach : Reach}
    (hb : b ∈ (backwardDraft name A P Q allowNew).rule.search ob reach) :
    ¬ (backwardDraft name A P Q allowNew).rule.bindsInsert b = true := by
  obtain ⟨s, hleaf, hplace⟩ := exists_leaf hQ hA.bindable
  refine not_bindsInsert_of_yields hs hA.wellQuantified hvars hA.reserved hop ?_
    (yields_of_leaf (s := s) ?_ (hplace Model.empty)) hb
  · intro v hv hu
    rcases hleaf with rfl | ⟨-, hconst⟩
    · exact List.mem_singleton.mp hv
    · exact (Term.not_universal_of_constant hconst hv hu).elim
  · rcases hleaf with rfl | ⟨hvar, -⟩
    · exact hA.reserved s (mem_symbols_of_sides? hs (.inr List.mem_cons_self))
    · rintro he
      rw [he] at hvar
      exact absurd hvar (by decide)

/-- An open goal is found in later models, with the name that it was found under. -/
theorem exists_alternative_of_mem_openGoals (hm : ob.model.Closed) (hn : n.Closed)
    (hx : n.vocabulary.KeepsExchanges) (hext : ob.model.Extends n) {g : Text}
    (hg : g ∈ ob.openGoals) : ∃ i, n.vocabulary.rootOf? g = some i ∧
      ∃ goal ∈ ob.goals, ∃ alternative ∈ goal, n.vocabulary.rootOf? alternative = some i := by
  obtain ⟨goal, hgoal, hname⟩ := List.mem_flatMap.mp (Text.mem_distinct.mp hg)
  obtain ⟨alternative, halt, he⟩ := List.mem_filterMap.mp hname
  obtain ⟨i, hi, rfl⟩ := Option.map_eq_some_iff.mp he
  obtain ⟨j, hj, hroot⟩ := Option.map_eq_some_iff.mp hi
  have hv := hm.filed.vocabulary
  have hlt : i < ob.model.vocabulary.size := hroot ▸ hv.root_lt (hv.lt_of_lookup? hj)
  exact ⟨n.root i, Model.find?_name hext hn hlt .entity .free, goal,
    (List.mem_filter.mp hgoal).1, alternative, halt,
    Model.find?_of_extends hm hn hx hext (t := .symbol ⟨alternative, .entity, .free⟩) hi⟩

/-- In every later model the instance of the conclusion that the rule has found is known, in the
class of the goal. -/
theorem find?_instance (hA : Pursuable A P Q) (hs : A.sides? = some (P, Q)) {fn : Term}
    {args : List Term} {k : Kind} (hQ : Q = .apply fn args k) (hm : ob.model.Closed)
    (hn : n.Closed) (hnamed : n.vocabulary.Named) (hx : n.vocabulary.KeepsExchanges)
    (hext : ob.model.Extends n) {reach : Reach}
    (hb : b ∈ (backwardDraft name A P Q allowNew).rule.search ob reach) :
    ∃ g, (∃ goal ∈ ob.goals, ∃ alternative ∈ goal, n.vocabulary.rootOf? alternative = some g) ∧
      n.vocabulary.rootOf? (b.get goalName) = some g ∧
      (∀ x ∈ Q.vars, (backwardDraft name A P Q allowNew).rule.valueOf b x.name ≠ "") ∧
      n.find? (Q.substitute
        (Q.valuation ((backwardDraft name A P Q allowNew).rule.valueOf b))) = some g := by
  have hintact := (hA.intact fn args k hQ).relabel name allowNew
  have hwell : Q.WellQuantified :=
    hA.wellQuantified.mono fun s hmem => mem_symbols_of_sides? hs (.inr hmem)
  obtain ⟨hgoal, hsolves⟩ := answers_of_mem_search hintact hQ hm (hnamed.of_grows hext.vocabulary) hb
  obtain ⟨g, hg, halternative⟩ := exists_alternative_of_mem_openGoals hm hn hx hext hgoal
  obtain ⟨r, hr, hrgoal⟩ := exists_find?_conclusion hintact
  have hvalue : (backwardDraft name A P Q allowNew).rule.valueOf b goalName = b.get goalName := by
    refine Rule.valueOf_eq_get fun he => ?_
    rw [he, hnamed.rootOf?_empty hn.filed.vocabulary] at hg
    cases hg
  -- The conclusion and the goal are found in one class of the pattern.
  have hfound : n.find? (Q.under ((backwardDraft name A P Q allowNew).rule.valueOf b)) =
      some g := by
    rw [hintact.find?_under hn hx (fun p hp => Model.answers_of_solves hm hn hx hext (hsolves p hp))
      Q (fun _ h => h) hr, hintact.goal.class?_eq hrgoal]
    exact (congrArg n.vocabulary.rootOf? hvalue).trans hg
  refine ⟨g, halternative, hg, ?_, ?_⟩
  · intro x hx' he
    obtain ⟨hmem, hu⟩ := Term.mem_vars hx'
    obtain ⟨i, hi⟩ := Model.exists_rootOf?_of_bindable hn Q hA.bindable hfound x hmem hu
    rw [he, hnamed.rootOf?_empty hn.filed.vocabulary] at hi
    cases hi
  · rw [Model.find?_substitute hn Q (hwell.nominal_valuation _) hA.bindable
      (hwell.replaces_valuation _)]
    exact hfound

end Finding

/-- How a rule is consulted on an obligation. Between the calls that look for offers and take
candidates the model is fed with terms. -/
inductive Consulted (r : Rule) : Obligation → Offers → Prop where
  | start (c : Condition) (inputs : List Model.Input) (goals : List (List Text)) :
      Consulted r ⟨c, Model.ofInputs inputs, goals⟩ {}
  | feed {ob : Obligation} {o : Offers} (h : Consulted r ob o) (i : Model.Input) :
      Consulted r { ob with model := ob.model.feed i } o
  | offer {ob : Obligation} {o : Offers} (h : Consulted r ob o) (reach : Reach) :
      Consulted r ob (r.offer ob reach o).2
  | next {ob : Obligation} {o : Offers} (h : Consulted r ob o) :
      Consulted r ob (r.next ob.model o).2

section Consulting

variable {r : Rule} {m : Model} {ob : Obligation} {o : Offers} {c : Candidate}

theorem Rule.mem_of_draw (pending : List Offer) (taken : List Text) :
    (∀ c, (r.draw m pending taken).1 = some c → ∃ f ∈ pending, c.binding = f.binding ∧
      c.term = r.instantiate m f.binding) ∧ (r.draw m pending taken).2.1 ⊆ pending := by
  induction pending generalizing taken with
  | nil => simp [draw]
  | cons f rest ih =>
    unfold draw
    dsimp only
    split
    · obtain ⟨hdrawn, hsub⟩ := ih (f.key :: taken)
      refine ⟨fun c hc => ?_, List.subset_cons_of_subset _ hsub⟩
      obtain ⟨f', hf', hc'⟩ := hdrawn c hc
      exact ⟨f', List.mem_cons_of_mem _ hf', hc'⟩
    · refine ⟨fun c hc => ?_, List.subset_cons_self _ _⟩
      cases hc
      exact ⟨f, List.mem_cons_self, rfl, rfl⟩

theorem Rule.mem_of_next (hground : r.isGround = false) :
    (∀ c, (r.next m o).1 = some c → ∃ f ∈ o.pending, c.binding = f.binding ∧
      c.term = r.instantiate m f.binding) ∧ (r.next m o).2.pending ⊆ o.pending := by
  unfold next
  rw [hground]
  exact mem_of_draw o.pending o.taken

/-- Offers are what the rule has found in some earlier state of the obligation. -/
theorem Consulted.exists_found (hground : r.isGround = false) (h : Consulted r ob o) :
    ob.model.Closed ∧ ∃ found : Obligation, found.model.Closed ∧
      found.model.Extends ob.model ∧ found.goals = ob.goals ∧ Offering found r o.pending := by
  induction h with
  | start c inputs goals =>
    have hm := Model.closed_ofInputs inputs
    exact ⟨hm, ⟨c, Model.ofInputs inputs, goals⟩, hm, .refl _, rfl, fun f hf => by simp at hf⟩
  | feed _ i ih =>
    obtain ⟨hm, found, hfound, hext, hgoals, hoffers⟩ := ih
    obtain ⟨hm', hext'⟩ := Model.closed_feed hm i
    exact ⟨hm', found, hfound, hext.trans hext', hgoals, hoffers⟩
  | @offer ob o _ reach ih =>
    exact ⟨ih.1, ob, ih.1, .refl _, rfl, r.offering_offer ob reach o⟩
  | next _ ih =>
    obtain ⟨hm, found, hfound, hext, hgoals, hoffers⟩ := ih
    refine ⟨hm, found, hfound, hext, hgoals, fun f hf => hoffers f ?_⟩
    exact (Rule.mem_of_next hground).2 hf

variable {name : Text} {A P Q : Term} {allowNew : Bool} {rules : List Rule}

theorem eq_goalRule_of_mem (hvars : A.vars ≠ []) (hop : A.operator? = some ("implies" : Text))
    (hs : A.sides? = some (P, Q)) (hrules : rulesOf name A allowNew = .ok rules)
    (hr : r ∈ rules) (hname : r.name = name ++ "_goalSearch") :
    r = (backwardDraft (name ++ "_goalSearch") A P Q allowNew).rule := by
  have hempty : A.vars.isEmpty = false := Bool.eq_false_iff.mpr (mt List.isEmpty_iff.mp hvars)
  have hconnective : A.operator?.bind Connective.named? = some .implication := by
    rw [hop]
    decide
  have hsides : A.sides = .ok (P, Q) := by
    rw [Term.sides, hs]
  simp only [rulesOf, hempty, hconnective, hsides, bind, Except.bind, pure, Except.pure,
    Bool.false_eq_true, if_false, Except.ok.injEq] at hrules
  subst hrules
  rcases List.mem_cons.mp hr with rfl | hr
  · rfl
  · -- The rule that works forwards has the name of the theorem itself.
    rw [List.mem_singleton.mp hr] at hname
    have hbytes := congrArg Text.toList (show name = name ++ "_goalSearch" from hname)
    rw [Text.toList_append, List.self_eq_append_right] at hbytes
    exact absurd hbytes (by decide)

/-- Candidates work backwards from an equal goal: whatever the model was fed with before and after
the rule has looked for offers, the goal of a candidate is one of the obligation's, and the instance
of the conclusion is in its class. -/
theorem goal_of_candidate (hvars : A.vars ≠ []) (hop : A.operator? = some ("implies" : Text))
    (hs : A.sides? = some (P, Q)) (hA : Pursuable A P Q)
    (hrules : rulesOf name A allowNew = .ok rules) (hr : r ∈ rules)
    (hname : r.name = name ++ "_goalSearch") (h : Consulted r ob o)
    (hnamed : ob.model.vocabulary.Named) (hx : ob.model.vocabulary.KeepsExchanges)
    (hc : (r.next ob.model o).1 = some c) :
    c.term = r.instantiate ob.model c.binding ∧
    ∃ g, (∃ goal ∈ ob.goals, ∃ alternative ∈ goal,
        ob.model.vocabulary.rootOf? alternative = some g) ∧
      ob.model.vocabulary.rootOf? (c.binding.get goalName) = some g ∧
      (∀ x ∈ Q.vars, r.valueOf c.binding x.name ≠ "") ∧
      ob.model.represent (Q.substitute (Q.valuation (r.valueOf c.binding))) = (g, ob.model) := by
  obtain rfl := eq_goalRule_of_mem hvars hop hs hrules hr hname
  have hground : (backwardDraft (name ++ "_goalSearch") A P Q allowNew).rule.isGround = false :=
    Bool.eq_false_iff.mpr fun he => hvars (List.isEmpty_iff.mp he)
  obtain ⟨hm, found, hfound, hext, hgoals, hoffers⟩ := h.exists_found hground
  obtain ⟨f, hf, hbinding, hterm⟩ := (Rule.mem_of_next hground).1 c hc
  obtain ⟨hbind, reach, hb⟩ := hoffers f hf
  rw [← hbinding] at hbind hb hterm
  refine ⟨hterm, ?_⟩
  by_cases hQ : ∃ fn args k, Q = .apply fn args k
  · obtain ⟨fn, args, k, hQ⟩ := hQ
    obtain ⟨g, halternative, hg, hvalues, hinstance⟩ :=
      find?_instance hA hs hQ hfound hm hnamed hx hext hb
    rw [hgoals] at halternative
    exact ⟨g, halternative, hg, hvalues, Model.represent_of_find? hm hinstance⟩
  · refine (not_bindsInsert_of_leaf hs hA hvars hop (fun fn args k he => ?_) hb hbind).elim
    exact hQ ⟨fn, args, k, he⟩

def mixedConclusion : Term :=
  .call "q" .boolean [.universal "x" .integer, .symbol ⟨"b", .integer, .free⟩]

def mixedTheorem : Term :=
  .implication (.call "p" .boolean [.universal "x" .integer]) mixedConclusion

def mixedObligation : Obligation where
  condition := { id := 1, sequent := ⟨[], []⟩ }
  model := Model.ofInputs [.represent (.call "q" .boolean
    [.symbol ⟨"a", .integer, .free⟩, .symbol ⟨"b", .integer, .free⟩])]
  goals := [["¢c0"]]

def mixedEquation : Model.Input :=
  .assume (.equal (.symbol ⟨"a", .integer, .free⟩) (.symbol ⟨"b", .integer, .free⟩))

theorem goal_mixedConclusion : ∃ rules, rulesOf "T" mixedTheorem false = .ok rules ∧
    ∃ r ∈ rules, r.name = "T" ++ "_goalSearch" ∧
      let ob := { mixedObligation with model := mixedObligation.model.feed mixedEquation }
      let o := (r.offer mixedObligation .all {}).2
      Consulted r ob o ∧ ∃ c, (r.next ob.model o).1 = some c ∧
        c.term.render = "(p(a) or ¢c0) = ¢c0" ∧
        ∃ g, ob.model.vocabulary.rootOf? (c.binding.get goalName) = some g ∧
          ob.model.represent (mixedConclusion.substitute
            (mixedConclusion.valuation (r.valueOf c.binding))) = (g, ob.model) := by
  let r := goalRule ("T" ++ "_goalSearch") mixedTheorem
    (.call "p" .boolean [.universal "x" .integer]) mixedConclusion false
  have hrules : rulesOf "T" mixedTheorem false = .ok [r, _] := rfl
  refine ⟨_, hrules, r, List.mem_cons_self, rfl, ?_⟩
  intro ob o
  have hcons : Consulted r ob o := .feed (.offer (.start _ _ _) .all) mixedEquation
  have hcandidate : (r.next ob.model o).1.any (fun c =>
      c.term.render == ("(p(a) or ¢c0) = ¢c0" : Text)) = true := by decide +kernel
  obtain ⟨c, hc, hrender⟩ := (Option.any_eq_true ..).mp hcandidate
  have hA : Pursuable mixedTheorem (.call "p" .boolean [.universal "x" .integer])
      mixedConclusion :=
    ⟨by decide +kernel, by decide +kernel, by decide +kernel, fun _ _ _ _ => by decide +kernel⟩
  have hnamed : ob.model.vocabulary.Named := by
    change ∀ e ∈ ob.model.vocabulary.entries, e.name ≠ ""
    decide +kernel
  obtain ⟨-, g, -, hg, -, hinstance⟩ := goal_of_candidate (by decide +kernel) (by decide +kernel)
    rfl hA hrules List.mem_cons_self rfl hcons hnamed (by decide +kernel) hc
  exact ⟨hcons, c, hc, eq_of_beq hrender, g, hg, hinstance⟩

end Consulting

end Discharge.Search
