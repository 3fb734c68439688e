import Discharge.Search.Prover
import Discharge.Proofs.Search.Derivations
import Discharge.Proofs.Search.Rules
import Discharge.Proofs.Search.Verdicts

/-!
Provers are sound. A condition that a run reports as proved has true conclusions wherever the
theorems and its assumptions are true, and one whose assumptions are reported as false has no such
place. This holds for theorems that can be trusted: the rules of an implication whose premise
loses a condition when it is made a pattern are not covered. The argument is about interpretations
that obey the laws of the connectives for all operands. One that is classical on truth values only
is completed to such an interpretation.
-/

namespace Discharge.Search

open Congruence

universe u

variable {D : Type u} {I : Interpretation D}

theorem Rule.Licensed.of_extends {r : Rule} {m n : Model} {b : Binding} (h : r.Licensed I m b)
    (hm : m.Closed) (hext : m.Extends n) : r.Licensed I n b :=
  fun J hJ hs => h J hJ (hs.of_extends hm.filed hext)

theorem Rule.instantiate_spec {r : Rule} {m : Model} (hr : r.Sound I) (hI : I.Lawful)
    (hm : Grounded m I) {b : Binding} (hbind : r.bindsInsert b = true) (hb : r.Licensed I m b) :
    (r.instantiate m b).named = true ∧
      ∀ J, I.Variant J → m.Satisfied J → J.read (r.instantiate m b) = J.truth := by
  have hnamed := Term.named_of_plain _ hr.plain
  have hinst := (hr.wellQuantified.substitutable hnamed).instantiates (r.valueOf b)
  have hval : ∀ s ∈ r.insert.symbols, s.quantifier = .universal → r.valueOf b s.name ≠ "" := by
    intro s hs hu hempty
    obtain ⟨v, hv, hn⟩ := Term.exists_mem_vars hs hu
    have hbound := List.all_eq_true.mp hbind v hv
    rw [hn, hempty] at hbound
    exact absurd hbound (by decide)
  refine ⟨?_, ?_⟩
  · obtain ⟨J, hJ, hs⟩ := hm.satisfiable
    exact hs.named_simplify (hJ.lawful hI) hm.closed hm.named _
      (Term.named_substitute _ hnamed hinst hval)
  · intro J hJ hs
    rw [instantiate, hs.read_simplify (hJ.lawful hI) hm.closed, ← hb J hJ hs]
    exact Term.read_substitute _ (Term.applicative_of_named _ hnamed) hinst

/-- Sound rules keep an obligation. -/
theorem Derives.kept {rules : Array Rule} {ob ob' : Obligation} {cs : List Term}
    (h : Derives rules ob ob') (hI : I.Lawful) (hrules : ∀ r ∈ rules, r.Sound I)
    (hk : ob.Kept I cs) : ob'.Kept I cs ∧ ob.model.Extends ob'.model := by
  induction h with
  | refl => exact ⟨hk, .refl _⟩
  | @ground _ mid r _ hr hg ih =>
    obtain ⟨hmid, hext⟩ := ih hk
    have hsound := hrules r hr
    have hread : ∀ J, I.Variant J → mid.model.Satisfied J → J.read r.insert = J.truth := by
      intro J hJ _
      rw [hJ.read_eq hsound.plain, hsound.ground hg, hJ.truth_eq]
    obtain ⟨hnext, hext'⟩ := Obligation.kept_assume hI hmid
      (Term.named_of_plain _ hsound.plain) hread
    exact ⟨hnext, hext.trans hext'⟩
  | @apply _ found mid r b reach _ _ hr hb hbind ih ih' =>
    obtain ⟨hfound, hext⟩ := ih hk
    obtain ⟨hmid, hext'⟩ := ih' hfound
    have hsound := hrules r hr
    have hlicensed := hsound.licensed found reach b hfound.grounded.closed hfound.grounded.named hb
      hbind
    obtain ⟨hnamed, hread⟩ := Rule.instantiate_spec hsound hI hmid.grounded hbind
      (hlicensed.of_extends hfound.grounded.closed hext')
    obtain ⟨hnext, hext''⟩ := Obligation.kept_assume hI hmid hnamed hread
    exact ⟨hnext, (hext.trans hext').trans hext''⟩

/-- An interpretation in which assertions are true; what an implication joins has truth values. -/
structure Supports (I : Interpretation D) (assertions : List Term) : Prop where
  standard : I.Standard
  holds : ∀ A ∈ assertions, I.Holds A
  decides : ∀ A ∈ assertions, A.operator? = some ("implies" : Text) → ∀ a ∈ A.arguments, I.Decides a

/-- An interpretation with classical connectives in which assertions are true, and all operands of
connectives in them are truth values, whatever the quantified symbols stand for. -/
structure Endorses (I : Interpretation D) (assertions : List Term) : Prop where
  boolean : I.Boolean
  holds : ∀ A ∈ assertions, I.Holds A
  decided : ∀ A ∈ assertions, ∀ σ : Text → D, ∀ u ∈ A.applications,
    I.Decided (I.denote σ u.1) (u.2.map (I.denote σ))

theorem Endorses.supports {assertions : List Term} (h : Endorses I assertions)
    (ht : ∀ A ∈ assertions, Trusted A) : Supports I.completed assertions := by
  have hsame := I.sameWhere_completed
  refine ⟨h.boolean.standard_completed, ?_, ?_⟩
  · intro A hA σ
    rw [hsame.denote_eq σ A (h.decided A hA σ), hsame.truth_eq]
    exact h.holds A hA σ
  · intro A hA hop a ha σ
    obtain ⟨fn, args, k, rfl, hfn⟩ := eq_apply_of_implication (I := I) (ht A hA).wellQuantified hop
    have hdecided := h.decided _ hA σ
    have hargs := hdecided (fn, args) (Term.mem_applications_self fn args k) (.inr (.inr (hfn σ)))
    rw [hsame.denote_eq σ a fun u hu => hdecided u (Term.applications_arg_subset fn k ha hu),
      hsame.truth_eq, hsame.falsehood_eq]
    exact hargs _ (List.mem_map_of_mem ha)

/-- Whether a status agrees with an interpretation that makes the assumptions of a condition
true. -/
def RightAbout (I : Interpretation D) (n : Normalizer) (c : Condition) (s : Status) : Prop :=
  (s = .proved → ∀ t ∈ c.sequent.right, I.read (n.normalize t) = I.truth) ∧ s ≠ .falseAssumption

/-- Whether a status is right about a condition in every interpretation that makes assertions and
the assumptions of the condition true, be it one with lawful connectives or one where all formulas
are true or false. -/
structure Justified (n : Normalizer) (assertions : List Term) (c : Condition) (s : Status) :
    Prop where
  lawful : ∀ (D : Type u) (I : Interpretation D), Supports I assertions →
    (∀ t ∈ c.sequent.left, I.read (n.normalize t) = I.truth) → RightAbout I n c s
  classical : ∀ (D : Type u) (I : Interpretation D), Endorses I assertions →
    (∀ t ∈ c.sequent.left, Affirms I (n.normalize t)) →
    (∀ t ∈ c.sequent.right, I.TwoValued (n.normalize t)) → RightAbout I n c s

theorem justified_of_lawful {n : Normalizer} {assertions : List Term} {c : Condition} {s : Status}
    (ht : ∀ A ∈ assertions, Trusted A)
    (h : ∀ (D : Type u) (I : Interpretation D), Supports I assertions →
      (∀ t ∈ c.sequent.left, I.read (n.normalize t) = I.truth) → RightAbout I n c s) :
    Justified.{u} n assertions c s := by
  refine ⟨h, ?_⟩
  intro D I hI hleft hright
  have hsame := I.sameWhere_completed
  obtain ⟨hproved, hfalse⟩ := h D I.completed (hI.supports ht) fun t htl => by
    rw [hsame.read_eq _ (hleft t htl).twoValued, (hleft t htl).holds, hsame.truth_eq]
  refine ⟨fun hs t htr => ?_, hfalse⟩
  rw [← hsame.read_eq _ (hright t htr), hproved hs t htr, hsame.truth_eq]

namespace Prover

theorem exists_of_mem_rulesOfTheorems {n : Normalizer} {allowNew : Bool} {theorems : List Theorem}
    {rules : List Rule} (h : rulesOfTheorems n allowNew theorems = .ok rules) {r : Rule}
    (hr : r ∈ rules) : ∃ t ∈ theorems, ∃ group,
      rulesOf t.name (n.normalize t.assertion) allowNew = .ok group ∧ r ∈ group := by
  obtain ⟨groups, hgroups, h⟩ := bind_eq_ok.mp h
  cases h
  obtain ⟨group, hgroup, hrg⟩ := List.mem_flatten.mp hr
  obtain ⟨t, hmem, hrules⟩ := exists_of_mem_forall₂ (mapM_eq_ok_iff.mp hgroups) hgroup
  exact ⟨t, hmem, group, hrules, hrg⟩

theorem sound_rulesOfTheorems {n : Normalizer} {allowNew : Bool} {theorems : List Theorem}
    {rules : List Rule} (h : rulesOfTheorems n allowNew theorems = .ok rules)
    (ht : ∀ t ∈ theorems, Trusted (n.normalize t.assertion))
    (hI : Supports I (theorems.map fun t => n.normalize t.assertion)) : ∀ r ∈ rules, r.Sound I := by
  intro r hr
  obtain ⟨t, hmem, group, hrules, hrg⟩ := exists_of_mem_rulesOfTheorems h hr
  have hA := List.mem_map_of_mem (f := fun t : Theorem => n.normalize t.assertion) hmem
  exact sound_rulesOf hI.standard.toLawful (ht t hmem) (hI.holds _ hA) (hI.decides _ hA) hrules
    r hrg

/-- An obligation on the way: it is kept in every interpretation that makes assertions and the
assumptions of its condition true. -/
structure Tracks (n : Normalizer) (assertions : List Term) (c : Condition) (ob : Obligation) :
    Prop where
  condition_eq : ob.condition = c
  kept : ∀ (D : Type u) (I : Interpretation D), Supports I assertions →
    (∀ t ∈ c.sequent.left, I.read (n.normalize t) = I.truth) →
    ob.Kept I (Obligation.conclusions n c)

section Running

variable {n : Normalizer} {assertions : List Term} {c : Condition} {ob : Obligation}

theorem tracks_new (hc : Obligation.Plain n c) :
    Tracks.{u} n assertions c (Obligation.new n c) :=
  ⟨Obligation.condition_new n c, fun _ _ hI hleft => Obligation.kept_new hI.standard hc hleft⟩

theorem Tracks.derives {rules : Array Rule} {ob' : Obligation} (h : Tracks.{u} n assertions c ob)
    (hrules : ∀ (D : Type u) (I : Interpretation D), Supports I assertions →
      ∀ r ∈ rules, r.Sound I)
    (hd : Derives rules ob ob') : Tracks.{u} n assertions c ob' := by
  refine ⟨hd.frame.1.trans h.condition_eq, ?_⟩
  intro D I hI hleft
  exact (hd.kept hI.standard.toLawful (hrules D I hI) (h.kept D I hI hleft)).1

theorem Tracks.justified (h : Tracks.{u} n assertions c ob) (ht : ∀ A ∈ assertions, Trusted A)
    (hc : Obligation.Plain n c) : Justified.{u} n assertions c ob.status := by
  refine justified_of_lawful ht fun D I hI hleft => ?_
  obtain ⟨hproved, hfalse⟩ := (h.kept D I hI hleft).status_spec hI.standard hc.conclusions
  refine ⟨?_, hfalse⟩
  intro hs t ht
  refine (Term.read_conjuncts hI.standard.toLawful (hc.right t ht)).mpr fun p hp => ?_
  exact hproved hs p (List.mem_flatMap.mpr ⟨t, ht, hp⟩)

theorem runAll_spec {p : Prover} (ht : ∀ A ∈ assertions, Trusted A)
    (hrules : ∀ (D : Type u) (I : Interpretation D), Supports I assertions →
      ∀ r ∈ p.rules, r.Sound I)
    (total : Nat) {cs : List Condition} {obs : List Obligation}
    (hcs : ∀ c ∈ cs, Obligation.Plain n c) (h : List.Forall₂ (Tracks.{u} n assertions) cs obs)
    (r : Run) :
    ∃ results left, (p.runAll total obs r).results = r.results ++ results ∧
      (p.runAll total obs r).obligations = r.obligations ++ left ∧
      List.Forall₂ (fun c s => s.id = c.id ∧ Justified.{u} n assertions c s.status) cs results ∧
      List.Forall₂ (Tracks.{u} n assertions) cs left := by
  induction h generalizing r with
  | nil => exact ⟨[], [], by simp [runAll]⟩
  | @cons c ob cs obs hob _ ih =>
    have hc := hcs c List.mem_cons_self
    have hrest := ih fun c' hc' => hcs c' (List.mem_cons_of_mem _ hc')
    unfold runAll
    split
    · obtain ⟨results, left, hresults, hleft, hjust, htracks⟩ := hrest (skip total ob r)
      refine ⟨Result.skip ob.condition :: results, ob :: left, ?_, ?_, .cons ?_ hjust,
        .cons hob htracks⟩
      · rw [hresults]
        simp [skip]
      · rw [hleft]
        simp [skip]
      · exact ⟨congrArg Condition.id hob.condition_eq,
          justified_of_lawful ht fun _ _ _ _ => ⟨nofun, nofun⟩⟩
    · obtain ⟨results, left, hresults, hleft, hjust, htracks⟩ := hrest (p.attempt total ob r)
      have hrun := hob.derives hrules (Attempt.derives_run (p.context r.session) ob)
      refine ⟨(Attempt.run (p.context r.session) ob).result p.config.showResults :: results,
        (Attempt.run (p.context r.session) ob).obligation :: left, ?_, ?_, .cons ?_ hjust,
        .cons hrun htracks⟩
      · rw [hresults]
        simp [attempt, Run.add]
      · rw [hleft]
        simp [attempt, Run.add]
      · exact ⟨congrArg Condition.id hrun.condition_eq, hrun.justified ht hc⟩

end Running

inductive Reaches (p : Prover) : Prover → Prop where
  | refl : Reaches p p
  | start {q : Prover} (h : Reaches p q) (m : Metrics) (s : Session) : Reaches p (q.start m s).2

def normalizer (library : Library) (module : Text) : Normalizer := ⟨library.hasIntegerSorts module⟩

def assertions (library : Library) (module : Text) : List Term :=
  (library.theorems module .transitive).theorems.map fun t =>
    (normalizer library module).normalize t.assertion

section Starting

variable {module : Text} {conditions : List Condition} {library : Library} {config : Config}
  {p q : Prover}

theorem new_spec (h : Prover.new module conditions library config = .ok p) :
    (∃ rules, rulesOfTheorems (normalizer library module) config.allowNew
      (library.theorems module .transitive).theorems = .ok rules ∧ p.rules = rules.toArray) ∧
      p.obligations = conditions.map (Obligation.new (normalizer library module)) := by
  unfold Prover.new at h
  dsimp only at h
  split at h
  · cases h
  · split at h
    · cases h
    · rename_i rules hrules
      cases h
      exact ⟨⟨rules, hrules, rfl⟩, rfl⟩

theorem tracks_of_reaches (h : Prover.new module conditions library config = .ok p)
    (htheorems : ∀ A ∈ assertions library module, Trusted A)
    (hconditions : ∀ c ∈ conditions, Obligation.Plain (normalizer library module) c)
    (hq : p.Reaches q) :
    (∀ (D : Type u) (I : Interpretation D), Supports I (assertions library module) →
      ∀ r ∈ q.rules, r.Sound I) ∧
      List.Forall₂ (Tracks.{u} (normalizer library module) (assertions library module)) conditions
        q.obligations := by
  induction hq with
  | refl =>
    obtain ⟨⟨rules, hrules, hp⟩, hobs⟩ := new_spec h
    refine ⟨?_, ?_⟩
    · intro D I hI r hr
      rw [hp] at hr
      refine sound_rulesOfTheorems hrules ?_ hI r (List.mem_toArray.mp hr)
      exact fun t ht => htheorems _ (List.mem_map_of_mem ht)
    · rw [hobs, List.forall₂_map_right_iff]
      exact List.forall₂_same.mpr fun c hc => tracks_new (hconditions c hc)
  | start _ m s ih =>
    obtain ⟨hrules, htracks⟩ := ih
    obtain ⟨-, left, -, hleft, -, hafter⟩ := runAll_spec htheorems hrules _ hconditions htracks
      { metrics := m.reset, session := s }
    refine ⟨hrules, ?_⟩
    change List.Forall₂ _ conditions (Prover.runAll _ _ _ _).obligations
    rw [hleft]
    exact hafter

/-- Every run reports results that are right about their conditions, whatever came before it,
however many steps it makes and wherever it is stopped. -/
theorem sound_start (h : Prover.new module conditions library config = .ok p)
    (htheorems : ∀ A ∈ assertions library module, Trusted A)
    (hconditions : ∀ c ∈ conditions, Obligation.Plain (normalizer library module) c)
    (hq : p.Reaches q) (m : Metrics) (s : Session) :
    List.Forall₂ (fun c r => r.id = c.id ∧
      Justified.{u} (normalizer library module) (assertions library module) c r.status)
      conditions (q.start m s).1.results := by
  obtain ⟨hrules, htracks⟩ := tracks_of_reaches.{u} h htheorems hconditions hq
  obtain ⟨results, -, hresults, -, hjust, -⟩ := runAll_spec htheorems hrules q.obligations.length
    hconditions htracks { metrics := m.reset, session := s }
  change List.Forall₂ _ conditions (Prover.runAll _ _ _ _).results
  rw [hresults]
  exact hjust

end Starting

def covering : Term :=
  .implication (.call "f" .boolean [.universal "x" .integer])
    (.call "g" .boolean [.universal "x" .integer])

def coveringLibrary : Library :=
  { modules := [{ name := "M", theorems := [⟨"Covering", some covering⟩] }] }

def coveredCondition : Condition :=
  let fact := Term.call "f" .boolean [.symbol ⟨"a", .integer, .free⟩]
  { id := 1, sequent := ⟨[fact], [fact]⟩ }

theorem assertions_coveringLibrary : assertions coveringLibrary "M" = [covering] := by rfl

def coveringSense : Interpretation Interpretation.Sense :=
  .classical (fun _ _ => .decided true) fun name => .named name

theorem holds_covering : coveringSense.Holds covering := fun _ => rfl

theorem supports_covering : Supports coveringSense [covering] := by
  refine ⟨Interpretation.standard_classical _ _, List.forall_mem_singleton.mpr holds_covering,
    List.forall_mem_singleton.mpr fun _ => ?_⟩
  simp only [covering, Term.implication, Term.call, Term.arguments, List.forall_mem_cons]
  exact ⟨fun _ => .inl rfl, fun _ => .inl rfl, List.forall_mem_nil _⟩

theorem endorses_covering : Endorses coveringSense [covering] := by
  refine ⟨Interpretation.boolean_classical _ _, List.forall_mem_singleton.mpr holds_covering,
    List.forall_mem_singleton.mpr fun σ => ?_⟩
  have hcall : ∀ name ∈ (["f", "g"] : List Text),
      ¬ (coveringSense.value name = coveringSense.value "and" ∨
        coveringSense.value name = coveringSense.value "or" ∨
        coveringSense.value name = coveringSense.value "implies") := by decide +kernel
  have hvalues : ∀ a ∈ [.decided true, .decided true], coveringSense.TruthValue a := by
    decide +kernel
  simp only [covering, Term.implication, Term.call, Term.universal, Term.applications,
    Term.applicationsAll, List.nil_append, List.append_nil, List.singleton_append,
    List.forall_mem_cons]
  exact ⟨fun _ => hvalues, fun h => (hcall "f" (by simp) h).elim,
    fun h => (hcall "g" (by simp) h).elim, List.forall_mem_nil _⟩

/-- The run for a condition that is proved, in an interpretation where everything is in `f` and in
`g`. -/
theorem sound_coveredRun : ∃ p : Prover,
    Prover.new "M" [coveredCondition] coveringLibrary {} = .ok p ∧
    (p.start {} {}).1.results.map Result.status = [.proved] ∧
    (∃ I : Interpretation Interpretation.Sense, Supports I (assertions coveringLibrary "M") ∧
      Endorses I (assertions coveringLibrary "M") ∧
      (∀ t ∈ coveredCondition.sequent.left,
        Affirms I ((normalizer coveringLibrary "M").normalize t)) ∧
      ∀ t ∈ coveredCondition.sequent.right,
        I.TwoValued ((normalizer coveringLibrary "M").normalize t)) ∧
    List.Forall₂ (fun c r => r.id = c.id ∧
      Justified.{0} (normalizer coveringLibrary "M") (assertions coveringLibrary "M") c r.status)
      [coveredCondition] (p.start {} {}).1.results := by
  have hstatus : (Prover.new "M" [coveredCondition] coveringLibrary {}).toOption.map
      (fun p => (p.start {} {}).1.results.map Result.status) = some [.proved] := by decide +kernel
  have htheorems : ∀ A ∈ assertions coveringLibrary "M", Trusted A := by decide +kernel
  have hconditions : ∀ c ∈ [coveredCondition],
      Obligation.Plain (normalizer coveringLibrary "M") c := by
    intro c hc
    rw [List.mem_singleton.mp hc]
    exact ⟨by decide +kernel, by decide +kernel⟩
  cases hp : Prover.new "M" [coveredCondition] coveringLibrary {} with
  | error e => simp [hp, Except.toOption] at hstatus
  | ok p =>
    refine ⟨p, rfl, ?_, ⟨coveringSense, ?_⟩, sound_start hp htheorems hconditions .refl {} {}⟩
    · rw [hp] at hstatus
      exact Option.some.inj hstatus
    · rw [assertions_coveringLibrary]
      exact ⟨supports_covering, endorses_covering,
        List.forall_mem_singleton.mpr ⟨by decide +kernel, by decide +kernel⟩,
        List.forall_mem_singleton.mpr (by decide +kernel)⟩

end Prover

end Discharge.Search
