import Discharge.Proofs.Search.Candidates
import Discharge.Proofs.Search.Exhaustion

/-!
Out of rules means saturated. When a run ends without a verdict, and nothing stopped it, the rules
without variables were assumed, and whatever instance a rule finds in the model at the end is true
in it. That takes rules whose keys tell what they insert, conjunctions that join something, and
connectives that stand for themselves.
-/

namespace Discharge.Search

open Congruence

structure Rule.Readable (r : Rule) : Prop where
  written : r.insert.written = true
  ground : r.isGround = true → r.insertVariables = []

section Reading

variable {A : Term} {name : Text} {allowNew : Bool} {r : Rule}

theorem readable_of_insert (hA : A.written = true) (hinsert : r.insert = A)
    (hentire : r.entire = A) : r.Readable := by
  refine ⟨hinsert ▸ hA, ?_⟩
  intro hground
  rw [Rule.isGround, hentire] at hground
  rw [Rule.insertVariables, hinsert]
  exact List.isEmpty_iff.mp hground

theorem written_of_sides? {premise conclusion : Term} (hs : A.sides? = some (premise, conclusion))
    (hA : A.written = true) : premise.written = true ∧ conclusion.written = true := by
  obtain ⟨fn, k, rfl⟩ := eq_apply_of_sides? hs
  cases fn with
  | symbol s =>
    have hargs := (Term.written_apply_iff.mp hA).2
    exact ⟨hargs premise (by simp), hargs conclusion (by simp)⟩
  | apply fn args k' => cases hA
  | lambda params body k' => cases hA
  | cases branches otherwise k' => cases hA

theorem written_goal {premise : Term} (h : premise.written = true) :
    (Term.equal (.disj premise (.universal goalName .boolean))
      (.universal goalName .boolean)).written = true := by
  have hgoal : (Term.universal goalName .boolean).written = true := by decide
  have hdisj : (Term.disj premise (.universal goalName .boolean)).written = true :=
    Term.written_call (by decide) (List.forall_mem_cons.mpr
      ⟨h, List.forall_mem_singleton.mpr hgoal⟩)
  exact Term.written_call (by decide) (List.forall_mem_cons.mpr
    ⟨hdisj, List.forall_mem_singleton.mpr hgoal⟩)

theorem readable_rulesOf (hA : A.written = true) {rules : List Rule}
    (h : rulesOf name A allowNew = .ok rules) : ∀ r ∈ rules, r.Readable := by
  intro r hr
  have hopen : A.vars ≠ [] → r.entire = A → r.isGround = true → r.insertVariables = [] := by
    intro hvars hentire hground
    rw [Rule.isGround, hentire] at hground
    exact (hvars (List.isEmpty_iff.mp hground)).elim
  cases stems_of_rulesOf h hr with
  | whole => exact readable_of_insert hA rfl rfl
  | equation => exact readable_of_insert hA rfl rfl
  | backward hvars _ hs => exact ⟨written_goal (written_of_sides? hs hA).1, hopen hvars rfl⟩
  | forward hvars _ hs => exact ⟨(written_of_sides? hs hA).2, hopen hvars rfl⟩

end Reading

namespace Prover

section Reaching

variable {module : Text} {conditions : List Condition} {library : Library} {config : Config}
  {p q : Prover}

theorem exists_of_mem_runAll (p : Prover) (total : Nat) (obs : List Obligation) (r : Run)
    {ob : Obligation} (h : ob ∈ (p.runAll total obs r).obligations) :
    ob ∈ r.obligations ∨ ∃ ob' ∈ obs, Derives p.rules ob' ob := by
  induction obs generalizing r with
  | nil => exact .inl h
  | cons first rest ih =>
    unfold runAll at h
    rcases ih _ h with h | ⟨ob', hmem, hd⟩
    · split at h
      · rcases List.mem_append.mp h with h | h
        · exact .inl h
        · rw [List.mem_singleton.mp h]
          exact .inr ⟨first, List.mem_cons_self, .refl first⟩
      · rcases List.mem_append.mp h with h | h
        · exact .inl h
        · rw [List.mem_singleton.mp h]
          exact .inr ⟨first, List.mem_cons_self, Attempt.derives_run (p.context r.session) first⟩
    · exact .inr ⟨ob', List.mem_cons_of_mem _ hmem, hd⟩

theorem orderly_of_reaches (h : Prover.new module conditions library config = .ok p)
    (htheorems : ∀ t ∈ (library.theorems module .transitive).theorems,
      t.assertion.written = true)
    (hconditions : ∀ c ∈ conditions, ∀ t ∈ c.sequent.left ++ c.sequent.right, t.written = true)
    (hq : p.Reaches q) :
    (∀ r ∈ q.rules, r.Readable) ∧ ∀ ob ∈ q.obligations, ob.Orderly := by
  induction hq with
  | refl =>
    obtain ⟨⟨rules, hrules, hp⟩, hobs⟩ := new_spec h
    refine ⟨?_, ?_⟩
    · intro r hr
      rw [hp] at hr
      obtain ⟨t, ht, group, hgroup, hrg⟩ :=
        exists_of_mem_rulesOfTheorems hrules (List.mem_toArray.mp hr)
      exact readable_rulesOf (Term.written_normalize _ _ (htheorems t ht)) hgroup r hrg
    · rw [hobs]
      exact List.forall_mem_map.mpr fun c hc => Obligation.orderly_new _ (hconditions c hc)
  | start _ m s ih =>
    obtain ⟨hrules, horderly⟩ := ih
    refine ⟨hrules, ?_⟩
    intro ob hob
    rcases exists_of_mem_runAll _ _ _ _ hob with hnone | ⟨ob', hmem, hd⟩
    · cases hnone
    · exact (hd.orderly (fun r hr => (hrules r hr).written) (horderly ob' hmem)).1

/-- A run that ends without a verdict, and without having been stopped, has assumed the assertion of
every rule without variables; and in the model that it leaves, every instance of a rule under a
binding that the rule finds there is true. -/
theorem saturated_run (h : Prover.new module conditions library config = .ok p)
    (htheorems : ∀ t ∈ (library.theorems module .transitive).theorems,
      t.assertion.written = true)
    (hconditions : ∀ c ∈ conditions, ∀ t ∈ c.sequent.left ++ c.sequent.right, t.written = true)
    (hq : p.Reaches q) (s : Session) {ob : Obligation} (hob : ob ∈ q.obligations)
    (hgo : (Attempt.run (q.context s) ob).stopped = false)
    (hstatus : (Attempt.run (q.context s) ob).obligation.status = .evaluating) :
    let final := (Attempt.run (q.context s) ob).obligation
    (∀ r ∈ q.rules, r.isGround = true → ∃ terms : List Term, r.insert ∈ terms ∧
      final = terms.foldl (fun ob t => (ob.assume t).2) ob) ∧
    (final.model.vocabulary.KeepsConnectives → ∀ r ∈ q.rules, r.searchesByKind = false → r.Keyed →
      ∀ b ∈ r.findMatches final, r.bindsInsert b = true → (r.inserted b).conjoins = true →
        final.model.Confirms (r.inserted b) ∧
          final.model.Confirms (r.instantiate final.model b)) := by
  obtain ⟨hreadable, horderly⟩ := orderly_of_reaches h htheorems hconditions hq
  have hwritten : ∀ r ∈ q.rules, r.insert.written = true := fun r hr => (hreadable r hr).written
  have hstart := horderly ob hob
  have hsettled := Attempt.settled_run (c := q.context s) hwritten hstart hgo hstatus
  have hfinal := ((Attempt.derives_run (q.context s) ob).orderly hwritten hstart).1
  intro final
  refine ⟨fun r hr hground => ((hsettled r hr).asserted hground).among, ?_⟩
  intro hconnectives r hr hkind hkeyed b hb hbind hconjoins
  -- A contradiction would have been a verdict.
  have hcon : final.model.contradiction = false := by
    by_contra hc
    rw [Obligation.status, if_pos (by simpa using hc)] at hstatus
    cases hstatus
  have hsearch : b ∈ r.search final .all := by simpa [Rule.search, hkind] using hb
  have hvalued := Rule.valued_of_mem_search hfinal.model.closed hsearch
  have hclear := Rule.clear_of_valued hfinal.model hvalued
  have htold : final.model.Told (r.inserted b) := by
    cases hground : r.isGround with
    | false => exact (hsettled r hr).told hground hkind hkeyed b hb hbind
    | true =>
      rw [Rule.inserted_of_insertVariables (hwritten r hr) ((hreadable r hr).ground hground)]
      exact ((hsettled r hr).asserted hground).told
  exact htold.confirms hfinal.model hcon hconnectives
    (Rule.written_inserted (hwritten r hr) hclear hbind) hconjoins

end Reaching

def identityLibrary : Library :=
  { modules := [{ name := "M", theorems := [⟨"Identity", some identityTheorem.assertion⟩] }] }

def openCondition : Condition :=
  let a : Term := .symbol ⟨"a", .entity, .free⟩
  { id := 1, sequent := ⟨[.call "p" .boolean [.call "f" .entity [a]]], [.call "q" .boolean [a]]⟩ }

/-- A run that is out of rules when the function was taken away once. -/
theorem saturated_openRun : ∃ p : Prover,
    Prover.new "M" [openCondition] identityLibrary {} = .ok p ∧ ∃ ob ∈ p.obligations,
    (Attempt.run (p.context {}) ob).stopped = false ∧
    (Attempt.run (p.context {}) ob).obligation.status = .evaluating ∧
    ∃ r ∈ p.rules, ∃ b ∈ r.findMatches (Attempt.run (p.context {}) ob).obligation,
      (r.inserted b).render = "f(a) = a" ∧
      (Attempt.run (p.context {}) ob).obligation.model.Confirms (r.inserted b) := by
  have hrun : (Prover.new "M" [openCondition] identityLibrary {}).toOption.any (fun p =>
      p.obligations.any fun ob =>
        let a := Attempt.run (p.context {}) ob
        !a.stopped && a.obligation.status == .evaluating &&
          decide a.obligation.model.vocabulary.KeepsConnectives &&
          p.rules.toList.any fun r => !r.searchesByKind && decide r.Keyed &&
            (r.findMatches a.obligation).any fun b => r.bindsInsert b && (r.inserted b).conjoins &&
              (r.inserted b).render == "f(a) = a") = true := by
    decide +kernel
  have htheorems : ∀ t ∈ (identityLibrary.theorems "M" .transitive).theorems,
      t.assertion.written = true := by decide +kernel
  have hconditions : ∀ c ∈ [openCondition], ∀ t ∈ c.sequent.left ++ c.sequent.right,
      t.written = true := by decide +kernel
  cases hp : Prover.new "M" [openCondition] identityLibrary {} with
  | error e => simp [hp, Except.toOption] at hrun
  | ok p =>
    simp only [hp, Except.toOption, Option.any_some, List.any_eq_true, Bool.and_eq_true,
      Bool.not_eq_true', beq_iff_eq, decide_eq_true_eq] at hrun
    obtain ⟨ob, hob, ⟨⟨hgo, hstatus⟩, hconnectives⟩, r, hr, ⟨hkind, hkeyed⟩, b, hb,
      ⟨hbind, hconjoins⟩, hrender⟩ := hrun
    have hrules := Array.mem_toList_iff.mp hr
    obtain ⟨-, hall⟩ := saturated_run hp htheorems hconditions .refl {} hob hgo hstatus
    exact ⟨p, rfl, ob, hob, hgo, hstatus, r, hrules, b, hb, hrender,
      (hall hconnectives r hrules hkind hkeyed b hb hbind hconjoins).1⟩

end Prover

end Discharge.Search
