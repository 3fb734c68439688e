import Discharge.Proofs.Formula.Names
import Discharge.Proofs.Search.Agreement
import Discharge.Proofs.Search.Checked
import Discharge.Proofs.Search.Independence
import Discharge.Proofs.Search.Saturation

namespace Discharge.Search

open Congruence

namespace Checked

section Attempts

variable (c : Context)

def drawn (a : Attempt) (r : Ranked) : Except Fault (Option Candidate × Attempt) := do
  let (c, o) ← next r.rule a.obligation.model (a.offersOf r.position)
  return (c, { a with offers := a.offers.insert r.position o })

def choose (a : Attempt) (r : Ranked) : Except Fault (Option Candidate × Attempt) := do
  let reach := c.control.reach a.looks
  let a := { a with applied := a.applied.insert r.rule.name (a.appliedOf r.rule.name + 1) }
  let (_, o) ← offer r.rule a.obligation reach (a.offersOf r.position)
  drawn { a with
    offers := a.offers.insert r.position o
    stopped := a.stopped || reach != Reach.all } r

def insert (a : Attempt) (t : Candidate) : Except Fault (Change × Attempt) := do
  let (change, ob) ← assume a.obligation t.term
  return (change, { a with obligation := ob, considered := a.considered + 1 })

def shown (a : Attempt) : Except Fault Attempt :=
  if c.printEachStep then return a.write (.model (← Congruence.Checked.render a.obligation.model))
  else return a

def record (a : Attempt) (p : Attempt.Progress) (r : Ranked) (selected : Nat)
    (candidate : Candidate) (change : Change) : Except Fault Attempt := do
  let a ← shown c (a.write (.step p.round p.chosen (milliseconds (a.looks - p.began))
    (milliseconds (a.looks - selected)) (milliseconds a.looks) r.score r.rule.name
    candidate.render change.render))
  return { a with steps := a.steps ++ [⟨r.rule.name, candidate.term.render⟩] }

def queue (a : Attempt) : Except Fault (List Ranked) := do
  let ranked ← (a.active.filterMap fun i => (c.rules[i]?).map fun r => (i, r)).mapM fun (i, r) =>
    return Ranked.mk i r
      (← rank r (a.appliedOf r.name) c.helpers a.obligation.model.vocabulary)
  return ranked.mergeSort fun a b => a.score ≤ b.score

/-- The moves of an attempt, each with its lookups checked. -/
def moves : Moves (Except Fault) Attempt where
  attempt a := a
  put _ a := a
  status a := status a.obligation
  queue a := queue c a
  choose r a := choose c a r
  draw r a := drawn a r
  insert _ t a := insert a t
  giveUp _ l a := a.backtrack l
  record p r selected t change a := record c a p r selected t change

def run (ob : Obligation) : Except Fault Attempt := (moves c).run c (Attempt.start c ob)

def trace (a : Attempt) (showResults : Bool) : Except Fault Trace := do
  let outcome ← status a.obligation
  let model ← Congruence.Checked.render a.obligation.model
  return { id := a.obligation.condition.id
           sequent := a.obligation.condition.sequent.render
           lines := a.lines
           final := if showResults && outcome == .evaluating then some model else none }

def result (a : Attempt) (showResults : Bool) : Except Fault Result :=
  return { id := a.obligation.condition.id
           explanation := a.obligation.condition.explanation
           location := a.obligation.condition.location
           status := ← status a.obligation
           steps := a.steps.length
           duration := a.looks * 1000
           trace := (← trace a showResults).render }

end Attempts

section Attempts

variable {a : Attempt} {c : Context} {r : Ranked}

theorem posed_of_derives {rules : Array Rule} {ob ob' : Obligation} (h : ob.Posed)
    (hd : Derives rules ob ob') : ob'.Posed := by
  induction hd with
  | refl => exact h
  | ground _ _ _ ih => exact (ih h).assume _
  | apply _ _ _ _ _ ih ih' => exact (ih' (ih h)).assume _

theorem drawn_eq (h : a.obligation.Posed) (r : Ranked) : drawn a r = .ok (a.draw r) := by
  rw [drawn, next_eq r.rule h.model]
  rfl

theorem choose_eq (hr : r.rule.Formed) (h : a.obligation.Posed) :
    choose c a r = .ok (a.choose c r) := by
  rw [choose]
  dsimp only
  rw [offer_eq hr h]
  exact drawn_eq (a := a.offered c r) h r

theorem shown_eq (h : a.obligation.Posed) (c : Context) : shown c a =
    .ok (if c.printEachStep then a.write (.model a.obligation.model.render) else a) := by
  rw [shown, Congruence.Checked.render_eq h.model]
  split <;> rfl

theorem record_eq (h : a.obligation.Posed) (p : Attempt.Progress) (selected : Nat) (t : Candidate)
    (change : Change) :
    record c a p r selected t change = .ok (a.record c p r selected t change) := by
  rw [record, shown_eq (a := a.write _) h]
  rfl

theorem queue_eq (hrules : ∀ r ∈ c.rules, r.Formed) (a : Attempt) :
    queue c a = .ok (a.queue c) := by
  have hrank : ∀ x ∈ a.active.filterMap fun i => (c.rules[i]?).map fun r => (i, r), (do
      return Ranked.mk x.1 x.2
        (← rank x.2 (a.appliedOf x.2.name) c.helpers a.obligation.model.vocabulary) :
        Except Fault Ranked) = .ok (Ranked.mk x.1 x.2
          (x.2.rank (a.appliedOf x.2.name) c.helpers a.obligation.model.vocabulary)) := by
    intro x hx
    obtain ⟨i, -, hi⟩ := List.mem_filterMap.mp hx
    obtain ⟨r, hr, rfl⟩ := Option.map_eq_some_iff.mp hi
    rw [rank_eq (hrules r (Array.mem_of_getElem? hr))]
    rfl
  rw [queue, mapM_eq_ok hrank]
  rfl

theorem insert_eq (h : a.obligation.Posed) (t : Candidate) : insert a t = .ok (a.insert t) := by
  rw [insert, assume_eq h]
  rfl

theorem agrees_moves (hrules : ∀ r ∈ c.rules, r.Formed) :
    (moves c).Agrees (Attempt.moves c) c (fun a => a.obligation.Posed)
      (fun r => r.rule ∈ c.rules) where
  attempt_eq := rfl
  put_eq := rfl
  giveUp_eq := rfl
  status h := status_eq h
  queue _ := ⟨queue_eq hrules _, fun _ hr => Attempt.mem_rules_of_mem_queue hr⟩
  choose hr h := ⟨choose_eq (hrules _ hr) h, h⟩
  draw h := ⟨drawn_eq h _, h⟩
  insert h := ⟨insert_eq h _, h.assume _⟩
  record p r selected t change a h := by
    obtain ⟨lines, he⟩ := a.record_eq c p r selected t change
    refine ⟨record_eq h p selected t change, ?_⟩
    rw [Attempt.moves_record, he]
    exact h
  look h := h
  retire {a r} h := by
    obtain ⟨active, he⟩ := a.retire_eq r
    rw [Attempt.moves_put, Attempt.moves_attempt, he]
    exact h
  giveUp h := h

theorem run_eq (hrules : ∀ r ∈ c.rules, r.Formed) {ob : Obligation} (h : ob.Posed) :
    run c ob = .ok (Attempt.run c ob) :=
  (agrees_moves hrules).run (s := Attempt.start c ob) h

theorem result_eq (h : a.obligation.Posed) (showResults : Bool) :
    result a showResults = .ok (a.result showResults) := by
  rw [result, trace, status_eq h, Congruence.Checked.render_eq h.model]
  rfl

end Attempts

end Checked

inductive Request where
  | offer (rule : Nat) (reach : Reach)
  | next (rule : Nat)
  | assume (t : Term)
  | openGoals
  | status

inductive Reply where
  | offered (n : Nat)
  | candidate (c : Option Candidate)
  | changed (c : Change)
  | goals (names : List Text)
  | status (s : Status)

structure Desk where
  obligation : Obligation
  offers : Nat → Offers := fun _ => {}

namespace Desk

def post (d : Desk) (rule : Nat) (o : Offers) : Desk :=
  { d with offers := Function.update d.offers rule o }

end Desk

/-- How requests are answered; to answer may fail. -/
structure Service (μ : Type → Type) where
  offer : Rule → Obligation → Reach → Offers → μ (Nat × Offers)
  next : Rule → Model → Offers → μ (Option Candidate × Offers)
  assume : Obligation → Term → μ (Change × Obligation)
  openGoals : Obligation → μ (List Text)
  status : Obligation → μ Status

namespace Service

variable {μ : Type → Type} [Monad μ] (s : Service μ) (rules : Array Rule)

def serve (d : Desk) : Request → μ (Reply × Desk)
  | .offer i reach =>
    match rules[i]? with
    | none => return (.offered 0, d)
    | some r => do
      let (n, o) ← s.offer r d.obligation reach (d.offers i)
      return (.offered n, d.post i o)
  | .next i =>
    match rules[i]? with
    | none => return (.candidate none, d)
    | some r => do
      let (c, o) ← s.next r d.obligation.model (d.offers i)
      return (.candidate c, d.post i o)
  | .assume t => do
    let (c, ob) ← s.assume d.obligation t
    return (.changed c, { d with obligation := ob })
  | .openGoals => return (.goals (← s.openGoals d.obligation), d)
  | .status => return (.status (← s.status d.obligation), d)

def serveAll : List Request → Desk → μ (List Reply × Desk)
  | [], d => return ([], d)
  | q :: rest, d => do
    let (a, d) ← s.serve rules d q
    let (as, d) ← serveAll rest d
    return (a :: as, d)

def unchecked : Service Id where
  offer r ob reach o := r.offer ob reach o
  next r m o := r.next m o
  assume ob t := ob.assume t
  openGoals ob := ob.openGoals
  status ob := ob.status

end Service

def Desk.serveAll (rules : Array Rule) (requests : List Request) (d : Desk) : List Reply × Desk :=
  Service.unchecked.serveAll rules requests d

namespace Checked

section Provers

def service : Service (Except Fault) where
  offer r ob reach o := offer r ob reach o
  next r m o := next r m o
  assume ob t := assume ob t
  openGoals ob := openGoals ob
  status ob := status ob

def serveAll (rules : Array Rule) (requests : List Request) (d : Desk) :
    Except Fault (List Reply × Desk) :=
  service.serveAll rules requests d

def attempt (p : Prover) (total : Nat) (ob : Obligation) (r : Run) : Except Fault Run := do
  let a ← run (p.context r.session) ob
  return r.add total a (← result a p.config.showResults)

def runAll (p : Prover) (total : Nat) : List Obligation → Run → Except Fault Run
  | [], r => .ok r
  | ob :: rest, r => do
    runAll p total rest
      (← if p.config.skips r.unproved then .ok (Prover.skip total ob r) else attempt p total ob r)

def start (p : Prover) (m : Metrics) (s : Session) : Except Fault (Run × Prover) := do
  let r ← runAll p p.obligations.length p.obligations { metrics := m.reset, session := s }
  return (r, { p with obligations := r.obligations })

def prover (module : Text) (conditions : List Condition) (library : Library) (config : Config) :
    Except Refused Prover :=
  let integerSorts := library.hasIntegerSorts module
  let n : Normalizer := ⟨integerSorts⟩
  match Prover.repeatedId? conditions [] with
  | some id => .error (.ofCause (.repeatedCondition id))
  | none =>
    let theorems := (library.theorems module .transitive).theorems
    let made : Except Fault (List Obligation × List (List Rule)) := do
      let obligations ← conditions.mapM (obligation n)
      let rules ← theorems.mapM fun t => rulesOf t.name (n.normalize t.assertion) config.allowNew
      return (obligations, rules)
    match made with
    | .error f => .error (.fault f)
    | .ok (obligations, rules) => .ok {
        module, config, integerSorts, obligations
        rules := rules.flatten.toArray
        helpers := Text.sorted (Text.distinct
          (theorems.flatMap fun t => helpersOf (n.normalize t.assertion))) }

end Provers

section Provers

theorem serve_spec {rules : Array Rule} (hrules : ∀ r ∈ rules, r.Formed) {d : Desk}
    (h : d.obligation.Posed) (q : Request) :
    service.serve rules d q = .ok (Service.unchecked.serve rules d q).run ∧
      (Service.unchecked.serve rules d q).run.2.obligation.Posed := by
  cases q with
  | offer i reach =>
    rw [Service.serve, Service.serve]
    cases hr : rules[i]? with
    | none => exact ⟨rfl, h⟩
    | some r =>
      dsimp only [service]
      rw [offer_eq (hrules r (Array.mem_of_getElem? hr)) h]
      exact ⟨rfl, h⟩
  | next i =>
    rw [Service.serve, Service.serve]
    cases rules[i]? with
    | none => exact ⟨rfl, h⟩
    | some r =>
      dsimp only [service]
      rw [next_eq r h.model]
      exact ⟨rfl, h⟩
  | assume t =>
    rw [Service.serve]
    dsimp only [service]
    rw [assume_eq h]
    exact ⟨rfl, h.assume t⟩
  | openGoals =>
    rw [Service.serve]
    dsimp only [service]
    rw [openGoals_eq h]
    exact ⟨rfl, h⟩
  | status =>
    rw [Service.serve]
    dsimp only [service]
    rw [status_eq h]
    exact ⟨rfl, h⟩

theorem serveAll_eq {rules : Array Rule} (hrules : ∀ r ∈ rules, r.Formed) (qs : List Request)
    {d : Desk} (h : d.obligation.Posed) :
    serveAll rules qs d = .ok (Desk.serveAll rules qs d) := by
  unfold serveAll Desk.serveAll
  induction qs generalizing d with
  | nil => rfl
  | cons q rest ih =>
    obtain ⟨hserve, hposed⟩ := serve_spec hrules h q
    rw [Service.serveAll, hserve, ok_bind]
    dsimp only
    rw [ih hposed]
    rfl

theorem attempt_eq {p : Prover} (hrules : ∀ r ∈ p.rules, r.Formed) (total : Nat) {ob : Obligation}
    (h : ob.Posed) (r : Run) : attempt p total ob r = .ok (p.attempt total ob r) := by
  have hposed := posed_of_derives h (Attempt.derives_run (p.context r.session) ob)
  rw [attempt, run_eq (c := p.context r.session) hrules h, ok_bind, result_eq hposed]
  rfl

theorem runAll_eq {p : Prover} (hrules : ∀ r ∈ p.rules, r.Formed) (total : Nat)
    (obs : List Obligation) (h : ∀ ob ∈ obs, ob.Posed) (r : Run) :
    runAll p total obs r = .ok (p.runAll total obs r) := by
  induction obs generalizing r with
  | nil => rfl
  | cons ob rest ih =>
    obtain ⟨hob, hrest⟩ := List.forall_mem_cons.mp h
    rw [runAll, Prover.runAll, attempt_eq hrules total hob]
    split <;> exact ih hrest _

theorem start_eq {p : Prover} (hrules : ∀ r ∈ p.rules, r.Formed)
    (h : ∀ ob ∈ p.obligations, ob.Posed) (m : Metrics) (s : Session) :
    start p m s = .ok (p.start m s) := by
  rw [start, runAll_eq hrules _ _ h]
  rfl

theorem prover_eq (module : Text) (conditions : List Condition) (library : Library)
    (config : Config) : prover module conditions library config =
      Prover.new module conditions library config := by
  unfold prover Prover.new Prover.rulesOfTheorems
  dsimp only
  rw [mapM_eq_ok fun c _ => obligation_eq _ c, ok_bind]
  simp only [rulesOf_eq]
  cases Prover.repeatedId? conditions [] with
  | some id => rfl
  | none =>
    cases (library.theorems module .transitive).theorems.mapM fun t => Search.rulesOf t.name
      ((⟨library.hasIntegerSorts module⟩ : Normalizer).normalize t.assertion) config.allowNew <;> rfl

end Provers

end Checked

/-- An implication with variables that has not two sides. -/
def Lopsided (A : Term) : Prop :=
  A.vars ≠ [] ∧ A.operator? = some ("implies" : Text) ∧ A.sides? = none

/-- Whether no lookup fails, neither for what may be asked about an obligation nor in a run. -/
structure Prover.Answers (p : Prover) : Prop where
  requests : ∀ ob ∈ p.obligations, ∀ requests : List Request,
    Checked.serveAll p.rules requests { obligation := ob } =
      .ok (Desk.serveAll p.rules requests { obligation := ob })
  runs : ∀ (m : Metrics) (s : Session), Checked.start p m s = .ok (p.start m s)

section Making

variable {A : Term}

theorem rulesOf_of_lopsided (name : Text) (allowNew : Bool) (h : Lopsided A) :
    rulesOf name A allowNew = .error (.notBinary A.render) := by
  obtain ⟨hvars, hop, hsides⟩ := h
  have hfault : A.sides = .error (.notBinary A.render) := by rw [Term.sides, hsides]
  rw [rulesOf, if_neg (by simpa using hvars), hfault, hop]
  rfl

end Making

namespace Prover

theorem rulesOfTheorems_cases (n : Normalizer) (allowNew : Bool) (theorems : List Theorem)
    (hequations : ∀ t ∈ theorems, Formula.EquationHasSides (n.normalize t.assertion)) :
    (∃ t ∈ theorems, Lopsided (n.normalize t.assertion) ∧ rulesOfTheorems n allowNew theorems =
      .error (.notBinary (n.normalize t.assertion).render)) ∨
    (∀ t ∈ theorems, ¬ Lopsided (n.normalize t.assertion)) ∧
      ∃ rules, rulesOfTheorems n allowNew theorems = .ok rules := by
  induction theorems with
  | nil => exact .inr ⟨by simp, [], rfl⟩
  | cons t rest ih =>
    obtain ⟨hequation, hrest⟩ := List.forall_mem_cons.mp hequations
    by_cases ht : Lopsided (n.normalize t.assertion)
    · refine .inl ⟨t, List.mem_cons_self, ht, ?_⟩
      rw [rulesOfTheorems, List.mapM_cons, rulesOf_of_lopsided _ _ ht]
      rfl
    · obtain ⟨group, hgroup⟩ := exists_rulesOf t.name allowNew hequation fun hvars hop =>
        Option.ne_none_iff_exists'.mp fun hsides => ht ⟨hvars, hop, hsides⟩
      have hcons : rulesOfTheorems n allowNew (t :: rest) =
          (rulesOfTheorems n allowNew rest).map (group ++ ·) := by
        rw [rulesOfTheorems, rulesOfTheorems, List.mapM_cons, hgroup]
        cases rest.mapM fun t => rulesOf t.name (n.normalize t.assertion) allowNew <;> rfl
      rcases ih hrest with ⟨u, hu, hlop, hfault⟩ | ⟨hall, rules, hrules⟩
      · exact .inl ⟨u, List.mem_cons_of_mem _ hu, hlop, by rw [hcons, hfault]; rfl⟩
      · exact .inr ⟨List.forall_mem_cons.mpr ⟨ht, hall⟩, _, by rw [hcons, hrules]; rfl⟩

section Starting

variable {module : Text} {conditions : List Condition} {library : Library} {config : Config}
  {p q : Prover}

theorem answers_of_posed (hrules : ∀ r ∈ p.rules, r.Formed)
    (hobligations : ∀ ob ∈ p.obligations, ob.Posed) : p.Answers where
  requests _ hob requests := Checked.serveAll_eq hrules requests (hobligations _ hob)
  runs m s := Checked.start_eq hrules hobligations m s

/-- Whatever runs there were, the goals are known. -/
theorem posed_of_reaches (h : Prover.new module conditions library config = .ok p)
    (hq : p.Reaches q) :
    (∀ r ∈ q.rules, r.Formed) ∧ ∀ ob ∈ q.obligations, ob.Posed := by
  induction hq with
  | refl =>
    obtain ⟨⟨rules, hrules, hp⟩, hobs⟩ := new_spec h
    refine ⟨?_, ?_⟩
    · intro r hr
      rw [hp, List.mem_toArray] at hr
      obtain ⟨t, -, group, hgroup, hr⟩ := exists_of_mem_rulesOfTheorems hrules hr
      exact formed_rulesOf hgroup r hr
    · intro ob hob
      rw [hobs] at hob
      obtain ⟨c, -, rfl⟩ := List.mem_map.mp hob
      exact Obligation.posed_new _ c
  | start hq m s ih =>
    refine ⟨ih.1, fun ob hob => ?_⟩
    rcases exists_of_mem_runAll _ _ _ _ hob with hnil | ⟨ob', hob', hd⟩
    · simp at hnil
    · exact Checked.posed_of_derives (ih.2 ob' hob') hd

/-- A prover of conditions with different ids by theorems whose callees are words is made and never
fails, unless a theorem with variables is an implication that has not two sides. Then the first such
is told. -/
theorem answers_new (hids : (conditions.map Condition.id).Nodup)
    (hworded : ∀ t ∈ (library.theorems module .transitive).theorems, Formula.Worded t.assertion) :
    Checked.prover module conditions library config =
        Prover.new module conditions library config ∧
      ((∃ A ∈ assertions library module, Lopsided A ∧
          Prover.new module conditions library config = .error (.fault (.notBinary A.render))) ∨
        (∀ A ∈ assertions library module, ¬ Lopsided A) ∧
          ∃ p, Prover.new module conditions library config = .ok p ∧
            ∀ q, p.Reaches q → q.Answers) := by
  have hfresh : repeatedId? conditions [] = none := repeatedId?_eq_none.mpr ⟨hids, by simp⟩
  have hequations : ∀ t ∈ (library.theorems module .transitive).theorems,
      Formula.EquationHasSides ((normalizer library module).normalize t.assertion) :=
    fun t ht => Formula.equationHasSides_normalize _ (hworded t ht).equationHasSides
  refine ⟨Checked.prover_eq _ _ _ _, ?_⟩
  rcases rulesOfTheorems_cases _ config.allowNew _ hequations with
    ⟨t, ht, hlop, hfault⟩ | ⟨hall, rules, hrules⟩
  · refine .inl ⟨_, List.mem_map_of_mem ht, hlop, ?_⟩
    unfold normalizer at hfault
    unfold Prover.new
    dsimp only
    rw [hfresh, hfault]
    rfl
  · have hmade : ∃ p, Prover.new module conditions library config = .ok p := by
      unfold normalizer at hrules
      unfold Prover.new
      dsimp only
      rw [hfresh, hrules]
      exact ⟨_, rfl⟩
    obtain ⟨p, hp⟩ := hmade
    refine .inr ⟨by simpa [assertions] using hall, p, hp, fun q hq => ?_⟩
    obtain ⟨hformed, hposed⟩ := posed_of_reaches hp hq
    exact answers_of_posed hformed hposed

end Starting

theorem answers_new_covering :
    ([coveredCondition].map Condition.id).Nodup ∧
      (∀ t ∈ (coveringLibrary.theorems "M" .transitive).theorems, Formula.Worded t.assertion) ∧
      (∀ A ∈ assertions coveringLibrary "M", ¬ Lopsided A) ∧
      ∃ p, Prover.new "M" [coveredCondition] coveringLibrary {} = .ok p ∧
        ∀ q, p.Reaches q → q.Answers := by
  have hids : ([coveredCondition].map Condition.id).Nodup := List.nodup_singleton _
  have hworded : ∀ t ∈ (coveringLibrary.theorems "M" .transitive).theorems,
      Formula.Worded t.assertion := by
    intro t ht
    have hassertion : t.assertion = covering := by
      rw [List.mem_singleton.mp (show t ∈ [⟨"Covering", "M", covering⟩] from ht)]
    rw [hassertion]
    have hsource : Formula.read ⟨[("f", .boolean), ("g", .boolean)], [("x", .integer)]⟩
      "implies(f(x), g(x))" = .ok covering := rfl
    exact Formula.worded_read hsource
  refine ⟨hids, hworded, ?_⟩
  rcases (@answers_new "M" [coveredCondition] coveringLibrary {} hids hworded).2 with
    ⟨A, hA, hlop, -⟩ | hmade
  · rw [assertions_coveringLibrary, List.mem_singleton] at hA
    subst hA
    exact absurd hlop.2.2 (by decide)
  · exact hmade

example : Prover.new "M" [coveredCondition] { modules := [{ name := "M", theorems := [⟨"One side",
    (Formula.read { vars := [("x", .integer)] } "implies(p(x))").toOption⟩] }] } {} =
      .error (.fault (.notBinary "implies(p(x))")) := by rfl

end Prover

end Discharge.Search
