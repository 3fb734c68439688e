import Discharge.Engine
import Discharge.Proofs.Search.Determinacy

/-!
What an engine remembers. Each run of an engine is a visit to a module in the library that it is
loaded into. Whatever happens between the runs, a remembered result was reported on some visit, for
a condition that had the same key there.
-/

namespace Discharge

open Search

structure Result.Describes (r : Result) (c : Condition) : Prop where
  id : r.id = c.id
  explanation : r.explanation = c.explanation
  location : r.location = c.location

/-- A module as a run finds it, and the run's circumstances. -/
structure Visit where
  module : Module
  library : Library
  config : Config
  session : Session

namespace Visit

variable (v : Visit)

def theorems : List Theorem := (v.library.theorems v.module.name .transitive).theorems

def normalizer : Normalizer := Prover.normalizer v.library v.module.name

def theoremsText : Text := Cache.theoremsText v.theorems

def symbolsText : Text :=
  Cache.symbolsText (v.library.kinds v.module.name) (v.library.hasIntegerSorts v.module.name)

def keyText (c : Condition) : Text :=
  Cache.keyText v.module.name c (Digest.hexDigest v.theoremsText) (Digest.hexDigest v.symbolsText)
    v.config

def key (c : Condition) : Text := Digest.hexDigest (v.keyText c)

/-- Whether an attempt is the one that is made for a condition if nothing calls it off. -/
def Attempts (c : Condition) (a : Attempt) : Prop :=
  ∃ p, Prover.new v.module.name [c] v.library v.config = .ok p ∧
    a = p.undisturbed (Obligation.new v.normalizer c)

/-- Whether a result is about a condition, and the outcome of the attempt for it if nothing was
called off or left out. -/
structure Reports (c : Condition) (r : Result) : Prop extends r.Describes c where
  status : v.session.Quiet → v.config.tries < 0 → ∃ a, v.Attempts c a ∧
    r.status = a.obligation.status

end Visit

namespace Search.Prover

variable {p : Prover} {v : Visit} {conditions : List Condition}

theorem runAll_describes (p : Prover) (total : Nat) (obs : List Obligation) (r : Run) :
    ∃ results, (p.runAll total obs r).results = r.results ++ results ∧
      List.Forall₂ (fun ob s => s.Describes ob.condition) obs results := by
  induction obs generalizing r with
  | nil => exact ⟨[], by simp [runAll]⟩
  | cons ob rest ih =>
    unfold runAll
    split
    · obtain ⟨results, hresults, hall⟩ := ih (skip total ob r)
      refine ⟨Result.skip ob.condition :: results, ?_, .cons ⟨rfl, rfl, rfl⟩ hall⟩
      rw [hresults]
      simp [skip]
    · obtain ⟨results, hresults, hall⟩ := ih (p.attempt total ob r)
      have hcondition := (Attempt.derives_run (p.context r.session) ob).frame.1
      refine ⟨(Attempt.run (p.context r.session) ob).result p.config.showResults :: results, ?_,
        .cons ⟨congrArg Condition.id hcondition, congrArg Condition.explanation hcondition,
          congrArg Condition.location hcondition⟩ hall⟩
      rw [hresults]
      simp [attempt, Run.add]

theorem reports_start (hp : Prover.new v.module.name conditions v.library v.config = .ok p)
    (m : Metrics) : List.Forall₂ v.Reports conditions (p.start m v.session).1.results := by
  obtain ⟨-, hobs⟩ := new_spec hp
  obtain ⟨results, hresults, hall⟩ := runAll_describes p p.obligations.length p.obligations
    { metrics := m.reset, session := v.session }
  have hstart : (p.start m v.session).1.results = results := by simpa [start] using hresults
  rw [hstart]
  rw [hobs, List.forall₂_map_left_iff] at hall
  refine List.forall₂_iff_get.mpr ⟨hall.length_eq, fun i hi hi' => ?_⟩
  have hdescribes := (List.forall₂_iff_get.mp hall).2 i hi hi'
  rw [Obligation.condition_new] at hdescribes
  refine ⟨hdescribes, fun hquiet htries => ?_⟩
  obtain ⟨hconfig, hone⟩ := new_single hp (conditions.get ⟨i, hi⟩)
  have hmap := (start_quiet (p := p) (by rw [hconfig]; exact htries) m hquiet).1
  rw [hstart, hobs] at hmap
  refine ⟨_, ⟨_, hone, rfl⟩, ?_⟩
  have hat : results.get ⟨i, hi'⟩ = (p.undisturbed (Obligation.new v.normalizer
      (conditions.get ⟨i, hi⟩))).result p.config.showResults := by
    simp [hmap, Visit.normalizer]
  rw [hat, Attempt.status_result]
  exact congrArg (fun a : Attempt => a.obligation.status) (undisturbed_of_obligations p _ _).symm

end Search.Prover

namespace Cache.Store

variable {s : Store} {key : Text} {r : Result}

theorem mem_set {k : Text} {x : Result} (h : (k, x) ∈ (s.set key r).entries) :
    (k, x) ∈ s.entries ∨ k = key ∧ x = kept r := by
  unfold set at h
  split at h
  · rcases List.mem_cons.mp h with h | h
    · exact .inr (Prod.mk.inj h)
    · exact .inl (List.mem_filter.mp h).1
  · exact .inl h

theorem mem_foldl_set {k : Text} {x : Result} (results : List (Text × Result))
    (h : (k, x) ∈ (results.foldl (fun s (key, r) => s.set key r) s).entries) :
    (k, x) ∈ s.entries ∨ ∃ r, (k, r) ∈ results ∧ x = kept r := by
  induction results generalizing s with
  | nil => exact .inl h
  | cons p rest ih =>
    rcases ih h with h | ⟨r, hr, hx⟩
    · rcases mem_set h with h | ⟨rfl, hx⟩
      · exact .inl h
      · exact .inr ⟨p.2, List.mem_cons_self, hx⟩
    · exact .inr ⟨r, List.mem_cons_of_mem _ hr, hx⟩

theorem mem_of_get? (h : s.get? key = some r) : (key, r) ∈ s.entries := by
  obtain ⟨l, l', hl, -⟩ := List.lookup_eq_some_iff.mp h
  rw [hl]
  simp

end Cache.Store

namespace Engine

def visit (e : Engine) (interruption : Option Interruption) (m : Module) : Visit :=
  ⟨m, e.library, e.config, { e.session with interruption }⟩

def visits (e : Engine) (interruption : Option Interruption) (path : Text) : List Visit :=
  match e.library.load e.files path with
  | (.ok m, library) => [{ e with library }.visit interruption m]
  | (.error _, _) => []

/-- The visits of an engine's runs, from when nothing was remembered. Between two runs anything may
change but what is remembered: the files, the settings, what is loaded, the engine itself. -/
inductive History : List Visit → Engine → Prop where
  | fresh {e : Engine} (h : e.cache = some {}) : History [] e
  | change {vs : List Visit} {e e' : Engine} (h : History vs e) (hcache : e'.cache = e.cache) :
    History vs e'
  | run {vs : List Visit} {e : Engine} (h : History vs e) (interruption : Option Interruption)
    (path : Text) : History (vs ++ e.visits interruption path) (e.prove interruption path).2

theorem History.edit {vs : List Visit} {e : Engine} (h : History vs e) (files : Tree) :
    History vs { e with files } := h.change rfl

def openConditions (e : Engine) (m : Module) : List Condition :=
  ((e.tasks m).filter Task.isOpen).map Task.condition

section Proving

variable {e : Engine} {m : Module} {path : Text} {interruption : Option Interruption} {p : Prover}

theorem writeProof_frame (e : Engine) (r : Report) :
    (e.writeProof r).2.cache = e.cache ∧
      ∃ r', (e.writeProof r).1.report = some r' ∧ r'.results = r.results := by
  unfold writeProof
  split
  · exact ⟨rfl, r, rfl, rfl⟩
  · dsimp only
    split <;> exact ⟨rfl, _, rfl, rfl⟩

theorem proveModule_of_new (path : Text) (interruption : Option Interruption)
    (hp : Prover.new m.name (e.openConditions m) e.library e.config = .ok p) :
    let results := (p.start e.metrics { e.session with interruption }).1.results
    ∃ (e' : Engine) (elapsed : Nat), e'.files = e.files ∧ e'.writesProofs = e.writesProofs ∧
      e'.cache = (e.remember
        ((((e.tasks m).filter Task.isOpen).map Task.key).zip results)).cache ∧
      let written := e'.writeProof (e'.report path m (fill (e.tasks m) results) elapsed)
      e.proveModule path m interruption = (.ok { written.1 with
        error := written.1.error.or (interruption.map fun i =>
          .during (.searching m.name) (.because (.interrupted i))) }, written.2) := by
  unfold openConditions at hp
  unfold proveModule
  dsimp only
  rw [hp]
  exact ⟨(e.search (e.tasks m) p interruption).2.2, (e.search (e.tasks m) p interruption).2.1,
    rfl, rfl, rfl, rfl⟩

theorem proveModule_of_error {r : Refused}
    (hp : Prover.new m.name (e.openConditions m) e.library e.config = .error r) :
    (e.proveModule path m interruption).2 = e ∧ (e.proveModule path m interruption).1 =
      match r with
      | .fault f => .error f
      | .error error => .ok ⟨none, some (.during .preparingSearch error)⟩ := by
  unfold openConditions at hp
  unfold proveModule
  dsimp only
  rw [hp]
  cases r <;> exact ⟨rfl, rfl⟩

theorem prove_of_load {library : Library} (interruption : Option Interruption)
    (h : e.library.load e.files path = (.ok m, library)) :
    e.prove interruption path = { e with library }.proveModule path m interruption ∧
      e.visits interruption path = [{ e with library }.visit interruption m] := by
  simp only [prove, visits, h, and_self]

theorem prove_of_load_error {r : Refused} {library : Library} (interruption : Option Interruption)
    (h : e.library.load e.files path = (.error r, library)) :
    (e.prove interruption path).2 = { e with library } ∧ (e.prove interruption path).1 =
      (match r with
      | .fault f => .error f
      | .error error => .ok ⟨none, some (.during .loadingModule error)⟩) ∧
      e.visits interruption path = [] := by
  cases r <;> simp [prove, visits, h]

end Proving

def Remembers (vs : List Visit) (s : Cache.Store) : Prop :=
  ∀ key r, (key, r) ∈ s.entries → ∃ v ∈ vs, ∃ c ∈ v.module.conditions, key = v.key c ∧
    ∃ reported, v.Reports c reported ∧ r = Cache.Store.kept reported

theorem Remembers.mono {vs us : List Visit} {s : Cache.Store} (h : Remembers vs s)
    (hsub : vs ⊆ us) : Remembers us s := by
  intro key r hr
  obtain ⟨v, hv, hrest⟩ := h key r hr
  exact ⟨v, hsub hv, hrest⟩

section Remembering

variable {e : Engine} {m : Module} {interruption : Option Interruption}

theorem tasks_eq (e : Engine) (interruption : Option Interruption) (m : Module) :
    e.tasks m = m.conditions.map fun c =>
      ⟨c, (e.visit interruption m).key c, e.remembered? ((e.visit interruption m).key c)⟩ := by
  have hkeys : e.keys m = m.conditions.map (e.visit interruption m).key := rfl
  rw [tasks, hkeys, ← List.map_prod_left_eq_zip, List.map_map]
  rfl

theorem fill_spec {R : Condition → Result → Prop} {tasks : List Task} {new : List Result}
    (hknown : ∀ t ∈ tasks, ∀ r, t.known = some r → R t.condition r)
    (hnew : List.Forall₂ R ((tasks.filter Task.isOpen).map Task.condition) new) :
    List.Forall₂ R (tasks.map Task.condition) (fill tasks new) := by
  induction tasks generalizing new with
  | nil => exact .nil
  | cons t rest ih =>
    have hrest := fun t ht => hknown t (List.mem_cons_of_mem _ ht)
    obtain ⟨c, key, known⟩ := t
    cases known with
    | some r => exact .cons (hknown _ List.mem_cons_self r rfl) (ih hrest hnew)
    | none =>
      cases hnew with
      | cons hr hnew => exact .cons hr (ih hrest hnew)

theorem fill_tasks {R : Condition → Result → Prop} {m : Module} {new : List Result}
    (interruption : Option Interruption)
    (hknown : ∀ c ∈ m.conditions, ∀ r,
      e.remembered? ((e.visit interruption m).key c) = some r → R c r)
    (hnew : List.Forall₂ R (e.openConditions m) new) :
    List.Forall₂ R m.conditions (fill (e.tasks m) new) := by
  have hconditions : (e.tasks m).map Task.condition = m.conditions := by
    rw [tasks_eq e interruption m, List.map_map]
    exact List.map_id _
  rw [← hconditions]
  refine fill_spec ?_ hnew
  rw [tasks_eq e interruption m]
  intro t ht r hr
  obtain ⟨c, hc, rfl⟩ := List.mem_map.mp ht
  exact hknown c hc r hr

theorem reports_start {p : Prover} (interruption : Option Interruption)
    (hp : Prover.new m.name (e.openConditions m) e.library e.config = .ok p) :
    List.Forall₂ (e.visit interruption m).Reports (e.openConditions m)
      (p.start e.metrics { e.session with interruption }).1.results :=
  Prover.reports_start (v := e.visit interruption m) hp e.metrics

theorem remembers_remember {results : List Result} (hreports : List.Forall₂
      (e.visit interruption m).Reports (e.openConditions m) results) {vs : List Visit}
    (h : ∀ s, e.cache = some s → Remembers vs s) :
    ∀ s, (e.remember ((((e.tasks m).filter Task.isOpen).map Task.key).zip results)).cache =
      some s → Remembers (vs ++ [e.visit interruption m]) s := by
  intro s hs key r hr
  obtain ⟨before, hbefore, rfl⟩ := Option.map_eq_some_iff.mp hs
  rcases Cache.Store.mem_foldl_set _ hr with hold | ⟨reported, hnew, rfl⟩
  · exact (h before hbefore).mono (List.subset_append_left vs _) key r hold
  · obtain ⟨i, hi, hat⟩ := List.mem_iff_getElem.mp hnew
    rw [List.getElem_zip, List.getElem_map, Prod.mk.injEq] at hat
    obtain ⟨hkey, hresult⟩ := hat
    have hlt : i < ((e.tasks m).filter Task.isOpen).length := by simp at hi; omega
    have htask := (List.mem_filter.mp (List.getElem_mem hlt)).1
    have hall : ∀ t ∈ e.tasks m, t.condition ∈ m.conditions ∧
        t.key = (e.visit interruption m).key t.condition := by
      rw [tasks_eq e interruption m]
      intro t ht
      obtain ⟨c, hc, rfl⟩ := List.mem_map.mp ht
      exact ⟨hc, rfl⟩
    obtain ⟨hc, htaskKey⟩ := hall _ htask
    have hreport := (List.forall₂_iff_get.mp hreports).2 i (by simpa [openConditions] using hlt)
      (by simp at hi; omega)
    simp only [openConditions, List.get_eq_getElem, List.getElem_map, hresult] at hreport
    exact ⟨_, by simp, _, hc, hkey.symm.trans htaskKey, reported, hreport, rfl⟩

/-- What is remembered after any history. -/
theorem History.remembers {vs : List Visit} (h : History vs e) :
    ∀ s, e.cache = some s → Remembers vs s := by
  induction h with
  | fresh hfresh =>
    intro s hs key r hr
    rw [hfresh, Option.some.injEq] at hs
    subst hs
    cases hr
  | change _ hcache ih =>
    rw [hcache]
    exact ih
  | @run vs e _ interruption path ih =>
    cases hload : e.library.load e.files path with
    | mk loaded library =>
      cases loaded with
      | error r =>
        obtain ⟨hengine, -, hvisits⟩ := prove_of_load_error interruption hload
        rw [hengine, hvisits, List.append_nil]
        exact ih
      | ok m =>
        obtain ⟨hprove, hvisits⟩ := prove_of_load interruption hload
        rw [hprove, hvisits]
        cases hp : Prover.new m.name (({ e with library } : Engine).openConditions m) library
            e.config with
        | error r =>
          rw [(proveModule_of_error (e := { e with library }) hp).1]
          exact fun s hs => (ih s hs).mono (List.subset_append_left vs _)
        | ok p =>
          obtain ⟨e', elapsed, -, -, hcache, hprove⟩ := proveModule_of_new
            (e := { e with library }) path interruption hp
          rw [hprove, (writeProof_frame e' _).1, hcache]
          exact remembers_remember (reports_start (e := { e with library }) interruption hp) ih

end Remembering

end Engine

end Discharge
