import Discharge.Proofs.Cache.KeyText
import Discharge.Proofs.Engine.History

namespace Discharge

open Search

/-- Whether the digests of what visits see tell it apart. -/
structure CollisionFree (vs : List Visit) : Prop where
  theorems : ∀ v ∈ vs, ∀ v' ∈ vs,
    Digest.hexDigest v.theoremsText = Digest.hexDigest v'.theoremsText →
      v.theoremsText = v'.theoremsText
  symbols : ∀ v ∈ vs, ∀ v' ∈ vs,
    Digest.hexDigest v.symbolsText = Digest.hexDigest v'.symbolsText →
      v.symbolsText = v'.symbolsText
  keys : ∀ v ∈ vs, ∀ c ∈ v.module.conditions, ∀ v' ∈ vs, ∀ c' ∈ v'.module.conditions,
    v.key c = v'.key c' → v.keyText c = v'.keyText c'

theorem CollisionFree.of_same {vs : List Visit}
    (htheorems : ∀ v ∈ vs, ∀ v' ∈ vs, v.theoremsText = v'.theoremsText)
    (hsymbols : ∀ v ∈ vs, ∀ v' ∈ vs, v.symbolsText = v'.symbolsText)
    (hkeys : ∀ v ∈ vs, ∀ v' ∈ vs, ∀ c ∈ v.module.conditions, ∀ c' ∈ v'.module.conditions,
      v.module.name = v'.module.name ∧ c.id = c'.id ∧ c.sequent.render = c'.sequent.render ∧
        v.config = v'.config) : CollisionFree vs := by
  refine ⟨fun v hv v' hv' _ => htheorems v hv v' hv', fun v hv v' hv' _ => hsymbols v hv v' hv', ?_⟩
  intro v hv c hc v' hv' c' hc' _
  obtain ⟨hname, hid, hsequent, hconfig⟩ := hkeys v hv v' hv' c hc c' hc'
  rw [Visit.keyText, Visit.keyText, htheorems v hv v' hv', hsymbols v hv v' hv', hname, hconfig]
  exact Cache.keyText_congr hid hsequent

/-- What equal keys say of two visits. -/
theorem Visit.sameKey {v v' : Visit} {c c' : Condition} (hname : v.module.name.isLine = true)
    (hname' : v'.module.name.isLine = true) (h : v.keyText c = v'.keyText c') :
    Cache.SameKey v.module.name v'.module.name c c' (Digest.hexDigest v.theoremsText)
      (Digest.hexDigest v'.theoremsText) (Digest.hexDigest v.symbolsText)
      (Digest.hexDigest v'.symbolsText) v.config v'.config :=
  Cache.keyText_inj hname hname' (by rw [Cache.length_hexDigest, Cache.length_hexDigest])
    (by rw [Cache.length_hexDigest, Cache.length_hexDigest]) h

/-- Whether no condition with the key of this one was described in another way on earlier visits,
and its description consists of characters. -/
structure Visit.Undisputed (vs : List Visit) (v : Visit) (c : Condition) : Prop where
  unchanged : ∀ u ∈ vs, ∀ c' ∈ u.module.conditions, u.keyText c' = v.keyText c →
    c'.explanation = c.explanation ∧ c'.location = c.location
  explanation : c.explanation.repaired = c.explanation
  file : c.location.file.repaired = c.location.file

namespace Engine

variable {e : Engine} {vs : List Visit} {path : Text} {interruption : Option Interruption}

/-- What is remembered was reported on some visit, and is decided. -/
theorem History.remembered (h : History vs e) {key : Text} {r : Result}
    (hr : e.remembered? key = some r) : r.cached = true ∧ ∃ v ∈ vs, ∃ c ∈ v.module.conditions,
      key = v.key c ∧ ∃ reported, v.Reports c reported ∧
        r = { Cache.Store.kept reported with cached := true } := by
  cases hcache : e.cache with
  | none => simp [remembered?, hcache] at hr
  | some s =>
    cases hget : s.get? key with
    | none => simp [remembered?, hcache, hget] at hr
    | some x =>
      have hx : (if x.status.isTerminal then some { x with cached := true } else none) =
          some r := by simpa [remembered?, hcache, hget] using hr
      split at hx
      · rw [Option.some.injEq] at hx
        obtain ⟨v, hv, c, hc, hkey, reported, hreported, rfl⟩ :=
          h.remembers s hcache key x (Cache.Store.mem_of_get? hget)
        exact ⟨by rw [← hx], v, hv, c, hc, hkey, reported, hreported, hx.symm⟩
      · cases hx

theorem History.remembered_describes (h : History vs e) {v : Visit} {c : Condition} {r : Result}
    (hc : c ∈ v.module.conditions) (hdigest : CollisionFree (vs ++ [v]))
    (hnames : ∀ u ∈ vs ++ [v], u.module.name.isLine = true)
    (hr : e.remembered? (v.key c) = some r) :
    r.id = c.id ∧ r.cached = true ∧ (Visit.Undisputed vs v c → r.Describes c) := by
  obtain ⟨hcached, u, hu, c', hc', hkey, reported, hreported, rfl⟩ := h.remembered hr
  have hmem : u ∈ vs ++ [v] := List.mem_append_left _ hu
  have hself : v ∈ vs ++ [v] := by simp
  have htext := hdigest.keys u hmem c' hc' v hself c hc hkey.symm
  have hid := (Visit.sameKey (hnames u hmem) (hnames v hself) htext).id
  refine ⟨hreported.id.trans hid, hcached, fun hundisputed => ?_⟩
  obtain ⟨hexplanation, hlocation⟩ := hundisputed.unchanged u hu c' hc' htext
  refine ⟨hreported.id.trans hid, ?_, ?_⟩
  · change reported.explanation.repaired = c.explanation
    rw [hreported.explanation, hexplanation, hundisputed.explanation]
  · change { reported.location with file := reported.location.file.repaired } = c.location
    rw [hreported.location, hlocation, hundisputed.file]

theorem proveModule_describes {m : Module} (h : History vs e)
    (hdigest : CollisionFree (vs ++ [e.visit interruption m]))
    (hnames : ∀ v ∈ vs ++ [e.visit interruption m], v.module.name.isLine = true)
    {o : Outcome} {report : Report} (hrun : (e.proveModule path m interruption).1 = .ok o)
    (hreport : o.report = some report) :
    ∃ results, report.results = some results ∧ List.Forall₂ (fun c r => r.id = c.id ∧
      (r.cached = false ∨ Visit.Undisputed vs (e.visit interruption m) c → r.Describes c))
      m.conditions results := by
  cases hp : Prover.new m.name (e.openConditions m) e.library e.config with
  | error r =>
    rw [(proveModule_of_error hp).2] at hrun
    cases r with
    | fault f => cases hrun
    | error error =>
      cases hrun
      cases hreport
  | ok p =>
    obtain ⟨e', elapsed, -, -, -, hproved⟩ := proveModule_of_new path interruption hp
    rw [hproved, Except.ok.injEq] at hrun
    obtain ⟨-, written, hwritten, hresults⟩ := writeProof_frame e' (e'.report path m
      (fill (e.tasks m) (p.start e.metrics { e.session with interruption }).1.results) elapsed)
    rw [← hrun, hwritten, Option.some.injEq] at hreport
    rw [← hreport, hresults]
    refine ⟨_, rfl, fill_tasks interruption ?_
      ((reports_start interruption hp).imp fun c r hr => ⟨hr.id, fun _ => hr.toDescribes⟩)⟩
    intro c hc r hr
    obtain ⟨hid, hcached, hdescribes⟩ := h.remembered_describes hc hdigest hnames hr
    refine ⟨hid, fun hcase => ?_⟩
    rcases hcase with hnew | hundisputed
    · rw [hcached] at hnew
      cases hnew
    · exact hdescribes hundisputed

/-- A report has a result for each condition of the loaded module, in order. Each result has the id
of its condition, and bears its description if it is new or the description is undisputed. -/
theorem prove_describes (h : History vs e)
    (hdigest : CollisionFree (vs ++ e.visits interruption path))
    (hnames : ∀ v ∈ vs ++ e.visits interruption path, v.module.name.isLine = true)
    {o : Outcome} {report : Report} (hrun : (e.prove interruption path).1 = .ok o)
    (hreport : o.report = some report) :
    ∃ v results, e.visits interruption path = [v] ∧
      (e.library.load e.files path).1 = .ok v.module ∧ report.results = some results ∧
      List.Forall₂ (fun c r => r.id = c.id ∧
        (r.cached = false ∨ Visit.Undisputed vs v c → r.Describes c)) v.module.conditions
        results := by
  cases hload : e.library.load e.files path with
  | mk loaded library =>
    cases loaded with
    | error r =>
      rw [(prove_of_load_error interruption hload).2.1] at hrun
      cases r with
      | fault f => cases hrun
      | error error =>
        cases hrun
        cases hreport
    | ok m =>
      obtain ⟨hprove, hvisits⟩ := prove_of_load interruption hload
      rw [hvisits] at hdigest hnames ⊢
      rw [hprove] at hrun
      have hengine : History vs { e with library } := h.change rfl
      obtain ⟨results, hresults, hall⟩ := proveModule_describes (e := { e with library }) hengine
        hdigest hnames hrun hreport
      exact ⟨_, results, rfl, rfl, hresults, hall⟩

def sampleEngine : Engine where
  files := Tree.empty.putAll [("N.vc", "module: N\n"), ("M.vc",
    "module: M\nsymbols: \x7bp: B\x7d\nvcs:\n  - id: 7\n    explanation: An end\n" ++
      "    left: [p]\n    right: [p]\n")]
  cache := some {}
  writesProofs := false

def sampleRerun : Engine :=
  { (sampleEngine.prove none "M.vc").2 with
    files := sampleEngine.files.putFile "M.vc" (
      "module: M\nimports: [N]\nsymbols: \x7bp: B\x7d\nvcs:\n  - id: 7\n" ++
        "    explanation: An end\n    left: [p]\n    right: [p]\n") }

theorem exists_results {x : Except Fault Outcome} {P : List Result → Bool}
    (h : x.toOption.any (fun o => o.report.any fun r => r.results.any P) = true) :
    ∃ o report results, x = .ok o ∧ o.report = some report ∧ report.results = some results ∧
      P results = true := by
  cases x with
  | error f => simp [Except.toOption] at h
  | ok o =>
    rw [Except.toOption, Option.any_some] at h
    obtain ⟨report, hreport, h⟩ := (Option.any_eq_true _ _).mp h
    obtain ⟨results, hresults, h⟩ := (Option.any_eq_true _ _).mp h
    exact ⟨o, report, results, rfl, hreport, hresults, h⟩

theorem sampleRerun_results : ∃ o report results, (sampleRerun.prove none "M.vc").1 = .ok o ∧
    o.report = some report ∧ report.results = some results ∧
    (results.map fun r => (r.id, r.cached, r.status)) = [(7, true, .proved)] := by
  have hrun : (sampleRerun.prove none "M.vc").1.toOption.any (fun o =>
      o.report.any fun r => r.results.any fun results =>
        (results.map fun r => (r.id, r.cached, r.status)) == [(7, true, .proved)]) = true := by
    decide +kernel
  obtain ⟨o, report, results, ho, hreport, hresults, h⟩ := exists_results hrun
  exact ⟨o, report, results, ho, hreport, hresults, beq_iff_eq.mp h⟩

theorem history_sampleRerun : History (sampleEngine.visits none "M.vc") sampleRerun := by
  have h := (History.fresh (e := sampleEngine) rfl).run none "M.vc"
  rw [List.nil_append] at h
  exact h.edit _

theorem sample_visits :
    ∀ v ∈ sampleEngine.visits none "M.vc" ++ sampleRerun.visits none "M.vc",
      v.module.name = "M" ∧ v.theoremsText = Cache.theoremsText [] ∧
        v.symbolsText = Cache.symbolsText [("p", .boolean)] false ∧ v.config = {} ∧
        ∀ c ∈ v.module.conditions, c.id = 7 ∧ c.sequent.render = "\x7bp\x7d ==> \x7bp\x7d" ∧
          c.explanation = "An end" ∧ c.location = ⟨"M.vc", 0, 0⟩ := by
  decide +kernel

theorem collisionFree_sample :
    CollisionFree (sampleEngine.visits none "M.vc" ++ sampleRerun.visits none "M.vc") := by
  refine .of_same ?_ ?_ ?_
  · intro v hv v' hv'
    rw [(sample_visits v hv).2.1, (sample_visits v' hv').2.1]
  · intro v hv v' hv'
    rw [(sample_visits v hv).2.2.1, (sample_visits v' hv').2.2.1]
  · intro v hv v' hv' c hc c' hc'
    obtain ⟨hname, -, -, hconfig, hconditions⟩ := sample_visits v hv
    obtain ⟨hname', -, -, hconfig', hconditions'⟩ := sample_visits v' hv'
    obtain ⟨hid, hsequent, -⟩ := hconditions c hc
    obtain ⟨hid', hsequent', -⟩ := hconditions' c' hc'
    exact ⟨hname.trans hname'.symm, hid.trans hid'.symm, hsequent.trans hsequent'.symm,
      hconfig.trans hconfig'.symm⟩

/-- The remembered result of the sample bears the description of its condition. -/
theorem prove_describes_sample : ∃ o report results v,
    (sampleRerun.prove none "M.vc").1 = .ok o ∧ o.report = some report ∧
    report.results = some results ∧ sampleRerun.visits none "M.vc" = [v] ∧
    (results.map fun r => (r.id, r.cached, r.status)) = [(7, true, .proved)] ∧
    List.Forall₂ (fun c r => r.Describes c) v.module.conditions results := by
  obtain ⟨o, report, results, ho, hreport, hresults, hrun⟩ := sampleRerun_results
  have hname : ("M" : Text).isLine = true := by decide
  obtain ⟨v, results', hv, -, hresults', hall⟩ := prove_describes history_sampleRerun
    collisionFree_sample (fun v hv => by rw [(sample_visits v hv).1]; exact hname) ho hreport
  obtain rfl : results = results' := Option.some.inj (hresults.symm.trans hresults')
  refine ⟨o, report, results, v, ho, hreport, hresults, hv, hrun, ?_⟩
  have hself : v ∈ sampleEngine.visits none "M.vc" ++ sampleRerun.visits none "M.vc" := by
    rw [hv]
    simp
  have hwhole : ("An end" : Text).repaired = "An end" ∧ ("M.vc" : Text).repaired = "M.vc" := by
    decide +kernel
  refine ((List.forall₂_and_left (p := (· ∈ v.module.conditions)) _ _).mpr
    ⟨fun c hc => hc, hall⟩).imp fun c r hr => hr.2.2 (.inr ?_)
  obtain ⟨-, -, hexplanation, hlocation⟩ := (sample_visits v hself).2.2.2.2 c hr.1
  refine ⟨fun u hu c' hc' _ => ?_, by rw [hexplanation]; exact hwhole.1, by
    rw [hlocation]; exact hwhole.2⟩
  obtain ⟨-, -, hexplanation', hlocation'⟩ :=
    (sample_visits u (List.mem_append_left _ hu)).2.2.2.2 c' hc'
  exact ⟨hexplanation'.trans hexplanation.symm, hlocation'.trans hlocation.symm⟩

end Engine

end Discharge
