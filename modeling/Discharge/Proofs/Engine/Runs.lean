import Discharge.Engine.Batch
import Discharge.Proofs.Engine.Verdicts
import Discharge.Proofs.Library.Loading

namespace Discharge

open Search

namespace Search.Prover

variable {p : Prover}

theorem quiet_runAll (total : Nat) (obs : List Obligation) {r : Run} (h : r.session.Quiet) :
    (p.runAll total obs r).session.Quiet := by
  induction obs generalizing r with
  | nil => exact h
  | cons ob rest ih =>
    rw [runAll]
    split
    · exact ih h
    · exact ih (h.add _)

theorem quiet_start (m : Metrics) {s : Session} (h : s.Quiet) : (p.start m s).1.session.Quiet :=
  quiet_runAll _ _ h

theorem statuses_start {module : Text} {conditions : List Condition} {library : Library}
    {config : Config} (hp : Prover.new module conditions library config = .ok p)
    (htries : config.tries < 0) (metrics : Metrics) {s : Session} (hs : s.Quiet) :
    (p.start metrics s).1.results.map Result.status = conditions.map fun c =>
      (p.undisturbed (Obligation.new (normalizer library module) c)).obligation.status := by
  obtain ⟨-, hobs⟩ := new_spec hp
  obtain ⟨hconfig, -⟩ := new_single hp default
  rw [(start_quiet (p := p) (by rw [hconfig]; exact htries) metrics hs).1, hobs, List.map_map,
    List.map_map]
  exact List.map_congr_left fun c _ => Attempt.status_result _ _

end Search.Prover

namespace Engine

variable {e e' : Engine} {m : Module} {path : Text} {p : Prover}

structure Keeps (e e' : Engine) : Prop where
  config : e'.config = e.config
  cache : e'.cache = none
  defaults : e'.library.defaults = e.library.defaults
  quiet : e'.session.Quiet
  ordered : e'.files.ordered = true
  sources : e'.files.sources = e.files.sources

theorem files_writeProof (e : Engine) (r : Report) (hfiles : e.files.ordered = true) :
    (e.writeProof r).2.files.ordered = true ∧
      (e.writeProof r).2.files.sources = e.files.sources := by
  unfold writeProof
  split
  · exact ⟨hfiles, rfl⟩
  · dsimp only
    split
    · exact ⟨hfiles, rfl⟩
    · rename_i files hwrite
      unfold ProofText.writeFile at hwrite
      dsimp only at hwrite
      split at hwrite
      · cases hwrite
      · cases hwrite
      · split at hwrite
        · rename_i files' hfiles'
          obtain rfl := Except.ok.inj hwrite
          exact Tree.sources_write hfiles (Path.isProof_filePath r.file) hfiles'
        · cases hwrite

theorem frame_writeProof (e : Engine) (r : Report) : (e.writeProof r).2.config = e.config ∧
    (e.writeProof r).2.cache = e.cache ∧ (e.writeProof r).2.library = e.library ∧
      (e.writeProof r).2.session = e.session := by
  unfold writeProof
  split
  · exact ⟨rfl, rfl, rfl, rfl⟩
  · dsimp only
    split <;> exact ⟨rfl, rfl, rfl, rfl⟩

theorem Keeps.trans {e'' : Engine} (h : e.Keeps e') (h' : e'.Keeps e'') : e.Keeps e'' where
  config := h'.config.trans h.config
  cache := h'.cache
  defaults := h'.defaults.trans h.defaults
  quiet := h'.quiet
  ordered := h'.ordered
  sources := h'.sources.trans h.sources

theorem keeps_self (hcache : e.cache = none) (hquiet : e.session.Quiet)
    (hfiles : e.files.ordered = true) : e.Keeps e := ⟨rfl, hcache, rfl, hquiet, hfiles, rfl⟩

theorem keeps_writeProof (h : e.Keeps e') (r : Report) : e.Keeps (e'.writeProof r).2 := by
  obtain ⟨hconfig, hcache, hlibrary, hsession⟩ := frame_writeProof e' r
  obtain ⟨hordered, hsources⟩ := files_writeProof e' r h.ordered
  exact ⟨hconfig.trans h.config, hcache.trans h.cache, hlibrary ▸ h.defaults, hsession ▸ h.quiet,
    hordered, hsources.trans h.sources⟩

theorem keeps_search (h : e.Keeps e) (tasks : List Task) (p : Prover) :
    e.Keeps (e.search tasks p none).2.2 where
  config := rfl
  cache := by
    unfold search remember
    rw [h.cache]
    rfl
  defaults := rfl
  quiet := by
    have hstart := Prover.quiet_start (p := p) e.metrics
      (s := { e.session with interruption := none })
      ⟨rfl, h.quiet.cancelled, h.quiet.stepLimit, h.quiet.lookLimit, h.quiet.finalReach⟩
    exact ⟨rfl, hstart.cancelled, hstart.stepLimit, hstart.lookLimit, hstart.finalReach⟩
  ordered := h.ordered
  sources := rfl

theorem keeps_proveModule (h : e.Keeps e) (path : Text) (m : Module) :
    e.Keeps (e.proveModule path m none).2 ∧ (e.proveModule path m none).2.library = e.library := by
  unfold proveModule
  dsimp only
  split
  · exact ⟨h, rfl⟩
  · exact ⟨h, rfl⟩
  · rename_i p hp
    exact ⟨keeps_writeProof (keeps_search h (e.tasks m) p) _, (frame_writeProof _ _).2.2.1⟩

theorem keeps_prove (h : e.Keeps e) (path : Text) : e.Keeps (e.prove none path).2 ∧
    (e.prove none path).2.library = (e.library.load e.files path).2 := by
  cases hload : e.library.load e.files path with
  | mk loaded library =>
    have hdefaults : library.defaults = e.library.defaults := by
      have hload' := Library.defaults_load e.library e.files path
      rwa [hload] at hload'
    have hlibrary : e.Keeps { e with library } :=
      ⟨rfl, h.cache, hdefaults, h.quiet, h.ordered, rfl⟩
    cases loaded with
    | error r =>
      rw [(prove_of_load_error none hload).1]
      exact ⟨hlibrary, rfl⟩
    | ok m =>
      rw [(prove_of_load none hload).1]
      obtain ⟨hkeeps, hsame⟩ := keeps_proveModule (e := { e with library })
        ⟨rfl, h.cache, rfl, h.quiet, h.ordered, rfl⟩ path m
      exact ⟨hlibrary.trans hkeeps, hsame⟩

theorem openConditions_eq (hcache : e.cache = none) (m : Module) :
    e.openConditions m = m.conditions := by
  have hnothing : ∀ key, e.remembered? key = none := by
    intro key
    simp [remembered?, hcache]
  have hopen : ∀ t ∈ e.tasks m, t.isOpen = true := by
    rw [tasks_eq e none m]
    intro t ht
    obtain ⟨c, -, rfl⟩ := List.mem_map.mp ht
    rw [Task.isOpen, hnothing]
    rfl
  rw [openConditions, List.filter_eq_self.mpr hopen, tasks_eq e none m, List.map_map]
  exact List.map_id _

theorem fill_eq (hcache : e.cache = none) {results : List Result}
    (hlength : m.conditions.length = results.length) : fill (e.tasks m) results = results := by
  have htasks : ∀ t ∈ e.tasks m, t.known = none := by
    rw [tasks_eq e none m]
    intro t ht
    obtain ⟨c, -, rfl⟩ := List.mem_map.mp ht
    simp [remembered?, hcache]
  have hcount : (e.tasks m).length = results.length := by
    rw [tasks_eq e none m, List.length_map, hlength]
  clear hlength
  generalize e.tasks m = tasks at htasks hcount
  induction tasks generalizing results with
  | nil =>
    rw [List.eq_nil_of_length_eq_zero hcount.symm]
    rfl
  | cons t rest ih =>
    obtain ⟨c, key, known⟩ := t
    obtain rfl : known = none := htasks _ List.mem_cons_self
    cases results with
    | nil => cases hcount
    | cons r results =>
      rw [fill, ih (fun t ht => htasks t (List.mem_cons_of_mem _ ht)) (by simpa using hcount)]

theorem told_proveModule (h : e.Keeps e)
    (hp : Prover.new m.name m.conditions e.library e.config = .ok p) {statuses : List Status}
    (hstatuses : ∀ metrics s, s.Quiet → (p.start metrics s).1.results.map Result.status = statuses)
    (hlength : statuses.length = m.conditions.length) :
    (e.proveModule path m none).1.map Outcome.told = .ok (some (path, some statuses)) := by
  obtain ⟨e', elapsed, -, -, -, hprove⟩ := proveModule_of_new path none
    ((openConditions_eq h.cache m).symm ▸ hp)
  have hresults := hstatuses e.metrics { e.session with interruption := none }
    ⟨rfl, h.quiet.cancelled, h.quiet.stepLimit, h.quiet.lookLimit, h.quiet.finalReach⟩
  generalize (p.start _ _).1.results = results at hprove hresults
  have hfill : fill (e.tasks m) results = results := by
    refine fill_eq h.cache ?_
    rw [← hlength, ← hresults, List.length_map]
  rw [hprove, hfill, ← hresults]
  exact congrArg Except.ok (writeProof_told e' _)

/-- Engines of the same kind say the same of a module that sees the same. -/
theorem told_proveModule_agree (h : e.Keeps e) (h' : e'.Keeps e') (hconfig : e'.config = e.config)
    (htries : e.config.tries < 0) (hshow : Library.ShowsSame e.library e'.library m.name) :
    (e.proveModule path m none).1.map Outcome.told =
      (e'.proveModule path m none).1.map Outcome.told := by
  have hnew : Prover.new m.name m.conditions e.library e.config =
      Prover.new m.name m.conditions e'.library e'.config := by
    rw [hconfig]
    exact Prover.new_congr (congrArg Library.Collected.theorems hshow.theorems)
      (congrArg Normalizer.mk hshow.hasIntegerSorts)
  cases hp : Prover.new m.name m.conditions e.library e.config with
  | error r =>
    have hopen := openConditions_eq h.cache m
    have hopen' := openConditions_eq h'.cache m
    rw [(proveModule_of_error (hopen.symm ▸ hp)).2,
      (proveModule_of_error (hopen'.symm ▸ hnew.symm.trans hp)).2]
    cases r <;> rfl
  | ok p =>
    have hstatuses := fun metrics s hs => Prover.statuses_start hp htries metrics (s := s) hs
    rw [told_proveModule h hp hstatuses (by simp),
      told_proveModule h' (hnew.symm.trans hp) hstatuses (by simp)]

theorem told_prove_agree (h : e.Keeps e) (h' : e'.Keeps e') (hconfig : e'.config = e.config)
    (htries : e.config.tries < 0)
    (hload : AgreeUpToError (e.library.load e.files path).1 (e'.library.load e'.files path).1)
    (hshows : ∀ m, (e.library.load e.files path).1 = .ok m → Library.ShowsSame
      (e.library.load e.files path).2 (e'.library.load e'.files path).2 m.name) :
    (e.prove none path).1.map Outcome.told = (e'.prove none path).1.map Outcome.told := by
  obtain ⟨loaded, library, hbefore⟩ : ∃ loaded library,
      e.library.load e.files path = (loaded, library) := ⟨_, _, rfl⟩
  obtain ⟨loaded', library', hafter⟩ : ∃ loaded library,
      e'.library.load e'.files path = (loaded, library) := ⟨_, _, rfl⟩
  rw [hbefore, hafter] at hload hshows
  rcases hload with hsame | ⟨error, error', rfl, rfl⟩
  · obtain rfl : loaded = loaded' := hsame
    cases loaded with
    | error r =>
      rw [(prove_of_load_error none hbefore).2.1, (prove_of_load_error none hafter).2.1]
      cases r <;> rfl
    | ok m =>
      rw [(prove_of_load none hbefore).1, (prove_of_load none hafter).1]
      have hkeeps : ({ e with library } : Engine).Keeps { e with library } :=
        ⟨rfl, h.cache, rfl, h.quiet, h.ordered, rfl⟩
      have hkeeps' : ({ e' with library := library' } : Engine).Keeps
          { e' with library := library' } :=
        ⟨rfl, h'.cache, rfl, h'.quiet, h'.ordered, rfl⟩
      exact told_proveModule_agree hkeeps hkeeps' hconfig htries (hshows m rfl)
  · rw [(prove_of_load_error none hbefore).2.1, (prove_of_load_error none hafter).2.1]
    rfl

def runs (e : Engine) (paths : List Text) : Engine :=
  paths.foldl (fun e path => (e.prove none path).2) e

/-- Whether a file brings in a module of a name that another file asks for in vain. -/
def supplies (e : Engine) (path other : Text) : Bool :=
  match neededOf e.files e.library.defaults path, neededOf e.files e.library.defaults other with
  | .ok (_, found), .ok (_, found') =>
    (wanting e.library.defaults found').any (found.map fun l => l.source.name).contains
  | _, _ => false

/-- What an engine may be after runs over some files: it is of the same kind, and it has loaded
nothing but what these files need. -/
structure Ran (e : Engine) (paths : List Text) (e' : Engine) : Prop where
  keeps : e.Keeps e'
  loaded : ∀ name m, e'.library.get? name = some m → ∃ path ∈ paths, ∃ root found,
    neededOf e.files e.library.defaults path = .ok (root, found) ∧
      name ∈ found.map fun l => l.source.name

section Running

variable {paths : List Text}

theorem Keeps.neededOf (h : e.Keeps e') (hfiles : e.files.ordered = true)
    (hpath : Path.isProof path = false) : AgreeUpToError
      (neededOf e'.files e'.library.defaults path) (neededOf e.files e.library.defaults path) := by
  rw [h.defaults]
  refine (neededOf_sources h.ordered hpath).symm.trans ?_
  rw [h.sources]
  exact neededOf_sources hfiles hpath

theorem ran_prove (h : e.Ran paths e') (hfiles : e.files.ordered = true)
    (hpath : Path.isProof path = false) : e.Ran (path :: paths) (e'.prove none path).2 := by
  have hself : e'.Keeps e' := keeps_self h.keeps.cache h.keeps.quiet h.keeps.ordered
  obtain ⟨hkeeps, hlibrary⟩ := keeps_prove hself path
  refine ⟨h.keeps.trans hkeeps, fun name m hm => ?_⟩
  rw [hlibrary] at hm
  rcases Library.get?_load_cases hm with hold | ⟨root, found, hfound, hname⟩
  · obtain ⟨n, hn⟩ := Option.isSome_iff_exists.mp hold
    obtain ⟨g, hg, hrest⟩ := h.loaded name n hn
    exact ⟨g, List.mem_cons_of_mem _ hg, hrest⟩
  · exact ⟨path, List.mem_cons_self, root, found,
      (h.keeps.neededOf hfiles hpath).ok hfound, hname⟩

theorem told_ran (h : e.Ran paths e') (hfresh : e.library.modules = []) (hself : e.Keeps e)
    (htries : e.config.tries < 0) (hpath : Path.isProof path = false)
    (hsupplies : ∀ g ∈ paths, e.supplies g path = false) :
    (e'.prove none path).1.map Outcome.told = (e.prove none path).1.map Outcome.told := by
  have hneeded := h.keeps.neededOf hself.ordered hpath
  have hwanting : ∀ name found, neededOf e'.files e'.library.defaults path = .ok (name, found) →
      ∀ n ∈ wanting e'.library.defaults found,
        e'.library.get? n = none ∧ e.library.get? n = none := by
    intro name found hfound n hn
    refine ⟨?_, by rw [Library.get?, hfresh]; rfl⟩
    cases hget : e'.library.get? n with
    | none => rfl
    | some m =>
      obtain ⟨g, hg, root, found', hfound', hmem⟩ := h.loaded n m hget
      have hfalse := hsupplies g hg
      rw [h.keeps.defaults] at hn
      rw [supplies, hfound', hneeded.ok hfound] at hfalse
      dsimp only at hfalse
      rw [← Bool.not_eq_true, List.any_eq_true] at hfalse
      exact (hfalse ⟨n, hn, List.contains_iff_mem.mpr hmem⟩).elim
  obtain ⟨hload, hshows⟩ := Library.load_agree h.keeps.defaults hneeded hwanting
  exact told_prove_agree (keeps_self h.keeps.cache h.keeps.quiet h.keeps.ordered) hself
    h.keeps.config.symm (by rw [h.keeps.config]; exact htries) hload hshows

theorem ran_runs (h : e.Ran paths e') (hfiles : e.files.ordered = true) {more : List Text}
    (hmore : ∀ path ∈ more, Path.isProof path = false) :
    e.Ran (more.reverse ++ paths) (e'.runs more) := by
  induction more generalizing paths e' with
  | nil => exact h
  | cons path rest ih =>
    rw [List.reverse_cons, List.append_assoc]
    exact ih (ran_prove h hfiles (hmore path List.mem_cons_self)) fun p hp =>
      hmore p (List.mem_cons_of_mem _ hp)

end Running

end Engine

end Discharge
