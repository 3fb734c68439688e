import Discharge.Proofs.Engine.Runs

namespace Discharge

open Search

/-- The module files that a path stands for, if it stands for any. -/
def filesOf (files : Tree) (path : Text) : List Text := (moduleFiles files path).toOption.getD []

theorem filesOf_sources {files : Tree} {path : Text} (hfiles : files.ordered = true)
    (hpath : Path.isProof path = false) : filesOf files.sources path = filesOf files path := by
  have hlookup := Tree.lookup_sources hfiles hpath
  unfold filesOf moduleFiles
  cases hbefore : files.lookup path with
  | error f =>
    rw [hbefore] at hlookup
    cases hafter : files.sources.lookup path with
    | error f' => rfl
    | ok u => rw [hafter] at hlookup; cases hlookup
  | ok u =>
    rw [hbefore] at hlookup
    cases hafter : files.sources.lookup path with
    | error f' => rw [hafter] at hlookup; cases hlookup
    | ok u' =>
      rw [hafter] at hlookup
      obtain rfl : u' = u.sources := Option.some.inj hlookup
      cases u with
      | file content => rfl
      | directory es => exact Tree.filter_pathsOf_sources path es

theorem isModuleFile_of_mem_filesOf {files : Tree} {path f : Text} (h : f ∈ filesOf files path) :
    isModuleFile f = true := by
  unfold filesOf moduleFiles at h
  split at h
  · cases h
  · split at h
    · rename_i hpath
      rw [List.mem_singleton.mp h]
      exact hpath
    · cases h
  · exact (List.mem_filter.mp h).2

namespace Engine

variable {e e' : Engine} {all fs : List Text} {path : Text} {b : Batch}

def toldBy (e : Engine) (path : Text) : List (Text × Option (List Status)) :=
  match (e.prove none path).1 with
  | .ok o => o.told.toList
  | .error _ => []

theorem Ran.mono {paths : List Text} (h : e.Ran paths e') (hsub : paths ⊆ all) : e.Ran all e' :=
  ⟨h.keeps, fun name m hm => by
    obtain ⟨g, hg, hrest⟩ := h.loaded name m hm
    exact ⟨g, hsub hg, hrest⟩⟩

/-- Whether proving files in turn comes to what a fresh engine says of each, or to a fault that it
meets with one of them. -/
def Accounts (e : Engine) (all fs : List Text) (b : Batch) : Except Fault Batch × Engine → Prop
  | (.error f, _) => ∃ g ∈ fs, (e.prove none g).1 = .error f
  | (.ok b', e') => e.Ran all e' ∧ (∀ g ∈ fs, ∃ o, (e.prove none g).1 = .ok o) ∧
      b'.reports.map Report.told = b.reports.map Report.told ++ fs.flatMap e.toldBy

theorem proveFiles_cons (f : Text) (fs : List Text) (b : Batch) (e : Engine) :
    (worker none).proveFiles (f :: fs) b e = match e.prove none f with
      | (.error fault, e) => (.error fault, e)
      | (.ok o, e) => (worker none).proveFiles fs (b.add f o) e := by
  have hgo : (worker none).interruption e = none := rfl
  have hprove : (worker none).prove f e = e.prove none f := rfl
  rw [Worker.proveFiles, hgo, hprove]
  rcases e.prove none f with ⟨x | x, e'⟩ <;> rfl

theorem provePaths_cons (path : Text) (paths : List Text) (b : Batch) (e : Engine) :
    (worker none).provePaths (path :: paths) b e = match (worker none).provePath path e with
      | (.error fault, e) => (.error fault, e)
      | (.ok found, e) => (worker none).provePaths paths
        ⟨b.reports ++ found.reports, b.errors ++ found.errors⟩ e := by
  rw [Worker.provePaths]
  rcases (worker none).provePath path e with ⟨x | x, e'⟩ <;> rfl

section Proving

variable (hfresh : e.library.modules = []) (hself : e.Keeps e) (htries : e.config.tries < 0)
  (hsupplies : ∀ g ∈ all, ∀ f ∈ all, e.supplies g f = false)

include hfresh hself htries hsupplies

theorem accounts_proveFiles (h : e.Ran all e') (hall : fs ⊆ all)
    (hfs : ∀ f ∈ fs, Path.isProof f = false) (b : Batch) :
    e.Accounts all fs b ((worker none).proveFiles fs b e') := by
  induction fs generalizing b e' with
  | nil => exact ⟨h, by simp, by simp⟩
  | cons f rest ih =>
    have hf := hfs f List.mem_cons_self
    have hmem := hall List.mem_cons_self
    have htold := told_ran h hfresh hself htries hf fun g hg => hsupplies g hg f hmem
    have hnext := (ran_prove h hself.ordered hf).mono (List.cons_subset.mpr ⟨hmem, fun _ hg => hg⟩)
    rw [proveFiles_cons]
    obtain ⟨x, e'', hrun⟩ : ∃ x e'', e'.prove none f = (x, e'') := ⟨_, _, rfl⟩
    rw [hrun] at htold hnext ⊢
    cases x with
    | error fault =>
      refine ⟨f, List.mem_cons_self, ?_⟩
      cases hfirst : (e.prove none f).1 with
      | error fault' =>
        rw [hfirst] at htold
        exact congrArg Except.error (Except.error.inj htold).symm
      | ok o => rw [hfirst] at htold; cases htold
    | ok o =>
      cases hfirst : (e.prove none f).1 with
      | error fault' => rw [hfirst] at htold; cases htold
      | ok o' =>
        rw [hfirst] at htold
        have hsaid : o.told = o'.told := Except.ok.inj htold
        have hrest := ih hnext (fun g hg => hall (List.mem_cons_of_mem _ hg))
          (fun g hg => hfs g (List.mem_cons_of_mem _ hg)) (b.add f o)
        dsimp only
        generalize (worker none).proveFiles rest (b.add f o) e'' = result at hrest
        obtain ⟨y, e₁⟩ := result
        cases y with
        | error fault =>
          obtain ⟨g, hg, hfault⟩ := hrest
          exact ⟨g, List.mem_cons_of_mem _ hg, hfault⟩
        | ok b' =>
          obtain ⟨hran, hoks, hreports⟩ := hrest
          refine ⟨hran, fun g hg => ?_, ?_⟩
          · rcases List.mem_cons.mp hg with rfl | hg
            · exact ⟨o', hfirst⟩
            · exact hoks g hg
          · have hby : e.toldBy f = o.told.toList := by rw [toldBy, hfirst, hsaid]
            have htold : o.report.toList.map Report.told = o.told.toList := by
              rw [Outcome.told]
              cases o.report <;> rfl
            rw [hreports, List.flatMap_cons, hby, Batch.add, List.map_append, htold,
              List.append_assoc]

theorem accounts_provePaths (paths : List Text) (h : e.Ran all e')
    (hall : paths.flatMap (filesOf e.files) ⊆ all)
    (hpaths : ∀ path ∈ paths, Path.isProof path = false) (b : Batch) :
    e.Accounts all (paths.flatMap (filesOf e.files)) b ((worker none).provePaths paths b e') := by
  induction paths generalizing b e' with
  | nil => exact ⟨h, by simp, by simp⟩
  | cons path rest ih =>
    have hpath := hpaths path List.mem_cons_self
    have hsame : filesOf e'.files path = filesOf e.files path := by
      rw [← filesOf_sources h.keeps.ordered hpath, h.keeps.sources,
        filesOf_sources hself.ordered hpath]
    rw [List.flatMap_cons] at hall ⊢
    have hproved : e.Accounts all (filesOf e.files path) {} ((worker none).provePath path e') := by
      have hmodules : ∀ f ∈ filesOf e'.files path, Path.isProof f = false := fun f hf =>
        Path.isProof_of_isModuleFile (isModuleFile_of_mem_filesOf hf)
      have hhere := (List.append_subset.mp hall).1
      rw [← hsame] at hhere ⊢
      have hfiles : (worker none).files e' = e'.files := rfl
      unfold Worker.provePath
      unfold filesOf at hmodules hhere ⊢
      rw [hfiles]
      cases hfound : moduleFiles e'.files path with
      | error error => exact ⟨h, by simp [Except.toOption], by simp [Except.toOption]⟩
      | ok fs =>
        rw [hfound] at hmodules hhere
        exact accounts_proveFiles hfresh hself htries hsupplies h hhere hmodules {}
    rw [provePaths_cons]
    generalize (worker none).provePath path e' = result at hproved
    obtain ⟨x, e''⟩ := result
    cases x with
    | error fault =>
      obtain ⟨g, hg, hfault⟩ := hproved
      exact ⟨g, List.mem_append_left _ hg, hfault⟩
    | ok found =>
      obtain ⟨hran, hoks, hreports⟩ := hproved
      have hrest := ih hran (List.append_subset.mp hall).2
        (fun p hp => hpaths p (List.mem_cons_of_mem _ hp))
        ⟨b.reports ++ found.reports, b.errors ++ found.errors⟩
      dsimp only
      generalize (worker none).provePaths rest
        ⟨b.reports ++ found.reports, b.errors ++ found.errors⟩ e'' = result at hrest
      obtain ⟨y, e₁⟩ := result
      cases y with
      | error fault =>
        obtain ⟨g, hg, hfault⟩ := hrest
        exact ⟨g, List.mem_append_right _ hg, hfault⟩
      | ok b' =>
        obtain ⟨hran', hoks', hreports'⟩ := hrest
        refine ⟨hran', fun g hg => ?_, ?_⟩
        · rcases List.mem_append.mp hg with hg | hg
          · exact hoks g hg
          · exact hoks' g hg
        · rw [hreports', List.map_append, hreports, List.flatMap_append, List.append_assoc,
            List.append_assoc]
          rfl

end Proving

/-- An engine says of a file what a fresh one says, whatever files it was run over before, as long
as these bring in no module that the file asks for in vain. So the order of files does not
matter. -/
theorem prove_independent_of_runs (hfresh : e.library.modules = []) (hcache : e.cache = none)
    (htries : e.config.tries < 0) (hquiet : e.session.Quiet) (hfiles : e.files.ordered = true) :
    (∀ (paths : List Text) (path : Text), (∀ p ∈ path :: paths, Path.isProof p = false) →
      (∀ g ∈ paths, e.supplies g path = false) →
      ((e.runs paths).prove none path).1.map Outcome.told =
        (e.prove none path).1.map Outcome.told) ∧
    ∀ (paths paths' : List Text), paths.Perm paths' → (∀ p ∈ paths, Path.isProof p = false) →
      (∀ g ∈ paths.flatMap (filesOf e.files), ∀ f ∈ paths.flatMap (filesOf e.files),
        e.supplies g f = false) →
      ∀ b, ((worker none).provePaths paths {} e).1 = .ok b →
        ∃ b', ((worker none).provePaths paths' {} e).1 = .ok b' ∧
          (b.reports.map Report.told).Perm (b'.reports.map Report.told) := by
  have hself := keeps_self hcache hquiet hfiles
  have hran : e.Ran [] e := ⟨hself, fun name m hm => by
    rw [Library.get?, hfresh] at hm
    cases hm⟩
  refine ⟨fun paths path hpaths hsupplies => ?_, fun paths paths' hperm hpaths hsupplies b hb => ?_⟩
  · have hruns := ran_runs hran hfiles fun p hp => hpaths p (List.mem_cons_of_mem _ hp)
    refine told_ran hruns hfresh hself htries (hpaths path List.mem_cons_self) fun g hg => ?_
    exact hsupplies g (by simpa using hg)
  · have hfs : (paths.flatMap (filesOf e.files)).Perm (paths'.flatMap (filesOf e.files)) :=
      hperm.flatMap_right _
    have haccounts := accounts_provePaths hfresh hself htries hsupplies paths
      (hran.mono (List.nil_subset _)) (fun _ hg => hg) hpaths {}
    have haccounts' := accounts_provePaths hfresh hself htries hsupplies paths'
      (hran.mono (List.nil_subset _)) (fun _ hg => hfs.mem_iff.mpr hg)
      (fun p hp => hpaths p (hperm.mem_iff.mpr hp)) {}
    obtain ⟨x, e₁, hrun⟩ : ∃ x e₁, (worker none).provePaths paths {} e = (x, e₁) := ⟨_, _, rfl⟩
    obtain ⟨y, e₂, hrun'⟩ : ∃ x e₁, (worker none).provePaths paths' {} e = (x, e₁) := ⟨_, _, rfl⟩
    rw [hrun] at hb haccounts
    rw [hrun'] at haccounts' ⊢
    obtain rfl : x = .ok b := hb
    obtain ⟨-, hoks, hreports⟩ := haccounts
    cases y with
    | error fault =>
      obtain ⟨g, hg, hfault⟩ := haccounts'
      obtain ⟨o, ho⟩ := hoks g (hfs.mem_iff.mpr hg)
      rw [ho] at hfault
      cases hfault
    | ok b' =>
      obtain ⟨-, -, hreports'⟩ := haccounts'
      refine ⟨b', rfl, ?_⟩
      rw [hreports, hreports']
      exact (hfs.flatMap_right _).append_left _

def importingEngine : Engine where
  files := Tree.empty.putAll [
    ("M.vc", "module: M\nimports: [T]\nvcs:\n  - id: 1\n    left: []\n    right: [f]\n"),
    ("T.vc", "module: T\nsymbols: \x7bf: B\x7d\ntheorems:\n  - name: Given\n    assertion: f\n")]

theorem importingEngine_supplies :
    ∀ g ∈ [("T.vc" : Text), "M.vc"].flatMap (filesOf importingEngine.files),
      ∀ f ∈ [("T.vc" : Text), "M.vc"].flatMap (filesOf importingEngine.files),
        importingEngine.supplies g f = false := by
  decide +kernel

theorem eq_ok_of_toOption {ε α β : Type} {x : Except ε α} {f : α → β} {y : β}
    (h : (x.map f).toOption = some y) : ∃ a, x = .ok a ∧ f a = y := by
  cases x with
  | error e => cases h
  | ok a => exact ⟨a, rfl, Option.some.inj h⟩

/-- The condition is proved before and after a run over the other module, and in a batch in either
order. -/
theorem prove_independent_of_runs_importingEngine :
    ((importingEngine.runs ["T.vc"]).prove none "M.vc").1.map Outcome.told =
      .ok (some ("M.vc", some [.proved])) ∧
    ∃ b, ((worker none).provePaths ["M.vc", "T.vc"] {} importingEngine).1 = .ok b ∧
      (b.reports.map Report.told).Perm [("T.vc", some []), ("M.vc", some [.proved])] := by
  have hrun : ((importingEngine.prove none "M.vc").1.map Outcome.told).toOption =
      some (some (("M.vc" : Text), some [Status.proved])) := by
    decide +kernel
  have hbatch : (((worker none).provePaths ["T.vc", "M.vc"] {} importingEngine).1.map fun b =>
      b.reports.map Report.told).toOption =
        some [(("T.vc" : Text), some []), (("M.vc" : Text), some [Status.proved])] := by
    decide +kernel
  have hproofs : ∀ p ∈ [("M.vc" : Text), "T.vc"], Path.isProof p = false := by decide
  have hproofs' : ∀ p ∈ [("T.vc" : Text), "M.vc"], Path.isProof p = false := by decide
  have hfiles : ∀ p ∈ [("T.vc" : Text), "M.vc"],
      p ∈ [("T.vc" : Text), "M.vc"].flatMap (filesOf importingEngine.files) := by
    decide +kernel
  obtain ⟨hruns, hbatches⟩ := prove_independent_of_runs (e := importingEngine) rfl rfl (by decide)
    Session.quiet_standard (by decide +kernel)
  refine ⟨?_, ?_⟩
  · rw [hruns ["T.vc"] "M.vc" hproofs fun g hg => importingEngine_supplies g
      (hfiles g (List.mem_cons.mpr (.inl (List.mem_singleton.mp hg)))) "M.vc"
      (hfiles _ (by simp))]
    obtain ⟨o, ho, htold⟩ := eq_ok_of_toOption hrun
    rw [ho]
    exact congrArg Except.ok htold
  · obtain ⟨b, hb, htold⟩ := eq_ok_of_toOption hbatch
    obtain ⟨b', hb', hperm⟩ := hbatches ["T.vc", "M.vc"] ["M.vc", "T.vc"] (.swap _ _ _) hproofs'
      importingEngine_supplies b hb
    exact ⟨b', hb', htold ▸ hperm.symm⟩

end Engine

end Discharge
