import Discharge.Proofs.Files.Trees

namespace Discharge.Tree

/-- Where one stands in a tree after some names: what they come to, the last first, the directories
that one is in, and what one is at. Outside of the tree nothing is known but dots. -/
inductive Stands (t : Tree) : List Text → List Tree → Tree → Prop where
  | root : Stands t [] [] t
  | enter {done : List Text} {above : List Tree} {es : List (Text × Tree)} {name : Text} {s : Tree}
    (h : Stands t done above (directory es)) (hname : isFileName name = true)
    (hs : es.lookup name = some s) : Stands t (name :: done) (directory es :: above) s
  | out (k : Nat) : Stands t (List.replicate (k + 1) "..") [] (directory [])

theorem Stands.isDirectory_above {t s : Tree} {done : List Text} {above : List Tree}
    (h : Stands t done above s) : ∀ u ∈ above, u.isDirectory = true := by
  induction h with
  | root => simp
  | enter h hname hs ih =>
    intro u hu
    rcases List.mem_cons.mp hu with rfl | hu
    · rfl
    · exact ih u hu
  | out k => simp

def reach? : Tree → List Text → Option Tree
  | t, [] => some t
  | file _, _ :: _ => none
  | directory entries, name :: rest => (entries.lookup name).bind fun t => t.reach? rest

theorem reach?_append (t : Tree) (ns ms : List Text) :
    t.reach? (ns ++ ms) = (t.reach? ns).bind fun s => s.reach? ms := by
  induction ns generalizing t with
  | nil => cases t <;> rfl
  | cons n rest ih =>
    cases t with
    | file content => rfl
    | directory es =>
      rw [List.cons_append, reach?, reach?]
      cases es.lookup n with
      | none => rfl
      | some u => exact ih u

section Standing

variable {t s : Tree} {done : List Text} {above : List Tree}

theorem isFileName_of_moves {name : Text} (hmove : ¬ (name.isEmpty || name == ".") = true)
    (hback : ¬ (name == "..") = true) : isFileName name = true := by
  rw [Bool.or_eq_true, not_or, Text.isEmpty_iff, beq_iff_eq] at hmove
  exact Path.isFileName_iff.mpr ⟨hmove.1, hmove.2, fun he => hback (beq_iff_eq.mpr he)⟩

theorem Stands.follow (h : Stands t done above s) (names : List Text) :
    (∃ fault, ∀ more, Tree.follow above s (names ++ more) = .error fault) ∨
    ∃ above' s', Stands t (names.foldl (Path.step false) done) above' s' ∧
      ∀ more, Tree.follow above s (names ++ more) = Tree.follow above' s' more := by
  induction names generalizing done above s with
  | nil => exact .inr ⟨above, s, h, fun _ => rfl⟩
  | cons name rest ih =>
    cases s with
    | file content => exact .inl ⟨.notDirectory, fun _ => rfl⟩
    | directory es =>
      simp only [List.cons_append, Tree.follow, List.foldl_cons]
      split
      · rename_i hstill
        have hstep : Path.step false done name = done := by
          unfold Path.step
          rw [if_pos hstill]
        rw [hstep]
        exact ih h
      · rename_i hmove
        split
        · rename_i hback
          obtain rfl : name = ".." := beq_iff_eq.mp hback
          cases h with
          | root =>
            rw [Path.step_back_nil]
            exact ih (.out 0)
          | enter h hname hs =>
            rw [Path.step_back_cons hname]
            exact ih h
          | out k =>
            rw [List.replicate_succ, Path.step_back_dots]
            exact ih (.out (k + 1))
        · rename_i hback
          split
          · exact .inl ⟨_, fun _ => rfl⟩
          · split
            · exact .inl ⟨_, fun _ => rfl⟩
            · rename_i u hu
              have hname := isFileName_of_moves hmove hback
              rw [Path.step_of_isFileName hname]
              exact ih (.enter h hname hu)

theorem Stands.inside_or_out (h : Stands t done above s) :
    (∀ name ∈ done, isFileName name = true) ∧ t.reach? done.reverse = some s ∨
      done.getLast? = some ".." ∧ s = directory [] := by
  induction h with
  | root => exact .inl ⟨by simp, by cases t <;> rfl⟩
  | @enter done above es name s h hname hs ih =>
    rcases ih with ⟨hall, hreach⟩ | ⟨-, hes⟩
    · refine .inl ⟨?_, ?_⟩
      · intro n hn
        rcases List.mem_cons.mp hn with rfl | hn
        · exact hname
        · exact hall n hn
      · rw [List.reverse_cons, reach?_append, hreach, Option.bind_some, reach?, hs]
        cases s <;> rfl
    · rw [directory.injEq] at hes
      rw [hes] at hs
      cases hs
  | out k => exact .inr ⟨by simp [List.getLast?_replicate], rfl⟩

theorem Stands.inside_of_lookup {es : List (Text × Tree)} {name : Text} {u : Tree}
    (h : Stands t done above (directory es)) (hu : es.lookup name = some u) :
    (∀ n ∈ done, isFileName n = true) ∧ t.reach? done.reverse = some (directory es) := by
  rcases h.inside_or_out with hin | ⟨-, hes⟩
  · exact hin
  · rw [directory.injEq] at hes
    rw [hes] at hu
    cases hu

end Standing

section Writing

variable {t t' : Tree} {es : List (Text × Tree)} {name path content : Text} {ns : List Text}

/-- A proof file that is put into a directory changes nothing else. -/
theorem alter_proof (ht : t.ordered = true) (hreach : t.reach? ns = some (directory es))
    (hname : Path.isName name = true) (hproof : Path.isProof name = true)
    (hold : ∀ s, es.lookup name = some s → s.isDirectory = false) :
    (alter (fun _ => file content) (ns ++ [name]) (some t)).ordered = true ∧
      (alter (fun _ => file content) (ns ++ [name]) (some t)).sources = t.sources := by
  induction ns generalizing t with
  | nil =>
    cases t with
    | file _ => cases hreach
    | directory entries =>
      obtain rfl : entries = es := directory.inj (Option.some.inj hreach)
      refine ⟨orderedAll_insertEntry ht hname rfl, ?_⟩
      exact congrArg directory (sourcesOf_insertEntry_proof hproof hold)
  | cons n rest ih =>
    cases t with
    | file _ => cases hreach
    | directory entries =>
      have hentries : orderedAll entries = true := ht
      rw [reach?] at hreach
      obtain ⟨u, hu, hreach⟩ := Option.bind_eq_some_iff.mp hreach
      obtain ⟨hordered, hsame⟩ := ih (ordered_of_lookup hentries hu) hreach
      have halter : alter (fun _ => file content) (n :: rest ++ [name])
          (some (directory entries)) = directory (insertEntry n
            (alter (fun _ => file content) (rest ++ [name]) (some u)) entries) := by
        rw [← hu]
        rfl
      rw [halter]
      refine ⟨orderedAll_insertEntry hentries (isName_of_lookup hentries hu) hordered, ?_⟩
      exact congrArg directory (sourcesOf_insertEntry hentries hu hsame)

theorem write_cases {path : Text} (h : t.write path content = .ok t') :
    t' = t.putFile path content ∧ ((∃ old, t.lookup path = .ok (file old)) ∨
      t.lookup path = .error .notFound ∧ Path.leadsOut path = false ∧
        ∃ u, t.lookup (Path.parent path) = .ok u) := by
  unfold write at h
  dsimp only at h
  split at h
  · split at h
    · cases h
    · cases hparent : t.lookup (Path.parent (Path.trimmed path)) with
      | error f => rw [hparent] at h; cases h
      | ok u => rw [hparent] at h; cases h
  · split at h
    · cases h
    · rename_i old hold
      exact ⟨(Except.ok.inj h).symm, .inl ⟨old, hold⟩⟩
    · rename_i hnone
      split at h
      · rename_i hname
        rw [Bool.and_eq_true, Bool.not_eq_true'] at hname
        cases hparent : t.lookup (Path.parent path) with
        | error f => rw [hparent] at h; cases h
        | ok u =>
          rw [hparent] at h
          exact ⟨(Except.ok.inj h).symm, .inr ⟨hnone, hname.2, u, rfl⟩⟩
      · cases h
    · cases h

theorem follow_of_lookup {u : Tree} (h : t.lookup path = .ok u) :
    follow [] (if Path.isRooted path then empty else t) (Path.names path) = .ok u := by
  unfold lookup at h
  split at h
  · cases h
  · exact h

theorem exists_stands {T u : Tree} {init : List Text} {name : Text}
    (h : follow [] T (init ++ [name]) = .ok u) : ∃ above es,
      Stands T (init.foldl (Path.step false) []) above (directory es) ∧
        ∀ more, follow [] T (init ++ more) = follow above (directory es) more := by
  rcases Stands.root.follow init with ⟨fault, hfault⟩ | ⟨above, s, hs, hfollow⟩
  · rw [hfault] at h
    cases h
  · cases s with
    | file content =>
      rw [hfollow] at h
      cases h
    | directory es => exact ⟨above, es, hs, hfollow⟩

theorem lookup_eq_follow (hproof : Path.isProof path = true)
    (h : t.lookup path = .error .notFound) : t.lookup path =
      follow [] (if Path.isRooted path then empty else t) (Path.names path) := by
  have hsome : path.isEmpty = false := by
    rw [← Bool.not_eq_true, Text.isEmpty_iff]
    rintro rfl
    exact absurd hproof (by decide)
  unfold lookup at h ⊢
  unfold pathFault? at h ⊢
  rw [hsome, if_neg Bool.false_ne_true] at h ⊢
  split
  · rename_i fault hfault
    rw [hfault] at h
    split at hfault
    · cases hfault; cases h
    · split at hfault
      · cases hfault; cases h
      · cases hfault
  · rfl

theorem follow_name {above : List Tree} (hname : isFileName name = true) :
    follow above (directory es) [name] = if name.length > 255 then .error .nameTooLong
      else match es.lookup name with
        | none => .error .notFound
        | some u => .ok u := by
  obtain ⟨hempty, hdot, hdots⟩ := Path.isFileName_iff.mp hname
  have hmove : (name.isEmpty || name == ".") = false := by
    rw [Bool.or_eq_false_iff, ← Bool.not_eq_true, Text.isEmpty_iff, beq_eq_false_iff_ne]
    exact ⟨hempty, hdot⟩
  unfold follow
  rw [hmove, beq_eq_false_iff_ne.mpr hdots, if_neg Bool.false_ne_true, if_neg Bool.false_ne_true]
  split
  · rfl
  · cases hlookup : es.lookup name with
    | none => rfl
    | some u => cases u <;> rfl

theorem lookup_of_follow_name {above : List Tree} {u : Tree} (hname : isFileName name = true)
    (h : follow above (directory es) [name] = .ok u) : es.lookup name = some u := by
  rw [follow_name hname] at h
  split at h
  · cases h
  · cases hu : es.lookup name with
    | none => rw [hu] at h; cases h
    | some v => rw [hu] at h; rw [Except.ok.inj h]

theorem lookup_of_follow_name_notFound {above : List Tree} (hname : isFileName name = true)
    (h : follow above (directory es) [name] = .error .notFound) : es.lookup name = none := by
  rw [follow_name hname] at h
  split at h
  · cases h
  · cases hu : es.lookup name with
    | none => rfl
    | some v => rw [hu] at h; cases h

theorem foldl_step_names {init : List Text} (hnames : Path.names path = init ++ [name])
    (hname : isFileName name = true) : (Path.names path).foldl (Path.step false) [] =
      name :: init.foldl (Path.step false) [] := by
  rw [hnames, List.foldl_append, List.foldl_cons, List.foldl_nil, Path.step_of_isFileName hname]

theorem namesOf_of_stands {init : List Text} (hnames : Path.names path = init ++ [name])
    (hname : isFileName name = true)
    (hall : ∀ n ∈ init.foldl (Path.step false) [], isFileName n = true) :
    namesOf path = (init.foldl (Path.step false) []).reverse ++ [name] := by
  have hfold := foldl_step_names hnames hname
  have hdots : (".." : Text) ∉ (Path.names path).foldl (Path.step false) [] := by
    rw [hfold]
    intro hm
    rcases List.mem_cons.mp hm with heq | hm
    · exact (Path.isFileName_iff.mp hname).2.2 heq.symm
    · exact (Path.isFileName_iff.mp (hall _ hm)).2.2 rfl
  rw [namesOf, Path.foldl_step_true hdots, hfold, List.reverse_cons]

theorem sources_putFile {init : List Text} (ht : t.ordered = true)
    (hproof : Path.isProof path = true)
    (hnames : Path.names path = init ++ [Path.lastName path])
    (hall : ∀ n ∈ init.foldl (Path.step false) [], isFileName n = true)
    (hreach : t.reach? (init.foldl (Path.step false) []).reverse = some (directory es))
    (hold : ∀ s, es.lookup (Path.lastName path) = some s → s.isDirectory = false) :
    (t.putFile path content).ordered = true ∧ (t.putFile path content).sources = t.sources := by
  have hlast : Path.isProof (Path.lastName path) = true := by rwa [Path.isProof_lastName]
  rw [putFile, namesOf_of_stands hnames (Path.isFileName_of_isProof hproof) hall]
  exact alter_proof ht hreach (Path.isName_lastName path) hlast hold

theorem sources_putFile_found {old : Text} (ht : t.ordered = true)
    (hproof : Path.isProof path = true) (h : t.lookup path = .ok (file old)) :
    (t.putFile path content).ordered = true ∧ (t.putFile path content).sources = t.sources := by
  obtain ⟨init, hnames, -⟩ := Path.exists_names path
  have hfollow := follow_of_lookup h
  rw [hnames] at hfollow
  obtain ⟨above, es, hs, hrest⟩ := exists_stands hfollow
  rw [hrest] at hfollow
  have hfile := lookup_of_follow_name (Path.isFileName_of_isProof hproof) hfollow
  obtain ⟨hall, hreach⟩ := hs.inside_of_lookup hfile
  split at hreach
  · -- Under the root there is nothing to be found.
    cases hreversed : (init.foldl (Path.step false) []).reverse with
    | nil =>
      rw [hreversed] at hreach
      obtain rfl := directory.inj (Option.some.inj hreach)
      cases hfile
    | cons n rest =>
      rw [hreversed] at hreach
      cases hreach
  · refine sources_putFile ht hproof hnames hall hreach fun s hs => ?_
    obtain rfl : file old = s := Option.some.inj (hfile.symm.trans hs)
    rfl

theorem sources_putFile_new {u : Tree} (ht : t.ordered = true)
    (hproof : Path.isProof path = true) (hnone : t.lookup path = .error .notFound)
    (hinside : Path.leadsOut path = false) (hu : t.lookup (Path.parent path) = .ok u) :
    (t.putFile path content).ordered = true ∧ (t.putFile path content).sources = t.sources := by
  have hname := Path.isFileName_of_isProof hproof
  obtain ⟨init, hnames, hparents⟩ := Path.exists_names path
  have hroot : Path.isRooted path = false := by
    cases hrooted : Path.isRooted path with
    | false => rfl
    | true => rw [Path.leadsOut, hrooted] at hinside; cases hinside
  have hrooted : Path.isRooted (Path.parent path) = false := by
    rw [← hroot]
    exact Path.isRooted_parent path
  obtain ⟨x, hx⟩ : ∃ x, Path.names (Path.parent path) = init ++ [x] := by
    rcases hparents with hx | ⟨rfl, hx⟩
    · exact ⟨_, hx⟩
    · exact ⟨".", by rw [hx]; decide⟩
  have hfollow := follow_of_lookup hu
  rw [hrooted, if_neg Bool.false_ne_true, hx] at hfollow
  obtain ⟨above, es, hs, hrest⟩ := exists_stands hfollow
  have hnothing : es.lookup (Path.lastName path) = none := by
    rw [lookup_eq_follow hproof hnone, hroot, if_neg Bool.false_ne_true, hnames, hrest] at hnone
    exact lookup_of_follow_name_notFound hname hnone
  rcases hs.inside_or_out with ⟨hall, hreach⟩ | ⟨hout, -⟩
  · refine sources_putFile ht hproof hnames hall hreach fun s hs => ?_
    rw [hnothing] at hs
    cases hs
  · have hleads := Path.leadsOut_of_mem (foldl_step_names hnames hname)
      (Path.isFileName_iff.mp hname).1 (by rw [List.getLast?_cons, hout]; rfl)
    rw [hinside] at hleads
    cases hleads

/-- Writing a proof file changes nothing but proof files. -/
theorem sources_write (ht : t.ordered = true) (hproof : Path.isProof path = true)
    (h : t.write path content = .ok t') : t'.ordered = true ∧ t'.sources = t.sources := by
  obtain ⟨rfl, ⟨old, hold⟩ | ⟨hnone, hinside, u, hu⟩⟩ := write_cases h
  · exact sources_putFile_found ht hproof hold
  · exact sources_putFile_new ht hproof hnone hinside hu

end Writing

section Listing

mutual

def leaves (name : Text) : Tree → List (Text × Text)
  | file content => [(name, content)]
  | directory entries => leavesOf entries

def leavesOf : List (Text × Tree) → List (Text × Text)
  | [] => []
  | (name, t) :: rest => t.leaves name ++ leavesOf rest

end

mutual

theorem length_paths (name path : Text) : ∀ t : Tree, (t.paths path).length = (t.leaves name).length
  | file _ => rfl
  | directory entries => by
    rw [paths, leaves]
    exact length_pathsOf path entries

theorem length_pathsOf (path : Text) : ∀ es : List (Text × Tree),
    (pathsOf path es).length = (leavesOf es).length
  | [] => rfl
  | (name, t) :: rest => by
    rw [pathsOf, leavesOf, List.length_append, List.length_append, length_pathsOf path rest,
      length_paths name (Path.join path name) t]

end

mutual

theorem filter_paths_sources (path : Text) : ∀ t : Tree,
    (t.sources.paths path).filter isModuleFile = (t.paths path).filter isModuleFile
  | file _ => rfl
  | directory entries => by
    rw [sources, paths, paths]
    exact filter_pathsOf_sources path entries

theorem filter_pathsOf_sources (path : Text) : ∀ es : List (Text × Tree),
    (pathsOf path (sourcesOf es)).filter isModuleFile = (pathsOf path es).filter isModuleFile
  | [] => rfl
  | (name, t) :: rest => by
    have hrest := filter_pathsOf_sources path rest
    rw [sourcesOf, pathsOf, List.filter_append]
    split
    · rename_i hproof
      rw [isProofEntry, Bool.and_eq_true, Bool.not_eq_true'] at hproof
      cases t with
      | directory es => cases hproof.2
      | file content =>
        have hother := Path.isModuleFile_of_isProof (Path.isProof_join path hproof.1)
        rw [hrest, paths, List.filter_cons_of_neg (by rw [hother]; exact Bool.false_ne_true)]
        rfl
    · rw [pathsOf, List.filter_append, hrest, filter_paths_sources (Path.join path name) t]

end

mutual

theorem length_paths_sources (path : Text) : ∀ t : Tree,
    (t.sources.paths path).length ≤ (t.paths path).length
  | file _ => Nat.le_refl _
  | directory entries => by
    rw [sources, paths, paths]
    exact length_pathsOf_sources path entries

theorem length_pathsOf_sources (path : Text) : ∀ es : List (Text × Tree),
    (pathsOf path (sourcesOf es)).length ≤ (pathsOf path es).length
  | [] => Nat.le_refl _
  | (name, t) :: rest => by
    have hrest := length_pathsOf_sources path rest
    have hfirst := length_paths_sources (Path.join path name) t
    rw [sourcesOf, pathsOf, List.length_append]
    split
    · omega
    · rw [pathsOf, List.length_append]
      omega

end

variable {t s : Tree} {es : List (Text × Tree)} {name path content : Text} {done : List Text}
  {above : List Tree}

theorem leaves_subset_of_lookup (h : es.lookup name = some s) : s.leaves name ⊆ leavesOf es := by
  induction es with
  | nil => cases h
  | cons e rest ih =>
    obtain ⟨n, u⟩ := e
    rw [leavesOf]
    by_cases hname : name = n
    · subst hname
      rw [List.lookup_cons_self, Option.some.injEq] at h
      rw [h]
      exact List.subset_append_left _ _
    · rw [lookup_cons_of_ne hname] at h
      exact List.Subset.trans (ih h) (List.subset_append_right _ _)

theorem Stands.leaves_subset (h : Stands t done above (directory es)) (name : Text) :
    leavesOf es ⊆ t.leaves name := by
  generalize hs : directory es = s at h
  induction h generalizing es with
  | root => rw [← hs, leaves]; exact List.Subset.refl _
  | @enter done above es' n s' h hname hlookup ih =>
    subst hs
    exact List.Subset.trans (leaves_subset_of_lookup hlookup) (ih rfl)
  | out k =>
    rw [directory.injEq] at hs
    rw [hs, leavesOf]
    exact List.nil_subset _

theorem mem_leaves_of_read? (h : t.read? path = some content) (name : Text) :
    (Path.lastName path, content) ∈ t.leaves name ∧
      isFileName (Path.lastName path) = true := by
  have hlookup : t.lookup path = .ok (file content) := by
    unfold read? at h
    split at h
    · rename_i u hu
      rw [hu, Option.some.inj h]
    · cases h
  have hfollow := follow_of_lookup hlookup
  obtain ⟨init, hnames, -⟩ := Path.exists_names path
  rw [hnames] at hfollow
  obtain ⟨above, es, hs, hrest⟩ := exists_stands hfollow
  rw [hrest] at hfollow
  have hname : isFileName (Path.lastName path) = true := by
    by_contra hnot
    unfold follow at hfollow
    split at hfollow
    · cases hfollow
    · rename_i hmove
      split at hfollow
      · cases above with
        | nil => cases hfollow
        | cons u above =>
          have hu := hs.isDirectory_above u List.mem_cons_self
          rw [Except.ok.inj hfollow] at hu
          cases hu
      · rename_i hback
        exact hnot (isFileName_of_moves hmove hback)
  refine ⟨?_, hname⟩
  have hv := lookup_of_follow_name hname hfollow
  have hmem := hs.leaves_subset name (leaves_subset_of_lookup hv List.mem_cons_self)
  split at hmem
  · cases hmem
  · exact hmem

end Listing

end Discharge.Tree
