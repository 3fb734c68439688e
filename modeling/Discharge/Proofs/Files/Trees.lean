import Discharge.Proofs.Files.Paths

namespace Discharge

namespace Tree

mutual

def ordered : Tree → Bool
  | file _ => true
  | directory entries => orderedAll entries

def orderedAll : List (Text × Tree) → Bool
  | [] => true
  | (name, t) :: rest =>
    Path.isName name && rest.all (fun e => name < e.1) && t.ordered && orderedAll rest

end

def isProofEntry (name : Text) (t : Tree) : Bool := Path.isProof name && !t.isDirectory

mutual

def sources : Tree → Tree
  | file content => file content
  | directory entries => directory (sourcesOf entries)

def sourcesOf : List (Text × Tree) → List (Text × Tree)
  | [] => []
  | (name, t) :: rest =>
    if isProofEntry name t then sourcesOf rest else (name, t.sources) :: sourcesOf rest

end

section Entries

variable {name other : Text} {t s : Tree} {es : List (Text × Tree)}

theorem lookup_cons_of_ne (h : other ≠ name) :
    ((name, t) :: es).lookup other = es.lookup other := by
  rw [List.lookup_cons, beq_eq_false_iff_ne.mpr h]

theorem isDirectory_sources (t : Tree) : t.sources.isDirectory = t.isDirectory := by
  cases t <;> rfl

theorem ordered_of_lookup (h : orderedAll es = true) (hs : es.lookup name = some s) :
    s.ordered = true := by
  induction es with
  | nil => cases hs
  | cons e rest ih =>
    obtain ⟨n, u⟩ := e
    simp only [orderedAll, Bool.and_eq_true] at h
    rw [List.lookup_cons] at hs
    split at hs
    · exact Option.some.inj hs ▸ h.1.2
    · exact ih h.2 hs

theorem isName_of_lookup (h : orderedAll es = true) (hs : es.lookup name = some s) :
    Path.isName name = true := by
  induction es with
  | nil => cases hs
  | cons e rest ih =>
    obtain ⟨n, u⟩ := e
    simp only [orderedAll, Bool.and_eq_true] at h
    by_cases hname : name = n
    · rw [hname]
      exact h.1.1.1
    · rw [lookup_cons_of_ne hname] at hs
      exact ih h.2 hs

theorem lookup_eq_none_of_lt (h : ∀ e ∈ es, name < e.1) : es.lookup name = none := by
  rw [List.lookup_eq_none_iff]
  intro e he
  refine bne_iff_ne.mpr fun hname => ?_
  exact Text.lt_irrefl name (hname.symm ▸ h e he)

theorem lookup_sourcesOf (h : orderedAll es = true) (name : Text) :
    (sourcesOf es).lookup name =
      (es.lookup name).bind fun s => if isProofEntry name s then none else some s.sources := by
  induction es with
  | nil => rfl
  | cons e rest ih =>
    obtain ⟨n, u⟩ := e
    simp only [orderedAll, Bool.and_eq_true, List.all_eq_true, decide_eq_true_eq] at h
    have hrest := ih h.2
    rw [sourcesOf, List.lookup_cons]
    by_cases hname : name = n
    · subst hname
      rw [beq_self_eq_true]
      have hnone : rest.lookup name = none := lookup_eq_none_of_lt h.1.1.2
      rw [hnone] at hrest
      dsimp only [Option.bind_some]
      split
      · exact hrest
      · rw [List.lookup_cons_self]
    · rw [beq_eq_false_iff_ne.mpr hname]
      split
      · exact hrest
      · rw [lookup_cons_of_ne hname]
        exact hrest

theorem lookup_insertEntry (name other : Text) (t : Tree) (es : List (Text × Tree)) :
    (insertEntry name t es).lookup other = if other = name then some t else es.lookup other := by
  induction es with
  | nil =>
    rw [insertEntry]
    by_cases hother : other = name
    · rw [hother, List.lookup_cons_self, if_pos rfl]
    · rw [lookup_cons_of_ne hother, if_neg hother]
  | cons e rest ih =>
    obtain ⟨n, u⟩ := e
    unfold insertEntry
    by_cases hother : other = name
    · subst hother
      rw [if_pos rfl] at ih ⊢
      split
      · rename_i hlt
        have hne : other ≠ n := fun he => Text.lt_irrefl n (he ▸ hlt)
        rw [lookup_cons_of_ne hne, ih]
      · split <;> rw [List.lookup_cons_self]
    · rw [if_neg hother] at ih ⊢
      split
      · rw [List.lookup_cons, List.lookup_cons, ih]
      · split
        · rename_i hname
          rw [beq_iff_eq.mp hname, lookup_cons_of_ne hother, lookup_cons_of_ne hother]
        · rw [lookup_cons_of_ne hother]

theorem mem_insertEntry {e : Text × Tree} (h : e ∈ insertEntry name t es) :
    e = (name, t) ∨ e ∈ es := by
  induction es with
  | nil => exact .inl (List.mem_singleton.mp h)
  | cons e' rest ih =>
    unfold insertEntry at h
    grind

theorem orderedAll_insertEntry (h : orderedAll es = true) (hname : Path.isName name = true)
    (ht : t.ordered = true) : orderedAll (insertEntry name t es) = true := by
  induction es with
  | nil => simp [insertEntry, orderedAll, hname, ht]
  | cons e rest ih =>
    obtain ⟨n, u⟩ := e
    simp only [orderedAll, Bool.and_eq_true, List.all_eq_true, decide_eq_true_eq] at h
    obtain ⟨⟨⟨hn, hfirst⟩, hu⟩, hrest⟩ := h
    unfold insertEntry
    split
    · rename_i hlt
      simp only [orderedAll, Bool.and_eq_true, List.all_eq_true, decide_eq_true_eq]
      refine ⟨⟨⟨hn, fun e he => ?_⟩, hu⟩, ih hrest⟩
      rcases mem_insertEntry he with rfl | he
      · exact hlt
      · exact hfirst e he
    · rename_i hlt
      split
      · rename_i hsame
        obtain rfl : n = name := beq_iff_eq.mp hsame
        simp only [orderedAll, Bool.and_eq_true, List.all_eq_true, decide_eq_true_eq]
        exact ⟨⟨⟨hn, hfirst⟩, ht⟩, hrest⟩
      · rename_i hsame
        have hbefore : name < n := Text.lt_of_not_lt hlt fun he => hsame (beq_iff_eq.mpr he)
        simp only [orderedAll, Bool.and_eq_true, List.all_eq_true, decide_eq_true_eq]
        refine ⟨⟨⟨hname, fun e he => ?_⟩, ht⟩, ⟨⟨hn, hfirst⟩, hu⟩, hrest⟩
        rcases List.mem_cons.mp he with rfl | he
        · exact hbefore
        · exact Text.lt_trans hbefore (hfirst e he)

theorem sourcesOf_insertEntry (h : orderedAll es = true) (hs : es.lookup name = some s)
    (hsame : t.sources = s.sources) : sourcesOf (insertEntry name t es) = sourcesOf es := by
  have hdirectory : t.isDirectory = s.isDirectory := by
    rw [← isDirectory_sources t, hsame, isDirectory_sources s]
  induction es with
  | nil => cases hs
  | cons e rest ih =>
    obtain ⟨n, u⟩ := e
    simp only [orderedAll, Bool.and_eq_true, List.all_eq_true, decide_eq_true_eq] at h
    rw [List.lookup_cons] at hs
    unfold insertEntry
    by_cases hname : name = n
    · subst hname
      rw [beq_self_eq_true, Option.some.injEq] at hs
      subst hs
      rw [if_neg (Text.lt_irrefl name), beq_self_eq_true, if_pos rfl]
      rw [sourcesOf, sourcesOf, isProofEntry, isProofEntry, hdirectory, hsame]
    · rw [beq_eq_false_iff_ne.mpr hname] at hs
      have hlt : n < name := by
        by_contra hnot
        rw [lookup_eq_none_of_lt (fun e he => Text.lt_trans
          (Text.lt_of_not_lt hnot fun he => hname he.symm) (h.1.1.2 e he))] at hs
        cases hs
      rw [if_pos hlt, sourcesOf, sourcesOf, ih h.2 hs]

theorem sourcesOf_insertEntry_proof (hname : Path.isProof name = true) {content : Text}
    (hold : ∀ s, es.lookup name = some s → s.isDirectory = false) :
    sourcesOf (insertEntry name (file content) es) = sourcesOf es := by
  have hnew : isProofEntry name (file content) = true := by
    rw [isProofEntry, hname]
    rfl
  induction es with
  | nil => rw [insertEntry, sourcesOf, sourcesOf, sourcesOf, if_pos hnew]
  | cons e rest ih =>
    obtain ⟨n, u⟩ := e
    unfold insertEntry
    by_cases hsame : n = name
    · subst hsame
      have hu : isProofEntry n u = true := by
        rw [isProofEntry, hname, hold u (by simp)]
        rfl
      rw [if_neg (Text.lt_irrefl n), beq_self_eq_true, if_pos rfl, sourcesOf, sourcesOf, hnew, hu,
        if_pos rfl, if_pos rfl]
    · split
      · rw [sourcesOf, sourcesOf, ih fun s hs => hold s (by
          rwa [lookup_cons_of_ne fun he => hsame he.symm])]
      · rw [beq_eq_false_iff_ne.mpr hsame, if_neg Bool.false_ne_true, sourcesOf, if_pos hnew]

end Entries

section Following

variable {t u : Tree} {above : List Tree} {names : List Text} {path content : Text}

/-- What names lead to is there without proof files too, unless it is a proof file. -/
theorem follow_sources (above : List Tree) (hlast : ∀ n ∈ names.getLast?, Path.isProof n = false)
    (ht : t.ordered = true) (habove : ∀ u ∈ above, u.ordered = true) :
    (follow (above.map sources) t.sources names).toOption =
      (follow above t names).toOption.map sources := by
  induction names generalizing t above with
  | nil => cases t <;> rfl
  | cons name rest ih =>
    have hrest : ∀ n ∈ rest.getLast?, Path.isProof n = false := by
      intro n hn
      refine hlast n ?_
      rw [List.getLast?_cons, Option.mem_def.mp hn]
      rfl
    cases t with
    | file content => rfl
    | directory es =>
      have hes : orderedAll es = true := ht
      simp only [sources, follow]
      split
      · exact ih above hrest ht habove
      · split
        · cases above with
          | nil => exact ih (t := directory []) [] hrest rfl (fun v hv => by cases hv)
          | cons u above =>
            exact ih above hrest (habove u List.mem_cons_self) fun v hv =>
              habove v (List.mem_cons_of_mem _ hv)
        · split
          · rfl
          · rw [lookup_sourcesOf hes name]
            cases hlookup : es.lookup name with
            | none => rfl
            | some s =>
              have hs := ordered_of_lookup hes hlookup
              rw [Option.bind_some]
              by_cases hproof : isProofEntry name s = true
              · rw [if_pos hproof]
                rw [isProofEntry, Bool.and_eq_true, Bool.not_eq_true'] at hproof
                -- A proof file leads nowhere: there is a name after it.
                cases s with
                | directory es => cases hproof.2
                | file content =>
                  cases rest with
                  | nil => rw [hlast name rfl] at hproof; cases hproof.1
                  | cons next rest => rfl
              · rw [if_neg hproof]
                refine ih (directory es :: above) hrest hs fun v hv => ?_
                rcases List.mem_cons.mp hv with rfl | hv
                · exact ht
                · exact habove v hv

theorem lookup_sources (ht : t.ordered = true) (hpath : Path.isProof path = false) :
    (t.sources.lookup path).toOption = (t.lookup path).toOption.map sources := by
  unfold lookup
  split
  · rfl
  · have hlast : ∀ n ∈ (Path.names path).getLast?, Path.isProof n = false := by
      obtain ⟨init, hnames, -⟩ := Path.exists_names path
      intro n hn
      rw [hnames, List.getLast?_concat, Option.mem_some_iff] at hn
      rw [← hn, Path.isProof_lastName, hpath]
    split
    · exact follow_sources (t := empty) [] hlast rfl (by simp)
    · exact follow_sources [] hlast ht (by simp)

theorem read?_eq (t : Tree) (path : Text) : t.read? path =
    (t.lookup path).toOption.bind fun
      | file content => some content
      | directory _ => none := by
  unfold read?
  cases t.lookup path with
  | error f => rfl
  | ok u => cases u <;> rfl

theorem read?_sources (ht : t.ordered = true) (hpath : Path.isProof path = false) :
    t.sources.read? path = t.read? path := by
  rw [read?_eq, read?_eq, lookup_sources ht hpath]
  cases (t.lookup path).toOption with
  | none => rfl
  | some u => cases u <;> rfl

end Following

end Tree

end Discharge
