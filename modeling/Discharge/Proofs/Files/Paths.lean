import Discharge.Files.Module
import Discharge.ProofText.File
import Discharge.Proofs.Term.Plain
import Mathlib.Data.List.TakeWhile

namespace Discharge.Path

def isName (name : Text) : Bool := !name.toList.contains slash

theorem isName_iff {name : Text} : isName name = true ↔ slash ∉ name.toList := by
  simp [isName]

section Splitting

variable {b : UInt8} {x y : List UInt8}

theorem reverse_ne (h : b ∉ y) : ∀ c ∈ y.reverse, (c != b) = true := by
  intro c hc
  exact bne_iff_ne.mpr fun hb => h (hb ▸ List.mem_reverse.mp hc)

theorem splitLast_append (h : b ∉ y) : splitLast b (x ++ b :: y) = (x ++ [b], y) := by
  unfold splitLast
  rw [List.reverse_append, List.reverse_cons, List.append_assoc,
    List.dropWhile_append_of_pos (reverse_ne h), List.takeWhile_append_of_pos (reverse_ne h)]
  simp

theorem splitLast_of_not_mem (h : b ∉ y) : splitLast b y = ([], y) := by
  unfold splitLast
  rw [List.dropWhile_eq_nil_iff.mpr (reverse_ne h), List.takeWhile_eq_self_iff.mpr (reverse_ne h)]
  simp

theorem splitLast_snd_append (h : b ∉ y) : (splitLast b (x ++ y)).2 = (splitLast b x).2 ++ y := by
  unfold splitLast
  rw [List.reverse_append, List.takeWhile_append_of_pos (reverse_ne h)]
  simp

theorem exists_last (h : b ∈ x) : ∃ y z, b ∉ z ∧ x = y ++ b :: z := by
  obtain ⟨z, y, hx, hz⟩ := List.eq_append_cons_of_mem (List.mem_reverse.mpr h)
  refine ⟨y.reverse, z.reverse, by simpa using hz, ?_⟩
  rw [← List.reverse_reverse x, hx]
  simp

end Splitting

section Names

variable {x y : List UInt8} {path name : Text}

theorem namesFrom_of_not_mem (acc : List UInt8) (h : slash ∉ y) :
    namesFrom acc y = [.ofList (acc.reverse ++ y)] := by
  induction y generalizing acc with
  | nil => simp [namesFrom]
  | cons c rest ih =>
    have hc : (c == slash) = false := beq_eq_false_iff_ne.mpr fun hc => h (hc ▸ List.mem_cons_self)
    rw [namesFrom, hc, if_neg Bool.false_ne_true, ih _ fun hm => h (List.mem_cons_of_mem _ hm)]
    simp

theorem namesFrom_append (acc x y : List UInt8) :
    namesFrom acc (x ++ slash :: y) = namesFrom acc x ++ namesFrom [] y := by
  induction x generalizing acc with
  | nil => simp [namesFrom]
  | cons c rest ih =>
    rw [List.cons_append, namesFrom, namesFrom]
    split
    · rw [ih, List.cons_append]
    · rw [ih]

theorem isName_of_mem_namesFrom {acc : List UInt8} (hacc : slash ∉ acc)
    (h : name ∈ namesFrom acc x) : isName name = true := by
  induction x generalizing acc with
  | nil =>
    rw [namesFrom, List.mem_singleton] at h
    rw [h, isName_iff]
    simpa using hacc
  | cons c rest ih =>
    rw [namesFrom] at h
    split at h
    · rcases List.mem_cons.mp h with rfl | h
      · rw [isName_iff]
        simpa using hacc
      · exact ih (by simp) h
    · rename_i hc
      refine ih (fun hm => ?_) h
      rcases List.mem_cons.mp hm with rfl | hm
      · exact hc (beq_self_eq_true _)
      · exact hacc hm

theorem isName_of_mem_names (h : name ∈ names path) : isName name = true :=
  isName_of_mem_namesFrom (by simp) h

theorem lastName_of_append (h : slash ∉ y) (hpath : path.toList = x ++ slash :: y) :
    lastName path = .ofList y := by
  rw [lastName, hpath, splitLast_append h]

theorem lastName_of_isName (h : isName name = true) : lastName name = name := by
  rw [lastName, splitLast_of_not_mem (isName_iff.mp h)]
  exact Text.ext (Text.toList_ofList _)

theorem exists_names (path : Text) : ∃ init, names path = init ++ [lastName path] ∧
    (names (parent path) = init ++ [Text.empty] ∨ init = [] ∧ parent path = ".") := by
  by_cases h : slash ∈ path.toList
  · obtain ⟨x, y, hy, hpath⟩ := exists_last h
    have hbefore : before path = .ofList (x ++ [slash]) := by
      rw [before, hpath, splitLast_append hy]
    have hparent : parent path = .ofList (x ++ [slash]) := by
      rw [parent, hbefore, if_neg]
      simp [Text.isEmpty, Text.length_eq]
    refine ⟨namesFrom [] x, ?_, .inl ?_⟩
    · rw [names, hpath, namesFrom_append, namesFrom_of_not_mem [] hy, lastName_of_append hy hpath]
      rfl
    · rw [hparent, names, Text.toList_ofList, namesFrom_append]
      rfl
  · have hname : isName path = true := isName_iff.mpr h
    refine ⟨[], ?_, .inr ⟨rfl, ?_⟩⟩
    · rw [lastName_of_isName hname, names, namesFrom_of_not_mem [] h]
      exact congrArg (fun t => [t]) (Text.ext (Text.toList_ofList _))
    · rw [parent, before, splitLast_of_not_mem h]
      rfl

theorem isRooted_parent (path : Text) : isRooted (parent path) = isRooted path := by
  by_cases h : slash ∈ path.toList
  · obtain ⟨x, y, hy, hpath⟩ := exists_last h
    have hbefore : before path = .ofList (x ++ [slash]) := by
      rw [before, hpath, splitLast_append hy]
    have hsome : (before path).isEmpty = false := by
      rw [hbefore]
      simp [Text.isEmpty, Text.length_eq]
    rw [parent, hsome, if_neg Bool.false_ne_true, hbefore, isRooted, isRooted, hpath]
    cases x <;> simp
  · have hbefore : before path = .ofList [] := by rw [before, splitLast_of_not_mem h]
    have hother : isRooted path = false := by
      rw [isRooted, beq_eq_false_iff_ne]
      intro hhead
      exact h (List.mem_of_mem_head? hhead)
    rw [hother, parent, hbefore]
    decide

theorem isName_lastName (path : Text) : isName (lastName path) = true := by
  obtain ⟨init, hnames, -⟩ := exists_names path
  have hmem : lastName path ∈ names path := by simp [hnames]
  exact isName_of_mem_names hmem

end Names

theorem base_eq {path : Text} (h : lastName path ≠ "") : base path = lastName path := by
  have hsplit : path.toList = (splitLast slash path.toList).1 ++ (lastName path).toList := by
    rw [lastName, Text.toList_ofList, splitLast, ← List.reverse_append,
      List.takeWhile_append_dropWhile, List.reverse_reverse]
  have hbytes : (lastName path).toList ≠ [] := fun he => h (Text.ext (by rw [he]; decide))
  have htrimmed : trimmed path = path := by
    obtain ⟨c, rest, hrest⟩ := List.exists_cons_of_ne_nil
      (List.reverse_ne_nil_iff.mpr hbytes)
    have hc : (c == slash) = false := by
      refine beq_eq_false_iff_ne.mpr fun he => isName_iff.mp (isName_lastName path) ?_
      rw [← List.mem_reverse, hrest, he]
      exact List.mem_cons_self
    unfold trimmed
    rw [hsplit, List.reverse_append, hrest, List.cons_append,
      List.dropWhile_cons_of_neg (by simp [hc]),
      ← List.cons_append, ← hrest, ← List.reverse_append, List.reverse_reverse, ← hsplit]
    exact Text.ext (Text.toList_ofList _)
  have hsome : path.isEmpty = false := by
    rw [← Bool.not_eq_true, Text.isEmpty_iff]
    rintro rfl
    exact h (by decide)
  rw [base, htrimmed, hsome, if_neg Bool.false_ne_true, if_neg Bool.false_ne_true]

section Cleaning

variable {name path : Text} {done ns : List Text}

theorem isFileName_iff : Tree.isFileName name = true ↔ name ≠ "" ∧ name ≠ "." ∧ name ≠ ".." := by
  simp [Tree.isFileName, Text.isOneOf]

theorem step_of_isFileName (h : Tree.isFileName name = true) (rooted : Bool) (done : List Text) :
    step rooted done name = name :: done := by
  obtain ⟨hempty, hdot, hdots⟩ := isFileName_iff.mp h
  have hsome : name.isEmpty = false := by
    rw [← Bool.not_eq_true, Text.isEmpty_iff]
    exact hempty
  unfold step
  rw [hsome, beq_eq_false_iff_ne.mpr hdot, beq_eq_false_iff_ne.mpr hdots]
  rfl

theorem step_back_nil : step false [] ".." = [(".." : Text)] := by decide

theorem step_back_cons (h : Tree.isFileName name = true) :
    step false (name :: done) ".." = done := by
  have hdots : (name == "..") = false := beq_eq_false_iff_ne.mpr (isFileName_iff.mp h).2.2
  have hname : ((".." : Text).isEmpty || (".." : Text) == ".") = false := by decide
  unfold step
  rw [hname, beq_self_eq_true, if_neg Bool.false_ne_true, if_pos rfl]
  dsimp only
  rw [hdots, if_neg Bool.false_ne_true]

theorem step_back_dots :
    step false ((".." : Text) :: done) ".." = (".." : Text) :: (".." : Text) :: done := by
  have hname : ((".." : Text).isEmpty || (".." : Text) == ".") = false := by decide
  unfold step
  rw [hname, beq_self_eq_true, if_neg Bool.false_ne_true, if_pos rfl]
  dsimp only
  rw [beq_self_eq_true, if_pos rfl]

theorem mem_step_back (h : (".." : Text) ∈ done) (name : Text) :
    (".." : Text) ∈ step false done name := by
  unfold step
  grind

theorem mem_foldl_step_back (h : (".." : Text) ∈ done) (ns : List Text) :
    (".." : Text) ∈ ns.foldl (step false) done := by
  induction ns generalizing done with
  | nil => exact h
  | cons n rest ih => exact ih (mem_step_back h n)

/-- Whether two dots at the root say something matters only if they are left over. -/
theorem foldl_step_true (h : (".." : Text) ∉ ns.foldl (step false) done) :
    ns.foldl (step true) done = ns.foldl (step false) done := by
  induction ns generalizing done with
  | nil => rfl
  | cons name rest ih =>
    have hstep : (".." : Text) ∉ step false done name := fun hm => h (mem_foldl_step_back hm rest)
    have hsame : step true done name = step false done name := by
      unfold step at hstep ⊢
      grind
    rw [List.foldl_cons, List.foldl_cons, hsame]
    exact ih h

theorem mem_step {rooted : Bool} {n : Text} (h : n ∈ step rooted done name) :
    n ∈ done ∨ n = name ∨ n = ".." := by
  unfold step at h
  grind

theorem isName_of_mem_step {rooted : Bool} (hdone : ∀ n ∈ done, isName n = true)
    (hname : isName name = true) : ∀ n ∈ step rooted done name, isName n = true := by
  intro n hn
  rcases mem_step hn with h | rfl | rfl
  · exact hdone n h
  · exact hname
  · decide

theorem isName_of_mem_foldl_step {rooted : Bool} (hdone : ∀ n ∈ done, isName n = true)
    (hns : ∀ n ∈ ns, isName n = true) : ∀ n ∈ ns.foldl (step rooted) done, isName n = true := by
  induction ns generalizing done with
  | nil => exact hdone
  | cons n rest ih =>
    exact ih (isName_of_mem_step hdone (hns n List.mem_cons_self)) fun m hm =>
      hns m (List.mem_cons_of_mem _ hm)

theorem namesFrom_flatMap (x : List UInt8) (h : ∀ n ∈ ns, isName n = true) :
    namesFrom [] (x ++ ns.flatMap fun n => slash :: n.toList) = namesFrom [] x ++ ns := by
  induction ns generalizing x with
  | nil => simp
  | cons n rest ih =>
    obtain ⟨hn, hrest⟩ := List.forall_mem_cons.mp h
    have hsplit : x ++ (n :: rest).flatMap (fun n => slash :: n.toList) =
        (x ++ slash :: n.toList) ++ rest.flatMap fun n => slash :: n.toList := by simp
    have hname : Text.ofList (List.reverse [] ++ n.toList) = n := Text.ext (Text.toList_ofList _)
    rw [hsplit, ih _ hrest, namesFrom_append, namesFrom_of_not_mem [] (isName_iff.mp hn), hname]
    simp

theorem names_intercalate (hns : ns ≠ []) (h : ∀ n ∈ ns, isName n = true) :
    names (Text.intercalate "/" ns) = ns := by
  obtain ⟨n, rest, rfl⟩ := List.exists_cons_of_ne_nil hns
  obtain ⟨hn, hrest⟩ := List.forall_mem_cons.mp h
  have hslash : ("/" : Text).toList = [slash] := by decide
  rw [names, Text.toList_intercalate, hslash]
  refine (namesFrom_flatMap n.toList hrest).trans ?_
  rw [namesFrom_of_not_mem [] (isName_iff.mp hn)]
  exact congrArg (· :: rest) (Text.ext (Text.toList_ofList _))

theorem lastName_of_names (init : List Text) (h : names path = init ++ [name]) :
    lastName path = name := by
  obtain ⟨init', hnames, -⟩ := exists_names path
  rw [hnames] at h
  exact List.head_eq_of_cons_eq (List.append_inj' h rfl).2

theorem names_clean (h : (names path).foldl (step (isRooted path)) [] = name :: done)
    (hname : name ≠ "") : names (clean path) =
      (if isRooted path then [Text.empty] else []) ++ (done.reverse ++ [name]) := by
  have hall : ∀ n ∈ done.reverse ++ [name], isName n = true := by
    intro n hn
    have hmem : n ∈ (names path).foldl (step (isRooted path)) [] := by
      rw [h]
      simpa [or_comm] using hn
    exact isName_of_mem_foldl_step (by simp) (fun m => isName_of_mem_names) n hmem
  have htext : names (Text.intercalate "/" (done.reverse ++ [name])) = done.reverse ++ [name] :=
    names_intercalate (by simp) hall
  unfold clean
  dsimp only
  rw [h, List.reverse_cons]
  split
  · have hroot : names ("/" ++ Text.intercalate "/" (done.reverse ++ [name])) =
        Text.empty :: names (Text.intercalate "/" (done.reverse ++ [name])) := by
      have hslash : ("/" : Text).toList = [slash] := by decide
      rw [names, Text.toList_append, hslash]
      rfl
    rw [hroot, htext]
    rfl
  · rw [if_neg, htext, List.nil_append]
    intro hempty
    rw [Text.isEmpty_iff.mp hempty] at htext
    have hnone : names ("" : Text) = [] ++ [Text.empty] := by decide
    rw [hnone] at htext
    exact hname (List.head_eq_of_cons_eq (List.append_inj' htext rfl).2).symm

theorem lastName_clean (h : Tree.isFileName (lastName path) = true) :
    lastName (clean path) = lastName path := by
  obtain ⟨init, hnames, -⟩ := exists_names path
  have hfold : (names path).foldl (step (isRooted path)) [] =
      lastName path :: init.foldl (step (isRooted path)) [] := by
    rw [hnames, List.foldl_append, List.foldl_cons, List.foldl_nil, step_of_isFileName h]
  have hclean := names_clean hfold (isFileName_iff.mp h).1
  rw [← List.append_assoc] at hclean
  exact lastName_of_names _ hclean

/-- A path that leads out is rooted, or two dots are left in front of its names. -/
theorem leadsOut_of_mem (h : (names path).foldl (step false) [] = name :: done)
    (hname : name ≠ "") (hlast : (name :: done).getLast? = some "..") : leadsOut path = true := by
  unfold leadsOut
  cases hroot : isRooted path with
  | true => rfl
  | false =>
    rw [← hroot] at h
    rw [names_clean h hname, hroot, Bool.false_or, if_neg Bool.false_ne_true, List.nil_append,
      ← List.reverse_cons, List.head?_reverse, hlast]
    rfl

end Cleaning

section Extensions

variable {path name ext : Text}

def isExtension (ext : Text) : Bool :=
  ext.toList.head? == some dot && !ext.toList.tail.contains dot && isName ext

theorem isExtension_of_mem (h : ext ∈ moduleExtensions) : isExtension ext = true := by
  have hall : ∀ e ∈ moduleExtensions, isExtension e = true := by decide
  exact hall ext h

theorem extension_lastName (path : Text) : extension (lastName path) = extension path := by
  rw [extension, extension, lastName_of_isName (isName_lastName path)]

theorem lastName_append (h : isName ext = true) :
    lastName (path ++ ext) = lastName path ++ ext := by
  rw [lastName, lastName, Text.toList_append, splitLast_snd_append (isName_iff.mp h)]
  ext1
  simp

theorem extension_append (path : Text) (h : isExtension ext = true) :
    extension (path ++ ext) = ext := by
  simp only [isExtension, Bool.and_eq_true, beq_iff_eq, Bool.not_eq_true',
    List.contains_eq_mem, decide_eq_false_iff_not] at h
  obtain ⟨⟨hhead, htail⟩, hname⟩ := h
  obtain ⟨s, hs⟩ := List.head?_eq_some_iff.mp hhead
  rw [hs, List.tail_cons] at htail
  unfold extension
  dsimp only
  rw [lastName_append hname, Text.toList_append, hs, splitLast_append htail, if_pos (by simp)]
  exact Text.ext (by rw [Text.toList_ofList, hs])

theorem isFileName_of_extension (h : extension name ≠ "") (hdot : extension name ≠ ".") :
    Tree.isFileName name = true := by
  rw [isFileName_iff]
  refine ⟨?_, ?_, ?_⟩ <;> rintro rfl
  · exact h (by decide)
  · exact hdot (by decide)
  · exact hdot (by decide)

theorem lastName_join_slash (dir path : Text) : lastName (dir ++ "/" ++ path) = lastName path := by
  have hslash : ("/" : Text).toList = [slash] := by decide
  obtain ⟨init, hnames, -⟩ := exists_names path
  refine lastName_of_names (names dir ++ init) ?_
  rw [names, Text.toList_append, Text.toList_append, hslash, List.append_assoc,
    List.singleton_append, namesFrom_append, List.append_assoc, ← hnames]
  rfl

theorem lastName_join (dir : Text) (h : Tree.isFileName (lastName path) = true) :
    lastName (join dir path) = lastName path := by
  have hsome : path.isEmpty = false := by
    rw [← Bool.not_eq_true, Text.isEmpty_iff]
    rintro rfl
    exact absurd h (by decide)
  unfold join
  rw [hsome]
  split
  · exact lastName_clean h
  · have hlast := lastName_join_slash dir path
    rw [if_neg Bool.false_ne_true, lastName_clean (hlast ▸ h), hlast]

theorem extension_join {dir : Text} (h : extension path ≠ "") (hdot : extension path ≠ ".") :
    extension (join dir path) = extension path := by
  have hname : Tree.isFileName (lastName path) = true := by
    refine isFileName_of_extension ?_ ?_ <;> rwa [extension_lastName]
  have hlast := lastName_join dir hname
  rw [← extension_lastName, hlast, extension_lastName]

end Extensions

def isProof (path : Text) : Bool := extension path == ".proof"

theorem isProof_lastName (path : Text) : isProof (lastName path) = isProof path := by
  rw [isProof, isProof, extension_lastName]

theorem isProof_filePath (source : Text) : isProof (ProofText.filePath source) = true := by
  rw [isProof, ProofText.filePath, extension_append _ (by decide), beq_self_eq_true]

theorem isFileName_of_isProof {path : Text} (h : isProof path = true) :
    Tree.isFileName (lastName path) = true := by
  have hext : extension path = ".proof" := beq_iff_eq.mp h
  refine isFileName_of_extension ?_ ?_ <;> rw [extension_lastName, hext] <;> decide

theorem isModuleFile_of_isProof {path : Text} (h : isProof path = true) :
    isModuleFile path = false := by
  rw [isModuleFile, beq_iff_eq.mp h]
  decide

theorem isProof_of_isModuleFile {path : Text} (h : isModuleFile path = true) :
    isProof path = false := by
  cases hproof : isProof path with
  | false => rfl
  | true =>
    rw [isModuleFile_of_isProof hproof] at h
    cases h

theorem isProof_join (dir : Text) {path : Text} (h : isProof path = true) :
    isProof (join dir path) = true := by
  have hext : extension path = ".proof" := beq_iff_eq.mp h
  rw [isProof, extension_join (by rw [hext]; decide) (by rw [hext]; decide), hext,
    beq_self_eq_true]

theorem isModuleFile_join (dir name : Text) {ext : Text} (h : ext ∈ moduleExtensions) :
    isModuleFile (join dir (name ++ ext)) = true := by
  have hall : ∀ e ∈ moduleExtensions, e ≠ "" ∧ e ≠ "." := by decide
  have hext := extension_append name (isExtension_of_mem h)
  rw [isModuleFile, extension_join (by rw [hext]; exact (hall ext h).1)
    (by rw [hext]; exact (hall ext h).2), hext]
  exact List.contains_iff_mem.mpr h

end Discharge.Path
