import Mathlib.Data.List.TakeWhile
import Discharge.ProofText.Stable

/-!
What masking comes to. A byte that occurs in no wording of a time divides a text: what stands before
it and what stands after it are masked apart. Line ends are such bytes for all wordings, and headers
are masked line by line, so the stable form of a text is that of its lines.
-/

namespace Discharge.ProofText

section Matching

variable {pieces : List Piece} {c : UInt8} {s b : List UInt8}

/-- Whether a byte is part of no match of the pieces, so that no match goes on past it. -/
def stops (c : UInt8) (pieces : List Piece) : Bool :=
  !isWordByte c && pieces.all fun
    | .words text => !text.toList.contains c
    | .number | .wordEnd => true

theorem isDigit_of_stops (h : isWordByte c = false) : isDigit c = false := by
  rw [isWordByte, Bool.or_eq_false_iff, Bool.or_eq_false_iff] at h
  exact h.1.1

theorem isPrefixOf_append_cons {ws : List UInt8} (h : c ∉ ws) :
    ws.isPrefixOf (s ++ c :: b) = ws.isPrefixOf s := by
  induction ws generalizing s with
  | nil => simp
  | cons w ws ih =>
    rw [List.mem_cons, not_or] at h
    obtain ⟨hw, hws⟩ := h
    cases s with
    | nil =>
      rw [List.nil_append, List.isPrefixOf_cons_cons, beq_eq_false_iff_ne.mpr (Ne.symm hw)]
      rfl
    | cons x s => simp only [List.cons_append, List.isPrefixOf_cons_cons, ih hws]

theorem takeWhile_append_cons {p : UInt8 → Bool} (h : p c = false) :
    (s ++ c :: b).takeWhile p = s.takeWhile p := by
  induction s with
  | nil => simp [h]
  | cons x s ih => simp only [List.cons_append, List.takeWhile_cons, ih]

theorem matchPieces_le {n : Nat} {out : List UInt8} (h : matchPieces pieces s = some (out, n)) :
    n ≤ s.length := by
  induction pieces generalizing s out n with
  | nil =>
    cases h
    exact Nat.zero_le _
  | cons piece pieces ih =>
    cases piece with
    | words text =>
      rw [matchPieces] at h
      split at h
      · rename_i hprefix
        obtain ⟨⟨o, m⟩, hm, hn⟩ := Option.map_eq_some_iff.mp h
        cases hn
        have hle := ih hm
        have hlen := (List.isPrefixOf_iff_prefix.mp hprefix).length_le
        rw [List.length_drop] at hle
        omega
      · contradiction
    | number =>
      rw [matchPieces] at h
      split at h
      · contradiction
      · obtain ⟨⟨o, m⟩, hm, hn⟩ := Option.map_eq_some_iff.mp h
        cases hn
        have hle := ih hm
        have hlen := (List.takeWhile_prefix (p := isDigit) (l := s)).length_le
        rw [List.length_drop] at hle
        omega
    | wordEnd =>
      rw [matchPieces] at h
      split at h
      · contradiction
      · exact ih h

/-- A match is the same whatever follows a byte that stops it. -/
theorem matchPieces_append_cons (h : stops c pieces = true) :
    matchPieces pieces (s ++ c :: b) = matchPieces pieces s := by
  induction pieces generalizing s with
  | nil => rfl
  | cons piece pieces ih =>
    rw [stops, List.all_cons, Bool.and_eq_true, Bool.and_eq_true, Bool.not_eq_true'] at h
    obtain ⟨hc, hpiece, hpieces⟩ := h
    have hrest : ∀ {s : List UInt8}, matchPieces pieces (s ++ c :: b) = matchPieces pieces s :=
      ih (by rw [stops, hc, hpieces]; rfl)
    cases piece with
    | words text =>
      have hnot : c ∉ text.toList := by simpa using hpiece
      rw [matchPieces, matchPieces, isPrefixOf_append_cons hnot]
      split
      · rename_i hprefix
        have hlen := (List.isPrefixOf_iff_prefix.mp hprefix).length_le
        rw [List.drop_append_of_le_length hlen, hrest]
      · rfl
    | number =>
      have hlen := (List.takeWhile_prefix (p := isDigit) (l := s)).length_le
      rw [matchPieces, matchPieces, takeWhile_append_cons (isDigit_of_stops hc),
        List.drop_append_of_le_length hlen, hrest]
    | wordEnd =>
      rw [matchPieces, matchPieces, hrest]
      cases s with
      | nil => simp [hc]
      | cons x s => rfl

end Matching

section Replacing

variable {pieces : List Piece} {c : UInt8} {s b : List UInt8}

/-- Whether no match that begins before a byte goes on past it. -/
def Splits (c : UInt8) (pieces : List Piece) : Prop :=
  ∀ s b, s ≠ [] → matchPieces pieces (s ++ c :: b) = matchPieces pieces s

theorem maskFrom_append_cons (h : Splits c pieces) {skip : Nat} (hskip : skip ≤ s.length) :
    maskFrom pieces skip (s ++ c :: b) = maskFrom pieces skip s ++ maskFrom pieces 0 (c :: b) := by
  induction s generalizing skip with
  | nil =>
    rw [Nat.le_zero.mp hskip]
    rfl
  | cons x s ih =>
    cases skip with
    | succ skip =>
      rw [List.cons_append, maskFrom, maskFrom]
      exact ih (Nat.le_of_succ_le_succ hskip)
    | zero =>
      have hmatch := h (x :: s) b (List.cons_ne_nil x s)
      rw [List.cons_append] at hmatch ⊢
      rw [maskFrom, maskFrom, hmatch]
      split
      · rename_i out n hsome
        rw [ih (Nat.le_of_succ_le_succ (matchPieces_le hsome)), List.append_assoc]
      · rw [ih (Nat.zero_le _), List.cons_append]

theorem maskAll_split (h : Splits c pieces) :
    maskAll pieces (s ++ c :: b) = maskAll pieces s ++ maskAll pieces (c :: b) :=
  maskFrom_append_cons h (Nat.zero_le _)

theorem maskAll_cons (h : matchPieces pieces (c :: b) = none) :
    maskAll pieces (c :: b) = c :: maskAll pieces b := by
  rw [maskAll, maskFrom, h]
  rfl

/-- What stands before and after a byte that stops matches is masked apart. -/
theorem maskAll_stop (h : stops c pieces = true) :
    maskAll pieces (s ++ c :: b) = maskAll pieces s ++ c :: maskAll pieces b := by
  have hempty : matchPieces pieces (c :: b) = matchPieces pieces [] :=
    matchPieces_append_cons (s := []) h
  rw [maskAll_split fun s b _ => matchPieces_append_cons h]
  congr 1
  rw [maskAll, maskFrom, hempty]
  split
  · rename_i out n hsome
    exact absurd (matchPieces_le hsome) (Nat.not_succ_le_zero n)
  · rfl

theorem maskFrom_of_length_le {skip : Nat} (h : s.length ≤ skip) : maskFrom pieces skip s = [] := by
  induction s generalizing skip with
  | nil => rw [maskFrom]
  | cons x s ih =>
    cases skip with
    | zero => exact absurd h (Nat.not_succ_le_zero _)
    | succ skip =>
      rw [maskFrom]
      exact ih (Nat.le_of_succ_le_succ h)

theorem maskAll_of_matchPieces {out : List UInt8} (hne : s ≠ [])
    (h : matchPieces pieces s = some (out, s.length)) : maskAll pieces s = out := by
  cases s with
  | nil => exact absurd rfl hne
  | cons x s =>
    rw [maskAll, maskFrom, h]
    dsimp only [List.length_cons]
    rw [maskFrom_of_length_le (Nat.le_refl _), List.append_nil]

end Replacing

section Lines

variable {a b line : List UInt8}

def Closed (a : List UInt8) : Prop := a = [] ∨ ∃ b, a = b ++ [newline]

theorem Closed.append (ha : Closed a) (hb : Closed b) : Closed (a ++ b) := by
  rcases hb with rfl | ⟨b, rfl⟩
  · rw [List.append_nil]
    exact ha
  · exact .inr ⟨a ++ b, (List.append_assoc _ _ _).symm⟩

theorem closed_append_newline (a : List UInt8) : Closed (a ++ [newline]) := .inr ⟨a, rfl⟩

def lastLine (a : List UInt8) : List UInt8 := (a.reverse.takeWhile (· != newline)).reverse

theorem exists_lines (a : List UInt8) :
    ∃ lines, a = lines ++ lastLine a ∧ Closed lines ∧ newline ∉ lastLine a := by
  refine ⟨(a.reverse.dropWhile (· != newline)).reverse, ?_, ?_, ?_⟩
  · rw [lastLine, ← List.reverse_append, List.takeWhile_append_dropWhile, List.reverse_reverse]
  · cases hrest : a.reverse.dropWhile (· != newline) with
    | nil => exact .inl rfl
    | cons x rest =>
      have hx : x = newline := by
        have hhead := List.head?_dropWhile_not (· != newline) a.reverse
        rw [hrest] at hhead
        simpa using hhead
      rw [hx, List.reverse_cons]
      exact closed_append_newline _
  · intro hm
    have hne := List.all_eq_true.mp List.all_takeWhile _ (List.mem_reverse.mp hm)
    simp at hne

theorem lastLine_append (h : newline ∉ b) : lastLine (a ++ b) = lastLine a ++ b := by
  have hall : ∀ x ∈ b.reverse, (x != newline) = true := by
    intro x hx
    refine bne_iff_ne.mpr ?_
    rintro rfl
    exact h (List.mem_reverse.mp hx)
  rw [lastLine, List.reverse_append, List.takeWhile_append_of_pos hall, List.reverse_append,
    List.reverse_reverse, lastLine]

theorem lastLine_of_not_mem (h : newline ∉ a) : lastLine a = a := lastLine_append (a := []) h

theorem mapLines_append_newline (f : List UInt8 → List UInt8) (line : List UInt8) :
    mapLines f line (a ++ newline :: b) = mapLines f line a ++ newline :: mapLines f [] b := by
  induction a generalizing line with
  | nil => simp [mapLines]
  | cons x a ih =>
    rw [List.cons_append, mapLines, mapLines]
    split
    · rw [ih, List.append_assoc, List.cons_append]
    · exact ih _

theorem mapLines_of_not_mem (f : List UInt8 → List UInt8) (line : List UInt8)
    (h : newline ∉ a) : mapLines f line a = f (line.reverse ++ a) := by
  induction a generalizing line with
  | nil => rw [mapLines, List.append_nil]
  | cons x a ih =>
    rw [List.mem_cons, not_or] at h
    rw [mapLines, if_neg (by simpa using Ne.symm h.1), ih _ h.2]
    simp

def inMilliseconds : List Piece := [.number, .words " ms", .wordEnd]

def bracketed : List Piece := [.words "[", .number, .words "ms]"]

def iterated : List Piece :=
  [.words "Iter Time: ", .number, .words " Search Time for this theorem: ", .number,
    .words " Elapsed Time: ", .number]

def maskTimes (a : List UInt8) : List UInt8 :=
  maskAll iterated (maskAll bracketed (maskAll inMilliseconds a))

theorem stableBytes_eq (a : List UInt8) : stableBytes a = maskTimes (mapLines maskHeader [] a) :=
  rfl

theorem maskTimes_stop {c : UInt8} (h : ∀ pieces ∈ timings, stops c pieces = true)
    (a b : List UInt8) : maskTimes (a ++ c :: b) = maskTimes a ++ c :: maskTimes b := by
  have hmilliseconds : stops c inMilliseconds = true := h _ (by simp [timings, inMilliseconds])
  have hbracketed : stops c bracketed = true := h _ (by simp [timings, bracketed])
  have hiterated : stops c iterated = true := h _ (by simp [timings, iterated])
  rw [maskTimes, maskAll_stop hmilliseconds, maskAll_stop hbracketed, maskAll_stop hiterated]
  rfl

theorem maskTimes_append_newline (a b : List UInt8) :
    maskTimes (a ++ newline :: b) = maskTimes a ++ newline :: maskTimes b :=
  maskTimes_stop (by decide) a b

theorem stableBytes_append_newline (a b : List UInt8) :
    stableBytes (a ++ newline :: b) = stableBytes a ++ newline :: stableBytes b := by
  simp only [stableBytes_eq, mapLines_append_newline, maskTimes_append_newline]

theorem stableBytes_append (ha : Closed a) (b : List UInt8) :
    stableBytes (a ++ b) = stableBytes a ++ stableBytes b := by
  rcases ha with rfl | ⟨a, rfl⟩
  · rfl
  · have hself : stableBytes (a ++ [newline]) = stableBytes a ++ [newline] :=
      stableBytes_append_newline a []
    rw [List.append_assoc, List.singleton_append, stableBytes_append_newline, hself,
      List.append_assoc, List.singleton_append]

theorem stableBytes_line (h : newline ∉ line) : stableBytes line = maskTimes (maskHeader line) := by
  rw [stableBytes_eq, mapLines_of_not_mem maskHeader [] h, List.reverse_nil, List.nil_append]

end Lines

section Headers

variable {line name rest x y : List UInt8}

/-- A line that the mask for headers takes for one. -/
structure IsHeader (line name rest : List UInt8) : Prop where
  eq : line = headerStart ++ name ++ headerEnd ++ rest
  ne_nil : name ≠ []
  unbroken : ∀ b ∈ name, isBlank b = false

theorem headerEnd_eq : headerEnd = 32 :: (Text.ofString "generated").toList ++ [32] := by
  decide

theorem maskHeader_of_isHeader (h : IsHeader line name rest) :
    maskHeader line = headerStart ++ name := by
  obtain ⟨rfl, hne, hunbroken⟩ := h
  have hstart : headerStart.isPrefixOf (headerStart ++ name ++ headerEnd ++ rest) = true := by
    rw [List.isPrefixOf_iff_prefix, List.append_assoc, List.append_assoc]
    exact List.prefix_append _ _
  have hdrop : (headerStart ++ name ++ headerEnd ++ rest).drop headerStart.length =
      name ++ (headerEnd ++ rest) := by
    rw [List.append_assoc, List.append_assoc, List.drop_left]
  have hname : (name ++ (headerEnd ++ rest)).takeWhile (fun b => !isBlank b) = name := by
    rw [List.takeWhile_append_of_pos (by simpa using hunbroken), headerEnd_eq]
    rw [List.cons_append, List.cons_append, List.takeWhile_cons_of_neg (by decide),
      List.append_nil]
  have hend : (headerStart ++ name ++ headerEnd ++ rest).drop (headerStart.length + name.length) =
      headerEnd ++ rest := by
    rw [← List.drop_drop, hdrop, List.drop_left]
  have hprefix : headerEnd.isPrefixOf (headerEnd ++ rest) = true :=
    List.isPrefixOf_iff_prefix.mpr (List.prefix_append _ _)
  rw [maskHeader, if_pos hstart]
  simp only [hdrop, hname, hend, hprefix]
  simp [hne]

theorem maskHeader_of_not (h : ∀ name rest, ¬ IsHeader line name rest) :
    maskHeader line = line := by
  rw [maskHeader]
  split
  · rename_i hstart
    obtain ⟨after, rfl⟩ := List.isPrefixOf_iff_prefix.mp hstart
    rw [List.drop_left]
    dsimp only
    split
    · rename_i hboth
      rw [Bool.and_eq_true, ← List.drop_drop, List.drop_left] at hboth
      obtain ⟨hne, hend⟩ := hboth
      obtain ⟨rest, hrest⟩ := List.isPrefixOf_iff_prefix.mp hend
      refine absurd ⟨?_, by simpa using hne, ?_⟩ (h (after.takeWhile fun b => !isBlank b) rest)
      · have hsplit := List.prefix_iff_eq_append.mp
          (List.takeWhile_prefix (p := fun b => !isBlank b) (l := after))
        rw [List.append_assoc, List.append_assoc, hrest, hsplit]
      · intro b hb
        simpa using List.all_eq_true.mp List.all_takeWhile b hb
    · rfl
  · rfl

theorem IsHeader.append (h : IsHeader line name rest) (y : List UInt8) :
    IsHeader (line ++ y) name (rest ++ y) :=
  ⟨by rw [h.eq, List.append_assoc], h.ne_nil, h.unbroken⟩

/-- A header does not end in the middle of a word. -/
theorem isHeader_of_append (hy : ∀ b ∈ y, isBlank b = false) (h : IsHeader (x ++ y) name rest) :
    ∃ rest, IsHeader x name rest := by
  have heq := h.eq
  rcases List.append_eq_append_iff.mp heq with ⟨beyond, hstart, hbeyond⟩ | ⟨rest', hx, -⟩
  · rcases List.eq_nil_or_concat beyond with rfl | ⟨beyond, b, rfl⟩
    · rw [List.append_nil] at hstart
      exact ⟨[], by rw [List.append_nil, hstart], h.ne_nil, h.unbroken⟩
    · rw [headerEnd_eq, ← List.append_assoc, List.concat_eq_append, ← List.append_assoc] at hstart
      obtain ⟨-, hlast⟩ := List.append_inj' hstart rfl
      have hb : isBlank b = false := hy b (by simp [hbeyond])
      rw [← List.singleton_inj.mp hlast] at hb
      exact absurd hb (by decide)
  · exact ⟨rest', hx, h.ne_nil, h.unbroken⟩

theorem maskHeader_append (x : List UInt8) :
    (∃ z, ∀ y, (∀ b ∈ y, isBlank b = false) → maskHeader (x ++ y) = z) ∨
      ∀ y, (∀ b ∈ y, isBlank b = false) → maskHeader (x ++ y) = x ++ y := by
  by_cases hx : ∃ name rest, IsHeader x name rest
  · obtain ⟨name, rest, h⟩ := hx
    exact .inl ⟨_, fun y _ => maskHeader_of_isHeader (h.append y)⟩
  · refine .inr fun y hy => maskHeader_of_not ?_
    intro name rest h
    exact hx ⟨name, isHeader_of_append hy h⟩

theorem maskHeader_of_head (h : line.head? ≠ some 80) : maskHeader line = line := by
  refine maskHeader_of_not ?_
  rintro name rest ⟨rfl, -, -⟩
  exact h rfl

end Headers

section Times

variable {pieces : List Piece} {c : UInt8} {b cs d d' x : List UInt8}

structure IsNumber (d : List UInt8) : Prop where
  ne_nil : d ≠ []
  isDigit : ∀ b ∈ d, isDigit b = true

theorem IsNumber.not_mem (h : IsNumber d) (hc : ProofText.isDigit c = false) : c ∉ d := fun hm =>
  Bool.false_ne_true (hc.symm.trans (h.isDigit c hm))

theorem matchPieces_words (text : Text) (cs : List UInt8) :
    matchPieces (.words text :: pieces) (text.toList ++ cs) =
      (matchPieces pieces cs).map fun (out, n) => (text.toList ++ out, n + text.toList.length) := by
  have hprefix : text.toList.isPrefixOf (text.toList ++ cs) = true :=
    List.isPrefixOf_iff_prefix.mpr (List.prefix_append _ _)
  rw [matchPieces, if_pos hprefix, List.drop_left]

theorem matchPieces_number (hd : IsNumber d) (hcs : cs.head?.any isDigit = false) :
    matchPieces (.number :: pieces) (d ++ cs) =
      (matchPieces pieces cs).map fun (out, n) => (mask ++ out, n + d.length) := by
  have hrest : cs.takeWhile isDigit = [] := by
    cases cs with
    | nil => rfl
    | cons y cs => exact List.takeWhile_cons_of_neg (by simpa using hcs)
  have htake : (d ++ cs).takeWhile isDigit = d := by
    rw [List.takeWhile_append_of_pos hd.isDigit, hrest, List.append_nil]
  have hne : d.isEmpty = false := by simpa using hd.ne_nil
  simp only [matchPieces, htake, hne, List.drop_left]
  rfl

theorem matchPieces_number_cons (hc : isDigit c = false) :
    matchPieces (.number :: pieces) (c :: b) = none := by
  rw [matchPieces, List.takeWhile_cons_of_neg (by simp [hc])]
  rfl

theorem matchPieces_words_cons {text : Text} {w : UInt8} {ws : List UInt8}
    (htext : text.toList = w :: ws) (hc : w ≠ c) :
    matchPieces (.words text :: pieces) (c :: b) = none := by
  rw [matchPieces, htext, List.isPrefixOf_cons_cons, beq_eq_false_iff_ne.mpr hc]
  rfl

theorem maskAll_inMilliseconds_cons (hc : isDigit c = false) :
    maskAll inMilliseconds (c :: b) = c :: maskAll inMilliseconds b :=
  maskAll_cons (matchPieces_number_cons hc)

theorem maskAll_number (hd : ∀ b ∈ d, isDigit b = true) (hcs : cs.head?.any isDigit = false)
    (hunit : (" ms" : Text).toList.isPrefixOf cs = false) :
    maskAll inMilliseconds (d ++ cs) = d ++ maskAll inMilliseconds cs := by
  induction d with
  | nil => rfl
  | cons y d ih =>
    have hnone : matchPieces inMilliseconds (y :: d ++ cs) = none := by
      rw [inMilliseconds, matchPieces_number ⟨List.cons_ne_nil y d, hd⟩ hcs, matchPieces, hunit]
      rfl
    rw [List.cons_append] at hnone ⊢
    rw [maskAll_cons hnone, ih fun b hb => hd b (List.mem_cons_of_mem _ hb), List.cons_append]

theorem maskAll_milliseconds (hd : IsNumber d) :
    maskAll inMilliseconds (d ++ (" ms" : Text).toList) = ("_ ms" : Text).toList := by
  have hunit : matchPieces [.words " ms", .wordEnd] (" ms" : Text).toList =
      some ((" ms" : Text).toList, (" ms" : Text).toList.length) := by decide
  refine maskAll_of_matchPieces (List.append_ne_nil_of_left_ne_nil hd.ne_nil _) ?_
  rw [inMilliseconds, matchPieces_number hd (by decide), hunit, List.length_append,
    Nat.add_comm]
  rfl

theorem maskAll_bracketed (hd : IsNumber d) :
    maskAll bracketed (91 :: (d ++ ("ms]" : Text).toList)) = ("[_ms]" : Text).toList := by
  have hunit : matchPieces [.words "ms]"] ("ms]" : Text).toList =
      some (("ms]" : Text).toList, ("ms]" : Text).toList.length) := by decide
  have hopen : ∀ cs : List UInt8, 91 :: cs = ("[" : Text).toList ++ cs := by
    intro cs
    rfl
  refine maskAll_of_matchPieces (List.cons_ne_nil _ _) ?_
  rw [hopen, bracketed, matchPieces_words, matchPieces_number hd (by decide), hunit,
    List.length_append, List.length_append, Nat.add_comm, Nat.add_comm d.length]
  rfl

theorem maskTimes_inMilliseconds (x sign : List UInt8) (hsign : sign = [] ∨ sign = [45])
    (hd : IsNumber d) (hd' : IsNumber d') :
    maskTimes (x ++ 58 :: 32 :: (sign ++ (d ++ (" ms" : Text).toList))) =
      maskTimes (x ++ 58 :: 32 :: (sign ++ (d' ++ (" ms" : Text).toList))) := by
  have hstop : stops 58 inMilliseconds = true := by decide
  have hmasked : ∀ {d}, IsNumber d →
      maskAll inMilliseconds (x ++ 58 :: 32 :: (sign ++ (d ++ (" ms" : Text).toList))) =
        maskAll inMilliseconds x ++ 58 :: 32 :: (sign ++ ("_ ms" : Text).toList) := by
    intro d hd
    rw [maskAll_stop hstop, maskAll_inMilliseconds_cons (by decide)]
    rcases hsign with rfl | rfl
    · rw [List.nil_append, maskAll_milliseconds hd, List.nil_append]
    · rw [List.singleton_append, maskAll_inMilliseconds_cons (by decide),
        maskAll_milliseconds hd, List.singleton_append]
  rw [maskTimes, maskTimes, hmasked hd, hmasked hd']

theorem splits_bracketed : Splits 91 bracketed := by
  intro s b hs
  cases s with
  | nil => exact absurd rfl hs
  | cons y s =>
    have hopen : ("[" : Text).toList = [91] := by decide
    have hrest : ∀ s : List UInt8, matchPieces [.number, .words "ms]"] (s ++ 91 :: b) =
        matchPieces [.number, .words "ms]"] s := fun s =>
      matchPieces_append_cons (by decide)
    rw [List.cons_append, bracketed, matchPieces, matchPieces, hopen]
    simp only [List.isPrefixOf_cons_cons, List.isPrefixOf_nil_left, List.length_singleton,
      List.drop_succ_cons, List.drop_zero, hrest]

theorem maskTimes_bracketed (x : List UInt8) (hd : IsNumber d) (hd' : IsNumber d') :
    maskTimes (x ++ 91 :: (d ++ ("ms]" : Text).toList)) =
      maskTimes (x ++ 91 :: (d' ++ ("ms]" : Text).toList)) := by
  have hstop : stops 91 inMilliseconds = true := by decide
  have hmasked : ∀ {d}, IsNumber d →
      maskAll bracketed (maskAll inMilliseconds (x ++ 91 :: (d ++ ("ms]" : Text).toList))) =
        maskAll bracketed (maskAll inMilliseconds x) ++ ("[_ms]" : Text).toList := by
    intro d hd
    have hunit : maskAll inMilliseconds ("ms]" : Text).toList = ("ms]" : Text).toList := by
      decide
    rw [maskAll_stop hstop, maskAll_number hd.isDigit (by decide) (by decide),
      hunit, maskAll_split splits_bracketed, maskAll_bracketed hd]
  rw [maskTimes, maskTimes, hmasked hd, hmasked hd']

theorem maskAll_bracketed_of_not_mem (h : 91 ∉ x) : maskAll bracketed x = x := by
  have htext : ("[" : Text).toList = 91 :: [] := by decide
  induction x with
  | nil => rfl
  | cons y x ih =>
    rw [List.mem_cons, not_or] at h
    have hnone : matchPieces bracketed (y :: x) = none := matchPieces_words_cons htext h.1
    rw [maskAll_cons hnone, ih h.2]

theorem maskAll_iterated_append (h : 73 ∉ x) (cs : List UInt8) :
    maskAll iterated (x ++ cs) = x ++ maskAll iterated cs := by
  have htext : ("Iter Time: " : Text).toList = 73 :: ("ter Time: " : Text).toList := by
    decide
  induction x with
  | nil => rfl
  | cons y x ih =>
    rw [List.mem_cons, not_or] at h
    have hnone : matchPieces iterated (y :: (x ++ cs)) = none := matchPieces_words_cons htext h.1
    rw [List.cons_append, maskAll_cons hnone, ih h.2, List.cons_append]

def iteration (e f g : List UInt8) : List UInt8 :=
  ("Iter Time: " : Text).toList ++ (e ++ ((" Search Time for this theorem: " : Text).toList ++
    (f ++ ((" Elapsed Time: " : Text).toList ++ g))))

variable {r s e f g e' f' g' : List UInt8}

theorem maskAll_iteration (he : IsNumber e) (hf : IsNumber f) (hg : IsNumber g) :
    maskAll iterated (iteration e f g) = iteration mask mask mask := by
  have hlast : matchPieces [.number] g = some (mask, g.length) := by
    have hmatch : matchPieces [.number] (g ++ []) = _ := matchPieces_number hg rfl
    rw [List.append_nil] at hmatch
    rw [hmatch, matchPieces]
    simp
  refine maskAll_of_matchPieces ?_ ?_
  · exact List.append_ne_nil_of_left_ne_nil (by decide) _
  · rw [iterated, iteration, matchPieces_words, matchPieces_number he rfl, matchPieces_words,
      matchPieces_number hf rfl, matchPieces_words, hlast]
    simp only [Option.map_some, List.length_append, Option.some.injEq, Prod.mk.injEq]
    exact ⟨rfl, by omega⟩

def stepLine (r s e f g : List UInt8) : List UInt8 :=
  ("Iter:" : Text).toList ++ (r ++ 46 :: (s ++ 32 :: iteration e f g))

theorem stepLine_eq : stepLine r s e f g = ("Iter" : Text).toList ++ 58 :: (r ++ 46 :: (s ++
    ((" Iter Time" : Text).toList ++ 58 :: 32 :: (e ++
      ((" Search Time for this theorem" : Text).toList ++ 58 :: 32 :: (f ++
        ((" Elapsed Time" : Text).toList ++ 58 :: 32 :: g))))))) := by
  rfl

/-- The times of an iteration are not taken for times of another wording. -/
theorem maskAll_stepLine (hr : IsNumber r) (hs : IsNumber s) (he : IsNumber e) (hf : IsNumber f)
    (hg : IsNumber g) : maskAll inMilliseconds (stepLine r s e f g) = stepLine r s e f g := by
  have hstop : stops 58 inMilliseconds = true := by decide
  have hlast : maskAll inMilliseconds g = g := by
    have hend : maskAll inMilliseconds (g ++ []) = g ++ maskAll inMilliseconds [] :=
      maskAll_number hg.isDigit rfl (by decide)
    simpa [maskAll, maskFrom] using hend
  have hwords : ∀ text ∈ (["Iter", " Iter Time", " Search Time for this theorem", " Elapsed Time"] :
      List Text), maskAll inMilliseconds text.toList = text.toList := by decide
  rw [stepLine_eq, maskAll_stop hstop, hwords _ (by simp), maskAll_number hr.isDigit rfl rfl,
    maskAll_inMilliseconds_cons (by decide), maskAll_number hs.isDigit rfl rfl,
    maskAll_stop hstop, hwords _ (by simp), maskAll_inMilliseconds_cons (by decide),
    maskAll_number he.isDigit rfl rfl, maskAll_stop hstop, hwords _ (by simp),
    maskAll_inMilliseconds_cons (by decide), maskAll_number hf.isDigit rfl rfl,
    maskAll_stop hstop, hwords _ (by simp), maskAll_inMilliseconds_cons (by decide), hlast]

theorem maskTimes_stepLine (hr : IsNumber r) (hs : IsNumber s) (he : IsNumber e) (hf : IsNumber f)
    (hg : IsNumber g) : maskTimes (stepLine r s e f g) = stepLine r s mask mask mask := by
  have hopen : 91 ∉ stepLine r s e f g := by
    have hdigit : isDigit 91 = false := by decide
    simp only [stepLine, iteration, List.mem_append, List.mem_cons, not_or]
    exact ⟨by decide, hr.not_mem hdigit, by decide, hs.not_mem hdigit, by decide,
      by decide, he.not_mem hdigit, by decide, hf.not_mem hdigit,
      by decide, hg.not_mem hdigit⟩
  -- The line begins with an `I` itself, but not like the times.
  have hfirst : ∀ e f g, stepLine r s e f g =
      73 :: (("ter:" : Text).toList ++ (r ++ 46 :: (s ++ [32])) ++ iteration e f g) := by
    intro e f g
    have htext : ("Iter:" : Text).toList = 73 :: ("ter:" : Text).toList := by decide
    rw [stepLine, htext]
    simp
  have hnone : matchPieces iterated (stepLine r s e f g) = none := rfl
  have hrest : 73 ∉ ("ter:" : Text).toList ++ (r ++ 46 :: (s ++ [32])) := by
    have hdigit : isDigit 73 = false := by decide
    simp only [List.mem_append, List.mem_cons, not_or]
    exact ⟨by decide, hr.not_mem hdigit, by decide, hs.not_mem hdigit, by decide,
      List.not_mem_nil⟩
  rw [maskTimes, maskAll_stepLine hr hs he hf hg, maskAll_bracketed_of_not_mem hopen]
  rw [hfirst] at hnone ⊢
  rw [maskAll_cons hnone, maskAll_iterated_append hrest, maskAll_iteration he hf hg, hfirst]

end Times

end Discharge.ProofText
