import Discharge.ProofText.File
import Discharge.ProofText.Summary
import Discharge.Proofs.Cache.KeyText
import Discharge.Proofs.ProofText.Changes
import Discharge.Proofs.ProofText.Masking
import Discharge.Proofs.Search.Interleaving
import Discharge.Proofs.Term.Unambiguity

namespace Discharge.ProofText

open Search

section Numbers

theorem isBlank_of_isDigit {b : UInt8} (h : isDigit b = true) : isBlank b = false := by
  refine Bool.eq_false_iff.mpr fun hb => ?_
  obtain ⟨c, hc, hcb⟩ := List.any_eq_true.mp hb
  have hall : [' ', '\t', '\n', '\r', '\x0c'].all (!isDigit ·.toUInt8) = true := by decide
  have hnone := List.all_eq_true.mp hall c hc
  rw [← beq_iff_eq.mp hcb] at h
  simp [h] at hnone

theorem isNumber_digits (n : Nat) :
    IsNumber ((Nat.toDigits 10 n).flatMap String.utf8EncodeChar) := by
  constructor
  · obtain ⟨c, cs, hcs⟩ := List.exists_cons_of_ne_nil (Nat.toDigits_ne_nil (b := 10) (n := n))
    rw [hcs, List.flatMap_cons]
    exact List.append_ne_nil_of_left_ne_nil (String.utf8EncodeChar_ne_nil) _
  · intro b hb
    obtain ⟨c, hc, hmem⟩ := List.mem_flatMap.mp hb
    have hall : ("0123456789" : Text).toList.all isDigit = true := by decide
    exact List.all_eq_true.mp hall b (Congruence.Vocabulary.mem_digits_of_isDigit
      (Nat.isDigit_of_mem_toDigits (by decide) (by decide) hc) hmem)

theorem isNumber_toString (n : Nat) : IsNumber (toString n : Text).toList := by
  have hdigits : (toString n).toList = Nat.toDigits 10 n := by
    rw [Nat.toString_eq_ofList_toDigits, String.toList_ofList]
  rw [Text.toList_ofString, hdigits]
  exact isNumber_digits n

theorem exists_number (n : Int) : ∃ d, IsNumber d ∧
    (toString n : Text).toList = (if n < 0 then [45] else []) ++ d := by
  refine ⟨_, isNumber_digits n.natAbs, ?_⟩
  rw [Text.toList_ofString, Cache.toList_toString, List.flatMap_append]
  split <;> rfl

end Numbers

section Lines

variable {d d' x : List UInt8}

theorem stableBytes_bracketed (x : List UInt8) (hd : IsNumber d) (hd' : IsNumber d') :
    stableBytes (x ++ 91 :: (d ++ ("ms]" : Text).toList)) =
      stableBytes (x ++ 91 :: (d' ++ ("ms]" : Text).toList)) := by
  obtain ⟨lines, hx, hlines, hlast⟩ := exists_lines x
  generalize lastLine x = last at hx hlast
  subst hx
  have hunbroken : ∀ {d}, IsNumber d → ∀ b ∈ 91 :: (d ++ ("ms]" : Text).toList),
      isBlank b = false := by
    intro d hd
    have hunit : ∀ b ∈ ("ms]" : Text).toList, isBlank b = false := by
      have hall : ("ms]" : Text).toList.all (!isBlank ·) = true := by decide
      simpa using hall
    simp only [List.forall_mem_cons, List.forall_mem_append]
    exact ⟨by decide, fun b hb => isBlank_of_isDigit (hd.isDigit b hb), hunit⟩
  have hline : ∀ {d}, IsNumber d → newline ∉ last ++ 91 :: (d ++ ("ms]" : Text).toList) := by
    intro d hd hm
    rcases List.mem_append.mp hm with hm | hm
    · exact hlast hm
    · exact absurd (hunbroken hd newline hm) (by decide)
  simp only [List.append_assoc, stableBytes_append hlines]
  rw [stableBytes_line (hline hd), stableBytes_line (hline hd')]
  rcases maskHeader_append last with ⟨z, hz⟩ | hkept
  · rw [hz _ (hunbroken hd), hz _ (hunbroken hd')]
  · rw [hkept _ (hunbroken hd), hkept _ (hunbroken hd'), maskTimes_bracketed last hd hd']

theorem stableBytes_milliseconds {sign : List UInt8} (hx : newline ∉ x) (hhead : x.head? ≠ some 80)
    (hne : x ≠ []) (hsign : sign = [] ∨ sign = [45]) (hd : IsNumber d) (hd' : IsNumber d') :
    stableBytes (x ++ 58 :: 32 :: (sign ++ (d ++ (" ms" : Text).toList))) =
      stableBytes (x ++ 58 :: 32 :: (sign ++ (d' ++ (" ms" : Text).toList))) := by
  have hline : ∀ {d}, IsNumber d →
      newline ∉ x ++ 58 :: 32 :: (sign ++ (d ++ (" ms" : Text).toList)) := by
    intro d hd
    simp only [List.mem_append, List.mem_cons, not_or]
    refine ⟨hx, by decide, by decide, ?_, hd.not_mem (by decide), by decide⟩
    rcases hsign with rfl | rfl <;> decide
  have hhead' : ∀ y, (x ++ y).head? ≠ some 80 := by
    intro y
    rw [List.head?_append_of_ne_nil _ hne]
    exact hhead
  rw [stableBytes_line (hline hd), stableBytes_line (hline hd'), maskHeader_of_head (hhead' _),
    maskHeader_of_head (hhead' _), maskTimes_inMilliseconds x sign hsign hd hd']

variable {r s e f g e' f' g' : List UInt8}

theorem stableBytes_stepLine (hr : IsNumber r) (hs : IsNumber s) (he : IsNumber e)
    (hf : IsNumber f) (hg : IsNumber g) :
    stableBytes (stepLine r s e f g) = stepLine r s mask mask mask := by
  have hline : newline ∉ stepLine r s e f g := by
    have hdigit : isDigit newline = false := by decide
    simp only [stepLine, iteration, List.mem_append, List.mem_cons, not_or]
    exact ⟨by decide, hr.not_mem hdigit, by decide, hs.not_mem hdigit, by decide,
      by decide, he.not_mem hdigit, by decide, hf.not_mem hdigit,
      by decide, hg.not_mem hdigit⟩
  have hhead : (stepLine r s e f g).head? ≠ some 80 := by
    change some (73 : UInt8) ≠ some 80
    decide
  rw [stableBytes_line hline, maskHeader_of_head hhead, maskTimes_stepLine hr hs he hf hg]

end Lines

section Traces

theorem stableBytes_vain {text : Text} {x : List UInt8} (hx : text.toList = x ++ [91])
    (time time' : Nat) :
    stableBytes (text ++ toString time ++ "ms]\n\n" : Text).toList =
      stableBytes (text ++ toString time' ++ "ms]\n\n" : Text).toList := by
  have hbytes : ∀ time : Nat, (text ++ toString time ++ "ms]\n\n" : Text).toList =
      (x ++ 91 :: ((toString time : Text).toList ++ ("ms]" : Text).toList)) ++
        newline :: [newline] := by
    intro time
    have hclose : ("ms]\n\n" : Text).toList = ("ms]" : Text).toList ++ [newline, newline] := by
      decide
    simp only [Text.toList_append, hx, hclose, List.append_assoc, List.cons_append, List.nil_append]
  rw [hbytes, hbytes, stableBytes_append_newline, stableBytes_append_newline,
    stableBytes_bracketed x (isNumber_toString time) (isNumber_toString time')]

theorem toList_step (round chosen roundTime searchTime elapsed : Nat) (score : Int)
    (rule candidate change : Text) :
    (Line.step round chosen roundTime searchTime elapsed score rule candidate
        change).render.toList =
      stepLine (toString round : Text).toList (toString chosen : Text).toList
        (toString roundTime : Text).toList (toString searchTime : Text).toList
        (toString elapsed : Text).toList ++
      newline :: ("[" ++ toString score ++ "]" ++ rule ++ "\n" ++ candidate ++ "\t" ++ change ++
        "\n\n" : Text).toList := by
  have hdot : ("." : Text).toList = [46] := by decide
  have htime : (" Iter Time: " : Text).toList = 32 :: ("Iter Time: " : Text).toList := by
    decide
  have hopen : ("\n[" : Text).toList = newline :: ("[" : Text).toList := by decide
  unfold Line.render stepLine iteration
  simp only [Text.toList_append, List.append_assoc, List.cons_append, hdot]
  simp only [htime, hopen, List.cons_append, List.nil_append]

/-- Lines that differ in their times have one stable form. -/
theorem stableBytes_line_render {l l' : Line} (h : l.untimed = l'.untimed) :
    stableBytes l.render.toList = stableBytes l'.render.toList := by
  cases l with
  | noMatch rule time =>
    cases l' with
    | noMatch rule' time' =>
      cases h
      exact stableBytes_vain (Text.toList_append _ "[") time time'
    | emptied | step | model => contradiction
  | emptied rule time => 
    cases l' with
    | emptied rule' time' =>
      cases h
      have hopen : (" with no new results [" : Text).toList =
          (" with no new results " : Text).toList ++ [91] := by decide
      refine stableBytes_vain
        (x := ("Emptied queue for " ++ rule ++ " with no new results ").toList) ?_ time time'
      rw [Text.toList_append, hopen, ← List.append_assoc, ← Text.toList_append]
    | noMatch | step | model => contradiction
  | step round chosen roundTime searchTime elapsed score rule candidate change =>
    cases l' with
    | step round' chosen' roundTime' searchTime' elapsed' score' rule' candidate' change' =>
      cases h
      rw [toList_step, toList_step, stableBytes_append_newline, stableBytes_append_newline,
        stableBytes_stepLine, stableBytes_stepLine]
      all_goals exact isNumber_toString _
    | noMatch | emptied | model => contradiction
  | model text =>
    cases l' with
    | model text' => 
      cases h
      rfl
    | noMatch | emptied | step => contradiction

theorem closed_append {t u : Text} {x : List UInt8} (h : u.toList = x ++ [newline]) :
    Closed (t ++ u).toList := by
  refine .inr ⟨t.toList ++ x, ?_⟩
  rw [Text.toList_append, h, List.append_assoc]

theorem closed_line_render (l : Line) : Closed l.render.toList := by
  have hblank : ("\n\n" : Text).toList = [newline] ++ [newline] := by decide
  have hvain : ("ms]\n\n" : Text).toList = ("ms]\n" : Text).toList ++ [newline] := by decide
  cases l with
  | noMatch | emptied => exact closed_append hvain
  | step | model => exact closed_append hblank

theorem stableBytes_lines {lines lines' : List Line}
    (h : lines.map Line.untimed = lines'.map Line.untimed) :
    stableBytes (lines.flatMap (·.render.toList)) = stableBytes (lines'.flatMap (·.render.toList)) ∧
      Closed (lines.flatMap (·.render.toList)) := by
  induction lines generalizing lines' with
  | nil =>
    rw [List.map_eq_nil_iff.mp h.symm]
    exact ⟨rfl, .inl rfl⟩
  | cons l rest ih =>
    obtain ⟨l', rest', rfl, hl, hrest⟩ := List.map_eq_cons_iff.mp h.symm
    obtain ⟨hstable, hclosed⟩ := ih hrest.symm
    refine ⟨?_, (closed_line_render l).append hclosed⟩
    rw [List.flatMap_cons, List.flatMap_cons, stableBytes_append (closed_line_render l),
      stableBytes_append (closed_line_render l'), stableBytes_line_render hl.symm, hstable]

/-- Texts that begin with the same line and go on with one stable form. Whatever precedes them, they
still do. -/
def Alike (y y' : List UInt8) : Prop :=
  ∃ l z z', y = l ++ newline :: z ∧ y' = l ++ newline :: z' ∧ stableBytes z = stableBytes z'

variable {y y' : List UInt8}

theorem Alike.stable (h : Alike y y') : stableBytes y = stableBytes y' := by
  obtain ⟨l, z, z', rfl, rfl, hz⟩ := h
  rw [stableBytes_append_newline, stableBytes_append_newline, hz]

theorem Alike.append_left (h : Alike y y') (x : List UInt8) : Alike (x ++ y) (x ++ y') := by
  obtain ⟨l, z, z', rfl, rfl, hz⟩ := h
  exact ⟨x ++ l, z, z', (List.append_assoc _ _ _).symm, (List.append_assoc _ _ _).symm, hz⟩

theorem toList_banner (label : Text) : ∃ l, (Text.banner label).toList = l ++ [newline] :=
  ⟨_, Text.toList_append _ _⟩

theorem alike_banner (label : Text) (h : stableBytes y = stableBytes y') :
    Alike ((Text.banner label).toList ++ y) ((Text.banner label).toList ++ y') := by
  obtain ⟨l, hl⟩ := toList_banner label
  rw [hl, List.append_assoc, List.append_assoc]
  exact ⟨l, y, y', rfl, rfl, h⟩

theorem alike_trace {t t' : Trace} (ht : t.untimed = t'.untimed) (h : Alike y y') :
    Alike (t.render.toList ++ y) (t'.render.toList ++ y') := by
  obtain ⟨id, sequent, lines, final⟩ := t
  obtain ⟨id', sequent', lines', final'⟩ := t'
  obtain ⟨rfl, rfl, hlines, rfl⟩ := Trace.mk.inj ht
  obtain ⟨hstable, hclosed⟩ := stableBytes_lines hlines
  obtain ⟨-, hclosed'⟩ := stableBytes_lines hlines.symm
  have hbefore : Closed ("Before application of theorems: " ++ sequent ++ "\n" : Text).toList :=
    closed_append (x := []) (by decide)
  have hbytes : ∀ (lines : List Line) (y : List UInt8),
      (Trace.render ⟨id, sequent, lines, final⟩).toList ++ y = (Text.banner (toString id)).toList ++
        (("Before application of theorems: " ++ sequent ++ "\n" : Text).toList ++
          (lines.flatMap (·.render.toList) ++
            (((final.map fun m => ("Final model:\n" : Text) ++ m ++ "\n").getD "").toList ++
              ((Text.banner (toString id)).toList ++ y)))) := by
    intro lines y
    simp only [Trace.render, Text.toList_append, Text.toList_join, List.append_assoc,
      List.flatMap_map]
  rw [hbytes, hbytes]
  refine alike_banner _ ?_
  rw [stableBytes_append hbefore, stableBytes_append hbefore, stableBytes_append hclosed,
    stableBytes_append hclosed', hstable, ((h.append_left _).append_left _).stable]

end Traces

section Summaries

structure Announces (text : Text) (x : List UInt8) : Prop where
  eq : text.toList = x ++ [58, 32]
  ne_nil : x ≠ []
  one_line : newline ∉ x
  not_header : x.head? ≠ some 80

theorem stableBytes_announced {text : Text} {x : List UInt8} (h : Announces text x) {n n' : Int}
    (hsign : n < 0 ↔ n' < 0) :
    stableBytes (text ++ toString n ++ " ms\n" : Text).toList =
      stableBytes (text ++ toString n' ++ " ms\n" : Text).toList := by
  have hbytes : ∀ n : Int, ∃ d, IsNumber d ∧ (text ++ toString n ++ " ms\n" : Text).toList =
      (x ++ 58 :: 32 :: ((if n < 0 then [45] else []) ++ (d ++ (" ms" : Text).toList))) ++
        newline :: [] := by
    intro n
    obtain ⟨d, hd, hn⟩ := exists_number n
    have hend : (" ms\n" : Text).toList = (" ms" : Text).toList ++ [newline] := by decide
    refine ⟨d, hd, ?_⟩
    simp only [Text.toList_append, h.eq, hn, hend, List.append_assoc, List.cons_append,
      List.nil_append]
  obtain ⟨d, hd, heq⟩ := hbytes n
  obtain ⟨d', hd', heq'⟩ := hbytes n'
  have hsigns : (if n < 0 then [45] else []) = ([] : List UInt8) ∨
      (if n < 0 then [45] else []) = ([45] : List UInt8) := by
    split
    · exact .inr rfl
    · exact .inl rfl
  rw [heq, heq', stableBytes_append_newline, stableBytes_append_newline,
    stableBytes_milliseconds h.one_line h.not_header h.ne_nil hsigns hd hd']
  simp only [hsign]

/-- Results that differ in nothing that a proof file tells but in times. A time that is told keeps
its sign, which is written apart. -/
structure Retells (r r' : Result) : Prop where
  id_eq : r.id = r'.id
  status_eq : r.status = r'.status
  skipped_eq : r.skipped = r'.skipped
  sign_iff : r.skipped = false → (r.milliseconds < 0 ↔ r'.milliseconds < 0)
  trace : r.trace = r'.trace ∨
    ∃ t t' : Trace, t.untimed = t'.untimed ∧ r.trace = t.render ∧ r'.trace = t'.render

variable {r r' : Result} {rs rs' : List Result}

theorem announces_result (r : Result) :
    ∃ x, Announces (toString r.id ++ " " ++ r.phrase ++ " time: ") x := by
  obtain ⟨d, hd, hid⟩ := exists_number r.id
  have hphrase : newline ∉ r.phrase.toList := by
    unfold Result.phrase
    split
    · decide
    · split <;> decide
  have htime : (" time: " : Text).toList = (" time" : Text).toList ++ [58, 32] := by decide
  have hblank : (" " : Text).toList = [32] := by decide
  refine ⟨(toString r.id : Text).toList ++ 32 :: (r.phrase.toList ++ (" time" : Text).toList),
    ?_, ?_, ?_, ?_⟩
  · simp only [Text.toList_append, htime, hblank, List.append_assoc, List.cons_append,
      List.nil_append]
  · simp
  · have hnumber : newline ∉ (toString r.id : Text).toList := by
      rw [hid, List.mem_append, not_or]
      refine ⟨?_, hd.not_mem (by decide)⟩
      split <;> decide
    simp only [List.mem_append, List.mem_cons, not_or]
    exact ⟨hnumber, by decide, hphrase, by decide⟩
  · obtain ⟨c, cs, rfl⟩ := List.exists_cons_of_ne_nil hd.ne_nil
    have hc : c ≠ 80 := by
      rintro rfl
      exact hd.not_mem (c := 80) (by decide) (by simp)
    rw [hid]
    split
    · simp
    · simpa using hc

theorem stableBytes_summaryLine (h : Retells r r') :
    stableBytes (summaryLine r).toList = stableBytes (summaryLine r').toList := by
  have hphrase : r.phrase = r'.phrase := by
    rw [Result.phrase, Result.phrase, h.status_eq, h.skipped_eq]
  unfold summaryLine
  rw [← h.skipped_eq, ← h.id_eq, ← hphrase]
  cases hs : r.skipped with
  | true => rfl
  | false =>
    obtain ⟨x, hx⟩ := announces_result r
    exact stableBytes_announced hx (h.sign_iff hs)

theorem closed_summaryLine (r : Result) : Closed (summaryLine r).toList := by
  have hskipped : (" skipped\n" : Text).toList = (" skipped" : Text).toList ++ [newline] := by
    decide
  have htime : (" ms\n" : Text).toList = (" ms" : Text).toList ++ [newline] := by decide
  unfold summaryLine
  split
  · exact closed_append hskipped
  · exact closed_append htime

theorem stableBytes_summaryLines (h : List.Forall₂ Retells rs rs') :
    stableBytes (rs.flatMap fun r => (summaryLine r).toList) =
        stableBytes (rs'.flatMap fun r => (summaryLine r).toList) ∧
      Closed (rs.flatMap fun r => (summaryLine r).toList) ∧
      Closed (rs'.flatMap fun r => (summaryLine r).toList) := by
  induction h with
  | nil => exact ⟨rfl, .inl rfl, .inl rfl⟩
  | @cons r r' rest rest' hr _ ih =>
    obtain ⟨hstable, hclosed, hclosed'⟩ := ih
    have hfirst := closed_summaryLine r
    have hfirst' := closed_summaryLine r'
    refine ⟨?_, hfirst.append hclosed, hfirst'.append hclosed'⟩
    rw [List.flatMap_cons, List.flatMap_cons, stableBytes_append hfirst,
      stableBytes_append hfirst', stableBytes_summaryLine hr, hstable]

theorem alike_summary (h : List.Forall₂ Retells rs rs') (elapsed elapsed' : Nat) :
    Alike (summary rs elapsed).toList (summary rs' elapsed').toList := by
  obtain ⟨hstable, hclosed, hclosed'⟩ := stableBytes_summaryLines h
  have hbytes : ∀ (rs : List Result) (elapsed : Nat), (summary rs elapsed).toList =
      (Text.banner "Summary").toList ++ (rs.flatMap (fun r => (summaryLine r).toList) ++
        (("Elapsed time from construction: " ++ toString elapsed ++ " ms\n" : Text).toList ++
          (Text.banner "Summary").toList)) := by
    intro rs elapsed
    simp only [summary, Text.toList_append, Text.toList_join, List.append_assoc, List.flatMap_map]
  have hannounces : Announces "Elapsed time from construction: "
      ("Elapsed time from construction" : Text).toList :=
    ⟨by decide, by decide, by decide, by decide⟩
  have helapsed : ∀ n : Nat, Closed
      ("Elapsed time from construction: " ++ toString n ++ " ms\n" : Text).toList := fun n =>
    closed_append (x := (" ms" : Text).toList) (by decide)
  have hsign : (elapsed : Int) < 0 ↔ (elapsed' : Int) < 0 := by omega
  have htime : stableBytes
      ("Elapsed time from construction: " ++ toString elapsed ++ " ms\n" : Text).toList =
        stableBytes
          ("Elapsed time from construction: " ++ toString elapsed' ++ " ms\n" : Text).toList := by
    have hannounced := stableBytes_announced hannounces hsign
    exact hannounced
  rw [hbytes, hbytes]
  refine alike_banner _ ?_
  rw [stableBytes_append hclosed, stableBytes_append hclosed', hstable,
    stableBytes_append (helapsed elapsed), stableBytes_append (helapsed elapsed'), htime]

theorem alike_body (h : List.Forall₂ Retells rs rs') (elapsed elapsed' : Nat) :
    Alike (body rs elapsed).toList (body rs' elapsed').toList := by
  have hsummary := alike_summary h elapsed elapsed'
  unfold body
  simp only [Text.toList_append, Text.toList_join, List.flatMap_map]
  generalize (summary rs elapsed).toList = y at hsummary ⊢
  generalize (summary rs' elapsed').toList = y' at hsummary ⊢
  induction h with
  | nil => exact hsummary
  | @cons r r' rest rest' hr _ ih =>
    rw [List.flatMap_cons, List.flatMap_cons, List.append_assoc, List.append_assoc]
    rcases hr.trace with htrace | ⟨t, t', ht, htrace, htrace'⟩
    · rw [htrace]
      exact ih.append_left _
    · rw [htrace, htrace']
      exact alike_trace ht ih

end Summaries

section Files

def headerOpening (module : Text) : List UInt8 :=
  lastLine (headerStart ++ module.toList ++ headerEnd)

/-- Whether the mask for headers covers the date in the header of a module. -/
def masksDate (module : Text) : Bool := maskHeader (headerOpening module) != headerOpening module

theorem masksDate_of_unbroken {module : Text} (hne : module.toList ≠ [])
    (h : ∀ b ∈ module.toList, isBlank b = false) : masksDate module = true := by
  have hline : newline ∉ headerStart ++ module.toList ++ headerEnd := by
    have hname : newline ∉ module.toList := fun hm => absurd (h _ hm) (by decide)
    simp only [List.mem_append, not_or]
    exact ⟨⟨by decide, hname⟩, by decide⟩
  have hheader : IsHeader (headerOpening module) module.toList [] := by
    refine ⟨?_, hne, h⟩
    rw [headerOpening, lastLine_of_not_mem hline, List.append_nil]
  rw [masksDate, maskHeader_of_isHeader hheader, hheader.eq, bne_iff_ne]
  intro he
  have hlen := congrArg List.length he
  have hend : headerEnd.length = 11 := by decide
  simp only [List.length_append, List.length_nil, hend] at hlen
  omega

theorem newline_mem_ofString {s : String} (h : newline ∈ (s : Text).toList) : '\n' ∈ s.toList := by
  rw [Text.toList_ofString] at h
  obtain ⟨c, hc, hb⟩ := List.mem_flatMap.mp h
  have hcode : c.toNat = newline.toNat := toNat_of_mem_utf8EncodeChar hb (by decide)
  have hchar : c = '\n' := by
    rw [← Char.ofNat_toNat c, hcode]
    decide
  exact hchar ▸ hc

theorem newline_not_mem_padded (width n : Nat) : '\n' ∉ Time.padded width n := by
  intro hm
  rcases List.mem_append.mp hm with hm | hm
  · exact absurd (List.eq_of_mem_replicate hm) (by decide)
  · exact absurd (Nat.isDigit_of_mem_toDigits (by decide) (by decide) hm) (by decide)

theorem newline_not_mem_named {names : List String} (h : ∀ s ∈ names, '\n' ∉ s.toList) (i : Nat) :
    '\n' ∉ ((names[i]?).getD "").toList := by
  cases hs : names[i]? with
  | none => decide
  | some s => exact h s (List.mem_of_getElem? hs)

theorem newline_not_mem_zone (zone : Time.Zone) : '\n' ∉ zone.text.toList := by
  rw [Time.Zone.text]
  split
  · have hnumber := newline_not_mem_padded
    simp only [Time.two, String.toList_append, String.toList_ofList, List.mem_append, not_or]
    refine ⟨⟨?_, hnumber _ _⟩, hnumber _ _⟩
    split <;> decide
  · exact fun hm => absurd (zone.plain _ hm) (by decide)

theorem newline_not_mem_dateText (zone : Time.Zone) (seconds : Int) :
    newline ∉ (Time.dateText zone seconds : Text).toList := by
  have hweekdays : ∀ s ∈ Time.weekdays, '\n' ∉ s.toList := by decide
  have hmonths : ∀ s ∈ Time.months, '\n' ∉ s.toList := by decide
  have hnumber := newline_not_mem_padded
  have hsign : ∀ year : Int, '\n' ∉ (if year < 0 then "-" else "").toList := by
    intro year
    split <;> decide
  refine fun hm => absurd (newline_mem_ofString hm) ?_
  -- The equation of the date takes long to state, with all that it binds.
  delta Time.dateText
  generalize Time.onClock (seconds + zone.offset) = clock
  simp only [Time.two, String.toList_append, String.toList_ofList, List.mem_append, not_or,
    and_assoc]
  exact ⟨newline_not_mem_named hweekdays _, by decide, hnumber _ _, by decide,
    newline_not_mem_named hmonths _, by decide, hsign _, hnumber _ _, by decide, hnumber _ _,
    by decide, hnumber _ _, by decide, hnumber _ _, by decide, newline_not_mem_zone zone⟩

theorem stableBytes_header {module : Text} (h : masksDate module = true) (zone zone' : Time.Zone)
    (seconds seconds' : Int) :
    stableBytes
        ("Proofs for " ++ module ++ " generated " ++ Time.dateText zone seconds : Text).toList =
      stableBytes
        ("Proofs for " ++ module ++ " generated " ++ Time.dateText zone' seconds' : Text).toList := by
  obtain ⟨lines, hlines, hclosed, hlast⟩ := exists_lines (headerStart ++ module.toList ++ headerEnd)
  obtain ⟨name, rest, hheader⟩ : ∃ name rest, IsHeader (headerOpening module) name rest := by
    by_contra hnone
    have hkept := maskHeader_of_not fun name rest hheader => hnone ⟨name, rest, hheader⟩
    rw [masksDate, hkept] at h
    simp at h
  have hmasked : ∀ (zone : Time.Zone) (seconds : Int), stableBytes
      ("Proofs for " ++ module ++ " generated " ++ Time.dateText zone seconds : Text).toList =
        stableBytes lines ++ maskTimes (headerStart ++ name) := by
    intro zone seconds
    have hbytes :
        ("Proofs for " ++ module ++ " generated " ++ Time.dateText zone seconds : Text).toList =
          lines ++ (headerOpening module ++ (Time.dateText zone seconds : Text).toList) := by
      rw [Text.toList_append, Text.toList_append, Text.toList_append, headerOpening,
        ← List.append_assoc, ← hlines]
      rfl
    have hline : newline ∉ headerOpening module ++ (Time.dateText zone seconds : Text).toList := by
      rw [List.mem_append, not_or]
      exact ⟨hlast, newline_not_mem_dateText zone seconds⟩
    rw [hbytes, stableBytes_append hclosed, stableBytes_line hline,
      maskHeader_of_isHeader (hheader.append _)]
  rw [hmasked, hmasked]

theorem toList_fileContent (module : Text) (zone : Time.Zone) (seconds : Int) (y : Text) :
    (fileContent module seconds y zone).toList =
      ("Proofs for " ++ module ++ " generated " ++ Time.dateText zone seconds : Text).toList ++
        newline :: ([] ++ newline :: (y.toList ++ newline :: [])) := by
  have hblank : ("\n\n" : Text).toList = [newline, newline] := by decide
  have hend : ("\n" : Text).toList = [newline] := by decide
  simp only [fileContent, Text.toList_append, hblank, hend, List.append_assoc, List.cons_append,
    List.nil_append]

variable {module : Text} {rs rs' : List Result}

theorem stable_fileContent (h : masksDate module = true) (hrs : List.Forall₂ Retells rs rs')
    (zone zone' : Time.Zone) (seconds seconds' : Int) (elapsed elapsed' : Nat) :
    stable (fileContent module seconds (body rs elapsed) zone) =
      stable (fileContent module seconds' (body rs' elapsed') zone') := by
  have hbody := (alike_body hrs elapsed elapsed').stable
  unfold stable
  simp only [toList_fileContent, stableBytes_append_newline,
    stableBytes_header h zone zone' seconds seconds', hbody]

/-- No header ends within a date. -/
theorem isHeader_of_dated {x d name rest : List UInt8}
    (hd : ∀ n < d.length, headerEnd.isSuffixOf (headerEnd ++ d.take (n + 1)) = false)
    (h : IsHeader (x ++ headerEnd ++ d) name rest) :
    ∃ rest, IsHeader (x ++ headerEnd) name rest := by
  have heq := h.eq
  rcases List.append_eq_append_iff.mp heq with ⟨beyond, hstart, hbeyond⟩ | ⟨rest', hx, -⟩
  · cases beyond with
    | nil =>
      rw [List.append_nil] at hstart
      exact ⟨[], by rw [List.append_nil, hstart], h.ne_nil, h.unbroken⟩
    | cons b beyond =>
      have htake : d.take (beyond.length + 1) = b :: beyond := by
        rw [hbeyond]
        exact List.take_left' (rfl : (b :: beyond).length = beyond.length + 1)
      have hlt : beyond.length < d.length := by
        rw [hbeyond, List.length_append, List.length_cons]
        omega
      have hsuffix : headerEnd <:+ headerEnd ++ b :: beyond := by
        have hwhole : headerEnd <:+ headerStart ++ name ++ headerEnd := List.suffix_append _ _
        refine List.suffix_of_suffix_length_le hwhole ?_ (by simp)
        rw [hstart, List.append_assoc]
        exact List.suffix_append _ _
      have hno := hd beyond.length hlt
      rw [htake, List.isSuffixOf_iff_suffix.mpr hsuffix] at hno
      contradiction
  · exact ⟨rest', hx, h.ne_nil, h.unbroken⟩

/-- Where the date is not covered, a header is kept but for what looks like a time. -/
theorem stableBytes_header_kept (h : masksDate module = false) :
    ∃ x y, ∀ (zone : Time.Zone) (seconds : Int) (d : List UInt8),
      (Time.dateText zone seconds : Text).toList = d →
      (∀ n < d.length, headerEnd.isSuffixOf (headerEnd ++ d.take (n + 1)) = false) →
      stableBytes
        ("Proofs for " ++ module ++ " generated " ++ Time.dateText zone seconds : Text).toList =
        x ++ maskTimes (y ++ d) := by
  obtain ⟨lines, hlines, hclosed, hlast⟩ := exists_lines (headerStart ++ module.toList)
  have hopening : headerOpening module = lastLine (headerStart ++ module.toList) ++ headerEnd :=
    lastLine_append (by decide)
  have hkept : maskHeader (headerOpening module) = headerOpening module := by
    simpa [masksDate] using h
  refine ⟨stableBytes lines, headerOpening module, ?_⟩
  intro zone seconds d hdate hends
  have hbytes :
      ("Proofs for " ++ module ++ " generated " ++ Time.dateText zone seconds : Text).toList =
        lines ++ (headerOpening module ++ d) := by
    rw [Text.toList_append, Text.toList_append, Text.toList_append, hdate, hopening,
      ← List.append_assoc, ← List.append_assoc, ← hlines]
    rfl
  have hline : newline ∉ headerOpening module ++ d := by
    have hnewline := newline_not_mem_dateText zone seconds
    rw [hdate] at hnewline
    simp only [hopening, List.mem_append, not_or]
    exact ⟨⟨hlast, by decide⟩, hnewline⟩
  have hheader : ∀ name rest, ¬ IsHeader (headerOpening module ++ d) name rest := by
    intro name rest hheader
    rw [hopening] at hheader
    obtain ⟨rest, hheader⟩ := isHeader_of_dated hends hheader
    rw [← hopening] at hheader
    have hlen := congrArg List.length (hkept.symm.trans (maskHeader_of_isHeader hheader))
    have hend : headerEnd.length = 11 := by decide
    rw [hheader.eq] at hlen
    simp only [List.length_append, hend] at hlen
    omega
  rw [hbytes, stableBytes_append hclosed, stableBytes_line hline, maskHeader_of_not hheader]

theorem stable_fileContent_ne (h : masksDate module = false) (y : Text) :
    stable (fileContent module 0 y) ≠ stable (fileContent module 86400 y) := by
  intro heq
  have hstable := congrArg Text.toList heq
  simp only [stable, Text.toList_ofList, toList_fileContent, stableBytes_append_newline] at hstable
  obtain ⟨x, z, hheader⟩ := stableBytes_header_kept h
  have hfirst : (Time.dateText .utc 0 : Text).toList =
      ("Thu" : Text).toList ++ 44 :: (" 01 Jan 1970 00:00:00 UTC" : Text).toList := by
    decide
  have hsecond : (Time.dateText .utc 86400 : Text).toList =
      ("Fri" : Text).toList ++ 44 :: (" 02 Jan 1970 00:00:00 UTC" : Text).toList := by
    decide
  rw [hheader .utc 0 _ hfirst (by decide), hheader .utc 86400 _ hsecond (by decide)] at hstable
  have hdates := List.append_cancel_left (List.append_cancel_right hstable)
  -- No time goes on past the comma of a date.
  rw [← List.append_assoc, ← List.append_assoc, maskTimes_stop (by decide),
    maskTimes_stop (by decide)] at hdates
  have hdays := (List.append_inj' hdates (by decide)).2
  exact absurd hdays (by decide)

theorem isEmpty_fileContent (module : Text) (zone : Time.Zone) (seconds : Int) (y : Text) :
    (fileContent module seconds y zone).isEmpty = false := by
  rw [Text.isEmpty, Text.length_eq, toList_fileContent]
  simp

/-- If the date in the header of a module is covered, as it is if the name is one word, then proof
files of the module that differ in dates, zones and times have one stable form, and no difference is
shown. If it is not, there are two days for which a difference is shown between files that are otherwise
the same. -/
theorem unchanged_of_masksDate (module : Text) :
    (masksDate module = true →
      ∀ rs rs' : List Result, List.Forall₂ Retells rs rs' →
        ∀ (zone zone' : Time.Zone) (seconds seconds' : Int) (elapsed elapsed' : Nat),
          stable (fileContent module seconds (body rs elapsed) zone) =
              stable (fileContent module seconds' (body rs' elapsed') zone') ∧
            ∀ colours, diff colours (fileContent module seconds (body rs elapsed) zone)
              (fileContent module seconds' (body rs' elapsed') zone') = "") ∧
    (masksDate module = false → ∃ seconds seconds' : Int,
      ∀ (rs : List Result) (elapsed : Nat) (colours : Bool),
        diff colours (fileContent module seconds (body rs elapsed))
          (fileContent module seconds' (body rs elapsed)) ≠ "") ∧
    (module.toList ≠ [] → (∀ b ∈ module.toList, isBlank b = false) → masksDate module = true) := by
  refine ⟨?_, ?_, masksDate_of_unbroken⟩
  · intro h rs rs' hrs zone zone' seconds seconds' elapsed elapsed'
    have hstable := stable_fileContent h hrs zone zone' seconds seconds' elapsed elapsed'
    exact ⟨hstable, fun colours => (diff_eq_empty_iff _ _ _).mpr (.inr hstable)⟩
  · intro h
    refine ⟨0, 86400, ?_⟩
    intro rs elapsed colours hnothing
    rcases (diff_eq_empty_iff _ _ _).mp hnothing with hempty | hstable
    · rw [isEmpty_fileContent] at hempty
      exact Bool.false_ne_true hempty
    · exact stable_fileContent_ne h _ hstable

def timedTrace (time : Nat) : Trace where
  id := 1
  sequent := "\x7b\x7d ==> \x7ba = a\x7d"
  lines := [.noMatch "Symmetry" time,
    .step 0 0 time time time 1 "Reflexivity" "(a = a) = true" "1 new atoms, 1 merges"]
  final := none

def timedResult (time : Nat) : Result where
  id := 1
  status := .proved
  steps := 1
  duration := time * 1000000
  trace := (timedTrace time).render

/-- A module of one word, and one of two words. -/
theorem unchanged_timedResult :
    masksDate "Stack" = true ∧
      diff false (fileContent "Stack" 0 (body [timedResult 3] 5))
        (fileContent "Stack" 86400 (body [timedResult 12] 1234)) = "" ∧
      masksDate "My Stack" = false ∧
      ∃ seconds seconds' : Int, diff false (fileContent "My Stack" seconds (body [timedResult 3] 5))
        (fileContent "My Stack" seconds' (body [timedResult 3] 5)) ≠ "" := by
  obtain ⟨hsame, -, hword⟩ := unchanged_of_masksDate "Stack"
  obtain ⟨-, hshown, -⟩ := unchanged_of_masksDate "My Stack"
  have hmasks : masksDate "Stack" = true := hword (by decide) (by decide +kernel)
  have hnot : masksDate "My Stack" = false := by decide
  have hretells : Retells (timedResult 3) (timedResult 12) :=
    ⟨rfl, rfl, rfl, fun _ => by decide, .inr ⟨timedTrace 3, timedTrace 12, rfl, rfl, rfl⟩⟩
  obtain ⟨-, hnothing⟩ := hsame hmasks _ _ (.cons hretells .nil) .utc .utc 0 86400 5 1234
  obtain ⟨seconds, seconds', hdates⟩ := hshown hnot
  exact ⟨hmasks, hnothing false, hnot, seconds, seconds', hdates _ _ _⟩

end Files

end Discharge.ProofText
