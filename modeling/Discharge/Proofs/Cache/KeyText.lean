import Discharge.Cache.Fingerprint
import Discharge.Proofs.Congruence.Names
import Discharge.Proofs.Term.Writing

/-!
What a key is the digest of can be read back: the module, if its name is of one line, the id and the
sequent as they are written, the digests of the theorems and of the symbols, and whether new symbols
are allowed.
-/

namespace Discharge

namespace Text

def isLine (t : Text) : Bool := !t.toList.contains 10

theorem isLine_iff {t : Text} : t.isLine = true ↔ ∀ byte ∈ t.toList, byte ≠ 10 := by
  simp only [isLine, Bool.not_eq_true', List.contains_eq_mem, decide_eq_false_iff_not]
  exact ⟨fun h byte hb he => h (he ▸ hb), fun h hb => h 10 hb rfl⟩

theorem toList_ofString (s : String) :
    (ofString s).toList = s.toList.flatMap String.utf8EncodeChar := by
  rw [← String.ofList_toList (s := s), ofString, toList, String.toByteArray_ofList,
    List.utf8Encode, List.data_toByteArray, String.ofList_toList]

theorem ofString_injective {s t : String} (h : ofString s = ofString t) : s = t :=
  String.toByteArray_inj.mp (congrArg Text.bytes h)

end Text

namespace Cache

def isNumberChar (c : Char) : Bool := c.isDigit || ['-', '.', 'n', 'µ', 'm', 's', 'h'].contains c

theorem byte_of_isNumberChar {c : Char} (h : isNumberChar c = true) {byte : UInt8}
    (hb : byte ∈ String.utf8EncodeChar c) : byte ≠ 10 ∧ byte ≠ 32 := by
  rw [isNumberChar, Bool.or_eq_true] at h
  cases h with
  | inl hdigit =>
    have hmem := Congruence.Vocabulary.mem_digits_of_isDigit hdigit hb
    exact ⟨fun h => by rw [h] at hmem; exact absurd hmem (by decide),
      fun h => by rw [h] at hmem; exact absurd hmem (by decide)⟩
  | inr hother =>
    have hall : (['-', '.', 'n', 'µ', 'm', 's', 'h'].all fun c =>
        (String.utf8EncodeChar c).all fun byte => byte != 10 && byte != 32) = true := by decide
    have hbyte := List.all_eq_true.mp (List.all_eq_true.mp hall c (List.contains_iff_mem.mp hother))
      byte hb
    simpa using hbyte

theorem byte_of_number {s : String} (h : ∀ c ∈ s.toList, isNumberChar c = true) :
    ∀ byte ∈ (s : Text).toList, byte ≠ 10 ∧ byte ≠ 32 := by
  intro byte hb
  rw [Text.toList_ofString] at hb
  obtain ⟨c, hc, hmem⟩ := List.mem_flatMap.mp hb
  exact byte_of_isNumberChar (h c hc) hmem

theorem isNumberChar_of_mem_toDigits {n : Nat} {c : Char} (h : c ∈ Nat.toDigits 10 n) :
    isNumberChar c = true := by
  rw [isNumberChar, Nat.isDigit_of_mem_toDigits (by decide) (by decide) h, Bool.true_or]

theorem number_decimalText (n places : Nat) :
    ∀ c ∈ Time.decimalText n places, isNumberChar c = true := by
  intro c hc
  unfold Time.decimalText at hc
  rcases List.mem_append.mp hc with hc | hc
  · exact isNumberChar_of_mem_toDigits hc
  · split at hc
    · cases hc
    · rcases List.mem_cons.mp hc with rfl | hc
      · decide
      · have hpadded := (List.dropWhile_suffix _).subset (List.mem_reverse.mp hc)
        rcases List.mem_append.mp (List.mem_reverse.mp hpadded) with hzero | hdigit
        · rw [List.eq_of_mem_replicate hzero]
          decide
        · exact isNumberChar_of_mem_toDigits hdigit

theorem number_durationChars (n : Nat) : ∀ c ∈ Time.durationChars n, isNumberChar c = true := by
  have hunits : ∀ c ∈ ['0', 'n', 'µ', 'm', 's', 'h'], isNumberChar c = true :=
    List.all_eq_true.mp (by decide)
  have hdigits := fun n c => @isNumberChar_of_mem_toDigits n c
  have hdecimal := number_decimalText
  unfold Time.durationChars
  grind

theorem number_durationText (n : Int) :
    ∀ c ∈ (Time.durationText n).toList, isNumberChar c = true := by
  intro c hc
  rw [Time.durationText, String.toList_append, List.mem_append] at hc
  rcases hc with hc | hc
  · split at hc
    · have hminus : c = '-' := by simpa using hc
      rw [hminus]
      decide
    · simp at hc
  · exact number_durationChars _ c (by simpa using hc)

theorem toList_toString (n : Int) : (toString n).toList =
    (if n < 0 then ['-'] else []) ++ Nat.toDigits 10 n.natAbs := by
  cases n with
  | ofNat n =>
    have hrepr : (toString (Int.ofNat n)).toList = (Nat.repr n).toList := rfl
    rw [hrepr, ← Nat.toString_eq_repr, Nat.toString_eq_ofList_toDigits, String.toList_ofList,
      if_neg (by simp)]
    rfl
  | negSucc n =>
    have hrepr : toString (Int.negSucc n) = "-" ++ Nat.repr (n + 1) := rfl
    rw [hrepr, String.toList_append, ← Nat.toString_eq_repr, Nat.toString_eq_ofList_toDigits,
      if_pos (Int.negSucc_lt_zero n), Int.natAbs_negSucc]
    exact congrArg ('-' :: ·) String.toList_ofList

theorem number_toString (n : Int) : ∀ c ∈ (toString n).toList, isNumberChar c = true := by
  intro c hc
  rw [toList_toString, List.mem_append] at hc
  rcases hc with hc | hc
  · split at hc
    · rw [List.mem_singleton.mp hc]
      decide
    · cases hc
  · exact isNumberChar_of_mem_toDigits hc

theorem toString_injective {m n : Int} (h : toString m = toString n) : m = n := by
  have hlists := congrArg String.toList h
  rw [toList_toString, toList_toString] at hlists
  have hminus : ∀ k, '-' ∉ Nat.toDigits 10 k := fun k hk =>
    absurd (Nat.isDigit_of_mem_toDigits (by decide) (by decide) hk) (by decide)
  have hvalue : ∀ {j k : Nat}, Nat.toDigits 10 j = Nat.toDigits 10 k → j = k := fun {j k} he => by
    rw [← Nat.ofDigitChars_ten_toDigits (n := j), he, Nat.ofDigitChars_ten_toDigits]
  by_cases hm : m < 0 <;> by_cases hn : n < 0
  · rw [if_pos hm, if_pos hn] at hlists
    have habs := hvalue (List.append_cancel_left hlists)
    omega
  · rw [if_pos hm, if_neg hn] at hlists
    exact (hminus n.natAbs (by rw [List.nil_append] at hlists; simp [← hlists])).elim
  · rw [if_neg hm, if_pos hn] at hlists
    exact (hminus m.natAbs (by rw [List.nil_append] at hlists; simp [hlists])).elim
  · rw [if_neg hm, if_neg hn] at hlists
    have habs := hvalue (List.append_cancel_left hlists)
    omega

theorem utf8_hexDigit {n : Nat} (h : n < 16) :
    (String.utf8EncodeChar (Text.hexDigit n)).length = 1 := by
  interval_cases n <;> decide

theorem length_utf8_hexDigits (width n : Nat) :
    ((Text.hexDigits width n).flatMap String.utf8EncodeChar).length = width := by
  induction width generalizing n with
  | zero => rfl
  | succ width ih =>
    rw [Text.hexDigits, List.flatMap_append, List.length_append, ih, List.flatMap_singleton,
      utf8_hexDigit (Nat.mod_lt _ (by decide))]

theorem length_hexDigest (t : Text) : (Digest.hexDigest t).toList.length = 64 := by
  have hlength : ∀ words : List UInt32,
      ((words.flatMap fun w => Text.hexDigits 8 w.toNat).flatMap String.utf8EncodeChar).length =
        8 * words.length := by
    intro words
    induction words with
    | nil => rfl
    | cons w rest ih =>
      rw [List.flatMap_cons, List.flatMap_append, List.length_append, ih, length_utf8_hexDigits,
        List.length_cons]
      omega
  rw [Digest.hexDigest, Text.toList_ofString, String.toList_ofList, hlength]
  rfl

theorem append_inj_of_last_line {a b x y : List UInt8} (hx : ∀ c ∈ x, c ≠ 10)
    (hy : ∀ c ∈ y, c ≠ 10) (h : a ++ 10 :: x = b ++ 10 :: y) : a = b ∧ x = y := by
  have hreversed := congrArg List.reverse h
  simp only [List.reverse_append, List.reverse_cons, List.append_assoc, List.singleton_append]
    at hreversed
  obtain ⟨hxy, hab⟩ := append_inj_of_head (p := (· ≠ 10)) (by simpa using hx) (by simpa using hy)
    (by simp) (by simp) hreversed
  exact ⟨List.reverse_injective (List.cons.inj hab).2, List.reverse_injective hxy⟩

section Reading

variable {module module' : Text} {c c' : Condition} {theorems theorems' symbols symbols' : Text}
  {config config' : Search.Config}

structure SameKey (module module' : Text) (c c' : Condition)
    (theorems theorems' symbols symbols' : Text) (config config' : Search.Config) : Prop where
  module : module = module'
  id : c.id = c'.id
  sequent : c.sequent.render = c'.sequent.render
  theorems : theorems = theorems'
  symbols : symbols = symbols'
  allowNew : config.allowNew = config'.allowNew

theorem flagText_injective {b b' : Bool} (h : flagText b = flagText b') : b = b' := by
  cases b <;> cases b' <;> first | rfl | exact absurd h (by decide)

def lastLine (config : Search.Config) : List UInt8 :=
  ("timeout=" : Text).toList ++ ((Time.durationText config.timeout : Text).toList ++
    32 :: (("allow_new_symbols=" : Text).toList ++ (flagText config.allowNew).toList))

theorem lastLine_isLine (config : Search.Config) : ∀ byte ∈ lastLine config, byte ≠ 10 := by
  intro byte hb
  have hstart : ∀ byte ∈ ("timeout=" : Text).toList, byte ≠ 10 := by decide +kernel
  have hmiddle : ∀ byte ∈ ("allow_new_symbols=" : Text).toList, byte ≠ 10 := by
    decide +kernel
  have hflag : ∀ b, ∀ byte ∈ (flagText b).toList, byte ≠ 10 := by decide +kernel
  simp only [lastLine, List.mem_append, List.mem_cons] at hb
  rcases hb with hb | hb | rfl | hb | hb
  · exact hstart byte hb
  · exact (byte_of_number (number_durationText config.timeout) byte hb).1
  · decide
  · exact hmiddle byte hb
  · exact hflag _ byte hb

/-- The lines of a key. -/
theorem toList_keyText (module : Text) (c : Condition) (theorems symbols : Text)
    (config : Search.Config) : (keyText module c theorems symbols config).toList =
      ("module=" : Text).toList ++ (module.toList ++ 10 :: (("vc=" : Text).toList ++
        ((toString c.id : Text).toList ++ 32 :: ((c.sequent.render.toList ++
          (10 :: (("theorems=" : Text).toList ++ theorems.toList) ++
            10 :: (("symbols=" : Text).toList ++ symbols.toList)) ++
          10 :: lastLine config) ++ [10])))) := by
  have hend : ("\n" : Text).toList = [10] := by decide
  have hblank : (" " : Text).toList = [32] := by decide
  have hallow : (" allow_new_symbols=" : Text).toList =
      32 :: ("allow_new_symbols=" : Text).toList := by decide
  unfold keyText lastLine
  simp only [Text.toList_append]
  rw [hend, hblank, hallow]
  simp only [List.append_assoc, List.cons_append, List.nil_append]

/-- Of a condition only the id and the written sequent are in a key. -/
theorem keyText_congr (hid : c.id = c'.id) (hsequent : c.sequent.render = c'.sequent.render) :
    keyText module c theorems symbols config = keyText module c' theorems symbols config := by
  unfold keyText
  rw [hid, hsequent]

theorem keyText_inj (hmodule : module.isLine = true) (hmodule' : module'.isLine = true)
    (ht : theorems.toList.length = theorems'.toList.length)
    (hs : symbols.toList.length = symbols'.toList.length)
    (h : keyText module c theorems symbols config = keyText module' c' theorems' symbols' config') :
    SameKey module module' c c' theorems theorems' symbols symbols' config config' := by
  have hlists := congrArg Text.toList h
  rw [toList_keyText, toList_keyText] at hlists
  obtain ⟨hm, hlists⟩ := append_inj_of_head (p := (· ≠ 10)) (Text.isLine_iff.mp hmodule)
    (Text.isLine_iff.mp hmodule') (by simp) (by simp) (List.append_cancel_left hlists)
  have hnumber := fun (c : Condition) (byte : UInt8) hb =>
    (byte_of_number (number_toString c.id) byte hb).2
  obtain ⟨hid, hlists⟩ := append_inj_of_head (p := (· ≠ 32)) (hnumber c) (hnumber c') (by simp)
    (by simp) (List.append_cancel_left (List.cons.inj hlists).2)
  have hlines := List.append_cancel_right (List.cons.inj hlists).2
  obtain ⟨hbody, hlast⟩ := append_inj_of_last_line (lastLine_isLine config)
    (lastLine_isLine config') hlines
  obtain ⟨hsequent, hdigests⟩ := List.append_inj' hbody (by simp [ht, hs])
  obtain ⟨htheorems, hsymbols⟩ := List.append_inj' hdigests (by simp [hs])
  obtain ⟨-, hflag⟩ := append_inj_of_head (p := (· ≠ 32))
    (fun byte hb => (byte_of_number (number_durationText config.timeout) byte hb).2)
    (fun byte hb => (byte_of_number (number_durationText config'.timeout) byte hb).2) (by simp)
    (by simp) (List.append_cancel_left hlast)
  exact {
    module := Text.ext hm
    id := toString_injective (Text.ofString_injective (Text.ext hid))
    sequent := Text.ext hsequent
    theorems := Text.ext (List.append_cancel_left (List.cons.inj htheorems).2)
    symbols := Text.ext (List.append_cancel_left (List.cons.inj hsymbols).2)
    allowNew := flagText_injective
      (Text.ext (List.append_cancel_left (List.cons.inj hflag).2)) }

end Reading

end Cache

end Discharge
