import Discharge.Proofs.Congruence.Matching

namespace Discharge

namespace Text

variable {a b c : Text}

def CommaFree (t : Text) : Prop := (44 : UInt8) ∉ t.toList

instance (t : Text) : Decidable t.CommaFree := inferInstanceAs (Decidable (_ ∉ _))

theorem CommaFree.takeWhile_eq (ha : a.CommaFree) (bytes : List UInt8) :
    (a.toList ++ 44 :: bytes).takeWhile (· != 44) = a.toList := by
  rw [List.takeWhile_append_of_pos]
  · simp
  · intro byte hbyte
    rw [bne_iff_ne]
    rintro rfl
    exact ha hbyte

theorem commaFree_createdName (n : Nat) : (Congruence.Vocabulary.createdName n).CommaFree :=
  fun h => absurd (Congruence.Vocabulary.mem_createdName h) (by decide)

theorem eq_of_intercalate_eq {α : Type} {lead f g : α → Text} (ns : List α)
    (hf : ∀ n ∈ ns, (f n).CommaFree) (hg : ∀ n ∈ ns, (g n).CommaFree)
    (h : intercalate "," (ns.map fun n => lead n ++ f n) =
      intercalate "," (ns.map fun n => lead n ++ g n)) : ∀ n ∈ ns, f n = g n := by
  induction ns with
  | nil => simp
  | cons n ns ih =>
    have hn := hf n List.mem_cons_self
    have hn' := hg n List.mem_cons_self
    have hbytes := congrArg toList h
    rw [List.map_cons, List.map_cons, toList_intercalate, toList_intercalate, toList_append,
      toList_append, List.append_assoc, List.append_assoc, List.append_cancel_left_eq] at hbytes
    match ns with
    | [] =>
      simp only [List.map_nil, List.flatMap_nil, List.append_nil] at hbytes
      exact List.forall_mem_singleton.mpr (ext hbytes)
    | x :: rest =>
      have hcomma : ∀ (v : Text) (vs : List Text), ((v :: vs).flatMap fun w =>
          ("," : Text).toList ++ w.toList) = 44 :: (intercalate "," (v :: vs)).toList := by
        intro v vs
        rw [toList_intercalate, List.flatMap_cons]
        rfl
      rw [List.map_cons, List.map_cons, hcomma, hcomma] at hbytes
      -- What stands before the first comma is the same.
      have hhead := congrArg (List.takeWhile (· != 44)) hbytes
      rw [hn.takeWhile_eq, hn'.takeWhile_eq] at hhead
      rw [hhead] at hbytes
      have htail := (List.cons.inj (List.append_cancel_left hbytes)).2
      exact List.forall_mem_cons.mpr ⟨ext hhead, ih (fun y hy => hf y (List.mem_cons_of_mem _ hy))
        (fun y hy => hg y (List.mem_cons_of_mem _ hy)) (ext htail)⟩

end Text

namespace Congruence

namespace Binding

def names (b : Binding) : List Text := b.entries.map Prod.fst

def Ordered (b : Binding) : Prop := b.names.Pairwise (· < ·)

theorem mem_insertEntry {name value n : Text} {l : List (Text × Text)} :
    n ∈ (insertEntry name value l).map Prod.fst ↔ n = name ∨ n ∈ l.map Prod.fst := by
  induction l with
  | nil => simp [insertEntry]
  | cons e rest ih =>
    obtain ⟨m, v⟩ := e
    unfold insertEntry
    split
    · rename_i hm
      simp [eq_of_beq hm]
    · split
      · simp
      · simp only [List.map_cons, List.mem_cons, ih]
        exact or_left_comm

theorem pairwise_insertEntry {name value : Text} {l : List (Text × Text)}
    (h : (l.map Prod.fst).Pairwise (· < ·)) :
    ((insertEntry name value l).map Prod.fst).Pairwise (· < ·) := by
  induction l with
  | nil => simp [insertEntry]
  | cons e rest ih =>
    obtain ⟨m, v⟩ := e
    obtain ⟨hhead, htail⟩ := List.pairwise_cons.mp h
    unfold insertEntry
    split
    · rename_i hm
      exact List.pairwise_cons.mpr ⟨eq_of_beq hm ▸ hhead, htail⟩
    · rename_i hm
      split
      · rename_i hlt
        refine List.pairwise_cons.mpr ⟨?_, h⟩
        exact List.forall_mem_cons.mpr ⟨hlt, fun n hn => Text.lt_trans hlt (hhead n hn)⟩
      · rename_i hnlt
        refine List.pairwise_cons.mpr ⟨?_, ih htail⟩
        intro n hn
        rcases mem_insertEntry.mp hn with rfl | hn
        · exact Text.lt_of_not_lt hnlt fun he => hm (beq_iff_eq.mpr he.symm)
        · exact hhead n hn

theorem map_insertEntry_of_mem {name value : Text} {l : List (Text × Text)}
    (h : (l.map Prod.fst).Pairwise (· < ·)) (hmem : name ∈ l.map Prod.fst) :
    (insertEntry name value l).map Prod.fst = l.map Prod.fst := by
  induction l with
  | nil => simp at hmem
  | cons e rest ih =>
    obtain ⟨m, v⟩ := e
    obtain ⟨hhead, htail⟩ := List.pairwise_cons.mp h
    unfold insertEntry
    split
    · rename_i hm
      simp [eq_of_beq hm]
    · rename_i hm
      have hrest : name ∈ rest.map Prod.fst :=
        (List.mem_cons.mp hmem).resolve_left fun he => hm (beq_iff_eq.mpr he.symm)
      split
      · rename_i hlt
        exact (Text.lt_irrefl _ (Text.lt_trans hlt (hhead _ hrest))).elim
      · rw [List.map_cons, List.map_cons, ih htail hrest]

theorem Ordered.set {b : Binding} (h : b.Ordered) (name value : Text) :
    (b.set name value).Ordered := pairwise_insertEntry h

theorem Ordered.names_set {b : Binding} (h : b.Ordered) {name : Text} (hmem : name ∈ b.names)
    (value : Text) : (b.set name value).names = b.names := map_insertEntry_of_mem h hmem

theorem Ordered.clear {b : Binding} (h : b.Ordered) (ns : List Text) :
    (ns.foldl (fun b n => b.set n "") b).Ordered ∧
      ∀ n, n ∈ (ns.foldl (fun b n => b.set n "") b).names ↔ n ∈ b.names ∨ n ∈ ns := by
  induction ns generalizing b with
  | nil => exact ⟨h, by simp⟩
  | cons a rest ih =>
    obtain ⟨hordered, hmem⟩ := ih (h.set a "")
    refine ⟨hordered, fun n => (hmem n).trans ?_⟩
    rw [names, Binding.set, mem_insertEntry, List.mem_cons, or_comm (a := n = a), or_assoc]
    rfl

theorem ordered_unbound (ns : List Text) :
    (unbound ns).Ordered ∧ ∀ n, n ∈ (unbound ns).names ↔ n ∈ ns := by
  have hempty : Binding.Ordered ⟨[]⟩ := List.Pairwise.nil
  obtain ⟨hordered, hmem⟩ := hempty.clear ns
  rw [unbound_eq]
  exact ⟨hordered, fun n => (hmem n).trans (by simp [names])⟩

theorem lookup_of_mem {l : List (Text × Text)} (h : (l.map Prod.fst).Pairwise (· < ·))
    {e : Text × Text} (he : e ∈ l) : l.lookup e.1 = some e.2 := by
  induction l with
  | nil => simp at he
  | cons first rest ih =>
    obtain ⟨hfirst, hrest⟩ := List.pairwise_cons.mp h
    rcases List.mem_cons.mp he with rfl | he
    · exact List.lookup_cons_self
    · have hlt := hfirst e.1 (List.mem_map_of_mem he)
      have hne : (e.1 == first.1) = false := by
        refine beq_eq_false_iff_ne.mpr ?_
        intro heq
        rw [heq] at hlt
        exact Text.lt_irrefl _ hlt
      rw [List.lookup_cons, hne]
      exact ih hrest he

theorem Ordered.entries_eq {b : Binding} (h : b.Ordered) :
    b.entries = b.names.map fun n => (n, b.get n) := by
  rw [names, List.map_map]
  conv_lhs => rw [← List.map_id b.entries]
  refine List.map_congr_left ?_
  intro e he
  simp [Binding.get, lookup_of_mem h he]

theorem Ordered.eq_of_get_eq {b b' : Binding} (h : b.Ordered) (hn : b'.names = b.names)
    (hget : ∀ n ∈ b.names, b'.get n = b.get n) : b' = b := by
  have h' : b'.Ordered := by rw [Ordered, hn]; exact h
  have he : b'.entries = b.entries := by
    rw [h.entries_eq, h'.entries_eq, hn]
    exact List.map_congr_left fun n hmem => by rw [hget n hmem]
  cases b
  cases b'
  exact congrArg Binding.mk he

theorem Ordered.eq_of_key_eq {b b' : Binding} (h : b.Ordered) (hn : b'.names = b.names)
    (hb : ∀ n, (b.get n).CommaFree) (hb' : ∀ n, (b'.get n).CommaFree) (hk : b'.key = b.key) :
    b' = b := by
  have h' : b'.Ordered := by rw [Ordered, hn]; exact h
  refine h.eq_of_get_eq hn ?_
  rw [key, key, h.entries_eq, h'.entries_eq, hn, List.map_map, List.map_map] at hk
  exact Text.eq_of_intercalate_eq b.names (fun n _ => hb' n) (fun n _ => hb n) hk

end Binding

section Distinguishing

variable {α : Type} {key : α → Text} {p : Std.TreeMap Text Unit × Array α}

structure KeptApart (key : α → Text) (p : Std.TreeMap Text Unit × Array α) : Prop where
  seen : ∀ k, p.1.contains k = true ↔ ∃ b ∈ p.2, key b = k
  distinct : p.2.toList.Pairwise fun a b => key a ≠ key b

theorem KeptApart.keepFirst (h : KeptApart key p) (a : α) : KeptApart key (keepFirst key p a) ∧
    ∀ k, (∃ b ∈ (Congruence.keepFirst key p a).2, key b = k) ↔
      (∃ b ∈ p.2, key b = k) ∨ key a = k := by
  unfold Congruence.keepFirst
  split
  · rename_i hseen
    refine ⟨h, fun k => ⟨.inl, ?_⟩⟩
    rintro (hk | rfl)
    · exact hk
    · exact (h.seen _).mp hseen
  · rename_i hnew
    have hkeys : ∀ k, (∃ b ∈ p.2.push a, key b = k) ↔ (∃ b ∈ p.2, key b = k) ∨ key a = k := by
      simp [Array.mem_push, or_and_right, exists_or]
    refine ⟨⟨fun k => ?_, ?_⟩, hkeys⟩
    · have hsame : compare (key a) k == .eq ↔ key a = k :=
        beq_iff_eq.trans Std.LawfulEqOrd.compare_eq_iff_eq
      rw [Std.TreeMap.contains_insert, Bool.or_eq_true, hsame, h.seen, hkeys, or_comm]
    · rw [Array.toList_push, List.pairwise_append]
      refine ⟨h.distinct, List.pairwise_singleton _ _, ?_⟩
      intro b hb y hy he
      rw [List.mem_singleton.mp hy] at he
      exact hnew ((h.seen _).mpr ⟨b, Array.mem_toList_iff.mp hb, he⟩)

theorem KeptApart.foldl (h : KeptApart key p) (l : List α) :
    KeptApart key (l.foldl (Congruence.keepFirst key) p) ∧
      ∀ k, (∃ b ∈ (l.foldl (Congruence.keepFirst key) p).2, key b = k) ↔
        (∃ b ∈ p.2, key b = k) ∨ ∃ a ∈ l, key a = k := by
  induction l generalizing p with
  | nil => exact ⟨h, by simp⟩
  | cons a rest ih =>
    obtain ⟨hnext, hkeys⟩ := h.keepFirst a
    obtain ⟨hout, hall⟩ := ih hnext
    refine ⟨hout, fun k => (hall k).trans ?_⟩
    rw [hkeys, or_assoc, List.exists_mem_cons_iff]

/-- Of values with one key the first is kept, and only it. -/
theorem firstOfKey_spec (values : List α) :
    (firstOfKey key values).Pairwise (fun a b => key a ≠ key b) ∧
      ∀ a ∈ values, ∃ b ∈ firstOfKey key values, key b = key a := by
  have hstart : KeptApart key (∅, #[]) := ⟨by simp, by simp⟩
  obtain ⟨hout, hkeys⟩ := hstart.foldl values
  rw [firstOfKey_eq]
  refine ⟨hout.distinct, fun a ha => ?_⟩
  obtain ⟨b, hb, he⟩ := (hkeys (key a)).mpr (.inr ⟨a, ha, rfl⟩)
  exact ⟨b, Array.mem_toList_iff.mpr hb, he⟩

end Distinguishing

end Congruence

end Discharge
