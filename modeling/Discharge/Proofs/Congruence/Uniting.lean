import Discharge.Proofs.Congruence.Growth

namespace Discharge.Congruence.Model

section Uniting

/-- The root that gives way when the classes of two symbols are merged. -/
def givingWay (m : Model) (a b : Nat) : Nat :=
  if (m.vocabulary.merge (m.root a) (m.root b)).1 == m.root b then m.root a else m.root b

variable {m : Model} {v : Vocabulary} {winner loser : Nat}

/-- The model right after a class gave way, before the facts about it are refiled. -/
def joined (m : Model) (v : Vocabulary) (winner loser : Nat) (pending : List (Nat × Nat)) : Model :=
  { m with
    vocabulary := v
    pending
    merges := m.merges + 1
    contradiction := m.contradiction || v.related Vocabulary.truth Vocabulary.falsehood
    uses := (m.uses.erase loser).insert winner (m.listing winner ++ m.listing loser) }

theorem listing_joined (m : Model) (v : Vocabulary) (winner loser : Nat)
    (pending : List (Nat × Nat)) (k : Nat) :
    (m.joined v winner loser pending).listing k =
      if winner = k then m.listing winner ++ m.listing loser
      else if loser = k then #[] else m.listing k := by
  simp only [joined, listing, getElem?_insert, getElem?_erase]
  split
  · rfl
  · split <;> rfl

theorem joined_joined (j : m.vocabulary.Joins v winner loser)
    {p : Nat × Nat} {rest : List (Nat × Nat)} (hp : m.pending = p :: rest)
    (hroot : v.root p.1 = v.root p.2) {a b : Nat} (hab : m.Joined a b) :
    (m.joined v winner loser rest).Joined a b := by
  refine Joined.mono ?_ hab
  rintro a b (hr | hmem)
  · refine Joined.of_root_eq ?_
    change v.root a = v.root b
    change m.vocabulary.root a = m.vocabulary.root b at hr
    rw [j.root_eq, j.root_eq, hr]
  · rw [hp] at hmem
    rcases List.mem_cons.mp hmem with he | hmem
    · rw [← he] at hroot
      exact Joined.of_root_eq hroot
    · exact Joined.of_mem_pending hmem

section GivingWay

variable (h : m.Filed []) (j : m.vocabulary.Joins v winner loser) {i : Nat} {r : Record}
  (hr : m.records[i]? = some r) (hl : r.live = true)
include h j hr hl

/-- A key that is not up to date names the class that gave way, and its fact is listed under it. -/
theorem key_eq_or_listed : r.key = r.app.key v ∨
    i ∈ (m.listing loser).toList ∧ ∃ s ∈ r.key.places, v.root s ≠ s := by
  have hk : r.key = r.app.key m.vocabulary := (h.key_eq hr hl).resolve_right (by simp)
  by_cases hbad : ∃ s ∈ r.app.places, m.root s = loser
  · obtain ⟨s, hs, he⟩ := hbad
    have hlist := h.listed hr hl s (Record.place_mem_symbols hs)
    rw [he] at hlist
    refine .inr ⟨by simpa using hlist, loser, ?_, j.root_ne_loser loser⟩
    rw [hk]
    exact Application.mem_places_key.mpr ⟨s, hs, he⟩
  · left
    rw [hk]
    refine (Application.key_congr ?_ (j.name_eq _)).symm
    intro s hs
    exact j.root_of_ne fun he => hbad ⟨s, hs, he⟩

theorem mem_listing_joined (pending : List (Nat × Nat)) {s : Nat} (hs : s ∈ r.symbols) :
    i ∈ (m.joined v winner loser pending).listing (v.root s) := by
  have hlist : i ∈ m.listing (m.vocabulary.root s) := h.listed hr hl s hs
  rw [listing_joined, j.root_eq]
  by_cases hloser : m.vocabulary.root s = loser
  · rw [if_pos hloser, if_pos rfl]
    rw [hloser] at hlist
    exact Array.mem_append.mpr (.inr hlist)
  · rw [if_neg hloser]
    split
    · rename_i hw
      rw [← hw] at hlist
      exact Array.mem_append.mpr (.inl hlist)
    · rw [if_neg (Ne.symm hloser)]
      exact hlist

theorem demands_joined (hi : i ∉ (m.listing loser).toList) (pending : List (Nat × Nat)) :
    (m.joined v winner loser pending).demands r = m.demands r := by
  have hsame : ∀ s ∈ r.symbols, v.root s = m.root s := by
    intro s hs
    refine j.root_of_ne fun he => ?_
    have hlist := h.listed hr hl s hs
    change m.root s = loser at he
    rw [he] at hlist
    exact hi (by simpa using hlist)
  have hargs : r.app.args.map v.root = r.app.args.map m.root :=
    List.map_congr_left fun s hs => hsame s (Record.arg_mem_symbols hs)
  have hop : v.rootName r.app.op = m.vocabulary.rootName r.app.op := by
    rw [Vocabulary.rootName, hsame _ r.op_mem_symbols]
    exact j.name_eq _
  change consequences (v.rootName r.app.op) (r.app.args.map v.root) (v.root r.result) _ _ = _
  rw [hop, hargs, hsame _ r.result_mem_symbols]
  rfl

end GivingWay

/-- After a class gave way only the facts listed under it can be stale. -/
theorem filed_joined (h : m.Filed []) (j : m.vocabulary.Joins v winner loser)
    {p : Nat × Nat} {rest : List (Nat × Nat)} (hp : m.pending = p :: rest)
    (hroot : v.root p.1 = v.root p.2) :
    (m.joined v winner loser rest).Filed (m.listing loser).toList := by
  have hjoin := @joined_joined m v winner loser j p rest hp hroot
  refine ⟨j.wellFormed h.vocabulary, ?_, ?_, h.table_iff, key_eq_or_listed h j, ?_, ?_, ?_, ?_⟩
  · intro i r hr s hs
    change s < v.size
    rw [j.size_eq]
    exact h.symbols_lt hr s hs
  · intro q hq
    change q.1 < v.size ∧ q.2 < v.size
    rw [j.size_eq]
    exact h.pending_lt q (by rw [hp]; exact List.mem_cons_of_mem _ hq)
  · intro i r hr hl s hs
    exact mem_listing_joined h j hr hl rest hs
  · intro i r hr
    obtain ⟨k, r', hr', hl, hc, hj⟩ := h.covered hr
    exact ⟨k, r', hr', hl,
      hc.mono h.vocabulary j.grows (h.places_lt hr) (h.places_lt hr'), hjoin hj⟩
  · change (m.contradiction || v.related Vocabulary.truth Vocabulary.falsehood) = true ↔
      v.root Vocabulary.truth = v.root Vocabulary.falsehood
    rw [Bool.or_eq_true, h.contradiction_iff, Vocabulary.related, beq_iff_eq]
    refine ⟨?_, .inr⟩
    rintro (ho | hn)
    · exact j.grows.root_eq h.vocabulary.truth_lt h.vocabulary.falsehood_lt ho
    · exact hn
  · intro i r hr hl hi q hq
    rw [demands_joined h j hr hl hi] at hq
    exact hjoin (h.closed hr hl (by simp) q hq)

theorem unite_of_ne {a b : Nat} (hne : m.root a ≠ m.root b) :
    m.unite a b = (m.listing (m.givingWay a b)).toList.foldl refile
      (m.joined (m.vocabulary.merge (m.root a) (m.root b)).2
        (m.vocabulary.merge (m.root a) (m.root b)).1 (m.givingWay a b) m.pending) := by
  have hne' : ¬ (m.root a == m.root b) = true := by simpa using hne
  simp only [unite]
  rw [if_neg hne', ← Array.foldl_toList]
  rfl

theorem unite_eq (h : m.vocabulary.WellFormed) {a b : Nat} (ha : a < m.vocabulary.size)
    (hb : b < m.vocabulary.size) (hne : m.root a ≠ m.root b) :
    ∃ v winner loser, m.vocabulary.Joins v winner loser ∧ v.root a = v.root b ∧
      m.unite a b = (m.listing loser).toList.foldl refile
        (m.joined v winner loser m.pending) := by
  have hrr : m.vocabulary.root (m.root a) ≠ m.vocabulary.root (m.root b) := by
    rw [root, root, h.root_root, h.root_root]
    exact hne
  obtain ⟨loser, hcase, j⟩ :=
    Vocabulary.merge_joins (a := m.root a) (b := m.root b) h (h.root_lt ha) (h.root_lt hb) hrr
  have hroot : ∀ s, m.vocabulary.root (m.root s) = m.root s := fun s => h.root_root s
  simp only [hroot] at hcase
  have hgives : m.givingWay a b = loser := by
    rcases hcase with ⟨rfl, hw⟩ | ⟨rfl, hw⟩
    · simp [givingWay, hw]
    · simp [givingWay, hw, hne]
  refine ⟨_, _, loser, j, ?_, ?_⟩
  · rw [j.root_eq, j.root_eq]
    change (if m.root a = loser then _ else m.root a) = if m.root b = loser then _ else m.root b
    rcases hcase with ⟨rfl, hw⟩ | ⟨rfl, hw⟩
    · rw [if_pos rfl, if_neg (Ne.symm hne), hw]
    · rw [if_neg hne, if_pos rfl, hw]
  · rw [unite_of_ne hne, hgives]

/-- Making the merge in front keeps the model filed and leaves one class fewer. -/
theorem unite_front (h : m.Filed []) {p : Nat × Nat} {rest : List (Nat × Nat)}
    (hp : m.pending = p :: rest) (hne : m.root p.1 ≠ m.root p.2) :
    (({ m with pending := rest } : Model).unite p.1 p.2).Filed [] ∧
      m.Coarsens (({ m with pending := rest } : Model).unite p.1 p.2) ∧
      (({ m with pending := rest } : Model).unite p.1 p.2).vocabulary.classCount + 1 =
        m.vocabulary.classCount := by
  have hlt := h.pending_lt p (by simp [hp])
  obtain ⟨v, winner, loser, j, hroot, he⟩ :=
    @unite_eq { m with pending := rest } h.vocabulary p.1 p.2 hlt.1 hlt.2 hne
  change _ = (m.listing loser).toList.foldl refile (m.joined v winner loser rest) at he
  obtain ⟨hv, hh, hpending⟩ :=
    foldl_refile_frame (m.listing loser).toList (m.joined v winner loser rest)
  rw [he]
  refine ⟨filed_foldl_refile (filed_joined h j hp hroot), ⟨?_, ?_, hh⟩, ?_⟩
  · rw [hv]
    exact j.grows
  · intro a b hab
    refine Joined.of_pending_subset ?_ hpending (joined_joined (m := m) j hp hroot hab)
    intro i
    rw [root, hv]
    rfl
  · rw [hv]
    exact j.classCount_eq

end Uniting

section Propagating

variable {m : Model}

theorem joined_settled {p : Nat × Nat} (hp : p ∈ m.pending) : m.settled.Joined p.1 p.2 := by
  rw [← List.takeWhile_append_dropWhile (p := fun p => m.root p.1 == m.root p.2)
    (l := m.pending)] at hp
  rcases List.mem_append.mp hp with hp | hp
  · exact Joined.of_root_eq (beq_iff_eq.mp (List.all_eq_true.mp List.all_takeWhile p hp))
  · exact Joined.of_mem_pending hp

theorem filed_settled (h : m.Filed []) : m.settled.Filed [] := by
  refine h.setPending ?_ fun p hp => joined_settled hp
  intro p hp
  exact h.pending_lt p (List.dropWhile_subset _ hp)

theorem coarsens_settled (m : Model) : m.Coarsens m.settled := by
  refine ⟨.refl _, ?_, rfl⟩
  intro a b hab
  refine Joined.mono ?_ hab
  rintro a b (he | hp)
  · exact Joined.of_root_eq he
  · exact joined_settled hp

theorem root_ne_of_settled {p : Nat × Nat} {rest : List (Nat × Nat)}
    (h : m.settled.pending = p :: rest) : m.root p.1 ≠ m.root p.2 := by
  have hh := List.head?_dropWhile_not (fun p : Nat × Nat => m.root p.1 == m.root p.2) m.pending
  change m.pending.dropWhile (fun p => m.root p.1 == m.root p.2) = p :: rest at h
  rw [h] at hh
  simpa using hh

theorem pending_settled (h : m.vocabulary.WellFormed)
    (hlt : ∀ p ∈ m.pending, p.1 < m.vocabulary.size ∧ p.2 < m.vocabulary.size)
    (hc : m.vocabulary.classCount ≤ 1) : m.settled.pending = [] := by
  cases hp : m.settled.pending with
  | nil => rfl
  | cons p rest =>
    have hmem : p ∈ m.settled.pending := by simp [hp]
    have hlt := hlt p (List.dropWhile_subset _ hmem)
    exact (root_ne_of_settled hp (Vocabulary.root_eq_of_classCount_le_one h hc hlt.1 hlt.2)).elim

theorem propagateWithin_spec (fuel : Nat) (h : m.Filed [])
    (hc : m.vocabulary.classCount ≤ fuel + 1) :
    (propagateWithin fuel m).Filed [] ∧ (propagateWithin fuel m).pending = [] ∧
      m.Coarsens (propagateWithin fuel m) := by
  induction fuel generalizing m with
  | zero =>
    exact ⟨filed_settled h, pending_settled h.vocabulary h.pending_lt hc, m.coarsens_settled⟩
  | succ fuel ih =>
    unfold propagateWithin
    split
    · rename_i hp
      exact ⟨filed_settled h, hp, m.coarsens_settled⟩
    · rename_i p rest hp
      have hne : m.settled.root p.1 ≠ m.settled.root p.2 := root_ne_of_settled (m := m) hp
      obtain ⟨hfiled, hext, hcount⟩ := unite_front (filed_settled h) hp hne
      change _ = m.vocabulary.classCount at hcount
      obtain ⟨hfiled', hdone, hext'⟩ := ih hfiled (by omega)
      exact ⟨hfiled', hdone, (m.coarsens_settled.trans hext).trans hext'⟩

theorem propagate_spec (h : m.Filed []) :
    m.propagate.Filed [] ∧ m.propagate.pending = [] ∧ m.Coarsens m.propagate := by
  refine propagateWithin_spec _ h ?_
  have := m.vocabulary.classCount_le_size
  omega

end Propagating

end Discharge.Congruence.Model
