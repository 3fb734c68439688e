import Discharge.Proofs.Congruence.Filing

namespace Discharge.Congruence.Model

section Extending

/-- A later state of a model: its symbols and classes are kept, the merges asked for too, and so
is the record of its facts. Each new fact is about older symbols, and its result was created for
it. -/
structure Extends (m n : Model) : Prop where
  vocabulary : m.vocabulary.Grows n.vocabulary
  joined : ∀ {a b : Nat}, m.Joined a b → n.Joined a b
  history : ∃ added, n.history = m.history ++ added ∧
    (∀ e ∈ added, m.vocabulary.size ≤ e.2 ∧ e.2 < n.vocabulary.size) ∧
    (∀ e ∈ added, ∀ s ∈ e.1.places, s < e.2) ∧
    (∀ e ∈ added, ∃ k, n.vocabulary.name e.2 = Vocabulary.createdName k) ∧
    added.Pairwise fun e f => e.2 < f.2

variable {m n o : Model}

structure Coarsens (m n : Model) : Prop where
  vocabulary : m.vocabulary.Grows n.vocabulary
  joined : ∀ {a b : Nat}, m.Joined a b → n.Joined a b
  history_eq : n.history = m.history

theorem Coarsens.trans (h : m.Coarsens n) (h' : n.Coarsens o) : m.Coarsens o where
  vocabulary := h.vocabulary.trans h'.vocabulary
  joined hj := h'.joined (h.joined hj)
  history_eq := h'.history_eq.trans h.history_eq

theorem Coarsens.extends (h : m.Coarsens n) : m.Extends n :=
  ⟨h.vocabulary, h.joined, [], by simp [h.history_eq], by simp, by simp, by simp,
    List.Pairwise.nil⟩

theorem Coarsens.refl (m : Model) : m.Coarsens m := ⟨.refl _, fun hj => hj, rfl⟩

theorem Extends.refl (m : Model) : m.Extends m := (Coarsens.refl m).extends

theorem Extends.trans (h : m.Extends n) (h' : n.Extends o) : m.Extends o := by
  obtain ⟨added, he, hb, hp, hc, hs⟩ := h.history
  obtain ⟨added', he', hb', hp', hc', hs'⟩ := h'.history
  have hle := h.vocabulary.size_le
  have hle' := h'.vocabulary.size_le
  refine ⟨h.vocabulary.trans h'.vocabulary, fun hj => h'.joined (h.joined hj), added ++ added',
    ?_, ?_, ?_, ?_, ?_⟩
  · rw [he', he, List.append_assoc]
  · intro e hmem
    rcases List.mem_append.mp hmem with hmem | hmem
    · have := hb e hmem
      omega
    · have := hb' e hmem
      omega
  · intro e hmem
    rcases List.mem_append.mp hmem with hmem | hmem
    · exact hp e hmem
    · exact hp' e hmem
  · intro e hmem
    rcases List.mem_append.mp hmem with hmem | hmem
    · rw [h'.vocabulary.name_eq (hb e hmem).2]
      exact hc e hmem
    · exact hc' e hmem
  · refine List.pairwise_append.mpr ⟨hs, hs', ?_⟩
    intro e hmem f hmem'
    exact Nat.lt_of_lt_of_le (hb e hmem).2 (hb' f hmem').1

theorem Extends.lt (h : m.Extends n) {i : Nat} (hi : i < m.vocabulary.size) :
    i < n.vocabulary.size := Nat.lt_of_lt_of_le hi h.vocabulary.size_le

theorem Extends.mem_history (h : m.Extends n) {e : Application × Nat} (he : e ∈ m.history) :
    e ∈ n.history := by
  obtain ⟨added, heq, -⟩ := h.history
  rw [heq]
  exact List.mem_append_left _ he

theorem Joined.of_pending_subset (hr : ∀ i, n.root i = m.root i) (hp : m.pending ⊆ n.pending)
    {a b : Nat} (hj : m.Joined a b) : n.Joined a b := by
  refine Joined.mono ?_ hj
  rintro a b (he | hmem)
  · refine Joined.of_root_eq ?_
    rw [hr, hr, he]
  · exact Joined.of_mem_pending (hp hmem)

theorem Asks.pending_subset (h : m.Asks n) : m.pending ⊆ n.pending := by
  obtain ⟨asked, rfl⟩ := h
  exact List.subset_append_right _ _

theorem Asks.vocabulary_eq (h : m.Asks n) : n.vocabulary = m.vocabulary := by
  obtain ⟨asked, rfl⟩ := h
  rfl

theorem Asks.history_eq (h : m.Asks n) : n.history = m.history := by
  obtain ⟨asked, rfl⟩ := h
  rfl

theorem Asks.coarsens (h : m.Asks n) : m.Coarsens n := by
  refine ⟨?_, h.joined, h.history_eq⟩
  rw [h.vocabulary_eq]
  exact Vocabulary.Grows.refl _

/-- A record may be refiled or retired, but what it says stays. -/
theorem history_setIfInBounds {i : Nat} {r : Record} (happ : r.app = (m.record i).app)
    (hres : r.result = (m.record i).result) :
    (m.records.setIfInBounds i r).toList.map (fun r => (r.app, r.result)) = m.history := by
  rw [Array.toList_setIfInBounds, List.map_set, history, happ, hres]
  apply List.ext_getElem?
  intro k
  rw [List.getElem?_set]
  split
  · rename_i hik
    subst hik
    split
    · rename_i hlt
      simp at hlt
      simp [record, hlt]
    · rename_i hge
      simp at hge
      simp [hge]
  · rfl

/-- Refiling moves or retires a record and then asks for merges. -/
theorem asks_refile (m : Model) (i : Nat) : ∃ records table,
    ({ m with records, table } : Model).Asks (m.refile i) ∧
      ({ m with records, table } : Model).history = m.history := by
  unfold refile
  dsimp only
  split
  · exact ⟨m.records, m.table, Asks.refl m, rfl⟩
  · split
    · split
      · exact ⟨_, _, asks_check _ i, history_setIfInBounds rfl rfl⟩
      · exact ⟨_, _, asks_enqueue _ _, history_setIfInBounds rfl rfl⟩
    · exact ⟨_, _, asks_check _ i, history_setIfInBounds rfl rfl⟩

theorem refile_frame (m : Model) (i : Nat) :
    (m.refile i).vocabulary = m.vocabulary ∧ (m.refile i).history = m.history ∧
      m.pending ⊆ (m.refile i).pending := by
  obtain ⟨records, table, hasks, hh⟩ := asks_refile m i
  exact ⟨hasks.vocabulary_eq, hasks.history_eq.trans hh, hasks.pending_subset⟩

theorem foldl_refile_frame (moved : List Nat) (m : Model) :
    (moved.foldl refile m).vocabulary = m.vocabulary ∧
      (moved.foldl refile m).history = m.history ∧
      m.pending ⊆ (moved.foldl refile m).pending := by
  induction moved generalizing m with
  | nil => exact ⟨rfl, rfl, List.Subset.refl _⟩
  | cons i rest ih =>
    obtain ⟨hv, hh, hp⟩ := ih (m.refile i)
    obtain ⟨hv', hh', hp'⟩ := refile_frame m i
    exact ⟨hv.trans hv', hh.trans hh', List.Subset.trans hp' hp⟩

end Extending

section Inserting

variable {m : Model}

theorem listing_use (m : Model) (i s k : Nat) :
    (m.use i s).listing k = if m.root s = k then (m.listing k).push i else m.listing k := by
  simp only [use, listing, getElem?_insert]
  split
  · rename_i he
    rw [he]
    rfl
  · rfl

theorem foldl_use_spec (i : Nat) (symbols : List Nat) (m : Model) :
    ∃ uses, symbols.foldl (fun m s => m.use i s) m = { m with uses } ∧
      (∀ k j, j ∈ m.listing k → j ∈ ({ m with uses } : Model).listing k) ∧
      ∀ s ∈ symbols, i ∈ ({ m with uses } : Model).listing (m.root s) := by
  induction symbols generalizing m with
  | nil => exact ⟨m.uses, rfl, fun _ _ h => h, by simp⟩
  | cons s rest ih =>
    obtain ⟨uses, he, hold, hnew⟩ := ih (m.use i s)
    refine ⟨uses, he, ?_, ?_⟩
    · intro k j hj
      refine hold k j ?_
      rw [listing_use]
      split
      · exact Array.mem_push_of_mem i hj
      · exact hj
    · intro x hx
      rcases List.mem_cons.mp hx with rfl | hx
      · refine hold (m.root x) i ?_
        rw [listing_use, if_pos rfl]
        exact Array.mem_push_self
      · exact hnew x hx

/-- The model with a new fact that is filed and listed, but not checked yet. -/
def entered (m : Model) (app : Application) (result : Nat) : Model :=
  (app.places ++ [result]).foldl (fun n s => n.use m.records.size s) { m with
    records := m.records.push ⟨app, result, app.key m.vocabulary, true⟩
    table := m.table.insert (app.key m.vocabulary) m.records.size }

theorem insert_eq (m : Model) (app : Application) (result : Nat) :
    m.insert app result = (m.entered app result).check m.records.size := rfl

theorem entered_spec (m : Model) (app : Application) (result : Nat) :
    ∃ uses, m.entered app result = { m with
      records := m.records.push ⟨app, result, app.key m.vocabulary, true⟩
      table := m.table.insert (app.key m.vocabulary) m.records.size
      uses } ∧
      (∀ k j, j ∈ m.listing k → j ∈ (m.entered app result).listing k) ∧
      ∀ s ∈ app.places ++ [result], m.records.size ∈ (m.entered app result).listing (m.root s) := by
  obtain ⟨uses, he, hold, hnew⟩ := foldl_use_spec m.records.size (app.places ++ [result]) { m with
    records := m.records.push ⟨app, result, app.key m.vocabulary, true⟩
    table := m.table.insert (app.key m.vocabulary) m.records.size }
  refine ⟨uses, he, ?_, ?_⟩
  · intro k j hj
    rw [entered, he]
    exact hold k j hj
  · intro s hs
    rw [entered, he]
    exact hnew s hs

theorem vocabulary_entered (m : Model) (app : Application) (result : Nat) :
    (m.entered app result).vocabulary = m.vocabulary := by
  obtain ⟨uses, he, -⟩ := m.entered_spec app result
  rw [he]

theorem pending_entered (m : Model) (app : Application) (result : Nat) :
    (m.entered app result).pending = m.pending := by
  obtain ⟨uses, he, -⟩ := m.entered_spec app result
  rw [he]

theorem records_entered (m : Model) (app : Application) (result : Nat) :
    (m.entered app result).records =
      m.records.push ⟨app, result, app.key m.vocabulary, true⟩ := by
  obtain ⟨uses, he, -⟩ := m.entered_spec app result
  rw [he]

theorem getElem?_entered (m : Model) (app : Application) (result : Nat) :
    (m.entered app result).records[m.records.size]? =
      some ⟨app, result, app.key m.vocabulary, true⟩ := by
  rw [records_entered]
  exact Array.getElem?_push_size

theorem history_entered (m : Model) (app : Application) (result : Nat) :
    (m.entered app result).history = m.history ++ [(app, result)] := by
  rw [history, records_entered]
  simp [history]

section Entering

variable {app : Application} {result : Nat}

theorem getElem?_push_record (r : Record) {k : Nat} {x : Record} :
    (m.records.push r)[k]? = some x ↔
      k = m.records.size ∧ r = x ∨ m.records[k]? = some x ∧ k ≠ m.records.size := by
  rw [Array.getElem?_push]
  split
  · simp [*]
  · simp [*]

theorem Filed.table_insert_iff (h : m.Filed []) (hfree : m.table[app.key m.vocabulary]? = none)
    {k : Application} {x : Nat} :
    (m.table.insert (app.key m.vocabulary) m.records.size)[k]? = some x ↔
      ∃ y : Record, (m.records.push ⟨app, result, app.key m.vocabulary, true⟩)[x]? = some y ∧
        y.live = true ∧ y.key = k := by
  simp only [getElem?_push_record]
  rw [getElem?_insert]
  constructor
  · intro hx
    split at hx
    · rename_i hk
      cases hx
      exact ⟨_, .inl ⟨rfl, rfl⟩, rfl, hk⟩
    · obtain ⟨y, hy, hyl, hyk⟩ := h.table_iff.mp hx
      exact ⟨y, .inr ⟨hy, Nat.ne_of_lt (Array.getElem?_eq_some_iff.mp hy).choose⟩, hyl, hyk⟩
  · rintro ⟨y, ⟨rfl, rfl⟩ | ⟨hy, -⟩, hyl, hyk⟩
    · rw [if_pos hyk]
    · have hx := h.table_iff.mpr ⟨y, hy, hyl, hyk⟩
      rw [if_neg, hx]
      rintro rfl
      rw [hfree] at hx
      cases hx

theorem filed_entered (h : m.Filed []) (hfree : m.table[app.key m.vocabulary]? = none)
    (happ : ∀ s ∈ app.places, s < m.vocabulary.size) (hres : result < m.vocabulary.size) :
    (m.entered app result).Filed [m.records.size] := by
  obtain ⟨uses, he, hold, hnew⟩ := m.entered_spec app result
  rw [he] at hold hnew ⊢
  refine ⟨h.vocabulary, ?_, h.pending_lt, h.table_insert_iff hfree, ?_, ?_, ?_,
    h.contradiction_iff, ?_⟩
  · intro k x hx s hs
    rcases (getElem?_push_record _).mp hx with ⟨-, rfl⟩ | ⟨hx, -⟩
    · rcases List.mem_append.mp hs with hs | hs
      · exact happ s hs
      · rw [List.mem_singleton.mp hs]
        exact hres
    · exact h.symbols_lt hx s hs
  · intro k x hx hxl
    rcases (getElem?_push_record _).mp hx with ⟨-, rfl⟩ | ⟨hx, -⟩
    · exact .inl rfl
    · exact .inl ((h.key_eq hx hxl).resolve_right (by simp))
  · intro k x hx hxl s hs
    rcases (getElem?_push_record _).mp hx with ⟨rfl, rfl⟩ | ⟨hx, -⟩
    · exact hnew s hs
    · exact hold _ _ (h.listed hx hxl s hs)
  · intro k x hx
    rcases (getElem?_push_record _).mp hx with ⟨-, rfl⟩ | ⟨hx, -⟩
    · exact ⟨_, _, (getElem?_push_record _).mpr (.inl ⟨rfl, rfl⟩), rfl, .refl _ _, .refl _ _⟩
    · obtain ⟨l, y, hy, hyl, hc, hj⟩ := h.covered hx
      have hne := Nat.ne_of_lt (Array.getElem?_eq_some_iff.mp hy).choose
      exact ⟨l, y, (getElem?_push_record _).mpr (.inr ⟨hy, hne⟩), hyl, hc, hj⟩
  · intro k x hx hxl hk p hp
    rcases (getElem?_push_record _).mp hx with ⟨hx, -⟩ | ⟨hx, -⟩
    · exact (hk (List.mem_singleton.mpr hx)).elim
    · exact h.closed hx hxl (by simp) p hp

end Entering

theorem filed_insert (h : m.Filed []) {app : Application} {result : Nat}
    (hfree : m.table[app.key m.vocabulary]? = none)
    (happ : ∀ s ∈ app.places, s < m.vocabulary.size) (hres : result < m.vocabulary.size) :
    (m.insert app result).Filed [] := by
  rw [insert_eq]
  refine filed_check_settle (filed_entered h hfree happ hres) (m.getElem?_entered app result) ?_
  rw [vocabulary_entered]

end Inserting

end Discharge.Congruence.Model
