import Discharge.Proofs.Congruence.Inputs

/-!
Propagation as a loop without a bound. As long as merges are pending, the one in front is taken off
and made, which may put others in its place: refiling a fact asks for merges of its own. Nothing is
supposed of the state that the loop starts from but that all its indices name something. The loop
ends all the same. A merge that asks for something new leaves one class fewer, and one that does not
leaves one fewer to be made. No symbol and no fact is added on the way, and every class that is lost
is counted.
-/

namespace Discharge.Congruence.Model

variable {m n o : Model}

section Anchoring

structure Anchored (m : Model) : Prop where
  vocabulary : m.vocabulary.WellFormed
  places_lt : ∀ e ∈ m.history, ∀ s ∈ e.1.places, s < m.vocabulary.size
  result_lt : ∀ e ∈ m.history, e.2 < m.vocabulary.size
  pending_lt : ∀ p ∈ m.pending, p.1 < m.vocabulary.size ∧ p.2 < m.vocabulary.size

structure Names (m : Model) : Prop where
  table_lt : ∀ {k : Application} {i : Nat}, m.table[k]? = some i → i < m.records.size
  uses_lt : ∀ {k i : Nat}, i ∈ m.listing k → i < m.records.size

structure InRange (m : Model) : Prop where
  anchored : m.Anchored
  names : m.Names

theorem mem_history_of_getElem? {i : Nat} {r : Record} (hr : m.records[i]? = some r) :
    (r.app, r.result) ∈ m.history :=
  List.mem_map_of_mem (Array.mem_toList_iff.mpr (Array.mem_of_getElem? hr))

theorem Filed.anchored {stale : List Nat} (h : m.Filed stale) : m.Anchored := by
  refine ⟨h.vocabulary, ?_, ?_, h.pending_lt⟩
  all_goals
    intro e he
    obtain ⟨r, hr, rfl⟩ := List.mem_map.mp he
    obtain ⟨i, hi⟩ := Array.mem_iff_getElem?.mp (Array.mem_toList_iff.mp hr)
  · exact h.places_lt hi
  · exact h.result_lt hi

namespace Anchored

theorem root_lt (h : m.Anchored) {s : Nat} (hs : s < m.vocabulary.size) :
    m.root s < m.vocabulary.size := h.vocabulary.root_lt hs

theorem record_lt (h : m.Anchored) (i : Nat) :
    (∀ s ∈ (m.record i).app.places, s < m.vocabulary.size) ∧
      (m.record i).result < m.vocabulary.size := by
  cases hr : m.records[i]? with
  | some r =>
    rw [record_eq hr]
    exact ⟨h.places_lt _ (mem_history_of_getElem? hr), h.result_lt _ (mem_history_of_getElem? hr)⟩
  | none =>
    have hnone : m.record i = default := by simp [record, hr]
    have hpos := h.vocabulary.truth_lt
    rw [hnone]
    refine ⟨?_, hpos⟩
    intro s hs
    rw [List.mem_singleton.mp (show s ∈ [0] from hs)]
    exact hpos

theorem enqueue (h : m.Anchored) {p : Nat × Nat} (h₁ : p.1 < m.vocabulary.size)
    (h₂ : p.2 < m.vocabulary.size) : (m.enqueue p).Anchored := by
  by_cases hr : m.root p.1 = m.root p.2
  · rw [enqueue_eq_self hr]
    exact h
  · rw [enqueue_of_ne hr]
    exact ⟨h.vocabulary, h.places_lt, h.result_lt,
      List.forall_mem_cons.mpr ⟨⟨h₁, h₂⟩, h.pending_lt⟩⟩

theorem foldl_enqueue {ps : List (Nat × Nat)} (h : m.Anchored)
    (hlt : ∀ p ∈ ps, p.1 < m.vocabulary.size ∧ p.2 < m.vocabulary.size) :
    (ps.foldl Model.enqueue m).Anchored := by
  induction ps generalizing m with
  | nil => exact h
  | cons p rest ih =>
    obtain ⟨hp, hrest⟩ := List.forall_mem_cons.mp hlt
    refine ih (h.enqueue hp.1 hp.2) ?_
    rw [(asks_enqueue m p).vocabulary_eq]
    exact hrest

theorem check (h : m.Anchored) (i : Nat) : (m.check i).Anchored := by
  obtain ⟨hplaces, hresult⟩ := h.record_lt i
  refine h.foldl_enqueue ?_
  intro p hp
  have hargs : ∀ a ∈ (m.record i).app.args.map m.root, a < m.vocabulary.size := by
    intro a ha
    obtain ⟨s, hs, rfl⟩ := List.mem_map.mp ha
    exact h.root_lt (hplaces s (List.mem_cons_of_mem _ hs))
  exact (mem_consequences_iff.mp hp).both hargs (h.root_lt hresult)
    (h.root_lt h.vocabulary.truth_lt) (h.root_lt h.vocabulary.falsehood_lt)

theorem file (h : m.Anchored) (i : Nat) (key : Application) (live : Bool)
    (table : Std.TreeMap Application Nat) :
    ({ m with table, records := m.records.setIfInBounds i { m.record i with key, live } } :
      Model).Anchored := by
  have hh : ({ m with table, records := m.records.setIfInBounds i { m.record i with key, live } } :
      Model).history = m.history := history_setIfInBounds rfl rfl
  exact ⟨h.vocabulary, hh ▸ h.places_lt, hh ▸ h.result_lt, h.pending_lt⟩

theorem refile (h : m.Anchored) (i : Nat) : (m.refile i).Anchored := by
  obtain ⟨-, hresult⟩ := h.record_lt i
  unfold Model.refile
  dsimp only
  split
  · exact h
  · split
    · rename_i j _
      split
      · exact (h.file i _ _ _).check i
      · refine Anchored.enqueue (h.file i _ _ _) ?_ ?_
        · exact hresult
        · exact (h.record_lt j).2
    · exact (h.file i _ _ _).check i

theorem foldl_refile (moved : List Nat) (h : m.Anchored) :
    (moved.foldl Model.refile m).Anchored := by
  induction moved generalizing m with
  | nil => exact h
  | cons i rest ih => exact ih (h.refile i)

theorem setPending (h : m.Anchored) {pending : List (Nat × Nat)} (hsub : pending ⊆ m.pending) :
    ({ m with pending } : Model).Anchored :=
  ⟨h.vocabulary, h.places_lt, h.result_lt, fun p hp => h.pending_lt p (hsub hp)⟩

theorem settled (h : m.Anchored) : m.settled.Anchored := h.setPending (List.dropWhile_subset _)

theorem joined (h : m.Anchored) {v : Vocabulary} {winner loser : Nat}
    (j : m.vocabulary.Joins v winner loser) :
    (m.joined v winner loser m.pending).Anchored := by
  refine ⟨j.wellFormed h.vocabulary, ?_, ?_, ?_⟩
  · intro e he s hs
    change s < v.size
    rw [j.size_eq]
    exact h.places_lt e he s hs
  · intro e he
    change e.2 < v.size
    rw [j.size_eq]
    exact h.result_lt e he
  · intro p hp
    change p.1 < v.size ∧ p.2 < v.size
    rw [j.size_eq]
    exact h.pending_lt p hp

end Anchored

end Anchoring

section Uniting

/-- What making merges leaves as it is: the symbols and the facts. Each class that is lost is
counted. -/
structure Merges (m n : Model) : Prop where
  entries_eq : n.vocabulary.entries = m.vocabulary.entries
  history_eq : n.history = m.history
  merges_le : m.merges ≤ n.merges
  balance : n.vocabulary.classCount + n.merges = m.vocabulary.classCount + m.merges

theorem Merges.refl (m : Model) : m.Merges m := ⟨rfl, rfl, Nat.le_refl _, rfl⟩

theorem Merges.trans (h : m.Merges n) (h' : n.Merges o) : m.Merges o where
  entries_eq := h'.entries_eq.trans h.entries_eq
  history_eq := h'.history_eq.trans h.history_eq
  merges_le := Nat.le_trans h.merges_le h'.merges_le
  balance := h'.balance.trans h.balance

theorem Merges.size_eq (h : m.Merges n) : n.vocabulary.size = m.vocabulary.size :=
  congrArg Array.size h.entries_eq

theorem Asks.merges_eq (h : m.Asks n) : n.merges = m.merges := by
  obtain ⟨asked, rfl⟩ := h
  rfl

theorem foldl_refile_merges (moved : List Nat) (m : Model) :
    (moved.foldl refile m).merges = m.merges := by
  induction moved generalizing m with
  | nil => rfl
  | cons i rest ih =>
    obtain ⟨records, table, hasks, -⟩ := asks_refile m i
    exact (ih (m.refile i)).trans hasks.merges_eq

theorem unite_spec (h : m.Anchored) {a b : Nat} (ha : a < m.vocabulary.size)
    (hb : b < m.vocabulary.size) (hne : m.root a ≠ m.root b) :
    (m.unite a b).Anchored ∧ m.Merges (m.unite a b) ∧ (m.unite a b).merges = m.merges + 1 ∧
      (m.unite a b).vocabulary.classCount + 1 = m.vocabulary.classCount := by
  obtain ⟨v, winner, loser, j, -, he⟩ := unite_eq h.vocabulary ha hb hne
  obtain ⟨hv, hh, -⟩ := foldl_refile_frame (m.listing loser).toList
    (m.joined v winner loser m.pending)
  have hmerges := foldl_refile_merges (m.listing loser).toList (m.joined v winner loser m.pending)
  have hcount := j.classCount_eq
  change _ = m.merges + 1 at hmerges
  rw [he]
  refine ⟨(h.joined j).foldl_refile _, ⟨?_, hh, ?_, ?_⟩, hmerges, ?_⟩
  · rw [hv]
    exact j.entries_eq
  · omega
  · rw [hv]
    change v.classCount + _ = _
    omega
  · rw [hv]
    exact hcount

theorem unite_of_eq {a b : Nat} (he : m.root a = m.root b) : m.unite a b = m := by
  simp [unite, he]

end Uniting

section Naming

theorem Asks.names (h : m.Asks n) (hm : m.Names) : n.Names := by
  obtain ⟨asked, rfl⟩ := h
  exact ⟨hm.table_lt, hm.uses_lt⟩

/-- A fact on record may be filed under another key, and its old one be given up. -/
theorem Names.file (h : m.Names) {i : Nat} {r : Record} {table : Std.TreeMap Application Nat}
    (ht : ∀ {k : Application} {x : Nat}, table[k]? = some x → x < m.records.size) :
    ({ m with table, records := m.records.setIfInBounds i r } : Model).Names := by
  have hsize : (m.records.setIfInBounds i r).size = m.records.size := Array.size_setIfInBounds
  refine ⟨?_, ?_⟩
  · intro k x hx
    change x < (m.records.setIfInBounds i r).size
    rw [hsize]
    exact ht hx
  · intro k x hx
    change x < (m.records.setIfInBounds i r).size
    rw [hsize]
    exact h.uses_lt hx

theorem Names.refile (h : m.Names) {i : Nat} (hi : i < m.records.size) : (m.refile i).Names := by
  have hkept : ∀ {k : Application} {x : Nat},
      (if m.table[(m.record i).key]? == some i then m.table.erase (m.record i).key
        else m.table)[k]? = some x → x < m.records.size := by
    intro k x hx
    split at hx
    · rw [getElem?_erase] at hx
      split at hx
      · contradiction
      · exact h.table_lt hx
    · exact h.table_lt hx
  have hfiled : ∀ {k k' : Application} {x : Nat},
      ((if m.table[(m.record i).key]? == some i then m.table.erase (m.record i).key
        else m.table).insert k i)[k']? = some x → x < m.records.size := by
    intro k k' x hx
    rw [getElem?_insert] at hx
    split at hx
    · cases hx
      exact hi
    · exact hkept hx
  unfold Model.refile
  dsimp only
  split
  · exact h
  · split
    · split
      · exact (asks_check _ i).names (h.file hfiled)
      · exact (asks_enqueue _ _).names (h.file hkept)
    · exact (asks_check _ i).names (h.file hfiled)

theorem Names.foldl_refile {moved : List Nat} (h : m.Names)
    (hlt : ∀ i ∈ moved, i < m.records.size) : (moved.foldl Model.refile m).Names := by
  induction moved generalizing m with
  | nil => exact h
  | cons i rest ih =>
    obtain ⟨hi, hrest⟩ := List.forall_mem_cons.mp hlt
    have hsize := congrArg List.length (refile_frame m i).2.1
    simp only [history, List.length_map, Array.length_toList] at hsize
    refine ih (h.refile hi) ?_
    rw [hsize]
    exact hrest

theorem Names.use (h : m.Names) {i : Nat} (hi : i < m.records.size) (s : Nat) :
    (m.use i s).Names := by
  refine ⟨h.table_lt, ?_⟩
  intro k x hx
  change x < m.records.size
  rw [listing_use] at hx
  split at hx
  · rcases Array.mem_push.mp hx with hx | rfl
    · exact h.uses_lt hx
    · exact hi
  · exact h.uses_lt hx

theorem Names.foldl_use (h : m.Names) {i : Nat} (hi : i < m.records.size) (symbols : List Nat) :
    (symbols.foldl (fun n s => n.use i s) m).Names := by
  induction symbols generalizing m with
  | nil => exact h
  | cons s rest ih => exact ih (h.use hi s) hi

theorem Names.entered (h : m.Names) (app : Application) (result : Nat) :
    (m.entered app result).Names := by
  have hsize : ∀ r : Record, (m.records.push r).size = m.records.size + 1 := fun _ =>
    Array.size_push _
  refine Names.foldl_use ⟨?_, ?_⟩ ?_ _
  · intro k i hi
    change i < (m.records.push _).size
    change (m.table.insert _ _)[k]? = some i at hi
    rw [hsize]
    rw [getElem?_insert] at hi
    split at hi
    · cases hi
      exact Nat.lt_succ_self _
    · exact Nat.lt_succ_of_lt (h.table_lt hi)
  · intro k i hi
    change i < (m.records.push _).size
    rw [hsize]
    exact Nat.lt_succ_of_lt (h.uses_lt hi)
  · change m.records.size < (m.records.push _).size
    rw [hsize]
    exact Nat.lt_succ_self _

theorem Names.joined (h : m.Names) (v : Vocabulary) (winner loser : Nat) :
    (m.joined v winner loser m.pending).Names := by
  refine ⟨h.table_lt, ?_⟩
  intro k i hi
  change i < m.records.size
  rw [listing_joined] at hi
  split at hi
  · rcases Array.mem_append.mp hi with hi | hi
    · exact h.uses_lt hi
    · exact h.uses_lt hi
  · split at hi
    · simp at hi
    · exact h.uses_lt hi

theorem Names.unite (h : m.Names) (a b : Nat) : (m.unite a b).Names := by
  by_cases he : m.root a = m.root b
  · rw [unite_of_eq he]
    exact h
  · rw [unite_of_ne he]
    refine (h.joined _ _ _).foldl_refile ?_
    intro i hi
    exact h.uses_lt (Array.mem_toList_iff.mp hi)

end Naming

section Turning

/-- One turn of the loop: the merge in front is taken off and made. -/
def Turn (m n : Model) : Prop :=
  ∃ p rest, m.pending = p :: rest ∧ n = ({ m with pending := rest } : Model).unite p.1 p.2

abbrev Turns : Model → Model → Prop := Relation.ReflTransGen Turn

/-- What is still to be done: classes that may be lost, and merges that may be made. -/
def outstanding (m : Model) : Nat × Nat := (m.vocabulary.classCount, m.pending.length)

theorem Turn.eq (h : m.Turn n) (h' : m.Turn o) : n = o := by
  obtain ⟨p, rest, hp, rfl⟩ := h
  obtain ⟨q, rest', hq, rfl⟩ := h'
  obtain ⟨rfl, rfl⟩ := List.cons.inj (hp.symm.trans hq)
  rfl

/-- A turn costs a class, or else a pending merge. -/
theorem Turn.spec (h : m.Turn n) (hm : m.Anchored) :
    n.Anchored ∧ m.Merges n ∧ Prod.Lex (· < ·) (· < ·) n.outstanding m.outstanding := by
  obtain ⟨p, rest, hp, rfl⟩ := h
  obtain ⟨h₁, h₂⟩ := hm.pending_lt p (by simp [hp])
  have hrest : ({ m with pending := rest } : Model).Anchored :=
    hm.setPending (by simp [hp])
  by_cases he : m.root p.1 = m.root p.2
  · rw [unite_of_eq (m := { m with pending := rest }) he]
    refine ⟨hrest, ⟨rfl, rfl, Nat.le_refl _, rfl⟩, Prod.Lex.right _ ?_⟩
    simp [hp]
  · obtain ⟨hanchored, ⟨hentries, hhistory, hle, hbalance⟩, -, hcount⟩ :=
      unite_spec hrest (a := p.1) (b := p.2) h₁ h₂ he
    refine ⟨hanchored, ⟨hentries, hhistory, hle, hbalance⟩, Prod.Lex.left _ _ ?_⟩
    exact Nat.lt_of_succ_le (Nat.le_of_eq hcount)

theorem Turns.merges (h : m.Turns n) (hm : m.Anchored) : n.Anchored ∧ m.Merges n := by
  induction h with
  | refl => exact ⟨hm, .refl m⟩
  | tail _ hturn ih =>
    obtain ⟨hanchored, hstep, -⟩ := hturn.spec ih.1
    exact ⟨hanchored, ih.2.trans hstep⟩

theorem Turn.names (h : m.Turn n) (hm : m.Names) : n.Names := by
  obtain ⟨p, rest, -, rfl⟩ := h
  have hrest : ({ m with pending := rest } : Model).Names := ⟨hm.table_lt, hm.uses_lt⟩
  exact hrest.unite _ _

theorem Turns.inRange (h : m.Turns n) (hm : m.InRange) : n.InRange := by
  refine ⟨(h.merges hm.anchored).1, ?_⟩
  induction h with
  | refl => exact hm.names
  | tail _ hturn ih => exact hturn.names ih

/-- There is no turn without a pending merge, so the loop has one end at most. -/
theorem Turns.eq_of_pending_nil (h : m.Turns n) (h' : m.Turns o) (hn : n.pending = [])
    (ho : o.pending = []) : n = o := by
  induction h using Relation.ReflTransGen.head_induction_on with
  | refl =>
    rcases h'.cases_head with rfl | ⟨x, ⟨p, rest, hp, -⟩, -⟩
    · rfl
    · simp [hp] at hn
  | head hturn _ ih =>
    rcases h'.cases_head with rfl | ⟨x, hturn', hrest⟩
    · obtain ⟨p, rest, hp, -⟩ := hturn
      simp [hp] at ho
    · rw [hturn.eq hturn'] at ih
      exact ih hrest

theorem turns_settled (m : Model) : m.Turns m.settled := by
  generalize hp : m.pending = pending
  induction pending generalizing m with
  | nil =>
    have hself : m.settled = m := by rw [settled, hp, List.dropWhile_nil, ← hp]
    rw [hself]
  | cons p rest ih =>
    by_cases he : m.root p.1 = m.root p.2
    · have hturn : m.Turn { m with pending := rest } :=
        ⟨p, rest, hp, (unite_of_eq (m := { m with pending := rest }) he).symm⟩
      have hsame : m.settled = ({ m with pending := rest } : Model).settled := by
        rw [settled, hp, List.dropWhile_cons_of_pos (by simpa using he)]
        rfl
      rw [hsame]
      exact .head hturn (ih { m with pending := rest } rfl)
    · have hself : m.settled = m := by
        rw [settled, hp, List.dropWhile_cons_of_neg (by simpa using he), ← hp]
      rw [hself]

theorem turns_propagateWithin (fuel : Nat) (h : m.Anchored)
    (hc : m.vocabulary.classCount ≤ fuel + 1) :
    m.Turns (propagateWithin fuel m) ∧ (propagateWithin fuel m).pending = [] := by
  induction fuel generalizing m with
  | zero => exact ⟨turns_settled m, pending_settled h.vocabulary h.pending_lt hc⟩
  | succ fuel ih =>
    unfold propagateWithin
    split
    · rename_i hp
      exact ⟨turns_settled m, hp⟩
    · rename_i p rest hp
      have hturn : m.settled.Turn _ := ⟨p, rest, hp, rfl⟩
      obtain ⟨h₁, h₂⟩ := h.settled.pending_lt p (by simp [hp])
      have hrest : ({ m.settled with pending := rest } : Model).Anchored :=
        h.settled.setPending (by simp [hp])
      obtain ⟨hanchored, -, -, hcount⟩ := unite_spec hrest (a := p.1) (b := p.2) h₁ h₂
        (root_ne_of_settled (m := m) hp)
      change _ = m.vocabulary.classCount at hcount
      obtain ⟨hturns, hdone⟩ := ih hanchored (by omega)
      exact ⟨(turns_settled m).trans (.head hturn hturns), hdone⟩

theorem turns_propagate (h : m.Anchored) : m.Turns m.propagate ∧ m.propagate.pending = [] := by
  refine turns_propagateWithin _ h ?_
  have := m.vocabulary.classCount_le_size
  omega

end Turning

end Discharge.Congruence.Model
