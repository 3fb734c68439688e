import Discharge.Proofs.Congruence.Inputs
import Discharge.Proofs.Congruence.Interpretation

/-!
Models are sound. Let every created symbol be read as the application that it was created for.
Then every merge that is made or asked for is between symbols of one value, provided the assumed
terms are true: demands of the rules are granted by lawful connectives, and congruent applications
have one value. So symbols of one class have one value, and a contradictory model has no
interpretation in which the truth values differ.
-/

namespace Discharge.Congruence

universe u

variable {D : Type u} {I : Interpretation D}

def Vocabulary.value (v : Vocabulary) (I : Interpretation D) (i : Nat) : D := I.value (v.name i)

def Application.value (v : Vocabulary) (I : Interpretation D) (a : Application) : D :=
  I.apply (v.value I a.op) (a.args.map (v.value I))

theorem Vocabulary.Grows.value_eq {v w : Vocabulary} (g : v.Grows w) {i : Nat} (hi : i < v.size) :
    w.value I i = v.value I i := by
  rw [value, value, g.name_eq hi]

theorem Vocabulary.Grows.value_app {v w : Vocabulary} (g : v.Grows w) {a : Application}
    (ha : ∀ s ∈ a.places, s < v.size) : a.value w I = a.value v I := by
  have hop := g.value_eq (I := I) (ha a.op Application.op_mem_places)
  have hargs : a.args.map (w.value I) = a.args.map (v.value I) := by
    apply List.map_congr_left
    intro s hs
    exact g.value_eq (ha s (Application.arg_mem_places hs))
  rw [Application.value, Application.value, hop, hargs]

theorem Vocabulary.WellFormed.value_truth {v : Vocabulary} (h : v.WellFormed) :
    v.value I truth = I.truth := by
  rw [value, name, h.entry_truth]
  rfl

theorem Vocabulary.WellFormed.value_falsehood {v : Vocabulary} (h : v.WellFormed) :
    v.value I falsehood = I.falsehood := by
  rw [value, name, h.entry_falsehood]
  rfl

def Interpretation.Exchange (I : Interpretation D) : Prop :=
  ∀ op args args', isCommutative op = true → args.Perm args' →
    I.apply (I.value op) args = I.apply (I.value op) args'

/-- Symbols of one class have one value. -/
structure Vocabulary.Respects (v : Vocabulary) (I : Interpretation D) : Prop where
  value_eq : ∀ {i j : Nat}, i < v.size → j < v.size → v.root i = v.root j →
    v.value I i = v.value I j

theorem Vocabulary.Respects.value_root {v : Vocabulary} (hr : v.Respects I) (h : v.WellFormed)
    {i : Nat} (hi : i < v.size) : v.value I (v.root i) = v.value I i :=
  hr.value_eq (h.root_lt hi) hi (h.root_root i)

theorem Vocabulary.Respects.map_value_root {v : Vocabulary} (hr : v.Respects I) (h : v.WellFormed)
    {l : List Nat} (hl : ∀ s ∈ l, s < v.size) :
    (l.map v.root).map (v.value I) = l.map (v.value I) := by
  rw [List.map_map]
  apply List.map_congr_left
  intro s hs
  exact hr.value_root h (hl s hs)

theorem Application.Congruent.value_eq_of_exchange {v : Vocabulary} {a b : Application}
    (hc : a.Congruent v b) (hx : I.Exchange) (hr : v.Respects I) (h : v.WellFormed)
    (ha : ∀ s ∈ a.places, s < v.size) (hb : ∀ s ∈ b.places, s < v.size) :
    a.value v I = b.value v I := by
  have hopa : a.op < v.size := ha a.op (by simp [places])
  have hopb : b.op < v.size := hb b.op (by simp [places])
  have hma := hr.map_value_root (l := a.args) h fun s hs => ha s (by simp [places, hs])
  have hmb := hr.map_value_root (l := b.args) h fun s hs => hb s (by simp [places, hs])
  have hop : v.value I a.op = v.value I b.op := hr.value_eq hopa hopb hc.op_eq
  rw [value, value, ← hma, ← hmb, ← hop]
  rcases hc.args_eq with he | ⟨s, hs, hroot, hcomm⟩
  · rw [he]
  · rw [← hr.value_eq hs hopa hroot]
    exact hx _ _ _ hcomm (hc.args_perm.map _)

theorem Application.Congruent.value_eq {v : Vocabulary} {a b : Application}
    (hc : a.Congruent v b) (hI : I.Lawful) (hr : v.Respects I) (h : v.WellFormed)
    (ha : ∀ s ∈ a.places, s < v.size) (hb : ∀ s ∈ b.places, s < v.size) :
    a.value v I = b.value v I :=
  hc.value_eq_of_exchange hI.exchange hr h ha hb

namespace Model

/-- Every created symbol is read as the application that it was created for. -/
def Reads (m : Model) (I : Interpretation D) : Prop :=
  ∀ e ∈ m.history, m.vocabulary.value I e.2 = e.1.value m.vocabulary I

/-- The classes of a model are those of an interpretation, as far as merges were made or asked
for. -/
structure Agrees (m : Model) (I : Interpretation D) : Prop where
  respects : m.vocabulary.Respects I
  pending_eq : ∀ p ∈ m.pending, m.vocabulary.value I p.1 = m.vocabulary.value I p.2

section Merging

variable {m n : Model} {stale : List Nat} {i : Nat} {r : Record}

theorem mem_history (hr : m.records[i]? = some r) : (r.app, r.result) ∈ m.history := by
  rw [history, List.mem_map]
  exact ⟨r, Array.mem_toList_iff.mpr (Array.mem_of_getElem? hr), rfl⟩

theorem exists_record_of_mem_history {e : Application × Nat} (he : e ∈ m.history) :
    ∃ (i : Nat) (r : Record), m.records[i]? = some r ∧ e = (r.app, r.result) := by
  rw [history, List.mem_map] at he
  obtain ⟨r, hr, rfl⟩ := he
  obtain ⟨i, hi⟩ := Array.mem_iff_getElem?.mp (Array.mem_toList_iff.mp hr)
  exact ⟨i, r, hi, rfl⟩

theorem Reads.of_extends (hread : n.Reads I) (h : m.Filed stale) (hext : m.Extends n) :
    m.Reads I := by
  intro e he
  obtain ⟨i, r, hr, rfl⟩ := exists_record_of_mem_history he
  have heq := hread _ (hext.mem_history he)
  rw [hext.vocabulary.value_eq (h.result_lt hr), hext.vocabulary.value_app (h.places_lt hr)] at heq
  exact heq

theorem agrees_enqueue (ha : m.Agrees I) {p : Nat × Nat}
    (hp : m.vocabulary.value I p.1 = m.vocabulary.value I p.2) : (m.enqueue p).Agrees I := by
  by_cases hr : m.root p.1 = m.root p.2
  · rw [enqueue_eq_self hr]
    exact ha
  · rw [enqueue_of_ne hr]
    refine ⟨ha.respects, ?_⟩
    intro q hq
    rcases List.mem_cons.mp hq with rfl | hq
    · exact hp
    · exact ha.pending_eq q hq

theorem agrees_foldl_enqueue {ps : List (Nat × Nat)} (ha : m.Agrees I)
    (hps : ∀ p ∈ ps, m.vocabulary.value I p.1 = m.vocabulary.value I p.2) :
    (ps.foldl enqueue m).Agrees I := by
  induction ps generalizing m with
  | nil => exact ha
  | cons p rest ih =>
    refine ih (agrees_enqueue ha (hps p List.mem_cons_self)) ?_
    intro q hq
    rw [(asks_enqueue m p).vocabulary_eq]
    exact hps q (List.mem_cons_of_mem _ hq)

/-- What the check of a fact asks for holds, since the fact does. -/
theorem agrees_check (hI : I.Lawful) (h : m.Filed stale) (hread : m.Reads I) (ha : m.Agrees I)
    (hr : m.records[i]? = some r) : (m.check i).Agrees I := by
  have hv := h.vocabulary
  have hroot := fun {s : Nat} => @Vocabulary.Respects.value_root D I m.vocabulary ha.respects hv s
  have hplaces := h.places_lt hr
  have hop : m.vocabulary.value I r.app.op = I.value (m.vocabulary.rootName r.app.op) :=
    (hroot (h.op_lt hr)).symm
  have hresult : m.vocabulary.value I (m.root r.result) =
      I.apply (I.value (m.vocabulary.rootName r.app.op))
        ((r.app.args.map m.root).map (m.vocabulary.value I)) := by
    have hmap := ha.respects.map_value_root hv
      (l := r.app.args) fun s hs => hplaces s (Application.arg_mem_places hs)
    change _ = I.apply _ ((r.app.args.map m.vocabulary.root).map _)
    rw [hmap, ← hop]
    exact (hroot (h.result_lt hr)).trans (hread _ (mem_history hr))
  have htruth : m.vocabulary.value I (m.root Vocabulary.truth) = I.truth :=
    (hroot hv.truth_lt).trans hv.value_truth
  have hfalse : m.vocabulary.value I (m.root Vocabulary.falsehood) = I.falsehood :=
    (hroot hv.falsehood_lt).trans hv.value_falsehood
  rw [check_eq hr]
  refine agrees_foldl_enqueue ha ?_
  intro p hp
  have hd := (mem_consequences_iff.mp hp).map (m.vocabulary.value I)
  rw [hresult, htruth, hfalse] at hd
  exact hI.eq_of_demand hd

theorem reads_of_history_eq (hread : m.Reads I) (hv : n.vocabulary = m.vocabulary)
    (hh : n.history = m.history) : n.Reads I := by
  intro e he
  rw [hh] at he
  rw [hv]
  exact hread e he

theorem agrees_refile (hI : I.Lawful) (h : m.Filed (i :: stale)) (hread : m.Reads I)
    (ha : m.Agrees I) : (m.refile i).Agrees I := by
  have hrefiles := h.refiles i
  generalize m.refile i = n at hrefiles ⊢
  cases hrefiles with
  | idle => exact ha
  | rekey hr hl hfree =>
    refine agrees_check hI (filed_rekey h hr hl hfree) ?_ ⟨ha.respects, ha.pending_eq⟩
      (getElem?_rekeyed hr)
    refine reads_of_history_eq hread rfl ?_
    exact history_setIfInBounds (by rw [record_eq hr]) (by rw [record_eq hr])
  | @retire r s _ hr hl _ hs hsl hkey =>
    have hcong := Application.Congruent.of_key_eq h.vocabulary (h.op_lt hr)
      (h.key_eq_of_found hs hsl hkey)
    refine agrees_enqueue (m := m.retired i r) ⟨ha.respects, ha.pending_eq⟩ ?_
    change m.vocabulary.value I r.result = m.vocabulary.value I s.result
    rw [hread _ (mem_history hr), hread _ (mem_history hs)]
    exact hcong.value_eq hI ha.respects h.vocabulary (h.places_lt hr) (h.places_lt hs)

theorem agrees_foldl_refile {moved : List Nat} (hI : I.Lawful) (h : m.Filed moved)
    (hread : m.Reads I) (ha : m.Agrees I) : (moved.foldl refile m).Agrees I := by
  induction moved generalizing m with
  | nil => exact ha
  | cons i rest ih =>
    refine ih (filed_refile h) ?_ (agrees_refile hI h hread ha)
    obtain ⟨hv, hh, -⟩ := refile_frame m i
    exact reads_of_history_eq hread hv hh

theorem Reads.of_coarsens (hread : m.Reads I) (h : m.Filed stale) (hc : m.Coarsens n) :
    n.Reads I := by
  intro e he
  rw [hc.history_eq] at he
  have heq := hread e he
  obtain ⟨i, r, hr, rfl⟩ := exists_record_of_mem_history he
  rw [hc.vocabulary.value_eq (h.result_lt hr), hc.vocabulary.value_app (h.places_lt hr)]
  exact heq

theorem respects_joins {v w : Vocabulary} {winner loser a b : Nat} (h : v.WellFormed)
    (hr : v.Respects I) (j : v.Joins w winner loser) (ha : a < v.size) (hb : b < v.size)
    (hne : v.root a ≠ v.root b) (hroot : w.root a = w.root b)
    (hval : v.value I a = v.value I b) : w.Respects I := by
  have hval' : v.value I (v.root a) = v.value I (v.root b) := by
    rw [hr.value_root h ha, hr.value_root h hb, hval]
  -- Of the two roots one is the winner and the other the loser.
  have hwl : v.value I winner = v.value I loser := by
    rw [j.root_eq, j.root_eq] at hroot
    by_cases hal : v.root a = loser
    · rw [if_pos hal, if_neg (by rw [← hal]; exact Ne.symm hne)] at hroot
      rw [hroot, ← hal, hval']
    · by_cases hbl : v.root b = loser
      · rw [if_neg hal, if_pos hbl] at hroot
        rw [← hroot, ← hbl, hval']
      · rw [if_neg hal, if_neg hbl] at hroot
        exact (hne hroot).elim
  have hw : ∀ {i}, i < v.size → v.value I (w.root i) = v.value I i := by
    intro i hi
    rw [j.root_eq]
    split
    · rename_i hl
      rw [hwl, ← hl, hr.value_root h hi]
    · exact hr.value_root h hi
  have hsame : ∀ i, w.value I i = v.value I i := by
    intro i
    rw [Vocabulary.value, Vocabulary.value, j.name_eq]
  refine ⟨?_⟩
  intro i k hi hk he
  rw [j.size_eq] at hi hk
  rw [hsame, hsame, ← hw hi, ← hw hk, he]

theorem agrees_unite (hI : I.Lawful) (h : m.Filed []) {p : Nat × Nat} {rest : List (Nat × Nat)}
    (hp : m.pending = p :: rest) (hne : m.root p.1 ≠ m.root p.2) (hread : m.Reads I)
    (ha : m.Agrees I) : (({ m with pending := rest } : Model).unite p.1 p.2).Agrees I := by
  have hlt := h.pending_lt p (by simp [hp])
  obtain ⟨v, winner, loser, j, hroot, he⟩ :=
    @unite_eq { m with pending := rest } h.vocabulary p.1 p.2 hlt.1 hlt.2 hne
  change _ = (m.listing loser).toList.foldl refile (m.joined v winner loser rest) at he
  change m.vocabulary.Joins v winner loser at j
  have hsame : ∀ i, v.value I i = m.vocabulary.value I i := by
    intro i
    rw [Vocabulary.value, Vocabulary.value, j.name_eq]
  rw [he]
  refine agrees_foldl_refile hI (filed_joined h j hp hroot) ?_ ⟨?_, ?_⟩
  · intro e hmem
    have heq := hread e hmem
    change v.value I e.2 = e.1.value v I
    rw [Application.value, hsame, hsame, heq, Application.value]
    congr 1
    exact List.map_congr_left fun s _ => (hsame s).symm
  · exact respects_joins h.vocabulary ha.respects j hlt.1 hlt.2 hne hroot
      (ha.pending_eq p (by simp [hp]))
  · intro q hq
    change v.value I q.1 = v.value I q.2
    rw [hsame, hsame]
    exact ha.pending_eq q (by rw [hp]; exact List.mem_cons_of_mem _ hq)

theorem agrees_settled (ha : m.Agrees I) : m.settled.Agrees I :=
  ⟨ha.respects, fun p hp => ha.pending_eq p (List.dropWhile_subset _ hp)⟩

theorem agrees_propagateWithin (fuel : Nat) (hI : I.Lawful) (h : m.Filed []) (hread : m.Reads I)
    (ha : m.Agrees I) : (propagateWithin fuel m).Agrees I := by
  induction fuel generalizing m with
  | zero => exact agrees_settled ha
  | succ fuel ih =>
    unfold propagateWithin
    split
    · exact agrees_settled ha
    · rename_i p rest hp
      have hne : m.settled.root p.1 ≠ m.settled.root p.2 := root_ne_of_settled (m := m) hp
      obtain ⟨hfiled, hext, -⟩ := unite_front (filed_settled h) hp hne
      have hread' : m.settled.Reads I := reads_of_history_eq hread rfl rfl
      refine ih hfiled ?_ (agrees_unite hI (filed_settled h) hp hne hread' (agrees_settled ha))
      exact hread'.of_coarsens (filed_settled h) hext

theorem agrees_propagate (hI : I.Lawful) (h : m.Filed []) (hread : m.Reads I)
    (ha : m.Agrees I) : m.propagate.Agrees I :=
  agrees_propagateWithin _ hI h hread ha

end Merging

section Placing

variable {m n : Model}

theorem respects_of_roots_eq {v w : Vocabulary} (hr : v.Respects I) (h : v.WellFormed)
    (g : v.Grows w) (hroot : ∀ i, w.root i = v.root i) : w.Respects I := by
  refine ⟨?_⟩
  intro i j hi hj he
  rw [hroot, hroot] at he
  by_cases hlt : i < v.size
  · have hjlt : j < v.size := by
      refine h.lt_of_root_lt ?_
      rw [← he]
      exact h.root_lt hlt
    rw [g.value_eq hlt, g.value_eq hjlt]
    exact hr.value_eq hlt hjlt he
  · -- A new symbol is alone in its class.
    have hjge : ¬ j < v.size := by
      intro hjlt
      refine hlt (h.lt_of_root_lt ?_)
      rw [he]
      exact h.root_lt hjlt
    rw [Vocabulary.root_of_ge h (Nat.le_of_not_lt hlt),
      Vocabulary.root_of_ge h (Nat.le_of_not_lt hjge)] at he
    rw [he]

theorem agrees_setVocabulary (h : m.Filed []) (ha : m.Agrees I) {v : Vocabulary}
    (g : m.vocabulary.Grows v) (hroot : ∀ i, v.root i = m.root i) :
    ({ m with vocabulary := v } : Model).Agrees I := by
  refine ⟨respects_of_roots_eq ha.respects h.vocabulary g hroot, ?_⟩
  intro p hp
  have hlt := h.pending_lt p hp
  change v.value I p.1 = v.value I p.2
  rw [g.value_eq hlt.1, g.value_eq hlt.2]
  exact ha.pending_eq p hp

/-- A model that stands for a term: symbols of one class have one value, and the symbol given has
the value of the term. -/
structure Denotes (n : Model) (I : Interpretation D) (i : Nat) (d : D) : Prop where
  agrees : n.Agrees I
  value_eq : n.vocabulary.value I i = d

theorem denotes_addSymbol (h : m.Filed []) (ha : m.Agrees I) (name : Text) (k : Kind) (u : Usage) :
    (m.addSymbol name k u).2.Denotes I (m.addSymbol name k u).1 (I.value name) := by
  refine ⟨agrees_setVocabulary h ha (Vocabulary.grows_add h.vocabulary name k u)
    (Vocabulary.root_add h.vocabulary name k u), ?_⟩
  exact congrArg I.value (Vocabulary.name_add_fst h.vocabulary name k u)

theorem Denotes.root {i : Nat} {d : D} (hd : n.Denotes I i d) (h : n.Filed [])
    (hi : i < n.vocabulary.size) : n.Denotes I (n.root i) d :=
  ⟨hd.agrees, (hd.agrees.respects.value_root h.vocabulary hi).trans hd.value_eq⟩

theorem agrees_define (hI : I.Lawful) (h : m.Filed []) (ha : m.Agrees I) {app : Application}
    {kind : Kind} (happ : ∀ s ∈ app.places, s < m.vocabulary.size)
    (hnone : m.table[app.key m.vocabulary]? = none) (hread : (m.define app kind).Reads I) :
    (m.define app kind).Agrees I := by
  have g := Vocabulary.grows_create h.vocabulary kind
  have hroot := Vocabulary.root_create h.vocabulary kind
  have hcreated := Vocabulary.create_fst h.vocabulary kind
  let c : Model := { m with vocabulary := (m.vocabulary.create kind).2 }
  have hc : c.Agrees I := agrees_setVocabulary h ha g hroot
  have hkey := Application.key_of_grows h.vocabulary g happ fun s _ => hroot s
  have hsize := Vocabulary.size_create h.vocabulary kind
  have hfiled : (c.entered app m.vocabulary.size).Filed [m.records.size] := by
    refine filed_entered ?_ ?_ ?_ ?_
    · exact filed_setVocabulary h (Vocabulary.wellFormed_create h.vocabulary kind) g hroot
    · change m.table[app.key (m.vocabulary.create kind).2]? = none
      rw [hkey]
      exact hnone
    · intro s hs
      exact Nat.lt_of_lt_of_le (happ s hs) g.size_le
    · change m.vocabulary.size < (m.vocabulary.create kind).2.size
      omega
  have hasks := asks_check (c.entered app m.vocabulary.size) m.records.size
  have hdefine : m.define app kind = (c.entered app m.vocabulary.size).check m.records.size := by
    rw [define, hcreated]
    exact insert_eq c app m.vocabulary.size
  rw [hdefine] at hread ⊢
  refine agrees_check hI hfiled ?_ ?_ (c.getElem?_entered app m.vocabulary.size)
  · exact reads_of_history_eq hread hasks.vocabulary_eq.symm hasks.history_eq.symm
  · obtain ⟨uses, he, -⟩ := c.entered_spec app m.vocabulary.size
    rw [he]
    exact ⟨hc.respects, hc.pending_eq⟩

theorem denotes_placeApplication (hI : I.Lawful) (h : m.Filed []) (ha : m.Agrees I)
    (app : Application) (kind : Kind) (happ : ∀ s ∈ app.places, s < m.vocabulary.size)
    (hread : (m.placeApplication app kind).2.Reads I) :
    (m.placeApplication app kind).2.Denotes I (m.placeApplication app kind).1
      (app.value m.vocabulary I) := by
  cases hk : m.table[app.key m.vocabulary]? with
  | some i =>
    obtain ⟨r, hr, hl, hkey⟩ := h.table_iff.mp hk
    have hcong := Application.Congruent.of_key_eq h.vocabulary
      (happ app.op Application.op_mem_places) (h.key_eq_of_found hr hl hkey)
    rw [placeApplication_of_some hk] at hread ⊢
    rw [record_eq hr]
    refine Denotes.root ⟨ha, ?_⟩ h (h.result_lt hr)
    rw [hread _ (mem_history hr)]
    exact (hcong.value_eq hI ha.respects h.vocabulary happ (h.places_lt hr)).symm
  | none =>
    obtain ⟨hdef, hv, hh⟩ := advances_define h app kind happ hk
    obtain ⟨hfiled, -, hcoarse⟩ := propagate_spec hdef.filed
    rw [placeApplication_of_none hk] at hread ⊢
    dsimp only at hread ⊢
    have hread' : (m.define app kind).Reads I := hread.of_extends hdef.filed hcoarse.extends
    have hagree := agrees_define hI h ha happ hk hread'
    have hlt : m.vocabulary.size < (m.define app kind).vocabulary.size := by
      rw [hv, Vocabulary.size_create h.vocabulary]
      omega
    rw [Vocabulary.create_fst h.vocabulary]
    refine Denotes.root ⟨agrees_propagate hI hdef.filed hread' hagree, ?_⟩ hfiled
      (hcoarse.extends.lt hlt)
    have heq := hread' (app, m.vocabulary.size) (by simp [hh])
    rw [hcoarse.vocabulary.value_eq hlt, heq]
    exact hdef.later.vocabulary.value_app happ

theorem denotes_placeConstant (h : m.Filed []) (ha : m.Agrees I) (t : Term) :
    (m.placeConstant t).2.Denotes I (m.placeConstant t).1 (I.value t.render) := by
  obtain ⟨hadv, hlt⟩ := advances_addSymbol h t.render t.kind .literal
  exact (denotes_addSymbol h ha t.render t.kind .literal).root hadv.filed hlt

mutual

theorem denotes_place (t : Term) {m : Model} (hI : I.Lawful) (h : m.Filed []) (ha : m.Agrees I)
    (hread : (place t m).2.Reads I) : (place t m).2.Denotes I (place t m).1 (I.read t) := by
  cases t with
  | symbol s =>
    obtain ⟨hadv, hlt⟩ := advances_addSymbol h s.name s.kind (usageOf s false)
    rw [place, Interpretation.read_symbol]
    exact (denotes_addSymbol h ha s.name s.kind (usageOf s false)).root hadv.filed hlt
  | apply fn args k =>
    have hadv := advances_placeOperator fn h
    obtain ⟨hall, hlts⟩ := advances_placeAll args hadv.1.filed
    have hplaces : ∀ s ∈ (placeOperator fn m).1 :: (placeAll args (placeOperator fn m).2).1,
        s < (placeAll args (placeOperator fn m).2).2.vocabulary.size := by
      intro s hs
      rcases List.mem_cons.mp hs with rfl | hs
      · exact hall.later.lt hadv.2
      · exact hlts s hs
    obtain ⟨happlied, -⟩ := advances_placeApplication hall.filed
      ⟨(placeOperator fn m).1, (placeAll args (placeOperator fn m).2).1⟩ k hplaces
    rw [place_apply] at hread ⊢
    have hreadAll := hread.of_extends hall.filed happlied.later
    have hreadOp := hreadAll.of_extends hadv.1.filed hall.later
    have hop : (placeOperator fn m).2.Denotes I (placeOperator fn m).1 (I.read fn) := by
      match fn with
      | .symbol s =>
        rw [Interpretation.read_symbol]
        exact denotes_addSymbol h ha s.name s.kind (usageOf s true)
      | .apply fn args k => exact denotes_place (.apply fn args k) hI h ha hreadOp
      | .lambda params body k => exact denotes_place (.lambda params body k) hI h ha hreadOp
      | .cases branches otherwise k =>
        exact denotes_place (.cases branches otherwise k) hI h ha hreadOp
    obtain ⟨hagree, hvals⟩ := denotes_placeAll args hI hadv.1.filed hop.agrees hreadAll
    have hres := denotes_placeApplication hI hall.filed hagree
      ⟨(placeOperator fn m).1, (placeAll args (placeOperator fn m).2).1⟩ k hplaces hread
    rw [Application.value, hall.later.vocabulary.value_eq hadv.2, hop.value_eq, hvals] at hres
    rw [Interpretation.read_apply]
    exact hres
  | lambda params body k =>
    rw [place, Interpretation.read_lambda]
    exact denotes_placeConstant h ha _
  | cases branches otherwise k =>
    rw [place, Interpretation.read_cases]
    exact denotes_placeConstant h ha _

theorem denotes_placeAll (ts : List Term) {m : Model} (hI : I.Lawful) (h : m.Filed [])
    (ha : m.Agrees I) (hread : (placeAll ts m).2.Reads I) :
    (placeAll ts m).2.Agrees I ∧
      (placeAll ts m).1.map ((placeAll ts m).2.vocabulary.value I) = ts.map I.read := by
  cases ts with
  | nil =>
    rw [placeAll]
    exact ⟨ha, rfl⟩
  | cons t rest =>
    obtain ⟨hfirst, hlt⟩ := advances_place t h
    obtain ⟨hrest, -⟩ := advances_placeAll rest hfirst.filed
    rw [placeAll] at hread ⊢
    have hdenotes := denotes_place t hI h ha (hread.of_extends hfirst.filed hrest.later)
    obtain ⟨hagree, hvals⟩ := denotes_placeAll rest hI hfirst.filed hdenotes.agrees hread
    refine ⟨hagree, ?_⟩
    dsimp only
    rw [List.map_cons, List.map_cons, hvals, hrest.later.vocabulary.value_eq hlt,
      hdenotes.value_eq]

end

theorem agrees_place_enqueue (hI : I.Lawful) (h : m.Filed []) (ha : m.Agrees I) {t : Term}
    (ht : I.read t = I.truth)
    (hread : ((place t m).2.enqueue ((place t m).1, Vocabulary.truth)).Reads I) :
    ((place t m).2.enqueue ((place t m).1, Vocabulary.truth)).Agrees I := by
  obtain ⟨hadv, -⟩ := advances_place t h
  have hasks := asks_enqueue (place t m).2 ((place t m).1, Vocabulary.truth)
  have hd := denotes_place t hI h ha
    (reads_of_history_eq hread hasks.vocabulary_eq.symm hasks.history_eq.symm)
  refine agrees_enqueue hd.agrees ?_
  rw [hd.value_eq, ht]
  exact hadv.filed.vocabulary.value_truth.symm

theorem agrees_assert_other (hI : I.Lawful) (h : m.Filed []) (ha : m.Agrees I) {t : Term}
    (hne : ∀ s args k, t ≠ .apply (.symbol s) args k) (ht : I.read t = I.truth)
    (hread : (assert t m).Reads I) : (assert t m).Agrees I := by
  rcases assert_other hne m with ⟨-, he⟩ | ⟨hf, he⟩ | he
  · rw [he]
    exact ha
  · rw [he]
    refine agrees_enqueue ha ?_
    -- Falsehood was asserted, so the interpretation gives it the value of truth.
    have hname : I.read t = I.falsehood := by
      cases t with
      | symbol s =>
        rw [Interpretation.read_symbol]
        simp only [Term.isFalsehood, Bool.and_eq_true, beq_iff_eq] at hf
        rw [hf.1]
        rfl
      | apply fn args k => simp [Term.isFalsehood] at hf
      | lambda params body k => simp [Term.isFalsehood] at hf
      | cases branches otherwise k => simp [Term.isFalsehood] at hf
    rw [h.vocabulary.value_truth, h.vocabulary.value_falsehood, ← ht, hname]
  · rw [he] at hread ⊢
    exact agrees_place_enqueue hI h ha ht hread

mutual

theorem agrees_assert (t : Term) {m : Model} (hI : I.Lawful) (h : m.Filed []) (ha : m.Agrees I)
    (ht : I.read t = I.truth) (hread : (assert t m).Reads I) : (assert t m).Agrees I := by
  match t with
  | .apply (.symbol s) args k =>
    rcases assert_apply s args k m with ⟨hs, he⟩ | ⟨a, b, hs, hargs, he⟩ | he
    · rw [he] at hread ⊢
      rw [Interpretation.read_apply, Interpretation.read_symbol, hs] at ht
      refine agrees_assertAll args hI h ha ?_ hread
      intro a hmem
      exact hI.conjunct _ ht _ (List.mem_map_of_mem hmem)
    · obtain ⟨hleft, hl⟩ := advances_place a h
      obtain ⟨hright, hr⟩ := advances_place b hleft.filed
      rw [he] at hread ⊢
      have hasks := asks_enqueue (place b (place a m).2).2
        ((place a m).1, (place b (place a m).2).1)
      have hread' := reads_of_history_eq hread hasks.vocabulary_eq.symm hasks.history_eq.symm
      have hda := denotes_place a hI h ha (hread'.of_extends hleft.filed hright.later)
      have hdb := denotes_place b hI hleft.filed hda.agrees hread'
      rw [Interpretation.read_apply, Interpretation.read_symbol, hs, hargs] at ht
      refine agrees_enqueue hdb.agrees ?_
      rw [hright.later.vocabulary.value_eq hl, hda.value_eq, hdb.value_eq]
      exact (hI.equal _ _).mp ht
    · rw [he] at hread ⊢
      exact agrees_place_enqueue hI h ha ht hread
  | .symbol s => exact agrees_assert_other hI h ha (by simp) ht hread
  | .apply (.apply fn as l) args k => exact agrees_assert_other hI h ha (by simp) ht hread
  | .apply (.lambda ps body l) args k => exact agrees_assert_other hI h ha (by simp) ht hread
  | .apply (.cases bs o l) args k => exact agrees_assert_other hI h ha (by simp) ht hread
  | .lambda params body k => exact agrees_assert_other hI h ha (by simp) ht hread
  | .cases branches otherwise k => exact agrees_assert_other hI h ha (by simp) ht hread

theorem agrees_assertAll (ts : List Term) {m : Model} (hI : I.Lawful) (h : m.Filed [])
    (ha : m.Agrees I) (hts : ∀ t ∈ ts, I.read t = I.truth) (hread : (assertAll ts m).Reads I) :
    (assertAll ts m).Agrees I := by
  match ts with
  | [] =>
    rw [assertAll]
    exact ha
  | t :: rest =>
    have hfirst := advances_assert t h
    have hrest := advances_assertAll rest hfirst.filed
    rw [assertAll] at hread ⊢
    refine agrees_assertAll rest hI hfirst.filed ?_ ?_ hread
    · exact agrees_assert t hI h ha (hts t List.mem_cons_self)
        (hread.of_extends hfirst.filed hrest.later)
    · intro s hs
      exact hts s (List.mem_cons_of_mem _ hs)

end

theorem agrees_assume (hI : I.Lawful) (h : m.Closed) (ha : m.Agrees I) {t : Term}
    (ht : I.read t = I.truth) (hread : (m.assume t).2.Reads I) : (m.assume t).2.Agrees I := by
  have hassert := advances_assert t h.filed
  obtain ⟨-, -, hcoarse⟩ := propagate_spec hassert.filed
  have hread' : (assert t m).Reads I := hread.of_extends hassert.filed hcoarse.extends
  exact agrees_propagate hI hassert.filed hread' (agrees_assert t hI h.filed ha ht hread')

theorem denotes_represent (hI : I.Lawful) (h : m.Closed) (ha : m.Agrees I) {t : Term}
    (hread : (m.represent t).2.Reads I) :
    (m.represent t).2.Denotes I (m.represent t).1 (I.read t) := by
  obtain ⟨hplace, hlt⟩ := advances_place t h.filed
  obtain ⟨hfiled, -, hcoarse⟩ := propagate_spec hplace.filed
  have hread' : (place t m).2.Reads I := hread.of_extends hplace.filed hcoarse.extends
  have hd := denotes_place t hI h.filed ha hread'
  refine Denotes.root ⟨agrees_propagate hI hplace.filed hread' hd.agrees, ?_⟩ hfiled
    (hcoarse.extends.lt hlt)
  exact (hcoarse.vocabulary.value_eq hlt).trans hd.value_eq

end Placing

section Feeding

variable {m : Model}

theorem agrees_empty (I : Interpretation D) : empty.Agrees I := by
  refine ⟨⟨?_⟩, by simp [empty]⟩
  intro i j _ _ he
  change Vocabulary.initial.root i = Vocabulary.initial.root j at he
  rw [Vocabulary.initial_root, Vocabulary.initial_root] at he
  rw [he]

/-- Whether an interpretation makes true what an input assumes. -/
def Input.Holds (I : Interpretation D) : Input → Prop
  | .assume t => I.read t = I.truth
  | .represent _ => True

theorem agrees_feed (hI : I.Lawful) (h : m.Closed) (ha : m.Agrees I) {i : Input}
    (hi : i.Holds I) (hread : (m.feed i).Reads I) : (m.feed i).Agrees I := by
  cases i with
  | assume t => exact agrees_assume hI h ha hi hread
  | represent t => exact (denotes_represent hI h ha hread).agrees

theorem foldl_of_reads {α : Type} {f : Model → α → Model} {P : Model → Prop} {as : List α}
    (hf : ∀ a ∈ as, ∀ m : Model, m.Closed → (f m a).Closed ∧ m.Extends (f m a))
    (hstep : ∀ a ∈ as, ∀ m : Model, m.Closed → P m → (f m a).Reads I → P (f m a))
    (h : m.Closed) (hP : P m) (hread : (as.foldl f m).Reads I) : P (as.foldl f m) := by
  induction as generalizing m with
  | nil => exact hP
  | cons a rest ih =>
    obtain ⟨hfirst, hrest⟩ := List.forall_mem_cons.mp hf
    obtain ⟨hstepFirst, hstepRest⟩ := List.forall_mem_cons.mp hstep
    have hc := (hfirst m h).1
    have hreadFirst := hread.of_extends hc.filed (extends_foldl rest hrest hc).2
    exact ih hrest hstepRest hc (hstepFirst m h hP hreadFirst) hread

theorem agrees_foldl_feed (inputs : List Input) (hI : I.Lawful) (h : m.Closed) (ha : m.Agrees I)
    (hin : ∀ i ∈ inputs, i.Holds I) (hread : (inputs.foldl feed m).Reads I) :
    (inputs.foldl feed m).Agrees I :=
  foldl_of_reads (fun i _ _ hm => closed_feed hm i)
    (fun i hi _ hm ha => agrees_feed hI hm ha (hin i hi)) h ha hread

theorem Agrees.value_fact (h : m.Closed) (ha : m.Agrees I) (hread : m.Reads I) {f : Fact}
    (hf : f ∈ m.facts) : m.vocabulary.value I f.result = f.app.value m.vocabulary I := by
  obtain ⟨i, r, hr, -, rfl⟩ := mem_facts.mp hf
  have hv := h.filed.vocabulary
  have hargs := ha.respects.map_value_root hv (l := r.app.args)
    fun s hs => h.filed.places_lt hr s (Application.arg_mem_places hs)
  have hop := ha.respects.value_root hv (h.filed.op_lt hr)
  have hres := ha.respects.value_root hv (h.filed.result_lt hr)
  change m.vocabulary.value I (m.vocabulary.root r.result) =
    I.apply (m.vocabulary.value I (m.vocabulary.root r.app.op))
      ((r.app.args.map m.vocabulary.root).map (m.vocabulary.value I))
  rw [hres, hop, hargs]
  exact hread _ (mem_history hr)

/-- Whatever a model is fed, an interpretation that makes the assumed terms true makes its classes
and its facts true. So if the model is contradictory, the truth values have one value. -/
theorem sound_ofInputs (I : Interpretation D) (inputs : List Input) (hI : I.Lawful)
    (hin : ∀ i ∈ inputs, i.Holds I) (hread : (ofInputs inputs).Reads I) :
    (∀ i j, i < (ofInputs inputs).vocabulary.size → j < (ofInputs inputs).vocabulary.size →
      (ofInputs inputs).root i = (ofInputs inputs).root j →
      (ofInputs inputs).vocabulary.value I i = (ofInputs inputs).vocabulary.value I j) ∧
    (∀ f ∈ (ofInputs inputs).facts, (ofInputs inputs).vocabulary.value I f.result =
      f.app.value (ofInputs inputs).vocabulary I) ∧
    ((ofInputs inputs).contradiction = true ↔
      (ofInputs inputs).root Vocabulary.truth = (ofInputs inputs).root Vocabulary.falsehood) ∧
    ((ofInputs inputs).contradiction = true → I.truth = I.falsehood) := by
  have h := closed_ofInputs inputs
  have ha := agrees_foldl_feed inputs hI closed_empty (agrees_empty I) hin hread
  refine ⟨fun i j hi hj he => ha.respects.value_eq hi hj he, fun f hf => ha.value_fact h hread hf,
    h.filed.contradiction_iff, ?_⟩
  intro hc
  have hv := h.filed.vocabulary
  rw [← hv.value_truth, ← hv.value_falsehood]
  exact ha.respects.value_eq hv.truth_lt hv.falsehood_lt (h.filed.contradiction_iff.mp hc)

def collapsingInputs : List Input :=
  let x : Term := .symbol ⟨"x", .entity, .free⟩
  let f (t : Term) : Term := .call "f" .entity [t]
  [.represent (f (f x)), .assume (.equal (f x) x),
    .assume (.equal (.conj .truth (.equal x x)) .truth)]

/-- In the interpretation that gives all names but the connectives one sense, and applications the
same, the inputs above make two applications equal to a symbol. -/
theorem sound_collapsingInputs :
    let I := Interpretation.classical (fun _ _ => .named .empty)
      (fun name => if name == "¢c2" || name == "¢c3" then .decided true else .named .empty)
    (∀ i ∈ collapsingInputs, i.Holds I) ∧ (ofInputs collapsingInputs).Reads I ∧
      ∀ f ∈ (ofInputs collapsingInputs).facts,
        (ofInputs collapsingInputs).vocabulary.value I f.result =
          f.app.value (ofInputs collapsingInputs).vocabulary I := by
  intro I
  have hin : ∀ i ∈ collapsingInputs, i.Holds I := by
    intro i hi
    simp only [collapsingInputs, List.mem_cons, List.not_mem_nil, or_false] at hi
    rcases hi with rfl | rfl | rfl
    · trivial
    · change I.read _ = I.truth
      decide +kernel
    · change I.read _ = I.truth
      decide +kernel
  have hread : (ofInputs collapsingInputs).Reads I := by
    change ∀ e ∈ (ofInputs collapsingInputs).history, _
    decide +kernel
  exact ⟨hin, hread, (sound_ofInputs I collapsingInputs
    (Interpretation.lawful_classical _ _) hin hread).2.1⟩

end Feeding

end Model

end Discharge.Congruence
