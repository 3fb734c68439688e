import Discharge.Proofs.Congruence.Telling
import Discharge.Proofs.Congruence.Widening
import Discharge.Proofs.Search.Derivations
import Discharge.Proofs.Search.Verdicts

namespace Discharge.Search

open Congruence

namespace Obligation

structure Orderly (ob : Obligation) : Prop where
  model : ob.model.Orderly
  known : ∀ goal ∈ ob.goals, ∀ name ∈ goal, ∃ i, ob.model.vocabulary.rootOf? name = some i

variable {ob : Obligation} {m : Model}

theorem Orderly.setModel (h : ob.Orderly) (hm : m.Orderly) (hext : ob.model.Extends m) :
    Orderly { ob with model := m } := by
  refine ⟨hm, ?_⟩
  intro goal hgoal name hname
  obtain ⟨i, hi⟩ := h.known goal hgoal name hname
  obtain ⟨j, hj, -⟩ := Option.map_eq_some_iff.mp hi
  have hv := h.model.closed.filed.vocabulary
  have hlt := hv.lt_of_lookup? hj
  refine ⟨m.root j, ?_⟩
  change m.vocabulary.rootOf? name = _
  rw [← hv.name_of_lookup? hj, ← hext.vocabulary.name_eq hlt]
  exact hm.closed.filed.vocabulary.rootOf?_name (hext.lt hlt)

theorem Orderly.assume (h : ob.Orderly) {t : Term} (ht : t.written = true) :
    (ob.assume t).2.Orderly ∧ ob.model.Extends (ob.assume t).2.model := by
  have hext := (Model.closed_assume h.model.closed t).2
  exact ⟨h.setModel (h.model.assume ht) hext, hext⟩

section Widening

variable {ob' : Obligation}

theorem isMet_of_widens (h : ob.model.Closed) (hm : ob'.model.Closed)
    (hw : ob.model.Widens ob'.model) (goal : List Text) : ob'.isMet goal = ob.isMet goal := by
  have hlt := h.filed.root_lt h.filed.vocabulary.truth_lt
  unfold isMet
  simp only [hw.root_eq, hw.rootOf?_beq h hm hlt]

/-- What makes a model wider decides nothing. -/
theorem status_of_widens (h : ob.model.Closed) (hm : ob'.model.Closed)
    (hgoals : ob'.goals = ob.goals) (hw : ob.model.Widens ob'.model) :
    ob'.status = ob.status := by
  have hcontradiction : ob'.model.contradiction = ob.model.contradiction := by
    rw [Bool.eq_iff_iff, h.filed.contradiction_iff, hm.filed.contradiction_iff, hw.root_eq,
      hw.root_eq]
  have hmet : ob'.isMet = ob.isMet := funext fun goal => isMet_of_widens h hm hw goal
  unfold status
  rw [hcontradiction, hgoals, hmet]

theorem openGoals_of_widens (h : ob.Orderly) (hm : ob'.model.Closed)
    (hgoals : ob'.goals = ob.goals) (hw : ob.model.Widens ob'.model) :
    ob'.openGoals = ob.openGoals := by
  unfold openGoals
  rw [hgoals, List.filter_congr fun goal _ => by rw [isMet_of_widens h.model.closed hm hw]]
  congr 1
  refine List.flatMap_congr fun goal hgoal => List.filterMap_congr fun name hname => ?_
  obtain ⟨i, hi⟩ := h.known goal (List.mem_filter.mp hgoal).1 name hname
  obtain ⟨j, hj, rfl⟩ := Option.map_eq_some_iff.mp hi
  have hlt := h.model.closed.filed.root_lt (h.model.closed.filed.vocabulary.lt_of_lookup? hj)
  rw [hi, hw.rootOf?_of_some h.model.closed hm hi]
  exact congrArg some (hw.vocabulary.name_eq hlt)

/-- A rule finds the same in a wider model. -/
theorem findMatches_of_widens (h : ob.Orderly) (hm : ob'.model.Closed)
    (hgoals : ob'.goals = ob.goals) (hw : ob.model.Widens ob'.model) (r : Rule) :
    r.findMatches ob' = r.findMatches ob := by
  have hjoin := hw.join_eq h.model.closed hm r.pattern
  have hnarrow : r.narrow ob'.model = r.narrow ob.model := by
    funext bs f
    rw [Rule.narrow, Rule.narrow, hjoin]
  unfold Rule.findMatches Rule.startBindings
  rw [openGoals_of_widens h hm hgoals hw, hjoin, hnarrow]

end Widening

end Obligation

namespace Rule

variable {r : Rule} {b b' : Binding} {ob : Obligation} {m : Model}

section Values

theorem isRootName_of_mem_openGoals (hm : ob.model.Closed) {g : Text} (hg : g ∈ ob.openGoals) :
    ob.model.IsRootName g := by
  obtain ⟨goal, -, hname⟩ := List.mem_flatMap.mp (Text.mem_distinct.mp hg)
  obtain ⟨name, -, he⟩ := List.mem_filterMap.mp hname
  obtain ⟨i, hi, rfl⟩ := Option.map_eq_some_iff.mp he
  obtain ⟨j, hj, rfl⟩ := Option.map_eq_some_iff.mp hi
  have hv := hm.filed.vocabulary
  exact ⟨_, hv.root_lt (hv.lt_of_lookup? hj), hv.root_root j, rfl⟩

theorem valued_startBindings (r : Rule) (hm : ob.model.Closed) :
    ∀ b ∈ r.startBindings ob, b.Valued ob.model := by
  intro b hb
  unfold startBindings at hb
  dsimp only at hb
  split at hb
  · obtain ⟨g, hg, rfl⟩ := List.mem_map.mp hb
    exact (Binding.valued_unbound _ _).set (isRootName_of_mem_openGoals hm hg) _
  · rw [List.mem_singleton.mp hb]
    exact Binding.valued_unbound _ _

theorem valued_foldl_narrow (r : Rule) (hm : m.Closed) (ps : List Fact) {bs : List Binding}
    (hbs : ∀ b ∈ bs, b.Valued m) : ∀ b ∈ ps.foldl (r.narrow m) bs, b.Valued m := by
  induction ps generalizing bs with
  | nil => exact hbs
  | cons p rest ih =>
    refine ih ?_
    unfold narrow
    dsimp only
    split
    · exact hbs
    · intro b hb
      exact Model.keeps_of_mem_join hm (fun s _ => Model.survives_valued m r.pattern s) hbs hb

theorem valued_of_mem_search (hm : ob.model.Closed) {reach : Reach} (hb : b ∈ r.search ob reach) :
    b.Valued ob.model := by
  unfold search at hb
  split at hb
  · unfold findByKind at hb
    split at hb
    · obtain ⟨actual, hactual, rfl⟩ := List.mem_map.mp hb
      obtain ⟨i, hi, rfl⟩ := List.mem_map.mp (List.mem_filter.mp hactual).1
      obtain ⟨hlt, hroot⟩ := List.mem_filter.mp hi
      simp only [Bool.and_eq_true, beq_iff_eq] at hroot
      exact (Binding.valued_unbound _ _).set ⟨i, List.mem_range.mp hlt, hroot.1.1, rfl⟩ _
    · simp at hb
  · obtain ⟨optional, -, hb⟩ := exists_of_mem_findMatches hb
    refine r.valued_foldl_narrow hm optional ?_ b hb
    intro c hc
    exact Model.keeps_of_mem_foldl_join hm r.required
      (fun _ _ s _ => Model.survives_valued ob.model r.pattern s)
      (r.valued_startBindings hm) hc

/-- Whether the values of a binding show where they end. -/
def Clear (b : Binding) : Prop := ∀ name, b.get name ≠ "" → writableName (b.get name) = true

theorem clear_of_valued (hm : m.Orderly) (hb : b.Valued m) : Clear b := by
  intro name hn
  obtain ⟨i, hi, -, he⟩ := hb name hn
  rw [← he]
  exact hm.writable hi

theorem exists_get_of_valueOf {name : Text} (h : r.valueOf b name ≠ "") :
    ∃ other, r.valueOf b name = b.get other := by
  unfold valueOf at h ⊢
  dsimp only at h ⊢
  split at h
  · rename_i hown
    rw [if_pos hown]
    exact ⟨name, rfl⟩
  · rename_i hown
    rw [if_neg hown]
    split at h
    · rename_i i hi
      exact ⟨_, rfl⟩
    · exact (h rfl).elim

theorem Clear.valueOf (hb : Clear b) {name : Text} (h : r.valueOf b name ≠ "") :
    writableName (r.valueOf b name) = true := by
  obtain ⟨other, hget⟩ := exists_get_of_valueOf h
  rw [hget] at h ⊢
  exact hb other h

end Values

section Keys

/-- The values of the quantified variables in writing. -/
def keyOf (r : Rule) (b : Binding) : Text :=
  Text.join ((r.pattern.namesWhere Usage.isQuantified).map fun name =>
    name ++ "=" ++ r.valueOf b name ++ ";")

theorem bindingKey_eq (hm : m.Closed) (hb : b.Valued m) :
    r.bindingKey m.vocabulary b = r.keyOf b := by
  unfold bindingKey keyOf
  refine congrArg Text.join (List.map_congr_left fun name _ => ?_)
  dsimp only
  by_cases he : r.valueOf b name = ""
  · rw [he]
    rfl
  · obtain ⟨other, hget⟩ := r.exists_get_of_valueOf he
    obtain ⟨i, hi, hname⟩ := (hb other (hget ▸ he)).rootOf? hm.filed.vocabulary
    rw [← hget] at hi hname
    rw [if_neg (mt Text.isEmpty_iff.mp he), hi, Option.map_some, hname]
    rfl

theorem eq_of_join_eq {f g : Text → Text} (names : List Text)
    (hf : ∀ name, (59 : UInt8) ∉ (f name).toList) (hg : ∀ name, (59 : UInt8) ∉ (g name).toList)
    (h : Text.join (names.map fun name => name ++ "=" ++ f name ++ ";") =
      Text.join (names.map fun name => name ++ "=" ++ g name ++ ";")) :
    ∀ name ∈ names, f name = g name := by
  have hend : (";" : Text).toList = [59] := by decide
  induction names with
  | nil => simp
  | cons name rest ih =>
    have hbytes := congrArg Text.toList h
    simp only [List.map_cons, Text.toList_join, List.flatMap_cons, Text.toList_append, hend,
      List.append_assoc, List.append_cancel_left_eq, List.singleton_append] at hbytes
    obtain ⟨hvalue, hrest⟩ := append_inj_of_head (p := (· ≠ 59))
      (fun c hc he => hf name (he ▸ hc)) (fun c hc he => hg name (he ▸ hc)) (by simp) (by simp)
      hbytes
    refine List.forall_mem_cons.mpr ⟨Text.ext hvalue, ih (Text.ext ?_)⟩
    rw [Text.toList_join, Text.toList_join]
    exact (List.cons.inj hrest).2

/-- Bindings of one key have the same values for the quantified variables. -/
theorem valueOf_eq_of_keyOf_eq (hb : Clear b) (hb' : Clear b') (h : r.keyOf b = r.keyOf b') :
    ∀ name ∈ r.pattern.namesWhere Usage.isQuantified, r.valueOf b name = r.valueOf b' name := by
  have hfree : ∀ {c : Binding}, Clear c → ∀ name, (59 : UInt8) ∉ (r.valueOf c name).toList := by
    intro c hc name hmem
    by_cases he : r.valueOf c name = ""
    · rw [he] at hmem
      exact absurd hmem (by decide)
    · have hends := (writableName_iff.mp (hc.valueOf he)).2 59 hmem
      exact absurd hends (by decide)
  exact eq_of_join_eq _ (hfree hb) (hfree hb') h

end Keys

section Instances

def inserted (r : Rule) (b : Binding) : Term :=
  r.insert.substitute (r.insertVariables.map fun v =>
    (v.name, .symbol ⟨r.valueOf b v.name, v.kind, .free⟩))

/-- Whether the key of a binding tells the value of every variable of the inserted term. -/
def Keyed (r : Rule) : Prop :=
  ∀ v ∈ r.insertVariables, v.name ∈ r.pattern.namesWhere Usage.isQuantified

instance (r : Rule) : Decidable r.Keyed := inferInstanceAs (Decidable (∀ _ ∈ _, _))

theorem instantiate_eq (r : Rule) (m : Model) (b : Binding) :
    r.instantiate m b = m.simplify (r.inserted b) := rfl

/-- Bindings of one key stand for one instance. -/
theorem Keyed.inserted_eq (hr : r.Keyed) (hb : Clear b) (hb' : Clear b')
    (h : r.keyOf b = r.keyOf b') : r.inserted b = r.inserted b' := by
  have hvalues := valueOf_eq_of_keyOf_eq hb hb' h
  unfold inserted
  congr 1
  refine List.map_congr_left fun v hv => ?_
  rw [hvalues v.name (hr v hv)]

theorem written_inserted (hr : r.insert.written = true) (hb : Clear b)
    (hbind : r.bindsInsert b = true) : (r.inserted b).written = true := by
  refine Term.written_substitute ?_ _ hr
  intro e he
  obtain ⟨v, hv, rfl⟩ := List.mem_map.mp he
  refine ⟨_, rfl, hb.valueOf ?_⟩
  have hbound := List.all_eq_true.mp hbind v hv
  intro hempty
  rw [hempty] at hbound
  exact absurd hbound (by decide)

theorem inserted_of_insertVariables (hr : r.insert.written = true) (hvars : r.insertVariables = [])
    (b : Binding) : r.inserted b = r.insert := by
  rw [inserted, hvars]
  exact Term.substitute_nil r.insert hr

end Instances

end Rule

theorem Derives.orderly {rules : Array Rule} {ob ob' : Obligation} (h : Derives rules ob ob')
    (hrules : ∀ r ∈ rules, r.insert.written = true) (hob : ob.Orderly) :
    ob'.Orderly ∧ ob.model.Extends ob'.model := by
  induction h with
  | refl => exact ⟨hob, .refl _⟩
  | ground _ hr _ ih =>
    obtain ⟨hmid, hext⟩ := ih hob
    obtain ⟨hnext, hext'⟩ := hmid.assume (hrules _ hr)
    exact ⟨hnext, hext.trans hext'⟩
  | @apply _ found mid r b reach _ _ hr hb hbind ih ih' =>
    obtain ⟨hfound, hext⟩ := ih hob
    obtain ⟨hmid, hext'⟩ := ih' hfound
    have hclear := Rule.clear_of_valued hfound.model
      (Rule.valued_of_mem_search hfound.model.closed hb)
    have hwritten := Rule.written_inserted (hrules r hr) hclear hbind
    rw [Rule.instantiate_eq]
    obtain ⟨hnext, hext''⟩ := hmid.assume (hmid.model.written_simplify _ hwritten)
    exact ⟨hnext, (hext.trans hext').trans hext''⟩

namespace Obligation

section Beginning

variable {ob : Obligation} {m : Model}

theorem orderly_representAll (ts : List Term) (hts : ∀ t ∈ ts, t.written = true)
    (hm : m.Orderly) : (representAll ts m).2.Orderly ∧
      ∀ i ∈ (representAll ts m).1, i < (representAll ts m).2.vocabulary.size := by
  induction ts generalizing m with
  | nil => exact ⟨hm, by simp [representAll]⟩
  | cons t rest ih =>
    obtain ⟨ht, hrest⟩ := List.forall_mem_cons.mp hts
    obtain ⟨hc, -, hlt⟩ := Model.closed_represent hm.closed t
    obtain ⟨hout, hlts⟩ := ih hrest (hm.represent ht)
    rw [representAll]
    refine ⟨hout, List.forall_mem_cons.mpr ⟨?_, hlts⟩⟩
    exact (closed_representAll rest hc).2.lt hlt

theorem orderly_addConjunct (h : ob.Orderly) {t : Term} (ht : t.written = true) :
    (ob.addConjunct t).Orderly := by
  have hext := (closed_representAll t.disjuncts h.model.closed).2
  obtain ⟨hm, hlt⟩ := orderly_representAll t.disjuncts (Term.written_of_mem_splitOn ht) h.model
  refine ⟨hm, ?_⟩
  intro goal hgoal name hname
  rcases List.mem_append.mp hgoal with hgoal | hgoal
  · exact (h.setModel hm hext).known goal hgoal name hname
  · rw [List.mem_singleton.mp hgoal] at hname
    obtain ⟨i, hi, rfl⟩ := List.mem_map.mp (Text.mem_distinct.mp hname)
    have hv := hm.closed.filed.vocabulary
    obtain ⟨j, hj, -⟩ := Model.IsRootName.rootOf? (m := (representAll t.disjuncts ob.model).2) hv
      ⟨_, hv.root_lt (hlt i hi), hv.root_root i, rfl⟩
    exact ⟨j, hj⟩

theorem orderly_assumeAll (ts : List Term) (hts : ∀ t ∈ ts, t.written = true) (hm : m.Orderly) :
    (ts.foldl (fun m t => (m.assume t).2) m).Orderly :=
  List.foldlRecOn ts _ hm fun _ hm t ht => hm.assume (hts t ht)

theorem orderly_assumeUntilFalse (ts : List Term) (hts : ∀ t ∈ ts, t.written = true)
    (hm : m.Orderly) : (assumeUntilFalse ts m).Orderly := by
  obtain ⟨us, hus, heq, -⟩ := exists_prefix_assumeUntilFalse ts m
  rw [heq]
  exact orderly_assumeAll us (fun t ht => hts t (hus.subset ht)) hm

theorem orderly_registered {n : Normalizer} {c : Condition}
    (hc : ∀ t ∈ c.sequent.right, t.written = true) : (registered n c).Orderly := by
  refine List.foldlRecOn (motive := Orderly) (conclusions n c) addConjunct
    ⟨Model.orderly_empty, by simp⟩ fun ob hob t ht => orderly_addConjunct hob ?_
  obtain ⟨s, hs, hts⟩ := List.mem_flatMap.mp ht
  exact Term.written_of_mem_splitOn (Term.written_normalize n s (hc s hs)) t hts

theorem orderly_new (n : Normalizer) {c : Condition}
    (hc : ∀ t ∈ c.sequent.left ++ c.sequent.right, t.written = true) : (new n c).Orderly := by
  obtain ⟨hleft, hright⟩ := List.forall_mem_append.mp hc
  have hregistered := orderly_registered (n := n) hright
  have hassumed : (assumed n c).Orderly := List.foldlRecOn _ _ hregistered.model fun m hm t ht =>
    orderly_assumeUntilFalse _ (Term.written_of_mem_splitOn
      (Term.written_normalize n t (hleft t ht))) hm
  have hseeds : ∀ t ∈ seedAxioms, t.written = true := by decide +kernel
  rw [new_eq]
  refine hregistered.setModel (orderly_assumeAll _ hseeds hassumed) ?_
  exact (closed_assumed n c).2.trans (closed_foldl_assume _ (closed_assumed n c).1).2

end Beginning

end Obligation

end Discharge.Search
