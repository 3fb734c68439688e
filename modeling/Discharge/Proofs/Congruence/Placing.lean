import Discharge.Proofs.Congruence.Uniting

namespace Discharge.Congruence.Model

section Placing

variable {m : Model}

theorem filed_setVocabulary (h : m.Filed []) {v : Vocabulary} (hv : v.WellFormed)
    (g : m.vocabulary.Grows v) (hr : ∀ i, v.root i = m.root i) :
    ({ m with vocabulary := v } : Model).Filed [] := by
  have hjoin : ∀ {a b}, m.Joined a b → ({ m with vocabulary := v } : Model).Joined a b := by
    intro a b hab
    refine Joined.of_pending_subset ?_ ?_ hab
    · exact hr
    · exact List.Subset.refl _
  refine ⟨hv, ?_, ?_, h.table_iff, ?_, ?_, ?_, ?_, ?_⟩
  · intro i r hrec s hs
    exact Nat.lt_of_lt_of_le (h.symbols_lt hrec s hs) g.size_le
  · intro p hp
    have := h.pending_lt p hp
    have := g.size_le
    change p.1 < v.size ∧ p.2 < v.size
    omega
  · intro i r hrec hl
    rcases h.key_eq hrec hl with hk | ⟨hmem, -⟩
    · left
      rw [hk]
      exact (Application.key_of_grows h.vocabulary g (h.places_lt hrec) fun s _ => hr s).symm
    · simp at hmem
  · intro i r hrec hl s hs
    change i ∈ m.listing (v.root s)
    rw [hr]
    exact h.listed hrec hl s hs
  · intro i r hrec
    obtain ⟨j, r', hrec', hl, hc, hj⟩ := h.covered hrec
    exact ⟨j, r', hrec', hl, hc.mono h.vocabulary g (h.places_lt hrec) (h.places_lt hrec'),
      hjoin hj⟩
  · change m.contradiction = true ↔ v.root Vocabulary.truth = v.root Vocabulary.falsehood
    rw [hr, hr]
    exact h.contradiction_iff
  · intro i r hrec hl _ p hp
    refine hjoin (h.closed hrec hl (by simp) p ?_)
    have hname := Vocabulary.rootName_of_grows h.vocabulary g (h.op_lt hrec) (hr _)
    have hargs := Application.args_of_roots (a := r.app) fun s _ => hr s
    change p ∈ consequences (v.rootName r.app.op) (r.app.args.map v.root) (v.root r.result) _ _
      at hp
    rw [hname, hargs, hr] at hp
    exact hp

structure Advances (m n : Model) : Prop where
  filed : n.Filed []
  later : m.Extends n

theorem Advances.trans {n o : Model} (h : m.Advances n) (h' : n.Advances o) : m.Advances o :=
  ⟨h'.filed, h.later.trans h'.later⟩

theorem advances_addSymbol (h : m.Filed []) (name : Text) (k : Kind) (u : Usage) :
    m.Advances (m.addSymbol name k u).2 ∧
      (m.addSymbol name k u).1 < (m.addSymbol name k u).2.vocabulary.size := by
  have g := Vocabulary.grows_add h.vocabulary name k u
  have hroot := Vocabulary.root_add h.vocabulary name k u
  have hc : m.Coarsens (m.addSymbol name k u).2 := by
    refine ⟨g, ?_, rfl⟩
    intro a b hab
    refine Joined.of_pending_subset ?_ ?_ hab
    · exact hroot
    · exact List.Subset.refl _
  refine ⟨⟨?_, hc.extends⟩, Vocabulary.add_fst_lt h.vocabulary name k u⟩
  exact filed_setVocabulary h (Vocabulary.wellFormed_add h.vocabulary name k u) g hroot

theorem insert_frame (m : Model) (app : Application) (result : Nat) :
    (m.insert app result).vocabulary = m.vocabulary ∧
      (m.insert app result).history = m.history ++ [(app, result)] ∧
      m.pending ⊆ (m.insert app result).pending := by
  have hasks := asks_check (m.entered app result) m.records.size
  have hpending := hasks.pending_subset
  rw [m.pending_entered app result] at hpending
  rw [insert_eq, hasks.vocabulary_eq, hasks.history_eq]
  exact ⟨m.vocabulary_entered app result, m.history_entered app result, hpending⟩

/-- The model with a created symbol and the fact that it stands for, before merges are made. -/
def define (m : Model) (app : Application) (kind : Kind) : Model :=
  ({ m with vocabulary := (m.vocabulary.create kind).2 } : Model).insert app
    (m.vocabulary.create kind).1

theorem advances_define (h : m.Filed []) (app : Application) (kind : Kind)
    (happ : ∀ s ∈ app.places, s < m.vocabulary.size)
    (hnone : m.table[app.key m.vocabulary]? = none) :
    m.Advances (m.define app kind) ∧
      (m.define app kind).vocabulary = (m.vocabulary.create kind).2 ∧
      (m.define app kind).history = m.history ++ [(app, m.vocabulary.size)] := by
  have hwf := Vocabulary.wellFormed_create h.vocabulary kind
  have g := Vocabulary.grows_create h.vocabulary kind
  have hroot := Vocabulary.root_create h.vocabulary kind
  have hsize := Vocabulary.size_create h.vocabulary kind
  have hcreated := Vocabulary.create_fst h.vocabulary kind
  let c : Model := { m with vocabulary := (m.vocabulary.create kind).2 }
  have hc : c.Filed [] := filed_setVocabulary h hwf g hroot
  have hkey := Application.key_of_grows h.vocabulary g happ fun s _ => hroot s
  obtain ⟨hv, hh, hpending⟩ := insert_frame c app (m.vocabulary.create kind).1
  rw [hcreated] at hh hv hpending
  have hdefine : m.define app kind = c.insert app m.vocabulary.size := by
    rw [define, hcreated]
  rw [hdefine]
  refine ⟨⟨filed_insert hc (by rw [hkey]; exact hnone) ?_ ?_, ?_⟩, hv, hh⟩
  · intro s hs
    exact Nat.lt_of_lt_of_le (happ s hs) g.size_le
  · change m.vocabulary.size < (m.vocabulary.create kind).2.size
    omega
  · refine ⟨by rw [hv]; exact g, ?_, [(app, m.vocabulary.size)], hh, ?_, ?_, ?_, by simp⟩
    · intro a b hab
      refine Joined.of_pending_subset (m := m) ?_ hpending hab
      intro i
      rw [root, hv]
      exact hroot i
    · intro e he
      rw [List.mem_singleton.mp he, hv]
      change _ ∧ m.vocabulary.size < (m.vocabulary.create kind).2.size
      omega
    · intro e he
      rw [List.mem_singleton.mp he]
      exact happ
    · intro e he
      rw [List.mem_singleton.mp he, hv]
      exact ⟨_, congrArg Entry.name (Vocabulary.entry_create h.vocabulary kind)⟩

theorem placeApplication_of_none {app : Application} {kind : Kind}
    (hnone : m.table[app.key m.vocabulary]? = none) :
    m.placeApplication app kind = ((m.define app kind).propagate.root (m.vocabulary.create kind).1,
      (m.define app kind).propagate) := by
  simp [placeApplication, hnone, define]

theorem placeApplication_of_some {app : Application} {kind : Kind} {i : Nat}
    (hsome : m.table[app.key m.vocabulary]? = some i) :
    m.placeApplication app kind = (m.root (m.record i).result, m) := by
  simp [placeApplication, hsome]

theorem advances_placeApplication (h : m.Filed []) (app : Application) (kind : Kind)
    (happ : ∀ s ∈ app.places, s < m.vocabulary.size) :
    m.Advances (m.placeApplication app kind).2 ∧
      (m.placeApplication app kind).1 < (m.placeApplication app kind).2.vocabulary.size := by
  cases hk : m.table[app.key m.vocabulary]? with
  | some i =>
    obtain ⟨r, hr, -, -⟩ := h.table_iff.mp hk
    rw [placeApplication_of_some hk, record_eq hr]
    exact ⟨⟨h, .refl m⟩, h.root_lt (h.result_lt hr)⟩
  | none =>
    obtain ⟨hdef, hv, -⟩ := advances_define h app kind happ hk
    obtain ⟨hfiled, -, hext⟩ := propagate_spec hdef.filed
    rw [placeApplication_of_none hk]
    dsimp only
    refine ⟨⟨hfiled, hdef.later.trans hext.extends⟩, ?_⟩
    refine hfiled.root_lt (hext.extends.lt ?_)
    rw [hv, Vocabulary.create_fst h.vocabulary, Vocabulary.size_create h.vocabulary]
    omega

end Placing

def placeOperator : Term → Model → Nat × Model
  | .symbol s, m => m.addSymbol s.name s.kind (usageOf s true)
  | fn, m => place fn m

theorem place_apply (fn : Term) (args : List Term) (k : Kind) (m : Model) :
    place (.apply fn args k) m =
      (placeAll args (placeOperator fn m).2).2.placeApplication
        ⟨(placeOperator fn m).1, (placeAll args (placeOperator fn m).2).1⟩ k := by
  cases fn with
  | symbol s =>
    rw [place]
    rfl
  | apply fn args' k' =>
    rw [place]
    · rfl
    · simp
  | lambda params body k' =>
    rw [place]
    · rfl
    · simp
  | cases branches otherwise k' =>
    rw [place]
    · rfl
    · simp

theorem advances_placeConstant {m : Model} (h : m.Filed []) (t : Term) :
    m.Advances (m.placeConstant t).2 ∧
      (m.placeConstant t).1 < (m.placeConstant t).2.vocabulary.size := by
  obtain ⟨hadv, hlt⟩ := advances_addSymbol h t.render t.kind .literal
  exact ⟨hadv, hadv.filed.root_lt hlt⟩

mutual

theorem advances_place (t : Term) {m : Model} (h : m.Filed []) :
    m.Advances (place t m).2 ∧ (place t m).1 < (place t m).2.vocabulary.size := by
  cases t with
  | symbol s =>
    obtain ⟨hadv, hlt⟩ := advances_addSymbol h s.name s.kind (usageOf s false)
    rw [place]
    exact ⟨hadv, hadv.filed.root_lt hlt⟩
  | apply fn args k =>
    have hop := advances_placeOperator fn h
    obtain ⟨hall, hlt⟩ := advances_placeAll args hop.1.filed
    rw [place_apply]
    have hplaces : ∀ s ∈ (placeOperator fn m).1 :: (placeAll args (placeOperator fn m).2).1,
        s < (placeAll args (placeOperator fn m).2).2.vocabulary.size := by
      intro s hs
      rcases List.mem_cons.mp hs with rfl | hs
      · exact hall.later.lt hop.2
      · exact hlt s hs
    obtain ⟨hadv, hres⟩ := advances_placeApplication hall.filed
      ⟨(placeOperator fn m).1, (placeAll args (placeOperator fn m).2).1⟩ k hplaces
    exact ⟨(hop.1.trans hall).trans hadv, hres⟩
  | lambda params body k =>
    rw [place]
    exact advances_placeConstant h _
  | cases branches otherwise k =>
    rw [place]
    exact advances_placeConstant h _

theorem advances_placeOperator (fn : Term) {m : Model} (h : m.Filed []) :
    m.Advances (placeOperator fn m).2 ∧
      (placeOperator fn m).1 < (placeOperator fn m).2.vocabulary.size := by
  match fn with
  | .symbol s => exact advances_addSymbol h s.name s.kind (usageOf s true)
  | .apply fn args k => exact advances_place (.apply fn args k) h
  | .lambda params body k => exact advances_placeConstant h _
  | .cases branches otherwise k => exact advances_placeConstant h _

theorem advances_placeAll (ts : List Term) {m : Model} (h : m.Filed []) :
    m.Advances (placeAll ts m).2 ∧
      ∀ i ∈ (placeAll ts m).1, i < (placeAll ts m).2.vocabulary.size := by
  cases ts with
  | nil =>
    rw [placeAll]
    exact ⟨⟨h, .refl m⟩, by simp⟩
  | cons t rest =>
    obtain ⟨hfirst, hlt⟩ := advances_place t h
    obtain ⟨hrest, hlts⟩ := advances_placeAll rest hfirst.filed
    rw [placeAll]
    refine ⟨hfirst.trans hrest, ?_⟩
    intro i hi
    rcases List.mem_cons.mp hi with rfl | hi
    · exact hrest.later.lt hlt
    · exact hlts i hi

end

end Discharge.Congruence.Model
