import Discharge.Proofs.Congruence.Persistence
import Discharge.Proofs.Congruence.Shortening

namespace Discharge.Congruence.Model

variable {m : Model}

section Unknown

theorem size_lt_addSymbol {name : Text} (h : m.vocabulary.lookup? name = none) (k : Kind)
    (u : Usage) : m.vocabulary.size < (m.addSymbol name k u).2.vocabulary.size := by
  change _ < (m.vocabulary.add name k u).2.size
  rw [Vocabulary.size_add_of_none h]
  exact Nat.lt_succ_self _

theorem size_lt_placeConstant {t : Term} (h : m.vocabulary.rootOf? t.render = none) :
    m.vocabulary.size < (m.placeConstant t).2.vocabulary.size :=
  size_lt_addSymbol (Option.map_eq_none_iff.mp h) _ _

theorem size_lt_placeApplication (h : m.Filed []) {app : Application} (kind : Kind)
    (happ : ∀ s ∈ app.places, s < m.vocabulary.size)
    (hnone : m.table[app.key m.vocabulary]? = none) :
    m.vocabulary.size < (m.placeApplication app kind).2.vocabulary.size := by
  obtain ⟨hdef, hv, -⟩ := advances_define h app kind happ hnone
  obtain ⟨-, -, hcoarse⟩ := propagate_spec hdef.filed
  rw [placeApplication_of_none hnone]
  calc m.vocabulary.size
      < (m.define app kind).vocabulary.size := by
        rw [hv, Vocabulary.size_create h.vocabulary]
        exact Nat.lt_succ_self _
    _ ≤ (m.define app kind).propagate.vocabulary.size := hcoarse.vocabulary.size_le

mutual

/-- A term that is not known cannot be placed without a new symbol. -/
theorem size_lt_place (t : Term) {m : Model} (h : m.Filed []) (hn : m.find? t = none) :
    m.vocabulary.size < (place t m).2.vocabulary.size := by
  match t with
  | .symbol s =>
    rw [find?_symbol] at hn
    rw [place]
    exact size_lt_addSymbol (Option.map_eq_none_iff.mp hn) _ _
  | .apply fn args k =>
    obtain ⟨hop, hall, hplaces⟩ := advances_parts fn args h
    obtain ⟨happ, -⟩ := advances_placeApplication hall.filed _ k hplaces
    have hfirst := hop.later.vocabulary.size_le
    have hlater := (hall.later.trans happ.later).vocabulary.size_le
    rw [find?_apply] at hn
    rw [place_apply]
    -- The first part that is missing is the first that is added.
    cases hfn : m.findOperator? fn with
    | none => exact Nat.lt_of_lt_of_le (size_lt_placeOperator fn h hfn) hlater
    | some op =>
      have hplaced := placeOperator_of_findOperator? fn hfn
      rw [hplaced] at hplaces happ ⊢
      cases hargs : m.findAll? args with
      | none =>
        exact Nat.lt_of_lt_of_le (size_lt_placeAll args h hargs) happ.later.vocabulary.size_le
      | some is =>
        rw [placeAll_of_findAll? args hargs] at hplaces ⊢
        simp only [hfn, hargs, bind, pure, Option.bind_some, Option.bind_eq_none_iff] at hn
        refine size_lt_placeApplication h k hplaces ?_
        cases hi : m.table[(Application.mk op is).key m.vocabulary]? with
        | none => rfl
        | some i => simpa using hn i hi
  | .lambda params body k =>
    rw [find?_of_not_apply (by simp)] at hn
    rw [place]
    exact size_lt_placeConstant hn
  | .cases branches otherwise k =>
    rw [find?_of_not_apply (by simp)] at hn
    rw [place]
    exact size_lt_placeConstant hn

theorem size_lt_placeOperator (fn : Term) {m : Model} (h : m.Filed [])
    (hn : m.findOperator? fn = none) :
    m.vocabulary.size < (placeOperator fn m).2.vocabulary.size := by
  match fn with
  | .symbol s => exact size_lt_addSymbol hn _ _
  | .apply fn args k => exact size_lt_place (.apply fn args k) h hn
  | .lambda params body k => exact size_lt_place (.lambda params body k) h hn
  | .cases branches otherwise k => exact size_lt_place (.cases branches otherwise k) h hn

theorem size_lt_placeAll (ts : List Term) {m : Model} (h : m.Filed [])
    (hn : m.findAll? ts = none) : m.vocabulary.size < (placeAll ts m).2.vocabulary.size := by
  match ts with
  | [] =>
    rw [findAll?] at hn
    contradiction
  | t :: rest =>
    obtain ⟨hfirst, -⟩ := advances_place t h
    obtain ⟨hrest, -⟩ := advances_placeAll rest hfirst.filed
    rw [findAll?] at hn
    rw [placeAll]
    cases ht : m.find? t with
    | none =>
      exact Nat.lt_of_lt_of_le (size_lt_place t h ht) hrest.later.vocabulary.size_le
    | some i =>
      rw [place_of_find? t ht]
      refine size_lt_placeAll rest h ?_
      cases hr : m.findAll? rest with
      | none => rfl
      | some is => simp [ht, hr] at hn

end

theorem size_lt_represent (hm : m.Closed) {t : Term} (hn : m.find? t = none) :
    m.vocabulary.size < (m.represent t).2.vocabulary.size := by
  obtain ⟨hadv, -⟩ := advances_place t hm.filed
  obtain ⟨-, -, hcoarse⟩ := propagate_spec hadv.filed
  exact Nat.lt_of_lt_of_le (size_lt_place t hm.filed hn) hcoarse.vocabulary.size_le

end Unknown

/-- Looking a term up over trees gives what it gives in the model, and moves no root. -/
theorem findOver_spec (m : Model) (t : Term) {f : Forest} (hf : f.vocabulary = m.vocabulary) :
    ((findOver m t).run.run f).1 = m.find? t ∧
      f.Reshapes ((findOver m t).run.run f).2 := by
  obtain ⟨hanswer, hshape⟩ := reads_findOver m t f
  refine ⟨hanswer.trans ?_, hshape⟩
  rw [hf]
  rfl

/-- A term is found exactly if representing it adds no symbol and no fact. Then it is represented as
the index that was found, and the model is left as it was. Looking a term up is made of questions to
a forest that change no class and no symbol. -/
theorem recognizes_ofInputs (inputs : List Input) (t : Term) :
    ((∃ i, (ofInputs inputs).find? t = some i) ↔
      ((ofInputs inputs).represent t).2.vocabulary.size = (ofInputs inputs).vocabulary.size ∧
        ((ofInputs inputs).represent t).2.records.size = (ofInputs inputs).records.size) ∧
    (∀ i, (ofInputs inputs).find? t = some i →
      (ofInputs inputs).represent t = (i, ofInputs inputs)) ∧
    ∀ f : Forest, f.vocabulary = (ofInputs inputs).vocabulary →
      ((findOver (ofInputs inputs) t).run.run f).1 = (ofInputs inputs).find? t ∧
        f.Reshapes ((findOver (ofInputs inputs) t).run.run f).2 := by
  have hm := closed_ofInputs inputs
  have hfound : ∀ i, (ofInputs inputs).find? t = some i →
      (ofInputs inputs).represent t = (i, ofInputs inputs) := fun _ h => represent_of_find? hm h
  refine ⟨⟨?_, ?_⟩, hfound, fun f hf => findOver_spec _ t hf⟩
  · rintro ⟨i, hi⟩
    rw [hfound i hi]
    exact ⟨rfl, rfl⟩
  · rintro ⟨hsize, -⟩
    cases hn : (ofInputs inputs).find? t with
    | some i => exact ⟨i, rfl⟩
    | none => exact absurd hsize (Nat.ne_of_gt (size_lt_represent hm hn))

/-- An equation between two truth values, so that the application of a function to either of them
is one class. -/
def sharedInputs : List Input :=
  let x (name : Text) : Term := .symbol ⟨name, .boolean, .free⟩
  [.represent (.call "f" .integer [x "a"]), .assume (.equal (x "b") (x "a"))]

/-- The application to the other value is recognized though it was never represented, and another
function of it is not. -/
theorem recognizes_sharedInputs :
    let known : Term := .call "f" .integer [.symbol ⟨"b", .boolean, .free⟩]
    let unknown : Term := .call "g" .integer [.symbol ⟨"b", .boolean, .free⟩]
    let f := Forest.ofVocabulary (ofInputs sharedInputs).vocabulary
      (closed_ofInputs sharedInputs).filed.vocabulary
    (ofInputs sharedInputs).find? known = some 4 ∧
      (ofInputs sharedInputs).represent known = (4, ofInputs sharedInputs) ∧
      f.vocabulary = (ofInputs sharedInputs).vocabulary ∧
      ((findOver (ofInputs sharedInputs) known).run.run f).1 = some 4 ∧
      f.Reshapes ((findOver (ofInputs sharedInputs) known).run.run f).2 ∧
      ¬ (((ofInputs sharedInputs).represent unknown).2.vocabulary.size =
          (ofInputs sharedInputs).vocabulary.size ∧
        ((ofInputs sharedInputs).represent unknown).2.records.size =
          (ofInputs sharedInputs).records.size) := by
  intro known unknown f
  obtain ⟨-, hrepresent, hforest⟩ := recognizes_ofInputs sharedInputs known
  obtain ⟨hunknown, -, -⟩ := recognizes_ofInputs sharedInputs unknown
  have hknown : (ofInputs sharedInputs).find? known = some 4 := by decide +kernel
  have hnone : (ofInputs sharedInputs).find? unknown = none := by decide +kernel
  have hf : f.vocabulary = (ofInputs sharedInputs).vocabulary := Forest.vocabulary_ofVocabulary _
  obtain ⟨hanswer, hshape⟩ := hforest f hf
  refine ⟨hknown, hrepresent 4 hknown, hf, hanswer.trans hknown, hshape, ?_⟩
  rw [← hunknown, hnone]
  simp

end Discharge.Congruence.Model
