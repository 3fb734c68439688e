import Discharge.Proofs.Congruence.Names
import Discharge.Proofs.Congruence.Satisfaction

namespace Discharge.Congruence.Model

universe u

variable {D : Type u} {I : Interpretation D} {m : Model}

def findOperator? (m : Model) : Term → Option Nat
  | .symbol s => m.vocabulary.lookup? s.name
  | fn => m.find? fn

theorem find?_apply (m : Model) (fn : Term) (args : List Term) (k : Kind) :
    m.find? (.apply fn args k) = do
      let op ← m.findOperator? fn
      let args ← m.findAll? args
      let i ← m.table[(⟨op, args⟩ : Application).key m.vocabulary]?
      return m.root (m.record i).result := by
  cases fn with
  | symbol s =>
    rw [find?]
    rfl
  | apply fn args' k' =>
    rw [find?]
    · rfl
    · simp
  | lambda params body k' =>
    rw [find?]
    · rfl
    · simp
  | cases branches otherwise k' =>
    rw [find?]
    · rfl
    · simp

theorem find?_of_not_apply {t : Term} (h : ∀ fn args k, t ≠ .apply fn args k) :
    m.find? t = m.vocabulary.rootOf? t.render := by
  rw [find?]
  exact h

theorem value_rootOf? {v : Vocabulary} (h : v.Respects I) (hv : v.WellFormed) {name : Text}
    {r : Nat} (hr : v.rootOf? name = some r) : r < v.size ∧ v.value I r = I.value name := by
  obtain ⟨i, hi, rfl⟩ := Option.map_eq_some_iff.mp hr
  have hlt := hv.lt_of_lookup? hi
  refine ⟨hv.root_lt hlt, ?_⟩
  rw [h.value_root hv hlt, Vocabulary.value, hv.name_of_lookup? hi]

/-- Whether the classes and the live facts of a model are true, and operands may be exchanged. This
is all that looking a term up relies on. -/
structure Upheld (m : Model) (I : Interpretation D) : Prop where
  respects : m.vocabulary.Respects I
  facts : ∀ f ∈ m.facts, m.vocabulary.value I f.result = f.app.value m.vocabulary I
  exchange : I.Exchange

theorem Satisfied.upheld (h : m.Satisfied I) (hI : I.Lawful) (hm : m.Closed) : m.Upheld I :=
  ⟨h.respects, fun _ hf => (agrees_of_satisfied h hm).value_fact hm h.reads hf, hI.exchange⟩

theorem Upheld.value_found (h : m.Upheld I) (hm : m.Closed) {app : Application} {i : Nat}
    (happ : ∀ s ∈ app.places, s < m.vocabulary.size)
    (hi : m.table[app.key m.vocabulary]? = some i) :
    m.root (m.record i).result < m.vocabulary.size ∧
      m.vocabulary.value I (m.root (m.record i).result) = app.value m.vocabulary I := by
  obtain ⟨r, hr, hl, hk⟩ := hm.filed.table_iff.mp hi
  have hv := hm.filed.vocabulary
  have hcong := Application.Congruent.of_key_eq hv (happ app.op Application.op_mem_places)
    (hm.filed.key_eq_of_found hr hl hk)
  rw [record_eq hr]
  refine ⟨hm.filed.root_lt (hm.filed.result_lt hr), ?_⟩
  rw [h.facts _ (mem_facts.mpr ⟨i, r, hr, hl, rfl⟩),
    hcong.value_eq_of_exchange h.exchange h.respects hv happ (hm.filed.places_lt hr)]
  have hargs := h.respects.map_value_root hv (l := r.app.args)
    fun s hs => hm.filed.places_lt hr s (Application.arg_mem_places hs)
  change I.apply (m.vocabulary.value I (m.vocabulary.root r.app.op))
    ((r.app.args.map m.vocabulary.root).map (m.vocabulary.value I)) = _
  rw [hargs, h.respects.value_root hv (hm.filed.op_lt hr)]
  rfl

theorem Upheld.value_find?_constant (h : m.Upheld I) (hm : m.Closed) {t : Term}
    (ht : ∀ fn args k, t ≠ .apply fn args k) {r : Nat} (hr : m.find? t = some r) :
    r < m.vocabulary.size ∧ m.vocabulary.value I r = I.read t := by
  rw [find?_of_not_apply ht] at hr
  have hread : I.read t = I.value t.render := by
    cases t with
    | symbol s => exact Interpretation.read_symbol s
    | apply fn args k => exact (ht fn args k rfl).elim
    | lambda params body k => exact Interpretation.read_lambda params body k
    | cases branches otherwise k => exact Interpretation.read_cases branches otherwise k
  rw [hread]
  exact value_rootOf? h.respects hm.filed.vocabulary hr

mutual

theorem Upheld.value_find? (h : m.Upheld I) (hm : m.Closed) (t : Term)
    {r : Nat} (hr : m.find? t = some r) :
    r < m.vocabulary.size ∧ m.vocabulary.value I r = I.read t := by
  match t with
  | .symbol s => exact h.value_find?_constant hm (by simp) hr
  | .apply fn args k =>
    rw [find?_apply] at hr
    simp only [bind, Option.bind_eq_some_iff, pure, Option.some.injEq] at hr
    obtain ⟨op, hop, is, his, i, hi, rfl⟩ := hr
    have hfn : op < m.vocabulary.size ∧ m.vocabulary.value I op = I.read fn := by
      match fn with
      | .symbol s =>
        have hv := hm.filed.vocabulary
        refine ⟨hv.lt_of_lookup? hop, ?_⟩
        rw [Interpretation.read_symbol, Vocabulary.value, hv.name_of_lookup? hop]
      | .apply fn args k => exact Upheld.value_find? h hm (.apply fn args k) hop
      | .lambda params body k => exact h.value_find?_constant hm (by simp) hop
      | .cases branches otherwise k => exact h.value_find?_constant hm (by simp) hop
    obtain ⟨hlts, hvals⟩ := Upheld.value_findAll? h hm args his
    have hplaces : ∀ s ∈ (Application.mk op is).places, s < m.vocabulary.size := by
      simpa [Application.places] using ⟨hfn.1, hlts⟩
    obtain ⟨hlt, hval⟩ := h.value_found hm hplaces hi
    refine ⟨hlt, ?_⟩
    rw [hval, Application.value, hfn.2, hvals, Interpretation.read_apply]
  | .lambda params body k => exact h.value_find?_constant hm (by simp) hr
  | .cases branches otherwise k => exact h.value_find?_constant hm (by simp) hr

theorem Upheld.value_findAll? (h : m.Upheld I) (hm : m.Closed)
    (ts : List Term) {is : List Nat} (his : m.findAll? ts = some is) :
    (∀ i ∈ is, i < m.vocabulary.size) ∧ is.map (m.vocabulary.value I) = ts.map I.read := by
  match ts with
  | [] =>
    rw [findAll?] at his
    cases his
    exact ⟨by simp, rfl⟩
  | t :: rest =>
    rw [findAll?] at his
    simp only [bind, Option.bind_eq_some_iff, pure, Option.some.injEq] at his
    obtain ⟨i, hi, js, hjs, rfl⟩ := his
    obtain ⟨hlt, hval⟩ := Upheld.value_find? h hm t hi
    obtain ⟨hlts, hvals⟩ := Upheld.value_findAll? h hm rest hjs
    exact ⟨List.forall_mem_cons.mpr ⟨hlt, hlts⟩, by rw [List.map_cons, List.map_cons, hval, hvals]⟩

end

mutual

/-- Simplification keeps the value of a term. -/
theorem Upheld.read_simplify (h : m.Upheld I) (hm : m.Closed) (t : Term) :
    I.read (m.simplify t) = I.read t := by
  match t with
  | .symbol s =>
    rw [simplify]
    split
    · rfl
    · rename_i r hr
      split
      · rw [Interpretation.read_symbol, Interpretation.read_symbol]
        exact (value_rootOf? h.respects hm.filed.vocabulary hr).2
      · rfl
  | .apply fn args k =>
    have hargs : I.read (.apply fn (m.simplifyAll args) k) = I.read (.apply fn args k) := by
      rw [Interpretation.read_apply, Interpretation.read_apply,
        Upheld.read_simplifyAll h hm args]
    rw [simplify]
    dsimp only
    split
    · exact hargs
    · rename_i r hr
      split
      · rw [Interpretation.read_symbol, ← hargs]
        exact (h.value_find? hm _ hr).2
      · exact hargs
  | .lambda params body k =>
    rw [simplify]
    · simp
    · simp
  | .cases branches otherwise k =>
    rw [simplify]
    · simp
    · simp

theorem Upheld.read_simplifyAll (h : m.Upheld I) (hm : m.Closed)
    (ts : List Term) : (m.simplifyAll ts).map I.read = ts.map I.read := by
  match ts with
  | [] => rw [simplifyAll]
  | t :: rest =>
    rw [simplifyAll, List.map_cons, List.map_cons, Upheld.read_simplify h hm t,
      Upheld.read_simplifyAll h hm rest]

end

theorem Satisfied.value_rootOf? (h : m.Satisfied I) (hm : m.Closed) {name : Text} {r : Nat}
    (hr : m.vocabulary.rootOf? name = some r) :
    r < m.vocabulary.size ∧ m.vocabulary.value I r = I.value name :=
  Model.value_rootOf? h.respects hm.filed.vocabulary hr

theorem Satisfied.read_simplify (h : m.Satisfied I) (hI : I.Lawful) (hm : m.Closed) (t : Term) :
    I.read (m.simplify t) = I.read t := (h.upheld hI hm).read_simplify hm t

mutual

theorem Satisfied.named_simplify (h : m.Satisfied I) (hI : I.Lawful) (hm : m.Closed)
    (hn : m.vocabulary.Named) (t : Term) (ht : t.named = true) : (m.simplify t).named = true := by
  match t with
  | .symbol s =>
    rw [simplify]
    split
    · exact ht
    · rename_i r hr
      split
      · exact Term.named_symbol (hn.name_ne (h.value_rootOf? hm hr).1)
      · exact ht
  | .apply fn args k =>
    simp only [Term.named, Bool.and_eq_true] at ht
    have hargs : (Term.apply fn (m.simplifyAll args) k).named = true := by
      simp only [Term.named, Bool.and_eq_true]
      exact ⟨ht.1, Satisfied.namedAll_simplify h hI hm hn args ht.2⟩
    rw [simplify]
    dsimp only
    split
    · exact hargs
    · rename_i r hr
      split
      · exact Term.named_symbol (hn.name_ne ((h.upheld hI hm).value_find? hm _ hr).1)
      · exact hargs
  | .lambda _ _ _ => simp [Term.named] at ht
  | .cases _ _ _ => simp [Term.named] at ht

theorem Satisfied.namedAll_simplify (h : m.Satisfied I) (hI : I.Lawful) (hm : m.Closed)
    (hn : m.vocabulary.Named) (ts : List Term) (hts : Term.namedAll ts = true) :
    Term.namedAll (m.simplifyAll ts) = true := by
  match ts with
  | [] => rfl
  | t :: rest =>
    simp only [Term.namedAll, Bool.and_eq_true] at hts
    rw [simplifyAll]
    simp only [Term.namedAll, Bool.and_eq_true]
    exact ⟨Satisfied.named_simplify h hI hm hn t hts.1,
      Satisfied.namedAll_simplify h hI hm hn rest hts.2⟩

end

end Discharge.Congruence.Model
