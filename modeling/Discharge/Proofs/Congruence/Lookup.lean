import Discharge.Proofs.Congruence.Representation
import Discharge.Proofs.Congruence.Simplification

/-!
Terms are looked up class by class. The class that is found for an application depends on the
classes of its operator and of its operands only, and every term that a model was given is found
again in all later states, in the class that it was placed in. A fact may have been retired in the
meantime, so this needs that operands which were exchanged once can still be.
-/

namespace Discharge.Congruence

/-- Whether every class that holds an operator with exchangeable operands has such a root. -/
def Vocabulary.KeepsExchanges (v : Vocabulary) : Prop :=
  ∀ s < v.size, isCommutative (v.name s) = true → isCommutative (v.rootName s) = true

instance (v : Vocabulary) : Decidable v.KeepsExchanges :=
  inferInstanceAs (Decidable (∀ s < v.size, _ → _))

theorem Vocabulary.KeepsExchanges.keepsExchange {v : Vocabulary} (h : v.KeepsExchanges)
    (op : Nat) : v.KeepsExchange op := by
  rintro ⟨s, hs, hroot, hcomm⟩
  rw [rootName, ← hroot]
  exact h s hs hcomm

theorem Application.key_of_canonical_eq {v : Vocabulary} {a b : Application}
    (h : a.canonical v = b.canonical v) : a.key v = b.key v := by
  unfold key
  rw [h]

namespace Model

variable {m n : Model}

/-- The class of the result of an application, if the model has a fact about it. -/
def result? (m : Model) (app : Application) : Option Nat :=
  (m.table[app.key m.vocabulary]?).map fun i => m.root (m.record i).result

theorem result?_congr {op op' : Nat} {args args' : List Nat} (hop : m.root op = m.root op')
    (hargs : args.map m.root = args'.map m.root) :
    m.result? ⟨op, args⟩ = m.result? ⟨op', args'⟩ := by
  have hc : (Application.mk op args).canonical m.vocabulary =
      (Application.mk op' args').canonical m.vocabulary := by
    change Application.mk (m.root op) (args.map m.root) = ⟨m.root op', args'.map m.root⟩
    rw [hop, hargs]
  rw [result?, result?, Application.key_of_canonical_eq hc]

theorem find?_symbol (m : Model) (s : Symbol) :
    m.find? (.symbol s) = m.vocabulary.rootOf? s.name :=
  find?_of_not_apply (by simp)

/-- What is found for an application is what is found for its parts, put together. -/
theorem find?_apply_eq (hm : m.Closed) (fn : Term) (args : List Term) (k : Kind) :
    m.find? (.apply fn args k) = (m.find? fn).bind fun op =>
      (m.findAll? args).bind fun is => m.result? ⟨op, is⟩ := by
  have hop : m.find? (.apply fn args k) = (m.findOperator? fn).bind fun op =>
      (m.findAll? args).bind fun is => m.result? ⟨op, is⟩ := by
    rw [find?_apply]
    simp only [bind, pure, result?, Option.map_eq_bind]
    rfl
  cases fn with
  | symbol s =>
    rw [hop, findOperator?, find?_symbol, Vocabulary.rootOf?]
    cases m.vocabulary.lookup? s.name with
    | none => rfl
    | some i =>
      have hroot : m.root i = m.root (m.root i) := (hm.filed.vocabulary.root_root i).symm
      simp only [Option.map_some, Option.bind_some]
      congr 1
      funext is
      exact result?_congr hroot rfl
  | apply fn args k => exact hop
  | lambda params body k => exact hop
  | cases branches otherwise k => exact hop

theorem Closed.result?_of_congruent (hm : m.Closed) (hx : m.vocabulary.KeepsExchanges)
    {app : Application} {e : Application × Nat} (he : e ∈ m.history)
    (hc : app.Congruent m.vocabulary e.1) : m.result? app = some (m.root e.2) := by
  obtain ⟨i, r, hr, rfl⟩ := exists_record_of_mem_history he
  obtain ⟨j, s, hj, hs, hres⟩ := hm.found hr (hx.keepsExchange _)
  rw [result?, hc.key_eq (hx.keepsExchange _), hj, Option.map_some, record_eq hs, hres]

/-- What is found for an application is the result of a fact about its operator and operands. -/
theorem Closed.exists_fact (hm : m.Closed) {app : Application} {s : Nat}
    (h : m.result? app = some s) : ∃ f ∈ m.facts, f.result = s ∧ f.app.op = m.root app.op ∧
      f.app.args.Perm (app.args.map m.root) ∧
      (f.app.args = app.args.map m.root ∨
        isCommutative (m.vocabulary.name f.app.op) = true) := by
  obtain ⟨i, hi, rfl⟩ := Option.map_eq_some_iff.mp h
  obtain ⟨r, hr, hl, hk⟩ := hm.filed.table_iff.mp hi
  have hkey := hm.filed.key_eq_of_found hr hl hk
  have hop : m.root r.app.op = m.root app.op := by
    have hops := congrArg Application.op hkey
    rw [Application.key_op, Application.key_op] at hops
    exact hops.symm
  refine ⟨_, mem_facts.mpr ⟨i, r, hr, hl, rfl⟩, by rw [record_eq hr], hop, ?_, ?_⟩
  · have hperm := Application.key_args_perm m.vocabulary r.app
    rw [← hkey] at hperm
    exact hperm.symm.trans (Application.key_args_perm m.vocabulary app)
  · change r.app.args.map m.root = _ ∨ isCommutative (m.vocabulary.name (m.root r.app.op)) = true
    cases hc : isCommutative (m.vocabulary.name (m.root r.app.op)) with
    | true => exact .inr rfl
    | false =>
      left
      have hc' : isCommutative (m.vocabulary.rootName app.op) = false := by
        rw [Vocabulary.rootName, ← hc, hop]
        rfl
      rw [Application.key_of_not_commutative hc', Application.key_of_not_commutative hc] at hkey
      exact (congrArg Application.args hkey).symm

theorem result?_perm {op : Nat} {args args' : List Nat}
    (hc : isCommutative (m.vocabulary.rootName op) = true) (hp : args.Perm args') :
    m.result? ⟨op, args⟩ = m.result? ⟨op, args'⟩ := by
  have hkey : ∀ as, (Application.mk op as).key m.vocabulary =
      ⟨m.vocabulary.root op, inOrder (as.map m.vocabulary.root)⟩ :=
    fun as => Application.key_of_commutative (a := ⟨op, as⟩) hc
  rw [result?, result?, hkey, hkey, inOrder_eq_of_perm (hp.map m.vocabulary.root)]

theorem Closed.result?_fact (hm : m.Closed) {f : Fact} (hf : f ∈ m.facts) :
    m.result? f.app = some f.result := by
  obtain ⟨i, r, hr, hl, rfl⟩ := mem_facts.mp hf
  have hv := hm.filed.vocabulary
  have hcanonical : (r.app.canonical m.vocabulary).canonical m.vocabulary =
      r.app.canonical m.vocabulary := by
    simp [Application.canonical, hv.root_root]
  have hkey : r.key = (r.app.canonical m.vocabulary).key m.vocabulary := by
    rw [Application.key_of_canonical_eq hcanonical]
    rcases hm.filed.key_eq hr hl with hk | ⟨hstale, -⟩
    · exact hk
    · simp at hstale
  have hfound := hm.filed.table_key hr hl
  rw [hkey] at hfound
  rw [result?, hfound, Option.map_some, record_eq hr]

theorem result?_placeApplication (hm : m.Filed []) (hn : n.Closed)
    (hx : n.vocabulary.KeepsExchanges) {app : Application} {k : Kind}
    (happ : ∀ s ∈ app.places, s < m.vocabulary.size)
    (hext : (m.placeApplication app k).2.Extends n) :
    n.result? app = some (n.root (m.placeApplication app k).1) := by
  cases hk : m.table[app.key m.vocabulary]? with
  | some i =>
    obtain ⟨r, hr, hl, hkey⟩ := hm.table_iff.mp hk
    have hcong := Application.Congruent.of_key_eq hm.vocabulary
      (happ app.op Application.op_mem_places) (hm.key_eq_of_found hr hl hkey)
    rw [placeApplication_of_some hk] at hext ⊢
    rw [hn.result?_of_congruent hx (hext.mem_history (mem_history hr))
      (hcong.mono hm.vocabulary hext.vocabulary happ (hm.places_lt hr)), record_eq hr]
    exact congrArg some (hext.vocabulary.root_eq (hm.result_lt hr) (hm.root_lt (hm.result_lt hr))
      (hm.vocabulary.root_root _).symm)
  | none =>
    obtain ⟨hdef, hv, hh⟩ := advances_define hm app k happ hk
    obtain ⟨hfiled, -, hcoarse⟩ := propagate_spec hdef.filed
    have hlt : m.vocabulary.size < (m.define app k).propagate.vocabulary.size := by
      refine hcoarse.extends.lt ?_
      rw [hv, Vocabulary.size_create hm.vocabulary]
      omega
    rw [placeApplication_of_none hk, Vocabulary.create_fst hm.vocabulary] at hext ⊢
    dsimp only at hext ⊢
    have hmem : (app, m.vocabulary.size) ∈ n.history := by
      refine hext.mem_history ?_
      rw [hcoarse.history_eq, hh]
      simp
    rw [hn.result?_of_congruent hx hmem (Application.Congruent.refl _ _)]
    exact congrArg some (hext.vocabulary.root_eq hlt (hfiled.root_lt hlt)
      (hfiled.vocabulary.root_root _).symm)

theorem rootOf?_addSymbol (hm : m.Filed []) (hn : n.Closed) {name : Text} {k : Kind} {u : Usage}
    (hext : (m.addSymbol name k u).2.Extends n) :
    n.vocabulary.rootOf? name = some (n.root (m.addSymbol name k u).1) := by
  have hlt := (advances_addSymbol hm name k u).2
  have hlookup : n.vocabulary.lookup? name = some (m.addSymbol name k u).1 := by
    refine hn.filed.vocabulary.lookup_iff.mpr ⟨hext.lt hlt, ?_⟩
    rw [hext.vocabulary.name_eq hlt]
    exact Vocabulary.name_add_fst hm.vocabulary name k u
  rw [Vocabulary.rootOf?, hlookup]
  rfl

theorem find?_name (hext : m.Extends n) (hn : n.Closed) {r : Nat} (hr : r < m.vocabulary.size)
    (k : Kind) (q : Quantifier) :
    n.find? (.symbol ⟨m.vocabulary.name r, k, q⟩) = some (n.root r) := by
  rw [find?_symbol, ← hext.vocabulary.name_eq hr]
  exact hn.filed.vocabulary.rootOf?_name (hext.lt hr)

theorem Extends.root_root (hext : m.Extends n) (hm : m.Filed []) {i : Nat}
    (hi : i < m.vocabulary.size) : n.root (m.root i) = n.root i :=
  hext.vocabulary.root_eq (hm.root_lt hi) hi (hm.vocabulary.root_root i)

theorem find?_placeConstant (hm : m.Filed []) (hn : n.Closed) {t : Term}
    (ht : ∀ fn args k, t ≠ .apply fn args k) (hext : (m.placeConstant t).2.Extends n) :
    n.find? t = some (n.root (m.placeConstant t).1) := by
  obtain ⟨hadv, hlt⟩ := advances_addSymbol hm t.render t.kind .literal
  rw [find?_of_not_apply ht, rootOf?_addSymbol hm hn hext]
  exact congrArg some (hext.root_root hadv.filed hlt).symm

theorem advances_parts (fn : Term) (args : List Term) (hm : m.Filed []) :
    m.Advances (placeOperator fn m).2 ∧
      (placeOperator fn m).2.Advances (placeAll args (placeOperator fn m).2).2 ∧
      ∀ s ∈ (Application.mk (placeOperator fn m).1
          (placeAll args (placeOperator fn m).2).1).places,
        s < (placeAll args (placeOperator fn m).2).2.vocabulary.size := by
  obtain ⟨hop, hlt⟩ := advances_placeOperator fn hm
  obtain ⟨hall, hlts⟩ := advances_placeAll args hop.filed
  refine ⟨hop, hall, ?_⟩
  intro s hs
  rcases List.mem_cons.mp hs with rfl | hs
  · exact hall.later.lt hlt
  · exact hlts s hs

mutual

/-- What was placed is found in every later state, in its class of then. -/
theorem find?_place (t : Term) {m : Model} (hm : m.Filed []) (hn : n.Closed)
    (hx : n.vocabulary.KeepsExchanges) (hext : (place t m).2.Extends n) :
    n.find? t = some (n.root (place t m).1) := by
  cases t with
  | symbol s =>
    obtain ⟨hadv, hlt⟩ := advances_addSymbol hm s.name s.kind (usageOf s false)
    rw [place] at hext ⊢
    rw [find?_symbol, rootOf?_addSymbol hm hn hext]
    exact congrArg some (hext.root_root hadv.filed hlt).symm
  | apply fn args k =>
    obtain ⟨hop, hall, hplaces⟩ := advances_parts fn args hm
    obtain ⟨happlied, -⟩ := advances_placeApplication hall.filed _ k hplaces
    rw [place_apply] at hext ⊢
    have hextAll := happlied.later.trans hext
    have hextOp := hall.later.trans hextAll
    have hfn : n.find? fn = some (n.root (placeOperator fn m).1) := by
      match fn with
      | .symbol s => exact (find?_symbol n s).trans (rootOf?_addSymbol hm hn hextOp)
      | .apply fn args k => exact find?_place (.apply fn args k) hm hn hx hextOp
      | .lambda params body k => exact find?_placeConstant hm hn (by simp) hextOp
      | .cases branches otherwise k => exact find?_placeConstant hm hn (by simp) hextOp
    rw [find?_apply_eq hn, hfn, findAll?_placeAll args hop.filed hn hx hextAll,
      Option.bind_some, Option.bind_some, ← result?_placeApplication hall.filed hn hx hplaces hext]
    refine result?_congr (hn.filed.vocabulary.root_root _) ?_
    rw [List.map_map]
    exact List.map_congr_left fun s _ => hn.filed.vocabulary.root_root s
  | lambda params body k =>
    rw [place] at hext ⊢
    exact find?_placeConstant hm hn (by simp) hext
  | cases branches otherwise k =>
    rw [place] at hext ⊢
    exact find?_placeConstant hm hn (by simp) hext

theorem findAll?_placeAll (ts : List Term) {m : Model} (hm : m.Filed []) (hn : n.Closed)
    (hx : n.vocabulary.KeepsExchanges) (hext : (placeAll ts m).2.Extends n) :
    n.findAll? ts = some ((placeAll ts m).1.map n.root) := by
  cases ts with
  | nil =>
    rw [placeAll, findAll?]
    rfl
  | cons t rest =>
    obtain ⟨hfirst, hlt⟩ := advances_place t hm
    obtain ⟨hrest, -⟩ := advances_placeAll rest hfirst.filed
    rw [placeAll] at hext ⊢
    rw [findAll?, find?_place t hm hn hx (hrest.later.trans hext),
      findAll?_placeAll rest hfirst.filed hn hx hext]
    rfl

end

theorem find?_represent (hm : m.Closed) (hn : n.Closed) (hx : n.vocabulary.KeepsExchanges)
    {t : Term} (hext : (m.represent t).2.Extends n) :
    n.find? t = some (n.root (m.represent t).1) := by
  obtain ⟨hplace, hlt⟩ := advances_place t hm.filed
  obtain ⟨hfiled, -, hcoarse⟩ := propagate_spec hplace.filed
  rw [find?_place t hm.filed hn hx (hcoarse.extends.trans hext)]
  exact congrArg some (hext.root_root hfiled (hcoarse.extends.lt hlt)).symm

end Model

end Discharge.Congruence
