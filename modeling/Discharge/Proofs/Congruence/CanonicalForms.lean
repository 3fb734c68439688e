import Discharge.Proofs.Congruence.OrderIndependence
import Discharge.Proofs.Congruence.Shortening

/-!
Simplified terms are canonical. Simplifying a term leaves it in its class, simplifying it once more
changes nothing, and whatever is known in a class whose root is a symbol of the input is simplified
to that symbol. A term is found in its class when it is represented in a model without
contradiction, and as long as operands that were exchanged once can still be.
-/

namespace Discharge

namespace Term

def replaceable : Term → Bool
  | symbol _ | apply .. => true
  | _ => false

mutual

/-- The terms that are looked up with a term: itself, and the operators and operands in it. -/
def nodes : Term → List Term
  | apply fn args k => apply fn args k :: (fn.nodes ++ nodesAll args)
  | t => [t]

def nodesAll : List Term → List Term
  | [] => []
  | t :: rest => t.nodes ++ nodesAll rest

end

end Term

namespace Congruence.Model

variable {m n : Model}

section Placed

theorem result?_placeApplication_self (hm : m.Closed) (hcon : m.contradiction = false)
    (app : Application) (kind : Kind) (happ : ∀ s ∈ app.places, s < m.vocabulary.size) :
    (m.placeApplication app kind).2.result? app = some (m.placeApplication app kind).1 := by
  cases hk : m.table[app.key m.vocabulary]? with
  | some i => rw [placeApplication_of_some hk, result?, hk, Option.map_some]
  | none =>
    rw [placeApplication_of_none hk, Vocabulary.create_fst hm.filed.vocabulary]
    -- The pair has to go before the unifier meets the new model in both of its places.
    dsimp only
    exact result?_define hm hcon kind happ hk

theorem find?_addSymbol_self (hm : m.Closed) {t : Term} (ht : ∀ fn args k, t ≠ .apply fn args k)
    (k : Kind) (u : Usage) : (m.addSymbol t.render k u).2.find? t =
      some ((m.addSymbol t.render k u).2.root (m.addSymbol t.render k u).1) := by
  obtain ⟨hn, -⟩ := conserves_addSymbol hm t.render k u
  rw [find?_of_not_apply ht, rootOf?_addSymbol hm.filed hn (.refl _)]

theorem find?_eq_root_placed {t : Term} (hn : (place t m).2.Closed)
    (h : (place t m).2.find? t = some (place t m).1) :
    (place t m).2.find? t = some ((place t m).2.root (place t m).1) :=
  h.trans (congrArg some (root_find? hn h).symm)

mutual

/-- What is placed in a model without contradiction is found at once. -/
theorem find?_place_self (t : Term) {m : Model} (hm : m.Closed) (hcon : m.contradiction = false) :
    (place t m).2.find? t = some (place t m).1 := by
  match t with
  | .symbol s =>
    rw [place]
    exact find?_addSymbol_self (t := .symbol s) hm (by simp) _ _
  | .apply fn args k =>
    obtain ⟨hop, hcop⟩ := conserves_placeOperator fn hm hcon
    have hcon₁ := (hcop.contradiction_eq hm hop).trans hcon
    obtain ⟨hall, hcall⟩ := conserves_placeAll args hop hcon₁
    have hcon₂ := (hcall.contradiction_eq hop hall).trans hcon₁
    obtain ⟨-, -, hplaces⟩ := advances_parts fn args hm.filed
    obtain ⟨happ, hcapp⟩ := conserves_placeApplication hall hcon₂ _ k hplaces
    have hlt := (advances_placeOperator fn hm.filed).2
    have hfn := ((hcall.trans hcapp).find? hop happ fn (find?_placeOperator_self fn hm hcon)).2
    have hargs := (hcapp.findAll? hall happ args (findAll?_placeAll_self args hop hcon₁)).2
    rw [place_apply, find?_apply_eq happ, hfn, hargs, Option.bind_some, Option.bind_some,
      ← result?_placeApplication_self hall hcon₂ _ k hplaces]
    refine result?_congr ?_ rfl
    rw [(hcall.trans hcapp).root_eq (hop.filed.root_lt hlt), (hcall.trans hcapp).root_eq hlt]
    exact hop.filed.vocabulary.root_root _
  | .lambda params body k =>
    rw [place]
    exact find?_addSymbol_self hm (by simp) _ _
  | .cases branches otherwise k =>
    rw [place]
    exact find?_addSymbol_self hm (by simp) _ _

theorem find?_placeOperator_self (fn : Term) {m : Model} (hm : m.Closed)
    (hcon : m.contradiction = false) :
    (placeOperator fn m).2.find? fn =
      some ((placeOperator fn m).2.root (placeOperator fn m).1) := by
  match fn with
  | .symbol s => exact find?_addSymbol_self (t := .symbol s) hm (by simp) _ _
  | .apply fn args k =>
    exact find?_eq_root_placed (conserves_place _ hm hcon).1
      (find?_place_self (.apply fn args k) hm hcon)
  | .lambda params body k =>
    exact find?_eq_root_placed (conserves_place _ hm hcon).1
      (find?_place_self (.lambda params body k) hm hcon)
  | .cases branches otherwise k =>
    exact find?_eq_root_placed (conserves_place _ hm hcon).1
      (find?_place_self (.cases branches otherwise k) hm hcon)

theorem findAll?_placeAll_self (ts : List Term) {m : Model} (hm : m.Closed)
    (hcon : m.contradiction = false) :
    (placeAll ts m).2.findAll? ts = some (placeAll ts m).1 := by
  match ts with
  | [] =>
    rw [placeAll, findAll?]
  | t :: rest =>
    obtain ⟨hfirst, hcfirst⟩ := conserves_place t hm hcon
    have hcon₁ := (hcfirst.contradiction_eq hm hfirst).trans hcon
    obtain ⟨hrest, hcrest⟩ := conserves_placeAll rest hfirst hcon₁
    rw [placeAll]
    rw [findAll?, (hcrest.find? hfirst hrest t (find?_place_self t hm hcon)).2,
      findAll?_placeAll_self rest hfirst hcon₁]
    rfl

end

theorem find?_represent_self (hm : m.Closed) (hcon : m.contradiction = false) (t : Term) :
    (m.represent t).2.find? t = some (m.represent t).1 := by
  obtain ⟨hc, -⟩ := conserves_place t hm hcon
  have hfound := find?_place_self t hm hcon
  have hrep : m.represent t = ((place t m).2.root (place t m).1, (place t m).2) := by
    rw [represent]
    simp only [propagate_of_pending_nil hc.pending_eq]
  rw [hrep]
  exact find?_eq_root_placed hc hfound

end Placed

section Recalling

/-- Whether what a model knows is known to another one, in the class that it has there. -/
def Recalls (m n : Model) : Prop :=
  ∀ ⦃t : Term⦄ ⦃r : Nat⦄, m.find? t = some r → n.find? t = some (n.root r)

theorem recalls_refl (hm : m.Closed) : m.Recalls m :=
  fun _ _ h => h.trans (congrArg some (root_find? hm h).symm)

theorem Conserves.recalls (h : m.Conserves n) (hm : m.Closed) (hn : n.Closed) : m.Recalls n := by
  intro t r hr
  obtain ⟨hlt, hfound⟩ := h.find? hm hn t hr
  rw [hfound, h.root_eq hlt, root_find? hm hr]

theorem recalls_of_extends (hm : m.Closed) (hn : n.Closed) (hx : n.vocabulary.KeepsExchanges)
    (hext : m.Extends n) : m.Recalls n := by
  intro t r hr
  have hrepresent := represent_of_find? hm hr
  have hfound := find?_represent hm hn hx (t := t) (by rwa [hrepresent])
  rwa [hrepresent] at hfound

theorem find?_represent_both (hm : m.Closed) (s t : Term)
    (h : m.contradiction = false ∨
      ((m.represent s).2.represent t).2.vocabulary.KeepsExchanges) :
    m.Recalls ((m.represent s).2.represent t).2 ∧
      ((m.represent s).2.represent t).2.find? s =
        some (((m.represent s).2.represent t).2.root (m.represent s).1) ∧
      ((m.represent s).2.represent t).2.find? t =
        some (((m.represent s).2.represent t).2.root ((m.represent s).2.represent t).1) := by
  obtain ⟨hs, hexts, -⟩ := closed_represent hm s
  obtain ⟨hn, hextt, -⟩ := closed_represent hs t
  rcases h with hcon | hx
  · have hconserves := conserves_represent hm hcon s
    have hcon' := (hconserves.contradiction_eq hm hs).trans hcon
    have hconserves' := conserves_represent hs hcon' t
    exact ⟨(hconserves.trans hconserves').recalls hm hn,
      hconserves'.recalls hs hn (find?_represent_self hm hcon s),
      recalls_refl hn (find?_represent_self hs hcon' t)⟩
  · exact ⟨recalls_of_extends hm hn hx (hexts.trans hextt), find?_represent hm hn hx hextt,
      find?_represent hs hn hx (.refl _)⟩

theorem coincide_of_find?_eq (hm : m.Closed) {s t : Term}
    (h : m.contradiction = false ∨
      ((m.represent s).2.represent t).2.vocabulary.KeepsExchanges)
    (hsame : m.Recalls ((m.represent s).2.represent t).2 →
      ((m.represent s).2.represent t).2.find? s = ((m.represent s).2.represent t).2.find? t) :
    m.Coincide s t := by
  obtain ⟨hrecalls, hs, ht⟩ := find?_represent_both hm s t h
  have hsame := hsame hrecalls
  rw [hs, ht] at hsame
  exact Option.some.inj hsame

end Recalling

section Simplifying

def simplifyParts (m : Model) : Term → Term
  | .apply fn args k => .apply fn (m.simplifyAll args) k
  | t => t

theorem simplify_eq (m : Model) {t : Term} (ht : t.replaceable = true) : ∃ kind : Nat → Kind,
    m.simplify t = (m.find? (m.simplifyParts t)).elim (m.simplifyParts t) fun r =>
      if m.vocabulary.usage r == .literal then .symbol ⟨m.vocabulary.name r, kind r, .free⟩
      else m.simplifyParts t := by
  cases t with
  | symbol s =>
    refine ⟨fun _ => s.kind, ?_⟩
    rw [simplify, simplifyParts, find?_symbol]
    · cases m.vocabulary.rootOf? s.name <;> rfl
    · simp
  | apply fn args k =>
    refine ⟨fun r => (m.vocabulary.entry r).kind, ?_⟩
    rw [simplify, simplifyParts]
    dsimp only
    cases m.find? (.apply fn (m.simplifyAll args) k) <;> rfl
  | lambda params body k => cases ht
  | cases branches otherwise k => cases ht

theorem simplify_of_not_replaceable {t : Term} (ht : t.replaceable = false) :
    m.simplify t = t := by
  cases t with
  | symbol s => cases ht
  | apply fn args k => cases ht
  | lambda params body k => rw [simplify] <;> simp
  | cases branches otherwise k => rw [simplify] <;> simp

theorem find?_replacement (hm : m.Closed) {t : Term} {r : Nat} (hr : m.find? t = some r)
    (k : Kind) : m.find? (.symbol ⟨m.vocabulary.name r, k, .free⟩) = some r := by
  rw [find?_name (.refl m) hm ((Conserves.refl m).find? hm hm t hr).1, root_find? hm hr]

theorem simplify_cases (m : Model) (t : Term) :
    (∃ r k, m.find? (m.simplifyParts t) = some r ∧ m.vocabulary.usage r = .literal ∧
      m.simplify t = .symbol ⟨m.vocabulary.name r, k, .free⟩) ∨
    m.simplify t = m.simplifyParts t ∧ (t.replaceable = true →
      ∀ r, m.find? (m.simplifyParts t) = some r → m.vocabulary.usage r ≠ .literal) := by
  cases ht : t.replaceable with
  | false =>
    refine .inr ⟨?_, nofun⟩
    rw [simplify_of_not_replaceable ht]
    cases t with
    | symbol s => rfl
    | apply fn args k => cases ht
    | lambda params body k => rfl
    | cases branches otherwise k => rfl
  | true =>
    obtain ⟨kind, he⟩ := m.simplify_eq ht
    cases hr : m.find? (m.simplifyParts t) with
    | none =>
      rw [hr] at he
      exact .inr ⟨he, nofun⟩
    | some r =>
      rw [hr, Option.elim_some] at he
      by_cases hu : m.vocabulary.usage r = .literal
      · rw [if_pos (beq_iff_eq.mpr hu)] at he
        exact .inl ⟨r, kind r, rfl, hu, he⟩
      · rw [if_neg (by simpa using hu)] at he
        exact .inr ⟨he, fun _ s hs => by cases hs; exact hu⟩

theorem Recalls.find?_simplify_of_parts (h : m.Recalls n) (hm : m.Closed) {t : Term}
    (hparts : n.find? (m.simplifyParts t) = n.find? t) :
    n.find? (m.simplify t) = n.find? t := by
  rcases m.simplify_cases t with ⟨r, k, hr, -, he⟩ | ⟨he, -⟩
  · rw [he, ← hparts, h hr, h (find?_replacement hm hr k)]
  · rw [he, hparts]

mutual

theorem Recalls.find?_simplifyParts (h : m.Recalls n) (hm : m.Closed) (hn : n.Closed) (t : Term) :
    n.find? (m.simplifyParts t) = n.find? t := by
  match t with
  | .apply fn args k =>
    rw [simplifyParts, find?_apply_eq hn, find?_apply_eq hn, h.findAll?_simplifyAll hm hn args]
  | .symbol _ | .lambda .. | .cases .. => rfl

theorem Recalls.findAll?_simplifyAll (h : m.Recalls n) (hm : m.Closed) (hn : n.Closed)
    (ts : List Term) : n.findAll? (m.simplifyAll ts) = n.findAll? ts := by
  match ts with
  | [] => rw [simplifyAll]
  | t :: rest =>
    rw [simplifyAll, findAll?, findAll?,
      h.find?_simplify_of_parts hm (h.find?_simplifyParts hm hn t),
      h.findAll?_simplifyAll hm hn rest]

end

theorem Recalls.find?_simplify (h : m.Recalls n) (hm : m.Closed) (hn : n.Closed) (t : Term) :
    n.find? (m.simplify t) = n.find? t :=
  h.find?_simplify_of_parts hm (h.find?_simplifyParts hm hn t)

theorem simplify_of_literal (hm : m.Closed) {t : Term} (ht : t.replaceable = true) {r : Nat}
    (hr : m.find? t = some r) (hu : m.vocabulary.usage r = .literal) :
    ∃ k, m.simplify t = .symbol ⟨m.vocabulary.name r, k, .free⟩ := by
  rw [← (recalls_refl hm).find?_simplifyParts hm hm] at hr
  rcases m.simplify_cases t with ⟨s, k, hs, -, he⟩ | ⟨-, hno⟩
  · cases hs.symm.trans hr
    exact ⟨k, he⟩
  · exact (hno ht r hr hu).elim

theorem simplify_replacement (hm : m.Closed) {t : Term} {r : Nat} (hr : m.find? t = some r)
    (hu : m.vocabulary.usage r = .literal) (k : Kind) :
    m.simplify (.symbol ⟨m.vocabulary.name r, k, .free⟩) =
      .symbol ⟨m.vocabulary.name r, k, .free⟩ := by
  have hfound := find?_replacement hm hr k
  rw [find?_symbol] at hfound
  rw [simplify, hfound]
  simp [hu]

theorem simplify_simplify_of_parts (hm : m.Closed) {t : Term}
    (hparts : m.simplifyParts (m.simplifyParts t) = m.simplifyParts t) :
    m.simplify (m.simplify t) = m.simplify t := by
  cases ht : t.replaceable with
  | false => rw [simplify_of_not_replaceable ht, simplify_of_not_replaceable ht]
  | true =>
    rcases m.simplify_cases t with ⟨r, k, hr, hu, he⟩ | ⟨he, hno⟩
    · rw [he]
      exact simplify_replacement hm hr hu k
    · rw [he]
      rcases m.simplify_cases (m.simplifyParts t) with ⟨r, k, hr, hu, -⟩ | ⟨he', -⟩
      · exact (hno ht r (hparts ▸ hr) hu).elim
      · rw [he', hparts]

mutual

theorem simplifyParts_simplifyParts (hm : m.Closed) (t : Term) :
    m.simplifyParts (m.simplifyParts t) = m.simplifyParts t := by
  match t with
  | .apply fn args k => rw [simplifyParts, simplifyParts, simplifyAll_simplifyAll hm args]
  | .symbol _ | .lambda .. | .cases .. => rfl

theorem simplifyAll_simplifyAll (hm : m.Closed) (ts : List Term) :
    m.simplifyAll (m.simplifyAll ts) = m.simplifyAll ts := by
  match ts with
  | [] => rw [simplifyAll, simplifyAll]
  | t :: rest =>
    rw [simplifyAll, simplifyAll,
      simplify_simplify_of_parts hm (simplifyParts_simplifyParts hm t),
      simplifyAll_simplifyAll hm rest]

end

theorem simplify_simplify (hm : m.Closed) (t : Term) :
    m.simplify (m.simplify t) = m.simplify t :=
  simplify_simplify_of_parts hm (simplifyParts_simplifyParts hm t)

end Simplifying

section Nodes

/-- The terms that a model looks up for an input: both sides of an equation that is assumed, any
other conjunct, and a term that is represented, each with all that is in it. -/
def Input.nodes : Input → List Term
  | .assume t => t.conjuncts.flatMap fun c =>
    c.equation?.elim c.nodes fun e => e.1.nodes ++ e.2.nodes
  | .represent t => t.nodes

mutual

theorem find?_node (hm : m.Closed) (t : Term) {r : Nat} (h : m.find? t = some r) :
    ∀ u ∈ t.nodes, ∃ s, m.find? u = some s := by
  match t with
  | .apply fn args k =>
    have hparts := h
    rw [find?_apply_eq hm] at hparts
    obtain ⟨op, hop, hparts⟩ := Option.bind_eq_some_iff.mp hparts
    obtain ⟨is, his, -⟩ := Option.bind_eq_some_iff.mp hparts
    intro u hu
    rw [Term.nodes] at hu
    rcases List.mem_cons.mp hu with rfl | hu
    · exact ⟨r, h⟩
    · rcases List.mem_append.mp hu with hu | hu
      · exact find?_node hm fn hop u hu
      · exact find?_nodeAll hm args his u hu
  | .symbol _ | .lambda .. | .cases .. =>
    intro u hu
    rw [List.mem_singleton.mp hu]
    exact ⟨r, h⟩

theorem find?_nodeAll (hm : m.Closed) (ts : List Term) {is : List Nat}
    (h : m.findAll? ts = some is) : ∀ u ∈ Term.nodesAll ts, ∃ s, m.find? u = some s := by
  match ts with
  | [] => simp [Term.nodesAll]
  | t :: rest =>
    rw [findAll?] at h
    obtain ⟨i, hi, h⟩ := Option.bind_eq_some_iff.mp h
    obtain ⟨js, hjs, -⟩ := Option.bind_eq_some_iff.mp h
    intro u hu
    rw [Term.nodesAll] at hu
    rcases List.mem_append.mp hu with hu | hu
    · exact find?_node hm t hi u hu
    · exact find?_nodeAll hm rest hjs u hu

end

theorem find?_of_holds (hm : m.Closed) {t : Term} (h : m.Holds t) :
    ∀ u ∈ (Input.assume t).nodes, ∃ s, m.find? u = some s := by
  intro u hu
  obtain ⟨c, hc, hu⟩ := List.mem_flatMap.mp hu
  cases he : c.equation? with
  | none =>
    rw [he] at hu
    exact find?_node hm c ((h c hc).other he) u hu
  | some e =>
    obtain ⟨r, ha, hb⟩ := (h c hc).equation he
    rw [he] at hu
    rcases List.mem_append.mp hu with hu | hu
    · exact find?_node hm _ ha u hu
    · exact find?_node hm _ hb u hu

/-- What a model was fed is known to every later state. -/
theorem find?_of_feed_nodes (hm : m.Closed) (hn : n.Closed) (hx : n.vocabulary.KeepsExchanges)
    (i : Input) (hext : (m.feed i).Extends n) : ∀ u ∈ i.nodes, ∃ s, n.find? u = some s := by
  cases i with
  | assume t => exact find?_of_holds hn (holds_of_assume hm hn hx hext)
  | represent t => exact find?_node hn t (find?_represent hm hn hx hext)

theorem find?_of_mem_inputs {inputs : List Input}
    (hx : (ofInputs inputs).vocabulary.KeepsExchanges) {i : Input} (hi : i ∈ inputs) :
    ∀ u ∈ i.nodes, ∃ s, (ofInputs inputs).find? u = some s := by
  obtain ⟨o, ho, hext⟩ := exists_step_of_mem (P := Closed) (fun i _ _ hm => closed_feed hm i) hi
    closed_empty
  exact find?_of_feed_nodes ho (closed_ofInputs inputs) hx i hext

end Nodes

/-- Simplification is made of questions to a forest that change no class and no symbol. It leaves a
term in its class, whichever of the two is represented first, in a model without contradiction and
as long as operands that were exchanged once can still be. Simplifying twice is simplifying once.
All that is known in a class whose root is a symbol of the input is simplified to that symbol, and
all that a model was fed is known, in the class that it is represented in, as long as operands that
were exchanged once can still be. -/
theorem canonical_ofInputs (inputs : List Input) (t : Term) :
    (∀ f : Forest, f.vocabulary = (ofInputs inputs).vocabulary →
      ((simplifyOver (ofInputs inputs) t).run f).1 = (ofInputs inputs).simplify t ∧
        f.Reshapes ((simplifyOver (ofInputs inputs) t).run f).2) ∧
    ((ofInputs inputs).contradiction = false ∨
        (((ofInputs inputs).represent t).2.represent
          ((ofInputs inputs).simplify t)).2.vocabulary.KeepsExchanges →
      (ofInputs inputs).Coincide t ((ofInputs inputs).simplify t)) ∧
    ((ofInputs inputs).contradiction = false ∨
        (((ofInputs inputs).represent ((ofInputs inputs).simplify t)).2.represent
          t).2.vocabulary.KeepsExchanges →
      (ofInputs inputs).Coincide ((ofInputs inputs).simplify t) t) ∧
    (ofInputs inputs).simplify ((ofInputs inputs).simplify t) = (ofInputs inputs).simplify t ∧
    (∀ u r, t.replaceable = true → u.replaceable = true → (ofInputs inputs).find? t = some r →
      (ofInputs inputs).find? u = some r → (ofInputs inputs).vocabulary.usage r = .literal →
      ∃ k l, (ofInputs inputs).simplify t =
          .symbol ⟨(ofInputs inputs).vocabulary.name r, k, .free⟩ ∧
        (ofInputs inputs).simplify u =
          .symbol ⟨(ofInputs inputs).vocabulary.name r, l, .free⟩) ∧
    ((ofInputs inputs).vocabulary.KeepsExchanges → ∀ i ∈ inputs, t ∈ i.nodes →
      ∃ r, (ofInputs inputs).find? t = some r ∧
        (ofInputs inputs).represent t = (r, ofInputs inputs)) := by
  have hm := closed_ofInputs inputs
  refine ⟨fun f hf => simplifyOver_spec _ t hf, ?_, ?_, simplify_simplify hm t, ?_, ?_⟩
  · intro h
    obtain ⟨hs, -, -⟩ := closed_represent hm t
    obtain ⟨hn, -, -⟩ := closed_represent hs ((ofInputs inputs).simplify t)
    exact coincide_of_find?_eq hm h fun hrecalls => (hrecalls.find?_simplify hm hn t).symm
  · intro h
    obtain ⟨hs, -, -⟩ := closed_represent hm ((ofInputs inputs).simplify t)
    obtain ⟨hn, -, -⟩ := closed_represent hs t
    exact coincide_of_find?_eq hm h fun hrecalls => hrecalls.find?_simplify hm hn t
  · intro u r ht hu hrt hru husage
    obtain ⟨k, hk⟩ := simplify_of_literal hm ht hrt husage
    obtain ⟨l, hl⟩ := simplify_of_literal hm hu hru husage
    exact ⟨k, l, hk, hl⟩
  · intro hx i hi ht
    obtain ⟨r, hr⟩ := find?_of_mem_inputs hx hi t ht
    exact ⟨r, hr, represent_of_find? hm hr⟩

def neutralInputs : List Input :=
  let x (name : Text) : Term := .symbol ⟨name, .integer, .free⟩
  let sum : Term := .call "+" .integer [x "a", x "0"]
  [.represent (.equal sum (x "a")), .assume (.equal sum (x "a"))]

/-- The sum is simplified to the term that it is equal to. -/
theorem canonical_neutralInputs :
    let x (name : Text) : Term := .symbol ⟨name, .integer, .free⟩
    let sum : Term := .call "+" .integer [x "a", x "0"]
    let m := ofInputs neutralInputs
    let f := Forest.ofVocabulary m.vocabulary (closed_ofInputs neutralInputs).filed.vocabulary
    f.Gathered ∧ f.vocabulary = m.vocabulary ∧
      ((simplifyOver m sum).run f).1 = m.simplify sum ∧
      f.Reshapes ((simplifyOver m sum).run f).2 ∧ m.contradiction = false ∧
      m.Coincide sum (m.simplify sum) ∧ m.Coincide (m.simplify sum) sum ∧
      m.simplify (m.simplify sum) = m.simplify sum ∧
      (∃ k l, m.simplify sum = .symbol ⟨"a", k, .free⟩ ∧
        m.simplify (x "a") = .symbol ⟨"a", l, .free⟩) ∧
      m.vocabulary.KeepsExchanges ∧
      ∃ r, m.find? sum = some r ∧ m.represent sum = (r, m) := by
  intro x sum m f
  obtain ⟨hforest, hfirst, hsecond, htwice, hliteral, hknown⟩ :=
    canonical_ofInputs neutralInputs sum
  have hf : f.vocabulary = m.vocabulary := Forest.vocabulary_ofVocabulary _
  obtain ⟨hanswer, hshape⟩ := hforest f hf
  have hcon : m.contradiction = false := by decide +kernel
  have hx : m.vocabulary.KeepsExchanges := by decide +kernel
  have hsum : m.find? sum = some 4 := by decide +kernel
  have ha : m.find? (x "a") = some 4 := by decide +kernel
  have hname : m.vocabulary.name 4 = "a" := by decide +kernel
  obtain ⟨k, l, hk, hl⟩ := hliteral (x "a") 4 rfl rfl hsum ha (by decide +kernel)
  rw [hname] at hk hl
  refine ⟨Forest.gathered_ofVocabulary _, hf, hanswer, hshape, hcon, hfirst (.inl hcon),
    hsecond (.inl hcon), htwice, ⟨k, l, hk, hl⟩, hx, hknown hx _ List.mem_cons_self ?_⟩
  exact List.mem_cons_of_mem _ (List.mem_append_right _ List.mem_cons_self)

def swappedEquation : List Input :=
  let x (name : Text) : Term := .symbol ⟨name, .boolean, .free⟩
  [.assume .falsehood, .represent (.equal (x "b") (x "a"))]

/-- Representing a term may make `=` give way to `true`, and then the simplified term is in another
class. A term that an equation was assumed about is not simplified to the other side once `=` has
given way to a symbol that keeps its operands in order. -/
theorem class_lost :
    let x (name : Text) : Term := .symbol ⟨name, .boolean, .free⟩
    let t : Term := .call "g" .boolean [.equal (x "a") (x "b"), .conj .falsehood (x "=")]
    let u : Term := .equal (x "d") (x "a")
    ¬ (ofInputs swappedEquation).Coincide t ((ofInputs swappedEquation).simplify t) ∧
      .assume (.equal u (x "q")) ∈ exchangedEquation ∧
      (ofInputs exchangedEquation).find? u = none ∧
      ((ofInputs exchangedEquation).simplify (x "q")).render = "q" ∧
      ((ofInputs exchangedEquation).simplify u).render = "c = a" := by
  intro x t u
  refine ⟨by decide +kernel, ?_, by decide +kernel, by decide +kernel, by decide +kernel⟩
  exact List.mem_cons_of_mem _ (List.mem_cons_of_mem _ List.mem_cons_self)

end Congruence.Model

end Discharge
