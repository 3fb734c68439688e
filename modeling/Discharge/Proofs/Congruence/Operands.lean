import Discharge.Proofs.Congruence.Lookup

/-!
Models of terms in which connectives are operators only. A connective is then never an operand or
a result, so it is merged with nothing: its class is its own, in contradictory models as well. All
merges are between operands, results and truth values.
-/

namespace Discharge

open Congruence

/-- Whether an operator has a number of operands that suits it, which counts for connectives
only. -/
def Congruence.Suits (suits : Connective → Nat → Prop) (op : Text) (n : Nat) : Prop :=
  ∀ c, Connective.named? op = some c → suits c n

namespace Term

mutual

/-- Whether connectives are operators only, and those whose operands may be exchanged have two. -/
def wellApplied : Term → Bool
  | symbol s => (Connective.named? s.name).isNone
  | apply (symbol s) args _ => (!isCommutative s.name || args.length == 2) && wellAppliedAll args
  | apply fn args _ => fn.wellApplied && wellAppliedAll args
  | lambda _ _ _ => false
  | cases _ _ _ => false

def wellAppliedAll : List Term → Bool
  | [] => true
  | t :: rest => t.wellApplied && wellAppliedAll rest

end

theorem wellAppliedAll_iff {ts : List Term} :
    wellAppliedAll ts = true ↔ ∀ t ∈ ts, t.wellApplied = true := by
  induction ts with
  | nil => simp [wellAppliedAll]
  | cons t rest ih => simp [wellAppliedAll, ih]

mutual

/-- Whether connectives are operators only, with numbers of operands that suit them. Anonymous
functions and definitions by cases are constants. -/
def Applied (suits : Connective → Nat → Prop) : Term → Prop
  | symbol s => Connective.named? s.name = none
  | apply (symbol s) args _ => Suits suits s.name args.length ∧ AppliedAll suits args
  | apply fn args _ => fn.Applied suits ∧ AppliedAll suits args
  | lambda _ _ _ => True
  | cases _ _ _ => True

def AppliedAll (suits : Connective → Nat → Prop) : List Term → Prop
  | [] => True
  | t :: rest => t.Applied suits ∧ AppliedAll suits rest

end

def Operates (suits : Connective → Nat → Prop) (n : Nat) : Term → Prop
  | symbol s => Suits suits s.name n
  | t => t.Applied suits

variable {suits : Connective → Nat → Prop}

theorem appliedAll_iff {ts : List Term} :
    AppliedAll suits ts ↔ ∀ t ∈ ts, t.Applied suits := by
  induction ts with
  | nil => simp [AppliedAll]
  | cons t rest ih => simp [AppliedAll, ih]

theorem applied_apply_iff {fn : Term} {args : List Term} {k : Kind} :
    (apply fn args k).Applied suits ↔
      fn.Operates suits args.length ∧ ∀ a ∈ args, a.Applied suits := by
  cases fn with
  | symbol s => simp [Applied, appliedAll_iff, Operates]
  | apply fn args' k' => simp [Applied, appliedAll_iff, Operates]
  | lambda params body k' => simp [Applied, appliedAll_iff, Operates]
  | cases branches otherwise k' => simp [Applied, appliedAll_iff, Operates]

/-- Connectives whose operands may be exchanged have two of them. -/
def Paired (c : Connective) (n : Nat) : Prop := isCommutative c.name = true → n = 2

mutual

theorem applied_of_wellApplied (hsuits : ∀ c n, Paired c n → suits c n) (t : Term)
    (h : t.wellApplied = true) : t.Applied suits := by
  match t with
  | symbol s => simpa [wellApplied, Applied] using h
  | apply (symbol s) args k =>
    simp only [wellApplied, Bool.and_eq_true, Bool.or_eq_true, Bool.not_eq_true', beq_iff_eq] at h
    refine ⟨fun c hc => hsuits c _ ?_, appliedAll_of_wellApplied hsuits args h.2⟩
    intro hcomm
    rw [← Connective.name_of_named? hc] at hcomm
    rcases h.1 with hn | hn
    · rw [hcomm] at hn
      contradiction
    · exact hn
  | apply (apply fn as l) args k =>
    simp only [wellApplied, Bool.and_eq_true] at h
    exact ⟨applied_of_wellApplied hsuits (apply fn as l) h.1,
      appliedAll_of_wellApplied hsuits args h.2⟩
  | apply (lambda _ _ _) args k => simp [wellApplied] at h
  | apply (cases _ _ _) args k => simp [wellApplied] at h
  | lambda _ _ _ => simp [wellApplied] at h
  | cases _ _ _ => simp [wellApplied] at h

theorem appliedAll_of_wellApplied (hsuits : ∀ c n, Paired c n → suits c n) (ts : List Term)
    (h : wellAppliedAll ts = true) : AppliedAll suits ts := by
  match ts with
  | [] => trivial
  | t :: rest =>
    simp only [wellAppliedAll, Bool.and_eq_true] at h
    exact ⟨applied_of_wellApplied hsuits t h.1, appliedAll_of_wellApplied hsuits rest h.2⟩

end

end Term

namespace Congruence

theorem ne_of_head? {name : Text} {b : UInt8} (hb : b ≠ 61 ∧ b ≠ 97 ∧ b ≠ 105 ∧ b ≠ 111 ∧ b ≠ 194)
    (h : name.toList.head? = some b) :
    Connective.named? name = none ∧ ∀ k, name ≠ Vocabulary.createdName k := by
  obtain ⟨h₁, h₂, h₃, h₄, h₅⟩ := hb
  refine ⟨?_, ?_⟩
  · cases hc : Connective.named? name with
    | none => rfl
    | some c =>
      rw [Connective.name_of_named? hc] at h
      cases c with
      | equality => exact (h₁ (Option.some.inj h).symm).elim
      | conjunction => exact (h₂ (Option.some.inj h).symm).elim
      | disjunction => exact (h₄ (Option.some.inj h).symm).elim
      | implication => exact (h₃ (Option.some.inj h).symm).elim
  · rintro k rfl
    rw [Vocabulary.createdName, Text.toList_append] at h
    exact h₅ (Option.some.inj h).symm

theorem constant_lambda (params : List Symbol) (body : Term) (k : Kind) :
    Connective.named? (Term.lambda params body k).render = none ∧
      ∀ n, (Term.lambda params body k).render ≠ Vocabulary.createdName n := by
  refine ne_of_head? (b := 108) (by decide) ?_
  rw [Term.render, Term.print]
  simp only [Text.toList_append, List.append_assoc]
  rfl

theorem constant_cases (branches : List (Term × Term)) (otherwise : Term) (k : Kind) :
    Connective.named? (Term.cases branches otherwise k).render = none ∧
      ∀ n, (Term.cases branches otherwise k).render ≠ Vocabulary.createdName n := by
  refine ne_of_head? (b := 123) (by decide) ?_
  rw [Term.render, Term.print]
  simp only [Text.toList_append, List.append_assoc]
  rfl

theorem named?_of_isCommutative {op : Text} (h : isCommutative op = true) :
    Connective.named? op ≠ none := by
  obtain ⟨c, rfl, -⟩ := exists_connective_of_isCommutative h
  simp [Connective.named?_name]

def Vocabulary.Joinable (v : Vocabulary) (i : Nat) : Prop := Connective.named? (v.name i) = none

theorem Vocabulary.Grows.joinable {v w : Vocabulary} (g : v.Grows w) {i : Nat} (hi : i < v.size)
    (h : v.Joinable i) : w.Joinable i := by
  rw [Joinable, g.name_eq hi]
  exact h

theorem Vocabulary.WellFormed.joinable_truth {v : Vocabulary} (h : v.WellFormed) :
    v.Joinable truth := by
  rw [Joinable, name, h.entry_truth]
  decide

theorem Vocabulary.WellFormed.joinable_falsehood {v : Vocabulary} (h : v.WellFormed) :
    v.Joinable falsehood := by
  rw [Joinable, name, h.entry_falsehood]
  decide

namespace Model

/-- Whether connectives are in no class but their own, nothing asks for that to change, and they
are applied to numbers of operands that suit them. -/
structure ConfinedTo (suits : Connective → Nat → Prop) (m : Model) : Prop where
  classes : ∀ {i j : Nat}, m.root i = m.root j → i ≠ j → m.vocabulary.Joinable i
  pending : ∀ p ∈ m.pending, m.vocabulary.Joinable p.1 ∧ m.vocabulary.Joinable p.2
  symbols : ∀ e ∈ m.history, ∀ s ∈ e.1.args ++ [e.2], m.vocabulary.Joinable s
  suits : ∀ e ∈ m.history, Suits suits (m.vocabulary.name e.1.op) e.1.args.length

/-- Whether connectives are confined to their own classes, and those whose operands may be exchanged
have two. -/
abbrev Confined (m : Model) : Prop := m.ConfinedTo Term.Paired

variable {suits : Connective → Nat → Prop}

section Asking

variable {m n : Model}

theorem ConfinedTo.joinable_of_root_eq (h : m.ConfinedTo suits) {i j : Nat}
    (hj : m.vocabulary.Joinable j)
    (hr : m.root i = m.root j) : m.vocabulary.Joinable i := by
  by_cases he : i = j
  · exact he ▸ hj
  · exact h.classes hr he

theorem ConfinedTo.joinable_root (h : m.ConfinedTo suits) (hm : m.vocabulary.WellFormed) {i : Nat}
    (hi : m.vocabulary.Joinable i) : m.vocabulary.Joinable (m.root i) :=
  h.joinable_of_root_eq hi (hm.root_root i)

theorem ConfinedTo.joinable_record (h : m.ConfinedTo suits) (hm : m.vocabulary.WellFormed)
    (i : Nat) :
    ∀ s ∈ (m.record i).app.args ++ [(m.record i).result], m.vocabulary.Joinable s := by
  cases hr : m.records[i]? with
  | none =>
    have hdefault : m.record i = default := by rw [record, hr]; rfl
    intro s hs
    rw [hdefault] at hs
    have hs : s ∈ [Vocabulary.truth] := hs
    rw [List.mem_singleton.mp hs]
    exact hm.joinable_truth
  | some r =>
    rw [record_eq hr]
    refine h.symbols (r.app, r.result) ?_
    exact List.mem_map_of_mem (f := fun r : Record => (r.app, r.result))
      (Array.mem_toList_iff.mpr (Array.mem_of_getElem? hr))

theorem ConfinedTo.of_frame (h : m.ConfinedTo suits) (hv : n.vocabulary = m.vocabulary)
    (hh : n.history = m.history)
    (hp : ∀ p ∈ n.pending, m.vocabulary.Joinable p.1 ∧ m.vocabulary.Joinable p.2) :
    n.ConfinedTo suits := by
  refine ⟨?_, by rw [hv]; exact hp, by rw [hh, hv]; exact h.symbols, by rw [hh, hv]; exact h.suits⟩
  intro i j
  rw [root, root, hv]
  exact h.classes

theorem confined_enqueue (h : m.ConfinedTo suits) {p : Nat × Nat} (h₁ : m.vocabulary.Joinable p.1)
    (h₂ : m.vocabulary.Joinable p.2) : (m.enqueue p).ConfinedTo suits := by
  unfold enqueue
  split
  · exact h
  · exact h.of_frame rfl rfl (List.forall_mem_cons.mpr ⟨⟨h₁, h₂⟩, h.pending⟩)

theorem confined_foldl_enqueue {ps : List (Nat × Nat)} (h : m.ConfinedTo suits)
    (hps : ∀ p ∈ ps, m.vocabulary.Joinable p.1 ∧ m.vocabulary.Joinable p.2) :
    (ps.foldl enqueue m).ConfinedTo suits := by
  induction ps generalizing m with
  | nil => exact h
  | cons p rest ih =>
    obtain ⟨h₁, h₂⟩ := hps p List.mem_cons_self
    refine ih (confined_enqueue h h₁ h₂) ?_
    rw [(asks_enqueue m p).vocabulary_eq]
    exact fun q hq => hps q (List.mem_cons_of_mem _ hq)

theorem confined_check (h : m.ConfinedTo suits) (hm : m.vocabulary.WellFormed) (i : Nat) :
    (m.check i).ConfinedTo suits := by
  have hrecord := h.joinable_record hm i
  have hresult : m.vocabulary.Joinable (m.root (m.record i).result) :=
    h.joinable_root hm (hrecord _ (by simp))
  have hargs : ∀ a ∈ (m.record i).app.args.map m.root, m.vocabulary.Joinable a := by
    intro a ha
    obtain ⟨s, hs, rfl⟩ := List.mem_map.mp ha
    exact h.joinable_root hm (hrecord s (List.mem_append_left _ hs))
  refine confined_foldl_enqueue h ?_
  intro p hp
  exact (mem_consequences_iff.mp hp).both hargs hresult (h.joinable_root hm hm.joinable_truth)
    (h.joinable_root hm hm.joinable_falsehood)

end Asking

section Merging

variable {m : Model}

theorem ConfinedTo.setRecord (h : m.ConfinedTo suits) {i : Nat} {r : Record}
    (happ : r.app = (m.record i).app) (hres : r.result = (m.record i).result)
    (table : Std.TreeMap Application Nat) :
    ({ m with records := m.records.setIfInBounds i r, table } : Model).ConfinedTo suits :=
  h.of_frame rfl (history_setIfInBounds happ hres) h.pending

theorem confined_refile (h : m.ConfinedTo suits) (hm : m.vocabulary.WellFormed) (i : Nat) :
    (m.refile i).ConfinedTo suits := by
  have hresult := fun j => h.joinable_record hm j (m.record j).result (by simp)
  unfold refile
  dsimp only
  split
  · exact h
  · split
    · split
      · exact confined_check (h.setRecord (by rfl) (by rfl) _) hm i
      · refine confined_enqueue (h.setRecord (by rfl) (by rfl) _) ?_ ?_
        · exact hresult i
        · exact hresult _
    · exact confined_check (h.setRecord (by rfl) (by rfl) _) hm i

theorem confined_foldl_refile (moved : List Nat) (h : m.ConfinedTo suits)
    (hm : m.vocabulary.WellFormed) : (moved.foldl refile m).ConfinedTo suits := by
  induction moved generalizing m with
  | nil => exact h
  | cons i rest ih =>
    refine ih (confined_refile h hm i) ?_
    rw [(refile_frame m i).1]
    exact hm

theorem confined_unite (h : m.ConfinedTo suits) (hm : m.vocabulary.WellFormed) {a b : Nat}
    (ha : a < m.vocabulary.size) (hb : b < m.vocabulary.size) (hja : m.vocabulary.Joinable a)
    (hjb : m.vocabulary.Joinable b) : (m.unite a b).ConfinedTo suits := by
  by_cases hne : m.root a = m.root b
  · have hself : m.unite a b = m := by simp [unite, hne]
    rw [hself]
    exact h
  obtain ⟨v, winner, loser, j, hroot, he⟩ := unite_eq hm ha hb hne
  rw [he]
  have hname : ∀ {i}, m.vocabulary.Joinable i → v.Joinable i := by
    intro i hi
    rw [Vocabulary.Joinable, j.name_eq]
    exact hi
  refine confined_foldl_refile _ ⟨?_, ?_, ?_, ?_⟩ (j.wellFormed hm)
  · intro i k hik hne'
    change v.root i = v.root k at hik
    refine hname ?_
    by_cases hold : m.root i = m.root k
    · exact h.classes hold hne'
    -- The two were in the classes that were joined, and these are those of the operands.
    rw [j.root_eq, j.root_eq] at hik hroot
    have hside : m.root i = m.root a ∨ m.root i = m.root b := by
      simp only [root] at hne hold ⊢
      grind
    rcases hside with hs | hs
    · exact h.joinable_of_root_eq hja hs
    · exact h.joinable_of_root_eq hjb hs
  · exact fun p hp => ⟨hname (h.pending p hp).1, hname (h.pending p hp).2⟩
  · exact fun e he s hs => hname (h.symbols e he s hs)
  · intro e he
    change Suits suits (v.name e.1.op) _
    rw [j.name_eq]
    exact h.suits e he

theorem confined_settled (h : m.ConfinedTo suits) : m.settled.ConfinedTo suits :=
  h.of_frame rfl rfl fun p hp => h.pending p (List.dropWhile_subset _ hp)

theorem confined_propagateWithin (fuel : Nat) (h : m.ConfinedTo suits) (hm : m.Filed []) :
    (propagateWithin fuel m).ConfinedTo suits := by
  induction fuel generalizing m with
  | zero => exact confined_settled h
  | succ fuel ih =>
    unfold propagateWithin
    split
    · exact confined_settled h
    · rename_i p rest hp
      have hs := confined_settled h
      have hfiled := filed_settled hm
      have hmem : p ∈ m.settled.pending := by simp [hp]
      obtain ⟨hlt₁, hlt₂⟩ := hfiled.pending_lt p hmem
      obtain ⟨hj₁, hj₂⟩ := hs.pending p hmem
      have hrest : ({ m.settled with pending := rest } : Model).ConfinedTo suits :=
        hs.of_frame rfl rfl fun q hq => hs.pending q (by rw [hp]; exact List.mem_cons_of_mem _ hq)
      exact ih (confined_unite hrest hfiled.vocabulary hlt₁ hlt₂ hj₁ hj₂)
        (unite_front hfiled hp (root_ne_of_settled (m := m) hp)).1

theorem confined_propagate (h : m.ConfinedTo suits) (hm : m.Filed []) :
    m.propagate.ConfinedTo suits :=
  confined_propagateWithin _ h hm

end Merging

section Placing

variable {m : Model}

theorem confined_setVocabulary (h : m.ConfinedTo suits) (hm : m.Filed []) {v : Vocabulary}
    (g : m.vocabulary.Grows v) (hroot : ∀ i, v.root i = m.root i) :
    ({ m with vocabulary := v } : Model).ConfinedTo suits := by
  refine ⟨?_, ?_, ?_, ?_⟩
  · intro i j hij hne
    change v.root i = v.root j at hij
    rw [hroot, hroot] at hij
    refine g.joinable ?_ (h.classes hij hne)
    -- A symbol that is not there yet is alone.
    by_contra hge
    have hi := Vocabulary.root_of_ge hm.vocabulary (Nat.le_of_not_lt hge)
    by_cases hj : j < m.vocabulary.size
    · have := hm.root_lt hj
      rw [← hij, root, hi] at this
      exact hge this
    · have hj := Vocabulary.root_of_ge hm.vocabulary (Nat.le_of_not_lt hj)
      exact hne (by rw [← hi, ← hj]; exact hij)
  · intro p hp
    obtain ⟨h₁, h₂⟩ := hm.pending_lt p hp
    exact ⟨g.joinable h₁ (h.pending p hp).1, g.joinable h₂ (h.pending p hp).2⟩
  · intro e he s hs
    obtain ⟨r, hr, rfl⟩ := List.mem_map.mp he
    obtain ⟨i, hi⟩ := List.getElem?_of_mem hr
    refine g.joinable (hm.symbols_lt (by rw [← Array.getElem?_toList]; exact hi) s ?_)
      (h.symbols _ he s hs)
    simp only [Record.symbols, Application.places, List.cons_append]
    exact List.mem_cons_of_mem _ hs
  · intro e he
    obtain ⟨r, hr, rfl⟩ := List.mem_map.mp he
    obtain ⟨i, hi⟩ := List.getElem?_of_mem hr
    have hop := hm.op_lt (by rw [← Array.getElem?_toList]; exact hi)
    change Suits suits (v.name r.app.op) _
    rw [g.name_eq hop]
    exact h.suits _ he

theorem confined_addSymbol (h : m.ConfinedTo suits) (hm : m.Filed []) (name : Text) (k : Kind)
    (u : Usage) : (m.addSymbol name k u).2.ConfinedTo suits ∧
      (m.addSymbol name k u).2.vocabulary.name (m.addSymbol name k u).1 = name :=
  ⟨confined_setVocabulary h hm (Vocabulary.grows_add hm.vocabulary name k u)
    (Vocabulary.root_add hm.vocabulary name k u), Vocabulary.name_add_fst hm.vocabulary name k u⟩

theorem confined_placeConstant (h : m.ConfinedTo suits) (hm : m.Filed []) {t : Term}
    (ht : Connective.named? t.render = none) :
    (m.placeConstant t).2.ConfinedTo suits ∧
      (m.placeConstant t).2.vocabulary.Joinable (m.placeConstant t).1 := by
  obtain ⟨hadd, hname⟩ := confined_addSymbol h hm t.render t.kind .literal
  have hwf := (advances_addSymbol hm t.render t.kind .literal).1.filed.vocabulary
  have hj : (m.addSymbol t.render t.kind .literal).2.vocabulary.Joinable
      (m.addSymbol t.render t.kind .literal).1 := by
    rw [Vocabulary.Joinable, hname]
    exact ht
  exact ⟨hadd, hadd.joinable_root hwf hj⟩

theorem named?_createdName (k : Nat) :
    Connective.named? (Vocabulary.createdName k) = none := by
  cases hc : Connective.named? (Vocabulary.createdName k) with
  | none => rfl
  | some c =>
    have hplain : plainName c.name = true := by cases c <;> decide
    rw [← Connective.name_of_named? hc, plainName_createdName] at hplain
    contradiction

theorem confined_define (h : m.ConfinedTo suits) (hm : m.Filed []) {app : Application} (k : Kind)
    (happ : ∀ s ∈ app.places, s < m.vocabulary.size)
    (hargs : ∀ s ∈ app.args, m.vocabulary.Joinable s)
    (hsuits : Suits suits (m.vocabulary.name app.op) app.args.length) :
    (m.define app k).ConfinedTo suits ∧
      (m.define app k).vocabulary.Joinable (m.vocabulary.create k).1 := by
  have hwf := Vocabulary.wellFormed_create hm.vocabulary k
  have g := Vocabulary.grows_create hm.vocabulary k
  have hcreated : (m.vocabulary.create k).2.Joinable (m.vocabulary.create k).1 := by
    rw [Vocabulary.create_fst hm.vocabulary, Vocabulary.Joinable, Vocabulary.name,
      Vocabulary.entry_create hm.vocabulary]
    exact named?_createdName _
  let c : Model := { m with vocabulary := (m.vocabulary.create k).2 }
  have hc : c.ConfinedTo suits :=
    confined_setVocabulary h hm g (Vocabulary.root_create hm.vocabulary k)
  have hv : (c.entered app (m.vocabulary.create k).1).vocabulary = c.vocabulary :=
    c.vocabulary_entered app _
  have hentered : (c.entered app (m.vocabulary.create k).1).ConfinedTo suits := by
    refine ⟨?_, ?_, ?_, ?_⟩
    · intro i j
      rw [root, root, hv]
      exact hc.classes
    · rw [c.pending_entered app, hv]
      exact hc.pending
    · rw [c.history_entered app, hv]
      refine List.forall_mem_append.mpr ⟨hc.symbols, List.forall_mem_singleton.mpr ?_⟩
      refine List.forall_mem_append.mpr ⟨?_, List.forall_mem_singleton.mpr hcreated⟩
      intro s hs
      exact g.joinable (happ s (List.mem_cons_of_mem _ hs)) (hargs s hs)
    · rw [c.history_entered app, hv]
      refine List.forall_mem_append.mpr ⟨hc.suits, List.forall_mem_singleton.mpr ?_⟩
      change Suits suits ((m.vocabulary.create k).2.name app.op) app.args.length
      rw [g.name_eq (happ _ List.mem_cons_self)]
      exact hsuits
  refine ⟨?_, ?_⟩
  · exact confined_check hentered (by rw [hv]; exact hwf) _
  · rw [define, (insert_frame c app _).1]
    exact hcreated

theorem confined_placeApplication (h : m.ConfinedTo suits) (hm : m.Filed []) {app : Application}
    (k : Kind) (happ : ∀ s ∈ app.places, s < m.vocabulary.size)
    (hargs : ∀ s ∈ app.args, m.vocabulary.Joinable s)
    (hsuits : Suits suits (m.vocabulary.name app.op) app.args.length) :
    (m.placeApplication app k).2.ConfinedTo suits ∧
      (m.placeApplication app k).2.vocabulary.Joinable (m.placeApplication app k).1 := by
  cases hk : m.table[app.key m.vocabulary]? with
  | some i =>
    rw [placeApplication_of_some hk]
    exact ⟨h, h.joinable_root hm.vocabulary (h.joinable_record hm.vocabulary i _ (by simp))⟩
  | none =>
    obtain ⟨hdef, hv, -⟩ := advances_define hm app k happ hk
    obtain ⟨hfiled, -, hext⟩ := propagate_spec hdef.filed
    obtain ⟨hc, hj⟩ := confined_define h hm k happ hargs hsuits
    have hp := confined_propagate hc hdef.filed
    have hlt : (m.vocabulary.create k).1 < (m.define app k).vocabulary.size := by
      rw [hv, Vocabulary.create_fst hm.vocabulary, Vocabulary.size_create hm.vocabulary]
      omega
    rw [placeApplication_of_none hk]
    dsimp only
    exact ⟨hp, hp.joinable_root hfiled.vocabulary (hext.vocabulary.joinable hlt hj)⟩

theorem length_placeAll (ts : List Term) (m : Model) :
    (placeAll ts m).1.length = ts.length := by
  induction ts generalizing m with
  | nil => rfl
  | cons t rest ih =>
    rw [placeAll]
    simp [ih]

mutual

theorem confined_place (t : Term) {m : Model} (h : m.ConfinedTo suits) (hm : m.Filed [])
    (ht : t.Applied suits) :
    (place t m).2.ConfinedTo suits ∧ (place t m).2.vocabulary.Joinable (place t m).1 := by
  match t with
  | .symbol s =>
    obtain ⟨hadd, hname⟩ := confined_addSymbol h hm s.name s.kind (usageOf s false)
    have hwf := (advances_addSymbol hm s.name s.kind (usageOf s false)).1.filed.vocabulary
    have hj : (m.addSymbol s.name s.kind (usageOf s false)).2.vocabulary.Joinable
        (m.addSymbol s.name s.kind (usageOf s false)).1 := by
      rw [Vocabulary.Joinable, hname]
      exact ht
    rw [place]
    exact ⟨hadd, hadd.joinable_root hwf hj⟩
  | .apply fn args k =>
    obtain ⟨hfn, hts⟩ := Term.applied_apply_iff.mp ht
    obtain ⟨hop, hall, hlt⟩ := advances_parts fn args hm
    obtain ⟨hc, hsuits⟩ := confined_placeOperator fn args.length h hm hfn
    obtain ⟨hc', hjs⟩ := confined_placeAll args hc hop.filed hts
    have hlt' := (advances_placeOperator fn hm).2
    have hlength : Suits suits ((placeAll args (placeOperator fn m).2).2.vocabulary.name
        (placeOperator fn m).1) (placeAll args (placeOperator fn m).2).1.length := by
      rw [hall.later.vocabulary.name_eq hlt', length_placeAll]
      exact hsuits
    rw [place_apply]
    exact confined_placeApplication hc' hall.filed k hlt hjs hlength
  | .lambda params body k =>
    rw [place]
    exact confined_placeConstant h hm (constant_lambda params body k).1
  | .cases branches otherwise k =>
    rw [place]
    exact confined_placeConstant h hm (constant_cases branches otherwise k).1

theorem confined_placeOperator (fn : Term) (n : Nat) {m : Model} (h : m.ConfinedTo suits)
    (hm : m.Filed []) (hfn : fn.Operates suits n) :
    (placeOperator fn m).2.ConfinedTo suits ∧
      Suits suits ((placeOperator fn m).2.vocabulary.name (placeOperator fn m).1) n := by
  have hother : ∀ {v : Vocabulary} {i : Nat}, v.Joinable i → Suits suits (v.name i) n := by
    intro v i hj c hc
    rw [hj] at hc
    contradiction
  match fn with
  | .symbol s =>
    obtain ⟨hadd, hname⟩ := confined_addSymbol h hm s.name s.kind (usageOf s true)
    rw [placeOperator]
    refine ⟨hadd, ?_⟩
    rw [hname]
    exact hfn
  | .apply f args k =>
    obtain ⟨hc, hj⟩ := confined_place (.apply f args k) h hm hfn
    exact ⟨hc, hother hj⟩
  | .lambda params body k =>
    obtain ⟨hc, hj⟩ := confined_place (.lambda params body k) h hm hfn
    exact ⟨hc, hother hj⟩
  | .cases branches otherwise k =>
    obtain ⟨hc, hj⟩ := confined_place (.cases branches otherwise k) h hm hfn
    exact ⟨hc, hother hj⟩

theorem confined_placeAll (ts : List Term) {m : Model} (h : m.ConfinedTo suits) (hm : m.Filed [])
    (hts : ∀ t ∈ ts, t.Applied suits) :
    (placeAll ts m).2.ConfinedTo suits ∧
      ∀ i ∈ (placeAll ts m).1, (placeAll ts m).2.vocabulary.Joinable i := by
  match ts with
  | [] =>
    rw [placeAll]
    exact ⟨h, by simp⟩
  | t :: rest =>
    obtain ⟨hfirst, hlt⟩ := advances_place t hm
    obtain ⟨hc, hj⟩ := confined_place t h hm (hts t List.mem_cons_self)
    obtain ⟨hc', hjs⟩ := confined_placeAll rest hc hfirst.filed
      fun a ha => hts a (List.mem_cons_of_mem _ ha)
    obtain ⟨hrest, -⟩ := advances_placeAll rest hfirst.filed
    rw [placeAll]
    exact ⟨hc', List.forall_mem_cons.mpr ⟨hrest.later.vocabulary.joinable hlt hj, hjs⟩⟩

end

end Placing

section Asserting

variable {m : Model}

theorem confined_place_enqueue (h : m.ConfinedTo suits) (hm : m.Filed []) {t : Term}
    (ht : t.Applied suits) :
    ((place t m).2.enqueue ((place t m).1, Vocabulary.truth)).ConfinedTo suits := by
  obtain ⟨hc, hj⟩ := confined_place t h hm ht
  exact confined_enqueue hc hj (advances_place t hm).1.filed.vocabulary.joinable_truth

theorem confined_assert_other (h : m.ConfinedTo suits) (hm : m.Filed []) {t : Term}
    (hne : ∀ s args k, t ≠ .apply (.symbol s) args k) (ht : t.Applied suits) :
    (assert t m).ConfinedTo suits := by
  rcases assert_other hne m with ⟨-, he⟩ | ⟨-, he⟩ | he
  · rw [he]
    exact h
  · rw [he]
    exact confined_enqueue h hm.vocabulary.joinable_truth hm.vocabulary.joinable_falsehood
  · rw [he]
    exact confined_place_enqueue h hm ht

mutual

theorem confined_assert (t : Term) {m : Model} (h : m.ConfinedTo suits) (hm : m.Filed [])
    (ht : t.Applied suits) : (assert t m).ConfinedTo suits := by
  match t with
  | .apply (.symbol s) args k =>
    obtain ⟨-, hargs⟩ := Term.applied_apply_iff.mp ht
    rcases assert_apply s args k m with ⟨-, he⟩ | ⟨a, b, -, rfl, he⟩ | he
    · rw [he]
      exact confined_assertAll args h hm hargs
    · obtain ⟨hleft, hl⟩ := advances_place a hm
      obtain ⟨hright, -⟩ := advances_place b hleft.filed
      obtain ⟨hc, hj⟩ := confined_place a h hm (hargs a (by simp))
      obtain ⟨hc', hj'⟩ := confined_place b hc hleft.filed (hargs b (by simp))
      rw [he]
      exact confined_enqueue hc' (hright.later.vocabulary.joinable hl hj) hj'
    · rw [he]
      exact confined_place_enqueue h hm ht
  | .symbol s => exact confined_assert_other h hm (by simp) ht
  | .apply (.apply fn as l) args k => exact confined_assert_other h hm (by simp) ht
  | .apply (.lambda ps body l) args k => exact confined_assert_other h hm (by simp) ht
  | .apply (.cases bs o l) args k => exact confined_assert_other h hm (by simp) ht
  | .lambda params body k => exact confined_assert_other h hm (by simp) ht
  | .cases branches otherwise k => exact confined_assert_other h hm (by simp) ht

theorem confined_assertAll (ts : List Term) {m : Model} (h : m.ConfinedTo suits) (hm : m.Filed [])
    (hts : ∀ t ∈ ts, t.Applied suits) : (assertAll ts m).ConfinedTo suits := by
  match ts with
  | [] =>
    rw [assertAll]
    exact h
  | t :: rest =>
    rw [assertAll]
    exact confined_assertAll rest (confined_assert t h hm (hts t List.mem_cons_self))
      (advances_assert t hm).filed fun a ha => hts a (List.mem_cons_of_mem _ ha)

end

def Input.term : Input → Term
  | .assume t => t
  | .represent t => t

theorem confined_feed (h : m.ConfinedTo suits) (hm : m.Closed) {i : Input}
    (hi : i.term.Applied suits) : (m.feed i).ConfinedTo suits := by
  cases i with
  | assume t =>
    exact confined_propagate (confined_assert t h hm.filed hi) (advances_assert t hm.filed).filed
  | represent t =>
    exact confined_propagate (confined_place t h hm.filed hi).1 (advances_place t hm.filed).1.filed

theorem confined_foldl_feed (inputs : List Input) (h : m.ConfinedTo suits) (hm : m.Closed)
    (hin : ∀ i ∈ inputs, i.term.Applied suits) : (inputs.foldl feed m).ConfinedTo suits :=
  (List.foldlRecOn (motive := fun n => n.Closed ∧ n.ConfinedTo suits) inputs feed ⟨hm, h⟩
    fun _ ⟨hn, hc⟩ i hi => ⟨(closed_feed hn i).1, confined_feed hc hn (hin i hi)⟩).2

theorem confined_empty : empty.ConfinedTo suits := by
  refine ⟨?_, by simp [empty], by simp [empty, history], by simp [empty, history]⟩
  intro i j hij hne
  simp only [root, empty, Vocabulary.initial_root] at hij
  exact (hne hij).elim

theorem confined_ofInputs {inputs : List Input}
    (hin : ∀ i ∈ inputs, i.term.wellApplied = true) : (ofInputs inputs).Confined :=
  confined_foldl_feed inputs confined_empty closed_empty
    fun i hi => Term.applied_of_wellApplied (fun _ _ h => h) i.term (hin i hi)

end Asserting

section Classes

variable {m : Model}

theorem ConfinedTo.root_connective (h : m.ConfinedTo suits) (hm : m.vocabulary.WellFormed) {i : Nat}
    (hi : ¬ m.vocabulary.Joinable i) : m.root i = i := by
  by_contra hne
  exact hi (h.classes (hm.root_root i).symm (Ne.symm hne))

theorem ConfinedTo.keepsExchanges (h : m.ConfinedTo suits) (hm : m.vocabulary.WellFormed) :
    m.vocabulary.KeepsExchanges := by
  intro s _ hcomm
  have hroot : m.vocabulary.root s = s :=
    h.root_connective hm fun hj => named?_of_isCommutative hcomm hj
  rw [Vocabulary.rootName, hroot]
  exact hcomm

/-- A fact about an operator whose operands may be exchanged has two of them. -/
theorem Confined.length_args (h : m.Confined) (hm : m.vocabulary.WellFormed) {f : Fact}
    (hf : f ∈ m.facts) (hcomm : isCommutative (m.vocabulary.name f.app.op) = true) :
    f.app.args.length = 2 := by
  obtain ⟨i, r, hr, -, rfl⟩ := mem_facts.mp hf
  have hmem : (r.app, r.result) ∈ m.history := List.mem_map_of_mem
    (f := fun r : Record => (r.app, r.result)) (Array.mem_toList_iff.mpr (Array.mem_of_getElem? hr))
  have hop : m.root r.app.op = r.app.op := by
    by_contra hne
    exact named?_of_isCommutative hcomm (h.classes (hm.root_root r.app.op) hne)
  change isCommutative (m.vocabulary.name (m.root r.app.op)) = true at hcomm
  rw [hop] at hcomm
  obtain ⟨c, hc⟩ := Option.ne_none_iff_exists'.mp (named?_of_isCommutative hcomm)
  change (r.app.args.map m.vocabulary.root).length = 2
  rw [List.length_map]
  refine h.suits _ hmem c hc ?_
  rw [← Connective.name_of_named? hc]
  exact hcomm

end Classes

end Model

end Congruence

end Discharge
