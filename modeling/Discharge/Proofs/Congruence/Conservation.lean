import Mathlib.Data.List.TakeWhile
import Discharge.Proofs.Congruence.Lookup
import Discharge.Proofs.Congruence.Saturation

/-!
Representing a term is conservative. The symbol that is created for an application is new, and the
rule of the operator can ask for one merge only, that of this symbol with a truth value. The symbol
gives way, the facts that mention it are refiled under the keys they have, and none of them asks for
more. All this needs that the truth values differ: in a contradictory model a rule that was missed
may be tried at last when a new fact is refiled.
-/

namespace Discharge.Congruence

section Demands

variable {α : Type} {op : Text} {args : List α} {c x t f : α} {p : α × α}

theorem Demand.of_undecided (h : Demand op args c t f p) (ht : c ≠ t) (hf : c ≠ f) :
    p.1 = c ∧ (p.2 = t ∨ p.2 = f) ∧ ∀ x, Demand op args x t f (x, p.2) := by
  cases h with
  | equal hop ha => exact ⟨rfl, .inl rfl, fun _ => .equal hop ha⟩
  | refuted hop hmem => exact ⟨rfl, .inr rfl, fun _ => .refuted hop hmem⟩
  | conjuncts hop hne hall => exact ⟨rfl, .inl rfl, fun _ => .conjuncts hop hne hall⟩
  | disjunct hop hmem => exact ⟨rfl, .inl rfl, fun _ => .disjunct hop hmem⟩
  | disjuncts hop hne hall => exact ⟨rfl, .inr rfl, fun _ => .disjuncts hop hne hall⟩
  | vacuous hop ha => exact ⟨rfl, .inl rfl, fun _ => .vacuous hop ha⟩
  | concluded hop ha => exact ⟨rfl, .inl rfl, fun _ => .concluded hop ha⟩
  | equation _ _ hr | conjunct _ hr _ | detached _ _ hr => exact (ht hr).elim
  | refutes _ hr _ => exact (hf hr).elim

theorem Demand.eq_of_granted (h : Demand op args c t f (c, x)) (h' : Demand op args x t f p)
    (hne : t ≠ f) (ht : c ≠ t) (hf : c ≠ f) : p.1 = p.2 := by
  have h₁ : ("=" : Text) ≠ "and" := by decide
  have h₂ : ("=" : Text) ≠ "or" := by decide
  have h₃ : ("=" : Text) ≠ "implies" := by decide
  have h₄ : ("and" : Text) ≠ "or" := by decide
  have h₅ : ("and" : Text) ≠ "implies" := by decide
  have h₆ : ("or" : Text) ≠ "implies" := by decide
  cases h <;> cases h' <;> grind

end Demands

namespace Model

variable {m n o : Model}

section Conserving

/-- A later state that differs by what was added only: every symbol keeps its root, a new one is its
own unless it was created, and every fact is recorded as it was. -/
structure Conserves (m n : Model) : Prop where
  vocabulary : m.vocabulary.Grows n.vocabulary
  root_eq : ∀ {i : Nat}, i < m.vocabulary.size → n.root i = m.root i
  fresh : ∀ {i : Nat}, m.vocabulary.size ≤ i → i < n.vocabulary.size →
    n.vocabulary.usage i ≠ .created → n.root i = i
  records : ∀ {i : Nat} {r : Record}, m.records[i]? = some r → n.records[i]? = some r

theorem Conserves.refl (m : Model) : m.Conserves m where
  vocabulary := .refl _
  root_eq _ := rfl
  fresh hi hlt := absurd hlt (Nat.not_lt.mpr hi)
  records h := h

theorem Conserves.trans (h : m.Conserves n) (h' : n.Conserves o) : m.Conserves o where
  vocabulary := h.vocabulary.trans h'.vocabulary
  root_eq hi := by
    rw [h'.root_eq (Nat.lt_of_lt_of_le hi h.vocabulary.size_le), h.root_eq hi]
  fresh {i} hi hlt hu := by
    by_cases hn : i < n.vocabulary.size
    · rw [Vocabulary.usage, h'.vocabulary.entry_eq hn] at hu
      rw [h'.root_eq hn, h.fresh hi hn hu]
    · exact h'.fresh (Nat.le_of_not_lt hn) hlt hu
  records hr := h'.records (h.records hr)

theorem Conserves.contradiction_eq (h : m.Conserves n) (hm : m.Closed) (hn : n.Closed) :
    n.contradiction = m.contradiction := by
  rw [Bool.eq_iff_iff, hn.filed.contradiction_iff, hm.filed.contradiction_iff,
    h.root_eq hm.filed.vocabulary.truth_lt, h.root_eq hm.filed.vocabulary.falsehood_lt]

theorem Conserves.key_eq (h : m.Conserves n) (hm : m.Closed) {app : Application}
    (happ : ∀ s ∈ app.places, s < m.vocabulary.size) :
    app.key n.vocabulary = app.key m.vocabulary :=
  Application.key_of_grows hm.filed.vocabulary h.vocabulary happ fun s hs => h.root_eq (happ s hs)

theorem Conserves.lookup? (h : m.Conserves n) (hm : m.Closed) (hn : n.Closed) {name : Text}
    {i : Nat} (hi : m.vocabulary.lookup? name = some i) : n.vocabulary.lookup? name = some i := by
  have hlt := hm.filed.vocabulary.lt_of_lookup? hi
  refine hn.filed.vocabulary.lookup_iff.mpr ⟨Nat.lt_of_lt_of_le hlt h.vocabulary.size_le, ?_⟩
  rw [h.vocabulary.name_eq hlt, hm.filed.vocabulary.name_of_lookup? hi]

theorem Conserves.rootOf? (h : m.Conserves n) (hm : m.Closed) (hn : n.Closed) {name : Text}
    {r : Nat} (hr : m.vocabulary.rootOf? name = some r) :
    r < m.vocabulary.size ∧ n.vocabulary.rootOf? name = some r := by
  obtain ⟨i, hi, rfl⟩ := Option.map_eq_some_iff.mp hr
  have hlt := hm.filed.vocabulary.lt_of_lookup? hi
  refine ⟨hm.filed.root_lt hlt, ?_⟩
  rw [Vocabulary.rootOf?, h.lookup? hm hn hi]
  exact congrArg some (h.root_eq hlt)

theorem Conserves.result? (h : m.Conserves n) (hm : m.Closed) (hn : n.Closed) {app : Application}
    {s : Nat} (happ : ∀ s ∈ app.places, s < m.vocabulary.size) (hs : m.result? app = some s) :
    s < m.vocabulary.size ∧ n.result? app = some s := by
  obtain ⟨i, hi, rfl⟩ := Option.map_eq_some_iff.mp hs
  obtain ⟨r, hr, hl, hk⟩ := hm.filed.table_iff.mp hi
  have hfound : n.table[app.key n.vocabulary]? = some i := by
    rw [h.key_eq hm happ]
    exact hn.filed.table_iff.mpr ⟨r, h.records hr, hl, hk⟩
  have hlt := hm.filed.result_lt hr
  rw [record_eq hr]
  refine ⟨hm.filed.root_lt hlt, ?_⟩
  rw [Model.result?, hfound, Option.map_some, record_eq (h.records hr), h.root_eq hlt]

mutual

theorem Conserves.find? (h : m.Conserves n) (hm : m.Closed) (hn : n.Closed) (t : Term) {r : Nat}
    (hr : m.find? t = some r) : r < m.vocabulary.size ∧ n.find? t = some r := by
  match t with
  | .apply fn args k =>
    rw [find?_apply_eq hm] at hr
    rw [find?_apply_eq hn]
    obtain ⟨op, hop, hr⟩ := Option.bind_eq_some_iff.mp hr
    obtain ⟨is, his, hr⟩ := Option.bind_eq_some_iff.mp hr
    obtain ⟨hlt, hop⟩ := h.find? hm hn fn hop
    obtain ⟨hlts, his⟩ := h.findAll? hm hn args his
    rw [hop, his]
    refine h.result? hm hn ?_ hr
    intro s hs
    rcases List.mem_cons.mp hs with rfl | hs
    · exact hlt
    · exact hlts s hs
  | .symbol s =>
    rw [find?_symbol] at hr ⊢
    exact h.rootOf? hm hn hr
  | .lambda params body k =>
    rw [find?_of_not_apply (by simp)] at hr ⊢
    exact h.rootOf? hm hn hr
  | .cases branches otherwise k =>
    rw [find?_of_not_apply (by simp)] at hr ⊢
    exact h.rootOf? hm hn hr

theorem Conserves.findAll? (h : m.Conserves n) (hm : m.Closed) (hn : n.Closed) (ts : List Term)
    {is : List Nat} (his : m.findAll? ts = some is) :
    (∀ i ∈ is, i < m.vocabulary.size) ∧ n.findAll? ts = some is := by
  match ts with
  | [] =>
    rw [Model.findAll?] at his ⊢
    cases his
    exact ⟨by simp, rfl⟩
  | t :: rest =>
    rw [Model.findAll?] at his ⊢
    obtain ⟨i, hi, his⟩ := Option.bind_eq_some_iff.mp his
    obtain ⟨js, hjs, he⟩ := Option.bind_eq_some_iff.mp his
    cases he
    obtain ⟨hlt, hi⟩ := h.find? hm hn t hi
    obtain ⟨hlts, hjs⟩ := h.findAll? hm hn rest hjs
    refine ⟨List.forall_mem_cons.mpr ⟨hlt, hlts⟩, ?_⟩
    rw [hi, hjs]
    rfl

end

end Conserving

section Idling

theorem foldl_enqueue_eq_self {ps : List (Nat × Nat)} (h : ∀ p ∈ ps, m.root p.1 = m.root p.2) :
    ps.foldl enqueue m = m := by
  induction ps with
  | nil => rfl
  | cons p rest ih =>
    obtain ⟨hp, hrest⟩ := List.forall_mem_cons.mp h
    rw [List.foldl_cons, enqueue_eq_self hp]
    exact ih hrest

theorem mem_pending_foldl_enqueue {ps : List (Nat × Nat)} {p : Nat × Nat}
    (h : p ∈ (ps.foldl enqueue m).pending) : p ∈ ps ∨ p ∈ m.pending := by
  induction ps generalizing m with
  | nil => exact .inr h
  | cons q rest ih =>
    rcases ih h with hp | hp
    · exact .inl (List.mem_cons_of_mem _ hp)
    · by_cases hq : m.root q.1 = m.root q.2
      · rw [enqueue_eq_self hq] at hp
        exact .inr hp
      · rw [enqueue_of_ne hq] at hp
        rcases List.mem_cons.mp hp with rfl | hp
        · exact .inl List.mem_cons_self
        · exact .inr hp

theorem propagateWithin_of_root_eq (fuel : Nat) (h : ∀ p ∈ m.pending, m.root p.1 = m.root p.2) :
    propagateWithin fuel m = { m with pending := [] } := by
  have hdrop : m.settled = { m with pending := [] } := by
    have hnil : m.pending.dropWhile (fun p => m.root p.1 == m.root p.2) = [] :=
      List.dropWhile_eq_nil_iff.mpr fun p hp => beq_iff_eq.mpr (h p hp)
    rw [settled, hnil]
  cases fuel with
  | zero => rw [propagateWithin, hdrop]
  | succ fuel => simp only [propagateWithin, hdrop]

theorem propagate_of_pending_nil (h : m.pending = []) : m.propagate = m := by
  rw [propagate, propagateWithin_of_root_eq _ (by simp [h]), ← h]

/-- Whether every live fact is filed under its key of now and asks for nothing. -/
def Idle (m : Model) : Prop :=
  ∀ {i : Nat} {r : Record}, m.records[i]? = some r → r.live = true →
    r.key = r.app.key m.vocabulary ∧ ∀ p ∈ m.demands r, m.root p.1 = m.root p.2

theorem check_eq_self {i : Nat} {r : Record} (hr : m.records[i]? = some r)
    (ht : m.root Vocabulary.truth = Vocabulary.truth)
    (hf : m.root Vocabulary.falsehood = Vocabulary.falsehood)
    (hd : ∀ p ∈ m.demands r, m.root p.1 = m.root p.2) : m.check i = m := by
  rw [check_eq hr, ht, hf]
  exact foldl_enqueue_eq_self hd

theorem refile_of_idle {stale : List Nat} (h : m.Filed stale) (hc : m.contradiction = false)
    (hidle : m.Idle) (i : Nat) : ∃ table, m.refile i = { m with table } := by
  have hrefiles := h.refiles i
  generalize m.refile i = n at hrefiles ⊢
  cases hrefiles with
  | idle => exact ⟨m.table, rfl⟩
  | @rekey r hr hl hfree =>
    obtain ⟨hk, hd⟩ := hidle hr hl
    have hsame : m.records.setIfInBounds i { r with key := r.app.key m.vocabulary } =
        m.records := by
      rw [← hk]
      apply Array.ext_getElem?
      intro j
      rw [getElem?_set hr]
      split
      · rename_i hij
        rw [← hij, hr]
      · rfl
    refine ⟨(m.table.erase r.key).insert (r.app.key m.vocabulary) i, ?_⟩
    simp only [rekeyed, hsame]
    exact check_eq_self (m := { m with table := _ }) hr h.root_truth
      (h.root_falsehood_of_consistent hc) hd
  | retire hr hl hij hs hsl hkey =>
    -- The other fact would have the same key, and the table has one entry for it.
    have hown := h.table_key hr hl
    rw [(hidle hr hl).1, ← hkey, h.table_key hs hsl] at hown
    exact (hij (Option.some.inj hown).symm).elim

theorem foldl_refile_of_idle {moved : List Nat} (h : m.Filed moved) (hc : m.contradiction = false)
    (hidle : m.Idle) : ∃ table, moved.foldl refile m = { m with table } := by
  induction moved generalizing m with
  | nil => exact ⟨m.table, rfl⟩
  | cons i rest ih =>
    have hfiled := filed_refile h
    obtain ⟨table, he⟩ := refile_of_idle h hc hidle i
    rw [he] at hfiled
    obtain ⟨table', he'⟩ := ih hfiled hc hidle
    exact ⟨table', by rw [List.foldl_cons, he, he']⟩

end Idling

section Defining

variable {c x : Nat}

/-- A created symbol that is to be merged with one of the input gives way. -/
theorem unite_created (h : m.vocabulary.WellFormed) (hc : m.root c = c) (hx : m.root x = x)
    (hlt : c < m.vocabulary.size) (hlt' : x < m.vocabulary.size)
    (hcreated : m.vocabulary.usage c = .created) (hgiven : m.vocabulary.usage x ≠ .created) :
    ∃ v, m.vocabulary.Joins v x c ∧ v.root c = v.root x ∧
      m.unite c x = (m.listing c).toList.foldl refile (m.joined v x c m.pending) := by
  have hne : c ≠ x := by
    rintro rfl
    exact hgiven hcreated
  obtain ⟨v, winner, loser, j, hroot, he⟩ := unite_eq h hlt hlt' (by rwa [hc, hx])
  have hprefers : m.vocabulary.prefers x c = true := by
    simp [Vocabulary.prefers, hcreated, hgiven]
  have hboth : winner = x ∧ loser = c := by
    have hsame := hroot
    change m.vocabulary.root c = c at hc
    change m.vocabulary.root x = x at hx
    rw [j.root_eq, j.root_eq, hc, hx] at hsame
    -- One of the two roots changes, and it is not the one that is preferred.
    by_cases hl : c = loser
    · subst hl
      rw [if_pos rfl, if_neg (Ne.symm hne)] at hsame
      exact ⟨hsame, rfl⟩
    · rw [if_neg hl] at hsame
      by_cases hl' : x = loser
      · subst hl'
        rw [if_pos rfl] at hsame
        subst hsame
        have hno := j.prefers
        rw [hprefers] at hno
        contradiction
      · rw [if_neg hl'] at hsame
        exact (hne hsame).elim
  obtain ⟨rfl, rfl⟩ := hboth
  exact ⟨v, j, hroot, he⟩

/-- A merge that a created symbol gives way to is the only one, if the facts are idle after it. -/
theorem propagate_created (h : m.Filed []) (hcon : m.contradiction = false)
    (hp : ∀ p ∈ m.pending, p = (c, x)) (hnil : m.pending ≠ []) (hc : m.root c = c)
    (hx : m.root x = x) (hcreated : m.vocabulary.usage c = .created)
    (hgiven : m.vocabulary.usage x ≠ .created)
    (hidle : ∀ v, m.vocabulary.Joins v x c → ({ m with vocabulary := v } : Model).Idle) :
    m.vocabulary.Joins m.propagate.vocabulary x c ∧ m.propagate.records = m.records := by
  obtain ⟨q, rest, hq⟩ := List.exists_cons_of_ne_nil hnil
  obtain rfl : q = (c, x) := hp q (by simp [hq])
  have hrest : ∀ p ∈ rest, p = (c, x) := fun p hmem => hp p (by simp [hq, hmem])
  obtain ⟨hlt, hlt'⟩ := h.pending_lt (c, x) (by simp [hq])
  have hne : m.root c ≠ m.root x := by
    rw [hc, hx]
    rintro rfl
    exact hgiven hcreated
  have hsettled : m.settled = m := by
    have hdrop : m.pending.dropWhile (fun p => m.root p.1 == m.root p.2) = m.pending := by
      rw [hq, List.dropWhile_cons_of_neg (by simpa using hne)]
    rw [settled, hdrop]
  obtain ⟨v, j, hroot, he⟩ := unite_created (m := { m with pending := rest }) h.vocabulary hc hx
    hlt hlt' hcreated hgiven
  change _ = (m.listing c).toList.foldl refile (m.joined v x c rest) at he
  have hstays : ∀ s, m.vocabulary.usage s ≠ .created → m.root s = s → v.root s = s := by
    intro s hs hr
    change m.vocabulary.root s = s at hr
    rw [j.root_of_ne, hr]
    rintro hsc
    rw [hr] at hsc
    rw [hsc] at hs
    exact hs hcreated
  have hcon' : (m.joined v x c rest).contradiction = false := by
    have ht := hstays Vocabulary.truth
      (by simp [Vocabulary.usage, h.vocabulary.entry_truth]) h.root_truth
    have hf := hstays Vocabulary.falsehood
      (by simp [Vocabulary.usage, h.vocabulary.entry_falsehood])
      (h.root_falsehood_of_consistent hcon)
    change (m.contradiction || v.root Vocabulary.truth == v.root Vocabulary.falsehood) = false
    rw [hcon, ht, hf]
    rfl
  obtain ⟨table, hidles⟩ := foldl_refile_of_idle (filed_joined h j hq hroot) hcon' (hidle v j)
  have hpos : m.vocabulary.size = (m.vocabulary.size - 1) + 1 := by omega
  have hstep : m.propagate =
      { m.joined v x c rest with table, pending := [] } := by
    rw [propagate, hpos, propagateWithin, hsettled]
    simp only [hq, he, hidles]
    refine propagateWithin_of_root_eq _ ?_
    intro p hmem
    rw [hrest p hmem]
    exact hroot
  rw [hstep]
  exact ⟨j, rfl⟩

theorem insert_spec (m : Model) (app : Application) (result : Nat) :
    (m.insert app result).records = m.records.push ⟨app, result, app.key m.vocabulary, true⟩ ∧
      (m.insert app result).contradiction = m.contradiction ∧
      ∀ p ∈ (m.insert app result).pending, p ∈ m.pending ∨
        Demand (m.vocabulary.rootName app.op) (app.args.map m.root) (m.root result)
          (m.root Vocabulary.truth) (m.root Vocabulary.falsehood) p := by
  obtain ⟨uses, he, -⟩ := m.entered_spec app result
  have hcheck := check_eq (m.getElem?_entered app result)
  rw [← insert_eq] at hcheck
  obtain ⟨asked, hasked⟩ := asks_check (m.entered app result) m.records.size
  rw [← insert_eq] at hasked
  refine ⟨?_, ?_, ?_⟩
  · rw [hasked, he]
  · rw [hasked, he]
  · intro p hp
    rw [hcheck] at hp
    rcases mem_pending_foldl_enqueue hp with hp | hp
    · right
      rw [he] at hp
      exact mem_consequences_iff.mp hp
    · left
      rwa [pending_entered] at hp

theorem records_define (hm : m.Closed) (app : Application) (kind : Kind) :
    (m.define app kind).records = m.records.push
      ⟨app, m.vocabulary.size, app.key (m.vocabulary.create kind).2, true⟩ := by
  rw [define, (insert_spec _ _ _).1, Vocabulary.create_fst hm.filed.vocabulary]

section Giving

variable {v : Vocabulary} {kind : Kind}

theorem root_of_joins_created (hm : m.vocabulary.WellFormed)
    (j : (m.vocabulary.create kind).2.Joins v x m.vocabulary.size) {s : Nat}
    (hs : s < m.vocabulary.size) : v.root s = m.root s := by
  have hroot := Vocabulary.root_create hm kind s
  rw [j.root_of_ne, hroot]
  · rfl
  · rw [hroot]
    exact Nat.ne_of_lt (hm.root_lt hs)

theorem root_joins_created (hm : m.vocabulary.WellFormed)
    (j : (m.vocabulary.create kind).2.Joins v x m.vocabulary.size) :
    v.root m.vocabulary.size = x := by
  rw [j.root_eq, if_pos]
  rw [Vocabulary.root_create hm, Vocabulary.root_of_ge hm (Nat.le_refl _)]

end Giving

theorem idle_define (hm : m.Closed) {app : Application} {kind : Kind}
    (happ : ∀ s ∈ app.places, s < m.vocabulary.size)
    (hx : Demand (m.vocabulary.rootName app.op) (app.args.map m.root) m.vocabulary.size
      Vocabulary.truth Vocabulary.falsehood (m.vocabulary.size, x))
    {v : Vocabulary} (j : (m.vocabulary.create kind).2.Joins v x m.vocabulary.size) :
    ({ m.define app kind with vocabulary := v } : Model).Idle := by
  have hv := hm.filed.vocabulary
  have hroot := Vocabulary.root_create hv kind
  have hgrows := Vocabulary.grows_create hv kind
  have hold : ∀ {s}, s < m.vocabulary.size → v.root s = m.root s := root_of_joins_created hv j
  have hkey : ∀ {a : Application}, (∀ s ∈ a.places, s < m.vocabulary.size) →
      a.key v = a.key m.vocabulary := fun ha =>
    Application.key_of_grows hv (hgrows.trans j.grows) ha fun s hs => hold (ha s hs)
  -- What a fact about old symbols asks for does not depend on the new one.
  have hasked : ∀ {a : Application} (result : Nat), (∀ s ∈ a.places, s < m.vocabulary.size) →
      consequences (v.rootName a.op) (a.args.map v.root) result =
        consequences (m.vocabulary.rootName a.op) (a.args.map m.root) result := by
    intro a result ha
    have hop := ha a.op Application.op_mem_places
    have hname := Vocabulary.rootName_of_grows hv (hgrows.trans j.grows) hop (hold hop)
    have hargs := Application.args_of_roots fun s hs => hold (ha s hs)
    rw [hname, hargs]
    rfl
  intro i r hr hl
  change (m.define app kind).records[i]? = some r at hr
  rw [records_define hm, Array.getElem?_push] at hr
  change r.key = r.app.key v ∧ ∀ p ∈ consequences (v.rootName r.app.op) (r.app.args.map v.root)
    (v.root r.result) Vocabulary.truth Vocabulary.falsehood, v.root p.1 = v.root p.2
  split at hr
  · cases hr
    have htruth := hv.truth_lt
    have hfalsehood := hv.falsehood_lt
    refine ⟨?_, ?_⟩
    · have hnow := Application.key_of_grows hv hgrows happ fun s _ => hroot s
      exact hnow.trans (hkey happ).symm
    · intro p hp
      rw [hasked _ happ, root_joins_created hv j] at hp
      rw [hx.eq_of_granted (mem_consequences_iff.mp hp) (by decide) (by omega) (by omega)]
  · -- What an old fact asks for was granted before.
    have hplaces := hm.filed.places_lt hr
    refine ⟨(hm.key_eq hr hl).trans (hkey hplaces).symm, ?_⟩
    intro p hp
    rw [hasked _ hplaces, hold (hm.filed.result_lt hr)] at hp
    have hjoined := (hm.filed.closed hr hl (by simp) p hp).root_eq hm.pending_eq
    change m.vocabulary.root p.1 = m.vocabulary.root p.2 at hjoined
    rw [j.root_eq, j.root_eq, hroot, hroot, hjoined]

theorem demand_define (hm : m.Closed) (hcon : m.contradiction = false) {app : Application}
    (kind : Kind) (happ : ∀ s ∈ app.places, s < m.vocabulary.size) {p : Nat × Nat}
    (hp : p ∈ (m.define app kind).pending) : p.1 = m.vocabulary.size ∧
      (p.2 = Vocabulary.truth ∨ p.2 = Vocabulary.falsehood) ∧
      ∀ r, Demand (m.vocabulary.rootName app.op) (app.args.map m.root) r
        Vocabulary.truth Vocabulary.falsehood (r, p.2) := by
  have hv := hm.filed.vocabulary
  have hgrows := Vocabulary.grows_create hv kind
  have hroot : ∀ s, ({ m with vocabulary := (m.vocabulary.create kind).2 } : Model).root s =
      m.root s := Vocabulary.root_create hv kind
  rcases (insert_spec ({ m with vocabulary := (m.vocabulary.create kind).2 } : Model) app
    (m.vocabulary.create kind).1).2.2 p hp with hp | hp
  · rw [hm.pending_eq] at hp
    simp at hp
  · have hop := happ app.op Application.op_mem_places
    have hname := Vocabulary.rootName_of_grows hv hgrows hop (hroot _)
    have hargs := List.map_congr_left (l := app.args) fun s _ => hroot s
    rw [hname, hargs, hroot, hroot, hroot, Vocabulary.create_fst hv, hm.filed.root_truth,
      hm.root_falsehood_of_consistent hcon, root,
      Vocabulary.root_of_ge hv (Nat.le_refl _)] at hp
    exact hp.of_undecided (Nat.ne_of_gt hv.truth_lt) (Nat.ne_of_gt hv.falsehood_lt)

theorem propagate_define (hm : m.Closed) (hcon : m.contradiction = false) {app : Application}
    (kind : Kind) (happ : ∀ s ∈ app.places, s < m.vocabulary.size)
    (hnone : m.table[app.key m.vocabulary]? = none) :
    (m.define app kind).propagate.records = (m.define app kind).records ∧
      ((m.define app kind).propagate.vocabulary = (m.vocabulary.create kind).2 ∨
        ∃ x, (m.vocabulary.create kind).2.Joins (m.define app kind).propagate.vocabulary x
          m.vocabulary.size) := by
  have hv := hm.filed.vocabulary
  obtain ⟨hdef, hvocabulary, -⟩ := advances_define hm.filed app kind happ hnone
  have hcon' : (m.define app kind).contradiction = false := (insert_spec
    ({ m with vocabulary := (m.vocabulary.create kind).2 } : Model) app
    (m.vocabulary.create kind).1).2.1.trans hcon
  by_cases hnil : (m.define app kind).pending = []
  · rw [propagate_of_pending_nil hnil]
    exact ⟨rfl, .inl hvocabulary⟩
  · obtain ⟨⟨c, x⟩, hmem⟩ := List.exists_mem_of_ne_nil _ hnil
    obtain ⟨rfl, hx, hdemand⟩ := demand_define hm hcon kind happ hmem
    have hone : ∀ p ∈ (m.define app kind).pending, p = (m.vocabulary.size, x) := by
      intro p hp
      obtain ⟨hfst, -, hdemand'⟩ := demand_define hm hcon kind happ hp
      have hsnd : x = p.2 := (hdemand m.vocabulary.size).eq_of_granted (hdemand' x) (by decide)
        (Nat.ne_of_gt hv.truth_lt) (Nat.ne_of_gt hv.falsehood_lt)
      exact Prod.ext hfst hsnd.symm
    have hnew : (m.define app kind).root m.vocabulary.size = m.vocabulary.size := by
      rw [root, hvocabulary, Vocabulary.root_create hv, Vocabulary.root_of_ge hv (Nat.le_refl _)]
    have hcreated : (m.define app kind).vocabulary.usage m.vocabulary.size = .created := by
      rw [hvocabulary, Vocabulary.usage, Vocabulary.entry_create hv]
    obtain ⟨hxroot, hgiven⟩ : (m.define app kind).root x = x ∧
        (m.define app kind).vocabulary.usage x ≠ .created := by
      rcases hx with rfl | rfl
      · exact ⟨hdef.filed.root_truth, by simp [Vocabulary.usage, hdef.filed.vocabulary.entry_truth]⟩
      · exact ⟨hdef.filed.root_falsehood_of_consistent hcon',
          by simp [Vocabulary.usage, hdef.filed.vocabulary.entry_falsehood]⟩
    obtain ⟨j, hsame⟩ := propagate_created hdef.filed hcon' hone hnil hnew hxroot hcreated hgiven
      fun v j => idle_define hm happ (hdemand _) (hvocabulary ▸ j)
    rw [hvocabulary] at j
    exact ⟨hsame, .inr ⟨x, j⟩⟩

/-- A new fact changes nothing but the class of its own result. -/
theorem conserves_define (hm : m.Closed) (hcon : m.contradiction = false) {app : Application}
    (kind : Kind) (happ : ∀ s ∈ app.places, s < m.vocabulary.size)
    (hnone : m.table[app.key m.vocabulary]? = none) :
    m.Conserves (m.define app kind).propagate := by
  have hv := hm.filed.vocabulary
  have hgrows := Vocabulary.grows_create hv kind
  have hroot := Vocabulary.root_create hv kind
  obtain ⟨hrecords, hvocabulary⟩ := propagate_define hm hcon kind happ hnone
  have hkept : ∀ {i : Nat} {r : Record}, m.records[i]? = some r →
      (m.define app kind).propagate.records[i]? = some r := by
    intro i r hr
    rw [hrecords, records_define hm, Array.getElem?_push, if_neg, hr]
    exact Nat.ne_of_lt (Array.getElem?_eq_some_iff.mp hr).choose
  have hcreated : ∀ {i : Nat}, m.vocabulary.size ≤ i → i < (m.vocabulary.create kind).2.size →
      (m.vocabulary.create kind).2.usage i = .created := by
    intro i hi hlt
    rw [Vocabulary.size_create hv] at hlt
    obtain rfl : i = m.vocabulary.size := by omega
    rw [Vocabulary.usage, Vocabulary.entry_create hv]
  rcases hvocabulary with hvocabulary | ⟨x, j⟩
  · refine ⟨hvocabulary ▸ hgrows, ?_, ?_, hkept⟩
    · intro i _
      rw [root, hvocabulary, hroot]
      rfl
    · intro i hi hlt hu
      rw [hvocabulary] at hlt hu
      exact absurd (hcreated hi hlt) hu
  · refine ⟨hgrows.trans j.grows, ?_, ?_, hkept⟩
    · intro i hi
      exact root_of_joins_created hv j hi
    · intro i hi hlt hu
      rw [j.size_eq] at hlt
      rw [Vocabulary.usage, j.entry_eq] at hu
      exact absurd (hcreated hi hlt) hu

theorem result?_define (hm : m.Closed) (hcon : m.contradiction = false) {app : Application}
    (kind : Kind) (happ : ∀ s ∈ app.places, s < m.vocabulary.size)
    (hnone : m.table[app.key m.vocabulary]? = none) :
    (m.define app kind).propagate.result? app =
      some ((m.define app kind).propagate.root m.vocabulary.size) := by
  obtain ⟨hfiled, hdone, -⟩ := propagate_spec (advances_define hm.filed app kind happ hnone).1.filed
  have hn : (m.define app kind).propagate.Closed := ⟨hfiled, hdone⟩
  have hrecord := congrArg (·[m.records.size]?)
    ((propagate_define hm hcon kind happ hnone).1.trans (records_define hm app kind))
  simp only [Array.getElem?_push, if_pos] at hrecord
  have hfound := hfiled.table_key hrecord rfl
  rw [hn.key_eq hrecord rfl] at hfound
  rw [result?, hfound, Option.map_some, record_eq hrecord]

theorem conserves_placeApplication (hm : m.Closed) (hcon : m.contradiction = false)
    (app : Application) (kind : Kind) (happ : ∀ s ∈ app.places, s < m.vocabulary.size) :
    (m.placeApplication app kind).2.Closed ∧ m.Conserves (m.placeApplication app kind).2 := by
  cases hk : m.table[app.key m.vocabulary]? with
  | some i =>
    rw [placeApplication_of_some hk]
    exact ⟨hm, .refl m⟩
  | none =>
    obtain ⟨hfiled, hdone, -⟩ := propagate_spec (advances_define hm.filed app kind happ hk).1.filed
    rw [placeApplication_of_none hk]
    exact ⟨⟨hfiled, hdone⟩, conserves_define hm hcon kind happ hk⟩

end Defining

section Placing

theorem conserves_addSymbol (hm : m.Closed) (name : Text) (k : Kind) (u : Usage) :
    (m.addSymbol name k u).2.Closed ∧ m.Conserves (m.addSymbol name k u).2 := by
  have hv := hm.filed.vocabulary
  refine ⟨⟨(advances_addSymbol hm.filed name k u).1.filed, hm.pending_eq⟩, ?_⟩
  refine ⟨Vocabulary.grows_add hv name k u, fun _ => Vocabulary.root_add hv name k u _, ?_,
    fun h => h⟩
  intro i hi _ _
  change (m.vocabulary.add name k u).2.root i = i
  rw [Vocabulary.root_add hv, Vocabulary.root_of_ge hv hi]

mutual

/-- Placing a term in a model without contradiction adds to it and changes nothing. -/
theorem conserves_place (t : Term) {m : Model} (hm : m.Closed) (hcon : m.contradiction = false) :
    (place t m).2.Closed ∧ m.Conserves (place t m).2 := by
  match t with
  | .symbol s =>
    rw [place]
    exact conserves_addSymbol hm s.name s.kind (usageOf s false)
  | .apply fn args k =>
    obtain ⟨hop, hcop⟩ := conserves_placeOperator fn hm hcon
    have hcon' := (hcop.contradiction_eq hm hop).trans hcon
    obtain ⟨hall, hcall⟩ := conserves_placeAll args hop hcon'
    obtain ⟨-, -, hplaces⟩ := advances_parts fn args hm.filed
    obtain ⟨happ, hcapp⟩ := conserves_placeApplication hall
      ((hcall.contradiction_eq hop hall).trans hcon') _ k hplaces
    rw [place_apply]
    exact ⟨happ, (hcop.trans hcall).trans hcapp⟩
  | .lambda params body k =>
    rw [place]
    exact conserves_addSymbol hm _ _ _
  | .cases branches otherwise k =>
    rw [place]
    exact conserves_addSymbol hm _ _ _

theorem conserves_placeOperator (fn : Term) {m : Model} (hm : m.Closed)
    (hcon : m.contradiction = false) :
    (placeOperator fn m).2.Closed ∧ m.Conserves (placeOperator fn m).2 := by
  match fn with
  | .symbol s => exact conserves_addSymbol hm s.name s.kind (usageOf s true)
  | .apply fn args k => exact conserves_place (.apply fn args k) hm hcon
  | .lambda params body k => exact conserves_addSymbol hm _ _ _
  | .cases branches otherwise k => exact conserves_addSymbol hm _ _ _

theorem conserves_placeAll (ts : List Term) {m : Model} (hm : m.Closed)
    (hcon : m.contradiction = false) :
    (placeAll ts m).2.Closed ∧ m.Conserves (placeAll ts m).2 := by
  match ts with
  | [] =>
    rw [placeAll]
    exact ⟨hm, .refl m⟩
  | t :: rest =>
    obtain ⟨hfirst, hcfirst⟩ := conserves_place t hm hcon
    obtain ⟨hrest, hcrest⟩ := conserves_placeAll rest hfirst
      ((hcfirst.contradiction_eq hm hfirst).trans hcon)
    rw [placeAll]
    exact ⟨hrest, hcfirst.trans hcrest⟩

end

theorem conserves_represent (hm : m.Closed) (hcon : m.contradiction = false) (t : Term) :
    m.Conserves (m.represent t).2 := by
  obtain ⟨hc, hcons⟩ := conserves_place t hm hcon
  change m.Conserves (place t m).2.propagate
  rw [propagate_of_pending_nil hc.pending_eq]
  exact hcons

end Placing

/-- Representing a term in a model without contradiction brings none about and joins no two
symbols, and every term that the model knows stays in the class it is in. -/
theorem conservative_represent (inputs : List Input) (t : Term)
    (hcon : (ofInputs inputs).contradiction = false) :
    ((ofInputs inputs).represent t).2.contradiction = false ∧
      (∀ i < (ofInputs inputs).vocabulary.size, ∀ j < (ofInputs inputs).vocabulary.size,
        (((ofInputs inputs).represent t).2.root i = ((ofInputs inputs).represent t).2.root j ↔
          (ofInputs inputs).root i = (ofInputs inputs).root j)) ∧
      ∀ u r, (ofInputs inputs).find? u = some r →
        ((ofInputs inputs).represent t).2.find? u = some r ∧
        (r = ((ofInputs inputs).represent t).2.root Vocabulary.truth ↔
          r = (ofInputs inputs).root Vocabulary.truth) ∧
        (r = ((ofInputs inputs).represent t).2.root Vocabulary.falsehood ↔
          r = (ofInputs inputs).root Vocabulary.falsehood) := by
  have hm := closed_ofInputs inputs
  have hn := (closed_represent hm t).1
  have hcons := conserves_represent hm hcon t
  have hv := hm.filed.vocabulary
  refine ⟨(hcons.contradiction_eq hm hn).trans hcon, ?_, ?_⟩
  · intro i hi j hj
    rw [hcons.root_eq hi, hcons.root_eq hj]
  · intro u r hr
    rw [hcons.root_eq hv.truth_lt, hcons.root_eq hv.falsehood_lt]
    exact ⟨(hcons.find? hm hn u hr).2, Iff.rfl, Iff.rfl⟩

def undecidedInputs : List Input :=
  let x (name : Text) : Term := .symbol ⟨name, .boolean, .free⟩
  [.assume (x "a"), .assume (x "b"), .represent (.call "p" .boolean [x "z"])]

/-- The conjunction of the true symbols joins them as soon as it is represented, and the application
stays undecided. -/
theorem conservative_undecidedInputs :
    let x (name : Text) : Term := .symbol ⟨name, .boolean, .free⟩
    let n := ((ofInputs undecidedInputs).represent (.conj (x "a") (x "b"))).2
    (ofInputs undecidedInputs).contradiction = false ∧ n.contradiction = false ∧
      ((ofInputs undecidedInputs).represent (.conj (x "a") (x "b"))).1 = Vocabulary.truth ∧
      n.find? (.call "p" .boolean [x "z"]) = some 6 ∧ 6 ≠ n.root Vocabulary.truth ∧
      6 ≠ n.root Vocabulary.falsehood := by
  intro x n
  have hcon : (ofInputs undecidedInputs).contradiction = false := by decide +kernel
  obtain ⟨hn, -, hfound⟩ := conservative_represent undecidedInputs (.conj (x "a") (x "b")) hcon
  have hp : (ofInputs undecidedInputs).find? (.call "p" .boolean [x "z"]) = some 6 := by
    decide +kernel
  obtain ⟨hstays, htruth, hfalsehood⟩ := hfound _ 6 hp
  refine ⟨hcon, hn, by decide +kernel, hstays, ?_, ?_⟩
  · rw [ne_eq, htruth]
    decide +kernel
  · rw [ne_eq, hfalsehood]
    decide +kernel

end Model

end Discharge.Congruence
