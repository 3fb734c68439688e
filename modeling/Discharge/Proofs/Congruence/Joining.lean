import Discharge.Proofs.Congruence.Bindings
import Discharge.Proofs.Congruence.Lookup

/-!
Joins are complete. If the symbols of a pattern can be taken to classes of a model so that a fact of
the pattern becomes a fact of the model, then a binding that follows this choice is extended to one
that still follows it, and the join keeps that binding although it drops repeated keys. Joined facts
leave no choice for their results: the classes of operator and operands determine them.
-/

namespace Discharge.Congruence

def Model.IsRootName (m : Model) (name : Text) : Prop :=
  ∃ i < m.vocabulary.size, m.root i = i ∧ m.vocabulary.name i = name

instance (m : Model) (name : Text) : Decidable (m.IsRootName name) :=
  inferInstanceAs (Decidable (∃ i < m.vocabulary.size, m.root i = i ∧ m.vocabulary.name i = name))

theorem Model.IsRootName.rootOf? {m : Model} (hm : m.vocabulary.WellFormed) {name : Text}
    (h : m.IsRootName name) :
    ∃ i, m.vocabulary.rootOf? name = some i ∧ m.vocabulary.name i = name := by
  obtain ⟨i, hi, hroot, rfl⟩ := h
  exact ⟨i, (hm.rootOf?_name hi).trans (congrArg some hroot), rfl⟩

theorem Vocabulary.Named.rootOf?_empty {v : Vocabulary} (h : v.Named) (hv : v.WellFormed) :
    v.rootOf? "" = none := by
  rw [Vocabulary.rootOf?, Option.map_eq_none_iff, Option.eq_none_iff_forall_ne_some]
  intro i hi
  exact h.name_ne (hv.lt_of_lookup? hi) (hv.name_of_lookup? hi)

theorem Vocabulary.name_mem_namesWhere {v : Vocabulary} {p : Usage → Bool} {i : Nat}
    (hi : i < v.size) (hu : p (v.usage i) = true) : v.name i ∈ v.namesWhere p := by
  have he : v.entry i = v.entries[i] := by
    rw [Vocabulary.entry, Array.getElem?_eq_getElem hi, Option.getD_some]
  rw [Vocabulary.usage, he] at hu
  rw [Vocabulary.name, he, Vocabulary.namesWhere]
  refine List.mem_map_of_mem (List.mem_filter.mpr ⟨?_, hu⟩)
  exact Array.mem_toList_iff.mpr (Array.getElem_mem hi)

theorem Vocabulary.name_mem_vars {v : Vocabulary} {i : Nat} (hi : i < v.size)
    (hu : (v.usage i).isVariable = true) : v.name i ∈ v.vars := name_mem_namesWhere hi hu

namespace Binding

def Valued (b : Binding) (m : Model) : Prop := ∀ name, b.get name ≠ "" → m.IsRootName (b.get name)

def Within (b : Binding) (m : Model) : Prop :=
  ∀ name, b.get name ≠ "" → ∃ i < m.vocabulary.size, m.vocabulary.name i = b.get name

/-- A binding as joins make it: it has the variables of the pattern in order, and those that have a
value are roots and have a root for it. -/
structure Fits (b : Binding) (v : Vocabulary) (m : Model) : Prop where
  ordered : b.Ordered
  names_eq : b.names = (unbound v.vars).names
  rooted : b.Rooted v
  valued : b.Valued m

/-- Whether the values of a binding are those that a choice of classes gives. -/
def Follows (b : Binding) (v : Vocabulary) (m : Model) (κ : Nat → Nat) : Prop :=
  ∀ s < v.size, b.get (v.name s) ≠ "" → b.get (v.name s) = m.vocabulary.name (κ s)

variable {b b' : Binding} {v : Vocabulary} {m : Model}

theorem Within.of_extends {n : Model} (h : b.Within m) (hext : m.Extends n) : b.Within n := by
  intro name hn
  obtain ⟨i, hi, hname⟩ := h name hn
  exact ⟨i, hext.lt hi, by rw [hext.vocabulary.name_eq hi, hname]⟩

theorem Within.set (h : b.Within m) {a : Nat} (ha : a < m.vocabulary.size) (name : Text) :
    (b.set name (m.vocabulary.name a)).Within m := by
  intro other hn
  rw [get_set] at hn ⊢
  split at hn
  · rename_i he
    rw [if_pos he]
    exact ⟨a, ha, rfl⟩
  · rename_i he
    rw [if_neg he]
    exact h other hn

theorem Valued.within (h : b.Valued m) : b.Within m := by
  intro name hn
  obtain ⟨i, hi, -, hname⟩ := h name hn
  exact ⟨i, hi, hname⟩

theorem Within.not_mem_get (h : b.Within m) {byte : UInt8}
    (hm : m.vocabulary.All fun e => byte ∉ e.name.toList) (name : Text) :
    byte ∉ (b.get name).toList := by
  by_cases hn : b.get name = ""
  · rw [hn]
    exact fun hmem => nomatch hmem
  · obtain ⟨i, hi, hname⟩ := h name hn
    rw [← hname]
    exact hm.entry hi

theorem valued_unbound (names : List Text) (m : Model) : (unbound names).Valued m :=
  fun name hn => (hn (get_unbound names name)).elim

theorem Valued.set (h : b.Valued m) {value : Text} (hvalue : m.IsRootName value) (name : Text) :
    (b.set name value).Valued m := by
  intro other hn
  rw [get_set] at hn ⊢
  split at hn
  · rename_i he
    rw [if_pos he]
    exact hvalue
  · rename_i he
    rw [if_neg he]
    exact h other hn

theorem fits_unbound (v : Vocabulary) (m : Model) : (unbound v.vars).Fits v m where
  ordered := (ordered_unbound v.vars).1
  names_eq := rfl
  rooted name hn := (hn (get_unbound v.vars name)).elim
  valued := valued_unbound v.vars m

theorem Fits.set (h : b.Fits v m) {i a : Nat} (hi : i < v.size) (hr : v.root i = i)
    (hu : (v.usage i).isVariable = true) (ha : a < m.vocabulary.size) (har : m.root a = a) :
    (b.set (v.name i) (m.vocabulary.name a)).Fits v m where
  ordered := h.ordered.set _ _
  names_eq := by
    rw [← h.names_eq]
    refine h.ordered.names_set ?_ _
    rw [h.names_eq, (ordered_unbound v.vars).2]
    exact Vocabulary.name_mem_vars hi hu
  rooted := h.rooted.set hi hr hu _
  valued := h.valued.set ⟨a, ha, har, rfl⟩ _

theorem Fits.get_eq (h : b.Fits v m) (h' : b'.Fits v m) (hm : m.vocabulary.WellFormed)
    (hnames : m.vocabulary.Named) {name : Text}
    (hc : m.vocabulary.rootOf? (b.get name) = m.vocabulary.rootOf? (b'.get name)) :
    b.get name = b'.get name := by
  have hempty := hnames.rootOf?_empty hm
  by_cases hb : b.get name = ""
  · by_cases hb' : b'.get name = ""
    · rw [hb, hb']
    · obtain ⟨i, hi, -⟩ := (h'.valued name hb').rootOf? hm
      rw [hb, hempty, hi] at hc
      cases hc
  · obtain ⟨i, hi, hname⟩ := (h.valued name hb).rootOf? hm
    by_cases hb' : b'.get name = ""
    · rw [hb', hempty, hi] at hc
      cases hc
    · obtain ⟨j, hj, hname'⟩ := (h'.valued name hb').rootOf? hm
      rw [hi, hj] at hc
      rw [← hname, ← hname', Option.some.inj hc]

/-- Bindings that fit are told apart by their keys, if no name of the model has a comma. -/
theorem Fits.eq_of_key_eq (h : b.Fits v m) (h' : b'.Fits v m)
    (hm : m.vocabulary.All fun e => e.name.CommaFree) (hk : b'.key = b.key) : b' = b :=
  h.ordered.eq_of_key_eq (h'.names_eq.trans h.names_eq.symm) (h.valued.within.not_mem_get hm)
    (h'.valued.within.not_mem_get hm) hk

theorem class?_of_root {s : Nat} (h : v.root s = s) : b.class? v m s =
    m.vocabulary.rootOf? (if (v.usage s).isVariable then b.get (v.name s) else v.name s) := by
  rw [class?, text, Vocabulary.rootName, h]

theorem class?_root (hv : v.WellFormed) (s : Nat) :
    b.class? v m (v.root s) = b.class? v m s := by
  rw [class?, class?, text, text, Vocabulary.rootName, Vocabulary.rootName, hv.root_root]

end Binding

namespace Model

variable {m : Model} {v : Vocabulary} {κ : Nat → Nat}

section Fitting

/-- Whether a property of bindings survives it if a symbol of the pattern is given a class. -/
def Survives (m : Model) (v : Vocabulary) (P : Binding → Prop) (s : Nat) : Prop :=
  (v.usage (v.root s)).isVariable = true → ∀ a < m.vocabulary.size, m.root a = a →
    ∀ b, P b → P (b.set (v.name (v.root s)) (m.vocabulary.name a))

variable {P : Binding → Prop}

theorem unify_keeps {s a : Nat} (hP : m.Survives v P s) (ha : a < m.vocabulary.size)
    (har : m.root a = a) {b b' : Binding} (hb : P b) (h : m.unify v s a b = some b') : P b' := by
  unfold unify at h
  dsimp only at h
  split at h
  · rename_i hu
    split at h
    · cases h
      exact hP hu a ha har b hb
    · split at h
      · cases h
        exact hb
      · cases h
  · split at h
    · cases h
      exact hb
    · cases h

theorem unifyAll_keeps (ss as : List Nat) (hP : ∀ s ∈ ss, m.Survives v P s)
    (has : ∀ a ∈ as, a < m.vocabulary.size ∧ m.root a = a) {b b' : Binding} (hb : P b)
    (h : m.unifyAll v ss as b = some b') : P b' := by
  match ss, as with
  | s :: ss, a :: as =>
    rw [unifyAll, Option.bind_eq_some_iff] at h
    obtain ⟨c, hc, hrest⟩ := h
    obtain ⟨ha, har⟩ := has a List.mem_cons_self
    exact unifyAll_keeps ss as (fun x hx => hP x (List.mem_cons_of_mem _ hx))
      (fun x hx => has x (List.mem_cons_of_mem _ hx))
      (unify_keeps (hP s List.mem_cons_self) ha har hb hc) hrest
  | [], _ =>
    simp only [unifyAll, Option.some.injEq] at h
    exact h ▸ hb
  | _ :: _, [] =>
    simp only [unifyAll, Option.some.injEq] at h
    exact h ▸ hb

theorem keeps_of_mem_filterMap (hm : m.Closed) {p : Fact}
    (hP : ∀ s ∈ p.app.places ++ [p.result], m.Survives v P s) {bs : List Binding}
    (hbs : ∀ b ∈ bs, P b) {b' : Binding}
    (h : b' ∈ bs.flatMap fun b => (m.eligible v p).filterMap fun f => m.unifyFact v p f b) :
    P b' := by
  obtain ⟨b, hb, hfound⟩ := List.mem_flatMap.mp h
  obtain ⟨g, hg, hunify⟩ := List.mem_filterMap.mp hfound
  obtain ⟨f, hf, -, hord⟩ := mem_eligible hg
  exact unifyAll_keeps _ _ hP (hm.symbols_orders hf hord) (hbs b hb) hunify

theorem keeps_of_mem_join (hm : m.Closed) {p : Fact}
    (hP : ∀ s ∈ p.app.places ++ [p.result], m.Survives v P s) {bs : List Binding}
    (hbs : ∀ b ∈ bs, P b) {b' : Binding} (h : b' ∈ m.join v bs p) : P b' :=
  keeps_of_mem_filterMap hm hP hbs (mem_of_mem_firstOfKey h)

theorem keeps_of_mem_foldl_join (hm : m.Closed) (ps : List Fact)
    (hP : ∀ p ∈ ps, ∀ s ∈ p.app.places ++ [p.result], m.Survives v P s) {bs : List Binding}
    (hbs : ∀ b ∈ bs, P b) {b' : Binding} (h : b' ∈ ps.foldl (m.join v) bs) : P b' := by
  induction ps generalizing bs with
  | nil => exact hbs b' h
  | cons p rest ih =>
    refine ih (fun q hq => hP q (List.mem_cons_of_mem _ hq)) ?_ h
    intro c hc
    exact keeps_of_mem_join hm (hP p List.mem_cons_self) hbs hc

theorem survives_valued (m : Model) (v : Vocabulary) (s : Nat) :
    m.Survives v (fun b => b.Valued m) s :=
  fun _ a ha har _ hb => hb.set ⟨a, ha, har, rfl⟩ _

theorem survives_fits (hv : v.WellFormed) {s : Nat} (hs : s < v.size) :
    m.Survives v (fun b => b.Fits v m) s :=
  fun hu _ ha har _ hb => hb.set (hv.root_lt hs) (hv.root_root s) hu ha har

theorem fits_of_mem_foldl_join (hm : m.Closed) (hv : v.WellFormed) (ps : List Fact)
    (hps : ∀ p ∈ ps, ∀ s ∈ p.app.places ++ [p.result], s < v.size) {bs : List Binding}
    (hbs : ∀ b ∈ bs, b.Fits v m) {b' : Binding} (h : b' ∈ ps.foldl (m.join v) bs) :
    b'.Fits v m :=
  keeps_of_mem_foldl_join hm ps (fun p hp s hs => survives_fits hv (hps p hp s hs)) hbs h

theorem pairwise_foldl_join (ps : List Fact) {bs : List Binding}
    (hbs : bs.Pairwise fun b b' => b.key ≠ b'.key) :
    (ps.foldl (m.join v) bs).Pairwise fun b b' => b.key ≠ b'.key := by
  induction ps generalizing bs with
  | nil => exact hbs
  | cons p rest ih => exact ih (firstOfKey_spec _).1

end Fitting

section Following

/-- Whether a choice of classes for the symbols of a pattern makes a fact of the pattern a fact of
the model. A constant has the class of its name. -/
structure Realizes (m : Model) (v : Vocabulary) (κ : Nat → Nat) (p : Fact) : Prop where
  roots : ∀ s ∈ p.app.places ++ [p.result], s < v.size ∧ v.root s = s
  constant : ∀ s ∈ p.app.places ++ [p.result], (v.usage s).isVariable = false →
    m.vocabulary.rootOf? (v.name s) = some (κ s)
  becomes : ∃ f ∈ m.facts, ∃ g ∈ m.orders f,
    (p.app.places ++ [p.result]).map κ = g.app.places ++ [g.result]

theorem exists_unify (hm : m.vocabulary.WellFormed) (hv : v.WellFormed) {s : Nat}
    (hs : s < v.size ∧ v.root s = s) (hκ : κ s < m.vocabulary.size ∧ m.root (κ s) = κ s)
    (hconst : (v.usage s).isVariable = false → m.vocabulary.rootOf? (v.name s) = some (κ s))
    {b : Binding} (hb : b.Follows v m κ) :
    ∃ b', m.unify v s (κ s) b = some b' ∧ b'.Follows v m κ := by
  have hclass : m.vocabulary.rootOf? (m.vocabulary.name (κ s)) = some (κ s) :=
    (hm.rootOf?_name hκ.1).trans (congrArg some hκ.2)
  unfold unify
  dsimp only
  rw [hs.2]
  split
  · split
    · -- The variable is unbound and gets the name of the class that was chosen for it.
      refine ⟨_, rfl, ?_⟩
      intro x hx hne
      rw [Binding.get_set] at hne ⊢
      split at hne
      · rename_i he
        rw [if_pos he, hv.eq_of_name_eq hs.1 hx he]
      · rename_i he
        rw [if_neg he]
        exact hb x hx hne
    · rename_i hbound
      have hget := hb s hs.1 fun he => hbound (by rw [he]; decide)
      rw [hget, hclass, if_pos (beq_self_eq_true _)]
      exact ⟨b, rfl, hb⟩
  · rename_i hu
    rw [hconst (by simpa using hu), if_pos (beq_self_eq_true _)]
    exact ⟨b, rfl, hb⟩

theorem exists_unifyAll (hm : m.vocabulary.WellFormed) (hv : v.WellFormed) (ss : List Nat)
    (hss : ∀ s ∈ ss, s < v.size ∧ v.root s = s)
    (hκ : ∀ s ∈ ss, κ s < m.vocabulary.size ∧ m.root (κ s) = κ s)
    (hconst : ∀ s ∈ ss, (v.usage s).isVariable = false →
      m.vocabulary.rootOf? (v.name s) = some (κ s)) {b : Binding} (hb : b.Follows v m κ) :
    ∃ b', m.unifyAll v ss (ss.map κ) b = some b' ∧ b'.Follows v m κ := by
  induction ss generalizing b with
  | nil => exact ⟨b, rfl, hb⟩
  | cons s ss ih =>
    obtain ⟨c, hc, hfollows⟩ := exists_unify hm hv (hss s List.mem_cons_self)
      (hκ s List.mem_cons_self) (hconst s List.mem_cons_self) hb
    obtain ⟨b', hb', hfollows'⟩ := ih (fun x hx => hss x (List.mem_cons_of_mem _ hx))
      (fun x hx => hκ x (List.mem_cons_of_mem _ hx))
      (fun x hx => hconst x (List.mem_cons_of_mem _ hx)) hfollows
    refine ⟨b', ?_, hfollows'⟩
    rw [List.map_cons, unifyAll, hc]
    exact hb'

theorem Realizes.mem_eligible {p f g : Fact} (h : m.Realizes v κ p) (hf : f ∈ m.facts)
    (hg : g ∈ m.orders f) (heq : (p.app.places ++ [p.result]).map κ = g.app.places ++ [g.result]) :
    g ∈ m.eligible v p := by
  obtain ⟨hop, -, hperm⟩ := orders_frame hg
  simp only [Application.places, List.cons_append, List.map_cons, List.map_append, List.map_nil,
    List.cons.injEq] at heq
  obtain ⟨hκop, hrest⟩ := heq
  have hlen : f.app.args.length = p.app.args.length := by
    have hlen := congrArg List.length hrest
    simp only [List.length_append, List.length_map, List.length_singleton] at hlen
    rw [← hperm.length_eq]
    omega
  have hmem := p.op_mem_symbols
  refine List.mem_flatMap.mpr ⟨f, List.mem_filter.mpr ⟨hf, ?_⟩, hg⟩
  rw [hlen, beq_self_eq_true, Bool.true_and, (h.roots _ hmem).2]
  split
  · rfl
  · rename_i hu
    rw [h.constant _ hmem (by simpa using hu)]
    dsimp only
    rw [hκop, hop, beq_self_eq_true]

theorem exists_mem_join (hm : m.Closed) (hv : v.WellFormed)
    (hmc : m.vocabulary.All fun e => e.name.CommaFree) {p : Fact}
    (hp : m.Realizes v κ p) {bs : List Binding} (hbs : ∀ b ∈ bs, b.Fits v m) {b : Binding}
    (hb : b ∈ bs) (hfollows : b.Follows v m κ) :
    ∃ b' ∈ m.join v bs p, b'.Follows v m κ := by
  obtain ⟨f, hf, g, hg, heq⟩ := hp.becomes
  have hκ : ∀ s ∈ p.app.places ++ [p.result],
      κ s < m.vocabulary.size ∧ m.root (κ s) = κ s := by
    intro s hs
    refine hm.symbols_orders hf hg (κ s) ?_
    rw [← heq]
    exact List.mem_map_of_mem hs
  obtain ⟨c, hc, hfollows'⟩ := exists_unifyAll hm.filed.vocabulary hv _ hp.roots hκ hp.constant
    hfollows
  rw [heq] at hc
  have hmem : c ∈ bs.flatMap fun b => (m.eligible v p).filterMap fun f => m.unifyFact v p f b :=
    List.mem_flatMap.mpr ⟨b, hb, List.mem_filterMap.mpr ⟨g, hp.mem_eligible hf hg heq, hc⟩⟩
  have hfits : ∀ s ∈ p.app.places ++ [p.result], m.Survives v (fun b => b.Fits v m) s :=
    fun s hs => survives_fits hv (hp.roots s hs).1
  -- What is kept under the key of the binding is the binding itself.
  obtain ⟨d, hd, hkey⟩ : ∃ d ∈ m.join v bs p, d.key = c.key := (firstOfKey_spec _).2 c hmem
  have hsame : d = c := (keeps_of_mem_filterMap hm hfits hbs hmem).eq_of_key_eq
    (keeps_of_mem_join hm hfits hbs hd) hmc hkey
  exact ⟨c, hsame ▸ hd, hfollows'⟩

/-- A choice of classes that realizes every fact of the pattern is found. -/
theorem exists_mem_foldl_join (hm : m.Closed) (hv : v.WellFormed)
    (hmc : m.vocabulary.All fun e => e.name.CommaFree) (ps : List Fact)
    (hps : ∀ p ∈ ps, m.Realizes v κ p) {bs : List Binding} (hbs : ∀ b ∈ bs, b.Fits v m)
    {b : Binding} (hb : b ∈ bs) (hfollows : b.Follows v m κ) :
    ∃ b' ∈ ps.foldl (m.join v) bs, b'.Follows v m κ := by
  induction ps generalizing bs b with
  | nil => exact ⟨b, hb, hfollows⟩
  | cons p rest ih =>
    have hp := hps p List.mem_cons_self
    obtain ⟨c, hc, hfollows'⟩ := exists_mem_join hm hv hmc hp hbs hb hfollows
    refine ih (fun q hq => hps q (List.mem_cons_of_mem _ hq)) ?_ hc hfollows'
    intro d hd
    exact keeps_of_mem_join hm (fun s hs => survives_fits hv (hp.roots s hs).1) hbs hd

end Following

section Solving

theorem Closed.result?_orders (hm : m.Closed) {f g : Fact} (hf : f ∈ m.facts)
    (hg : g ∈ m.orders f) : m.result? g.app = some g.result := by
  have hfact := hm.result?_fact hf
  have hroot := hm.root_fact hf f.app.op f.op_mem_symbols
  unfold orders at hg
  split at hg
  · rename_i a b hargs
    split at hg
    · rename_i hcomm
      rcases List.mem_cons.mp hg with rfl | hg
      · exact hfact
      · rw [List.mem_singleton.mp hg, ← hfact]
        change m.result? ⟨f.app.op, [b, a]⟩ = m.result? ⟨f.app.op, f.app.args⟩
        rw [hargs]
        refine result?_perm ?_ (List.Perm.swap _ _ _)
        change isCommutative (m.vocabulary.name (m.root f.app.op)) = true
        rw [hroot]
        exact hcomm
    · rw [List.mem_singleton.mp hg]
      exact hfact
  · rw [List.mem_singleton.mp hg]
    exact hfact

theorem Closed.result?_of_solves (hm : m.Closed) {b : Binding} {p : Fact} (h : b.Solves v m p) :
    ∃ op args r, b.class? v m p.app.op = some op ∧
      p.app.args.map (b.class? v m) = args.map some ∧ b.class? v m p.result = some r ∧
      m.result? ⟨op, args⟩ = some r := by
  obtain ⟨f, hf, g, hg, hclasses⟩ := h.becomes
  simp only [Application.places, List.cons_append, List.map_cons, List.map_append, List.map_nil,
    List.cons.injEq] at hclasses
  obtain ⟨hop, hrest⟩ := hclasses
  obtain ⟨hargs, hresult⟩ := List.append_inj' hrest rfl
  exact ⟨g.app.op, g.app.args, g.result, hop, hargs, (List.cons.inj hresult).1,
    hm.result?_orders hf hg⟩

/-- Bindings that solve a fact and agree on its operator and operands agree on its result. -/
theorem Closed.class?_result_eq (hm : m.Closed) {b b' : Binding} {p : Fact} (h : b.Solves v m p)
    (h' : b'.Solves v m p)
    (hsame : ∀ s ∈ p.app.places, b.class? v m s = b'.class? v m s) :
    b.class? v m p.result = b'.class? v m p.result := by
  obtain ⟨op, args, r, hop, hargs, hclass, hfound⟩ := hm.result?_of_solves h
  obtain ⟨op', args', r', hop', hargs', hclass', hfound'⟩ := hm.result?_of_solves h'
  obtain rfl : op = op' := by
    rw [hsame _ List.mem_cons_self, hop'] at hop
    exact (Option.some.inj hop).symm
  obtain rfl : args = args' := by
    rw [List.map_congr_left fun s hs => hsame s (List.mem_cons_of_mem _ hs), hargs'] at hargs
    exact (List.map_injective_iff.mpr (Option.some_injective Nat) hargs).symm
  rw [hclass, hclass', ← hfound, ← hfound']

end Solving

end Model

end Discharge.Congruence
