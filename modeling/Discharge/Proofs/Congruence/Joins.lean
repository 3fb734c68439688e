import Discharge.Proofs.Congruence.Joining

namespace Discharge.Congruence

/-- Whether a symbol of a pattern has its value from the variable of that name: that of the root of
its class. -/
def Vocabulary.BoundThrough (v : Vocabulary) (s : Nat) (name : Text) : Prop :=
  (v.usage (v.root s)).isVariable = true ∧ v.rootName s = name

def Fact.symbolsOf (ps : List Fact) : List Nat := ps.flatMap fun p => p.app.places ++ [p.result]

/-- Whether some of these symbols has its value from the variable of that name. -/
def Vocabulary.Occurs (v : Vocabulary) (ss : List Nat) (name : Text) : Prop :=
  ∃ s ∈ ss, v.BoundThrough s name

namespace Binding

structure Over (b : Binding) (v : Vocabulary) (m : Model) : Prop where
  ordered : b.Ordered
  names_eq : b.names = (unbound v.vars).names
  within : b.Within m

/-- Whether a binding keeps the values of another, and binds to roots those variables without a
value that the property has, and no more. -/
structure Fills (b : Binding) (m : Model) (needed : Text → Prop) (b' : Binding) : Prop where
  names_eq : b'.names = b.names
  keeps : b.Extends b'
  binds : ∀ name, b.get name = "" → needed name → m.IsRootName (b'.get name)
  leaves : ∀ name, b.get name = "" → ¬ needed name → b'.get name = ""

/-- Whether a fact of the pattern holds in the model for the classes that a binding names: there is
a fact about them, the operands of which may stand the other way round if they are two and the
operator is commutative. -/
def Holds (b : Binding) (v : Vocabulary) (m : Model) (p : Fact) : Prop :=
  ∃ f ∈ m.facts, b.class? v m p.app.op = some f.app.op ∧ b.class? v m p.result = some f.result ∧
    (p.app.args.map (b.class? v m) = f.app.args.map some ∨
      f.app.args.length = 2 ∧ isCommutative (m.vocabulary.name f.app.op) = true ∧
        p.app.args.map (b.class? v m) = f.app.args.reverse.map some)

instance (b : Binding) (v : Vocabulary) (m : Model) (p : Fact) : Decidable (b.Holds v m p) :=
  inferInstanceAs (Decidable (∃ _ ∈ _, _))

variable {b b' c : Binding} {v : Vocabulary} {m : Model} {needed : Text → Prop}

theorem over_unbound (v : Vocabulary) (m : Model) : (unbound v.vars).Over v m where
  ordered := (ordered_unbound v.vars).1
  names_eq := rfl
  within name hn := (hn (get_unbound v.vars name)).elim

theorem Over.set (h : b.Over v m) {name : Text} (hname : name ∈ v.vars) {a : Nat}
    (ha : a < m.vocabulary.size) : (b.set name (m.vocabulary.name a)).Over v m where
  ordered := h.ordered.set _ _
  names_eq := by
    rw [← h.names_eq]
    refine h.ordered.names_set ?_ _
    rw [h.names_eq, (ordered_unbound v.vars).2]
    exact hname
  within := h.within.set ha name

theorem Over.eq_of_key_eq (h : b.Over v m) (h' : c.Over v m)
    (hm : m.vocabulary.All fun e => e.name.CommaFree) (hk : c.key = b.key) : c = b :=
  h.ordered.eq_of_key_eq (h'.names_eq.trans h.names_eq.symm) (h.within.not_mem_get hm)
    (h'.within.not_mem_get hm) hk

theorem Fills.congr {needed' : Text → Prop} (h : b.Fills m needed b')
    (hn : ∀ name, needed name ↔ needed' name) : b.Fills m needed' b' where
  names_eq := h.names_eq
  keeps := h.keeps
  binds name he hneed := h.binds name he ((hn name).mpr hneed)
  leaves name he hneed := h.leaves name he fun hneed' => hneed ((hn name).mp hneed')

theorem Over.fills_none_iff (h : b.Over v m) : b.Fills m (fun _ => False) b' ↔ b' = b := by
  constructor
  · intro hf
    refine h.ordered.eq_of_get_eq hf.names_eq ?_
    intro name _
    by_cases he : b.get name = ""
    · rw [he, hf.leaves name he not_false]
    · exact hf.keeps name he
  · rintro rfl
    exact ⟨rfl, .refl _, fun _ _ hn => hn.elim, fun _ he _ => he⟩

theorem fills_bound_iff {bound : Text → Prop} (hbound : ∀ name, bound name → b.get name ≠ "") :
    b.Fills m (fun name => bound name ∨ needed name) b' ↔ b.Fills m needed b' := by
  constructor
  · intro h
    exact ⟨h.names_eq, h.keeps, fun name he hneed => h.binds name he (.inr hneed),
      fun name he hneed => h.leaves name he fun ho => ho.elim (fun hb => hbound name hb he) hneed⟩
  · intro h
    exact ⟨h.names_eq, h.keeps,
      fun name he ho => h.binds name he (ho.resolve_left fun hb => hbound name hb he),
      fun name he hneed => h.leaves name he fun ho => hneed (.inr ho)⟩

theorem Over.fills_set_iff (h : b.Over v m) {name value : Text} (hname : name ∈ v.vars)
    (he : b.get name = "") (hroot : m.IsRootName value) (hvalue : value ≠ "") :
    (b.set name value).Fills m needed b' ↔
      b.Fills m (fun other => name = other ∨ needed other) b' ∧ b'.get name = value := by
  have hnames : (b.set name value).names = b.names := by
    refine h.ordered.names_set ?_ value
    rw [h.names_eq, (ordered_unbound v.vars).2]
    exact hname
  have hself : (b.set name value).get name = value := by rw [get_set, if_pos rfl]
  have hother : ∀ other, name ≠ other → (b.set name value).get other = b.get other :=
    fun other hne => by rw [get_set, if_neg hne]
  constructor
  · intro hf
    have hval : b'.get name = value := by rw [hf.keeps name (by rwa [hself]), hself]
    refine ⟨⟨hf.names_eq.trans hnames, (extends_set he value).trans hf.keeps, ?_, ?_⟩, hval⟩
    · intro other ho hneed
      by_cases hne : name = other
      · rwa [← hne, hval]
      · exact hf.binds other (by rwa [hother other hne]) (hneed.resolve_left hne)
    · intro other ho hneed
      have hne : name ≠ other := fun hne => hneed (.inl hne)
      exact hf.leaves other (by rwa [hother other hne]) fun hn => hneed (.inr hn)
  · rintro ⟨hf, hval⟩
    refine ⟨hf.names_eq.trans hnames.symm, ?_, ?_, ?_⟩
    · intro other ho
      by_cases hne : name = other
      · rw [← hne, hself, hval]
      · rw [hother other hne] at ho ⊢
        exact hf.keeps other ho
    · intro other ho hneed
      by_cases hne : name = other
      · rw [← hne, hself] at ho
        exact (hvalue ho).elim
      · rw [hother other hne] at ho
        exact hf.binds other ho (.inr hneed)
    · intro other ho hneed
      by_cases hne : name = other
      · rw [← hne, hself] at ho
        exact (hvalue ho).elim
      · rw [hother other hne] at ho
        exact hf.leaves other ho fun hn => hn.elim hne hneed

end Binding

namespace Model

variable {m : Model} {v : Vocabulary} {needed : Text → Prop}

theorem survives_over (hv : v.WellFormed) {s : Nat} (hs : s < v.size) :
    m.Survives v (fun b => b.Over v m) s :=
  fun hu _ ha _ _ hb => hb.set (Vocabulary.name_mem_vars (hv.root_lt hs) hu) ha

/-- Unifying a symbol with a root leaves just the bindings that give the symbol its class. -/
theorem exists_unify_iff (hm : m.vocabulary.WellFormed) (hn : m.vocabulary.Named)
    (hv : v.WellFormed) {s a : Nat} (hs : s < v.size) (ha : a < m.vocabulary.size)
    (har : m.root a = a) {b b' : Binding} (hb : b.Over v m) :
    (∃ c, m.unify v s a b = some c ∧ c.Fills m needed b') ↔
      b.Fills m (fun name => v.BoundThrough s name ∨ needed name) b' ∧
        b'.class? v m s = some a := by
  unfold unify
  dsimp only
  by_cases hu : (v.usage (v.root s)).isVariable = true
  · have hthrough : ∀ name, v.BoundThrough s name ↔ v.name (v.root s) = name :=
      fun name => and_iff_right hu
    have htext : ∀ c : Binding, c.class? v m s =
        m.vocabulary.rootOf? (c.get (v.name (v.root s))) := by
      intro c
      rw [Binding.class?, Binding.text, if_pos hu, Vocabulary.rootName]
    simp only [hthrough, htext]
    rw [if_pos hu]
    by_cases he : b.get (v.name (v.root s)) = ""
    · -- The symbol is unbound: it can only get the name of the root.
      rw [if_pos (Text.isEmpty_iff.mpr he)]
      simp only [Option.some.injEq, exists_eq_left']
      rw [hb.fills_set_iff (Vocabulary.name_mem_vars (hv.root_lt hs) hu) he ⟨a, ha, har, rfl⟩
        (hn.name_ne ha)]
      refine and_congr_right fun hf => ?_
      obtain ⟨i, hi, hir, hname⟩ := hf.binds _ he (.inl rfl)
      change m.vocabulary.root i = i at hir
      rw [← hname, hm.rootOf?_name hi, hir, Option.some.injEq]
      exact ⟨fun h => hm.eq_of_name_eq hi ha h, fun h => by rw [h]⟩
    · rw [if_neg (fun h => he (Text.isEmpty_iff.mp h))]
      rw [Binding.fills_bound_iff (by rintro name rfl; exact he)]
      simp only [beq_iff_eq]
      constructor
      · rintro ⟨c, hc, hf⟩
        split at hc
        · rename_i hroot
          cases hc
          exact ⟨hf, by rw [hf.keeps _ he, hroot]⟩
        · cases hc
      · rintro ⟨hf, hroot⟩
        rw [hf.keeps _ he] at hroot
        exact ⟨b, by rw [if_pos hroot], hf⟩
  · have hthrough : ∀ name, ¬ v.BoundThrough s name := fun name h => hu h.1
    have htext : ∀ c : Binding, c.class? v m s = m.vocabulary.rootOf? (v.name (v.root s)) := by
      intro c
      rw [Binding.class?, Binding.text, if_neg hu, Vocabulary.rootName]
    rw [if_neg hu, Binding.fills_bound_iff fun name h => (hthrough name h).elim, htext]
    simp only [beq_iff_eq]
    constructor
    · rintro ⟨c, hc, hf⟩
      split at hc
      · rename_i hroot
        cases hc
        exact ⟨hf, hroot⟩
      · cases hc
    · rintro ⟨hf, hroot⟩
      exact ⟨b, by rw [if_pos hroot], hf⟩

theorem occurs_cons {s : Nat} {ss : List Nat} {name : Text} :
    v.Occurs (s :: ss) name ↔ v.BoundThrough s name ∨ v.Occurs ss name := by
  simp [Vocabulary.Occurs]

theorem exists_unifyAll_iff (hm : m.vocabulary.WellFormed) (hn : m.vocabulary.Named)
    (hv : v.WellFormed) (ss as : List Nat) (hlen : ss.length = as.length)
    (hss : ∀ s ∈ ss, s < v.size) (has : ∀ a ∈ as, a < m.vocabulary.size ∧ m.root a = a)
    {b b' : Binding} (hb : b.Over v m) :
    (∃ c, m.unifyAll v ss as b = some c ∧ c.Fills m needed b') ↔
      b.Fills m (fun name => v.Occurs ss name ∨ needed name) b' ∧
        ss.map (b'.class? v m) = as.map some := by
  induction ss generalizing as b with
  | nil =>
    obtain rfl : as = [] := List.length_eq_zero_iff.mp hlen.symm
    have hnone : ∀ name, ¬ v.Occurs [] name := fun name h => by simp [Vocabulary.Occurs] at h
    rw [Binding.fills_bound_iff fun name h => (hnone name h).elim]
    simp [unifyAll]
  | cons s ss ih =>
    cases as with
    | nil => simp at hlen
    | cons a as =>
      obtain ⟨ha, har⟩ := has a List.mem_cons_self
      have hrest : ∀ c, m.unify v s a b = some c →
          ((∃ d, m.unifyAll v ss as c = some d ∧ d.Fills m needed b') ↔
            c.Fills m (fun name => v.Occurs ss name ∨ needed name) b' ∧
              ss.map (b'.class? v m) = as.map some) := by
        intro c hc
        refine ih as (by simpa using hlen) (fun x hx => hss x (List.mem_cons_of_mem _ hx))
          (fun x hx => has x (List.mem_cons_of_mem _ hx)) ?_
        exact unify_keeps (survives_over hv (hss s List.mem_cons_self)) ha har hb hc
      have hsplit : (∃ d, m.unifyAll v (s :: ss) (a :: as) b = some d ∧ d.Fills m needed b') ↔
          (∃ c, m.unify v s a b = some c ∧
            c.Fills m (fun name => v.Occurs ss name ∨ needed name) b') ∧
              ss.map (b'.class? v m) = as.map some := by
        constructor
        · rintro ⟨d, hd, hf⟩
          rw [unifyAll, Option.bind_eq_some_iff] at hd
          obtain ⟨c, hc, hd⟩ := hd
          obtain ⟨hfills, hclasses⟩ := (hrest c hc).mp ⟨d, hd, hf⟩
          exact ⟨⟨c, hc, hfills⟩, hclasses⟩
        · rintro ⟨⟨c, hc, hfills⟩, hclasses⟩
          obtain ⟨d, hd, hf⟩ := (hrest c hc).mpr ⟨hfills, hclasses⟩
          exact ⟨d, by rw [unifyAll, hc]; exact hd, hf⟩
      rw [hsplit, exists_unify_iff hm hn hv (hss s List.mem_cons_self) ha har hb, List.map_cons,
        List.map_cons, List.cons.injEq, and_assoc]
      refine and_congr_left fun _ =>
        ⟨fun h => h.congr fun name => ?_, fun h => h.congr fun name => ?_⟩
      · rw [occurs_cons, or_assoc]
      · rw [occurs_cons, or_assoc]

theorem mem_orders_iff {f g : Fact} : g ∈ m.orders f ↔ g = f ∨ f.app.args.length = 2 ∧
    isCommutative (m.vocabulary.name f.app.op) = true ∧
      g = ⟨⟨f.app.op, f.app.args.reverse⟩, f.result⟩ := by
  unfold orders
  split
  · rename_i x y hargs
    split
    · rename_i hcomm
      simp [hargs, hcomm]
    · rename_i hcomm
      simp [hcomm]
  · rename_i hargs
    have hlen : f.app.args.length ≠ 2 := by
      intro hlen
      obtain ⟨x, y, hxy⟩ := List.length_eq_two.mp hlen
      exact hargs x y hxy
    simp [hlen]

theorem map_symbols_eq_iff {h : Nat → Option Nat} {p g : Fact} :
    (p.app.places ++ [p.result]).map h = (g.app.places ++ [g.result]).map some ↔
      h p.app.op = some g.app.op ∧ p.app.args.map h = g.app.args.map some ∧
        h p.result = some g.result := by
  simp only [Application.places, List.cons_append, List.map_cons, List.map_append, List.map_nil,
    List.cons.injEq]
  refine and_congr_right fun _ => ⟨fun he => ?_, fun he => by rw [he.1, he.2]⟩
  obtain ⟨hargs, hresult⟩ := List.append_inj' he rfl
  exact ⟨hargs, (List.cons.inj hresult).1⟩

theorem holds_iff {b : Binding} {p : Fact} : b.Holds v m p ↔ ∃ g ∈ m.eligible v p,
    (p.app.places ++ [p.result]).map (b.class? v m) = (g.app.places ++ [g.result]).map some := by
  constructor
  · rintro ⟨f, hf, hop, hresult, hargs⟩
    have hlen : f.app.args.length = p.app.args.length := by
      rcases hargs with hargs | ⟨-, -, hargs⟩
      · simpa using (congrArg List.length hargs).symm
      · simpa using (congrArg List.length hargs).symm
    have hmem : ∀ g ∈ m.orders f, g ∈ m.eligible v p := by
      intro g hg
      refine List.mem_flatMap.mpr ⟨f, List.mem_filter.mpr ⟨hf, ?_⟩, hg⟩
      rw [hlen, beq_self_eq_true, Bool.true_and]
      split
      · rfl
      · rename_i hu
        rw [Binding.class?, Binding.text, if_neg hu, Vocabulary.rootName] at hop
        rw [hop]
        exact beq_self_eq_true _
    rcases hargs with hargs | ⟨htwo, hcomm, hargs⟩
    · exact ⟨f, hmem f (mem_orders_iff.mpr (.inl rfl)),
        map_symbols_eq_iff.mpr ⟨hop, hargs, hresult⟩⟩
    · exact ⟨_, hmem _ (mem_orders_iff.mpr (.inr ⟨htwo, hcomm, rfl⟩)),
        map_symbols_eq_iff.mpr ⟨hop, hargs, hresult⟩⟩
  · rintro ⟨g, hg, hbecomes⟩
    obtain ⟨f, hf, -, hord⟩ := mem_eligible hg
    obtain ⟨hop, hargs, hresult⟩ := map_symbols_eq_iff.mp hbecomes
    rcases mem_orders_iff.mp hord with rfl | ⟨htwo, hcomm, rfl⟩
    · exact ⟨g, hf, hop, hresult, .inl hargs⟩
    · exact ⟨f, hf, hop, hresult, .inr ⟨htwo, hcomm, hargs⟩⟩

section Joining

variable (hm : m.Closed) (hn : m.vocabulary.Named)
  (hcomma : m.vocabulary.All fun e => e.name.CommaFree) (hv : v.WellFormed)

include hm hcomma hv

/-- No binding is dropped because another has its key. -/
theorem mem_join_iff {p : Fact} (hp : ∀ s ∈ p.app.places ++ [p.result], s < v.size)
    {bs : List Binding} (hbs : ∀ b ∈ bs, b.Over v m) {c : Binding} :
    c ∈ m.join v bs p ↔ ∃ b ∈ bs, ∃ g ∈ m.eligible v p, m.unifyFact v p g b = some c := by
  have hsurvives : ∀ s ∈ p.app.places ++ [p.result], m.Survives v (fun b => b.Over v m) s :=
    fun s hs => survives_over hv (hp s hs)
  constructor
  · intro hc
    obtain ⟨b, hb, hfound⟩ := List.mem_flatMap.mp (mem_of_mem_firstOfKey hc)
    exact ⟨b, hb, List.mem_filterMap.mp hfound⟩
  · rintro ⟨b, hb, hfound⟩
    have hmem : c ∈ bs.flatMap fun b => (m.eligible v p).filterMap fun f => m.unifyFact v p f b :=
      List.mem_flatMap.mpr ⟨b, hb, List.mem_filterMap.mpr hfound⟩
    obtain ⟨d, hd, hkey⟩ : ∃ d ∈ m.join v bs p, d.key = c.key := (firstOfKey_spec _).2 c hmem
    have hsame : d = c := (keeps_of_mem_filterMap hm hsurvives hbs hmem).eq_of_key_eq
      (keeps_of_mem_join hm hsurvives hbs hd) hcomma hkey
    exact hsame ▸ hd

include hn

/-- Joining a fact binds what occurs in it so that it holds. -/
theorem exists_mem_join_iff {p : Fact} (hp : ∀ s ∈ p.app.places ++ [p.result], s < v.size)
    {bs : List Binding} (hbs : ∀ b ∈ bs, b.Over v m) {b' : Binding} :
    (∃ c ∈ m.join v bs p, c.Fills m needed b') ↔ (∃ b ∈ bs,
      b.Fills m (fun name => v.Occurs (p.app.places ++ [p.result]) name ∨ needed name) b') ∧
        b'.Holds v m p := by
  have hunify : ∀ b ∈ bs, ∀ g ∈ m.eligible v p,
      ((∃ c, m.unifyFact v p g b = some c ∧ c.Fills m needed b') ↔
        b.Fills m (fun name => v.Occurs (p.app.places ++ [p.result]) name ∨ needed name) b' ∧
          (p.app.places ++ [p.result]).map (b'.class? v m) =
            (g.app.places ++ [g.result]).map some) := by
    intro b hb g hg
    obtain ⟨f, hf, hlen, hord⟩ := mem_eligible hg
    obtain ⟨-, -, hperm⟩ := orders_frame hord
    refine exists_unifyAll_iff hm.filed.vocabulary hn hv _ _ ?_ hp (hm.symbols_orders hf hord)
      (hbs b hb)
    simp [Application.places, hperm.length_eq, hlen]
  constructor
  · rintro ⟨c, hc, hf⟩
    obtain ⟨b, hb, g, hg, hc⟩ := (mem_join_iff hm hcomma hv hp hbs).mp hc
    obtain ⟨hfills, hbecomes⟩ := (hunify b hb g hg).mp ⟨c, hc, hf⟩
    exact ⟨⟨b, hb, hfills⟩, holds_iff.mpr ⟨g, hg, hbecomes⟩⟩
  · rintro ⟨⟨b, hb, hfills⟩, hholds⟩
    obtain ⟨g, hg, hbecomes⟩ := holds_iff.mp hholds
    obtain ⟨c, hc, hf⟩ := (hunify b hb g hg).mpr ⟨hfills, hbecomes⟩
    exact ⟨c, (mem_join_iff hm hcomma hv hp hbs).mpr ⟨b, hb, g, hg, hc⟩, hf⟩

theorem exists_mem_foldl_join_iff (ps : List Fact) (hps : ∀ s ∈ Fact.symbolsOf ps, s < v.size)
    {bs : List Binding} (hbs : ∀ b ∈ bs, b.Over v m) {b' : Binding} :
    (∃ c ∈ ps.foldl (m.join v) bs, c.Fills m needed b') ↔ (∃ b ∈ bs,
      b.Fills m (fun name => v.Occurs (Fact.symbolsOf ps) name ∨ needed name) b') ∧
        ∀ p ∈ ps, b'.Holds v m p := by
  induction ps generalizing bs with
  | nil =>
    have hnone : ∀ name, ¬ v.Occurs (Fact.symbolsOf []) name :=
      fun name h => by simp [Vocabulary.Occurs, Fact.symbolsOf] at h
    simp only [Binding.fills_bound_iff fun name h => (hnone name h).elim]
    simp
  | cons p rest ih =>
    have hp : ∀ s ∈ p.app.places ++ [p.result], s < v.size :=
      fun s hs => hps s (List.mem_append_left _ hs)
    have hover : ∀ c ∈ m.join v bs p, c.Over v m := fun c hc =>
      keeps_of_mem_join hm (fun s hs => survives_over hv (hp s hs)) hbs hc
    rw [List.foldl_cons, ih (fun s hs => hps s (List.mem_append_right _ hs)) hover,
      exists_mem_join_iff hm hn hcomma hv hp hbs, List.forall_mem_cons, and_assoc]
    refine and_congr_left fun _ => exists_congr fun b => and_congr_right fun _ => ?_
    have hsplit : ∀ name, (v.Occurs (p.app.places ++ [p.result]) name ∨
        v.Occurs (Fact.symbolsOf rest) name ∨ needed name) ↔
        v.Occurs (Fact.symbolsOf (p :: rest)) name ∨ needed name := by
      intro name
      rw [← or_assoc]
      refine or_congr_left ?_
      simp only [Vocabulary.Occurs, Fact.symbolsOf, List.flatMap_cons, List.mem_append,
        or_and_right, exists_or]
    exact ⟨fun h => h.congr hsplit, fun h => h.congr fun name => (hsplit name).symm⟩

end Joining

theorem mem_foldl_join_iff (hm : m.Closed) (hn : m.vocabulary.Named)
    (hcomma : m.vocabulary.All fun e => e.name.CommaFree) (hv : v.WellFormed) {ps : List Fact}
    (hps : ∀ s ∈ Fact.symbolsOf ps, s < v.size) {bs : List Binding} (hbs : ∀ b ∈ bs, b.Over v m)
    {b' : Binding} : b' ∈ ps.foldl (m.join v) bs ↔
      ∃ b ∈ bs, b.Fills m (v.Occurs (Fact.symbolsOf ps)) b' ∧ ∀ p ∈ ps, b'.Holds v m p := by
  have hover : ∀ c ∈ ps.foldl (m.join v) bs, c.Over v m := by
    intro c hc
    refine keeps_of_mem_foldl_join hm ps ?_ hbs hc
    intro p hp s hs
    exact survives_over hv (hps s (List.mem_flatMap.mpr ⟨p, hp, hs⟩))
  -- A binding that is found needs nothing more.
  have hself : b' ∈ ps.foldl (m.join v) bs ↔
      ∃ c ∈ ps.foldl (m.join v) bs, c.Fills m (fun _ => False) b' := by
    constructor
    · exact fun hb => ⟨b', hb, (hover b' hb).fills_none_iff.mpr rfl⟩
    · rintro ⟨c, hc, hf⟩
      rw [(hover c hc).fills_none_iff.mp hf]
      exact hc
  rw [hself, exists_mem_foldl_join_iff hm hn hcomma hv ps hps hbs]
  simp only [or_false, ← and_assoc, exists_and_right]

theorem nodup_foldl_join {ps : List Fact} (hne : ps ≠ []) (bs : List Binding) :
    (ps.foldl (m.join v) bs).Nodup := by
  obtain ⟨p, rest, rfl⟩ := List.exists_cons_of_ne_nil hne
  have hkeys : (rest.foldl (m.join v) (m.join v bs p)).Pairwise fun b b' => b.key ≠ b'.key :=
    pairwise_foldl_join rest (firstOfKey_spec _).1
  exact hkeys.imp fun hk he => hk (congrArg Binding.key he)

/-- What joining facts of a pattern one after another gives: without repetition, the bindings that
keep the values of one of the bindings that were there, bind the other variables that occur in the
facts to roots and nothing more, and make every fact hold. The order of the facts does not
matter. -/
theorem joins_exact (inputs : List Input) {v : Vocabulary}
    (hn : (ofInputs inputs).vocabulary.Named)
    (hcomma : (ofInputs inputs).vocabulary.All fun e => e.name.CommaFree) (hv : v.WellFormed)
    {ps : List Fact} (hne : ps ≠ []) (hps : ∀ s ∈ Fact.symbolsOf ps, s < v.size)
    {bs : List Binding} (hbs : ∀ b ∈ bs, b.Over v (ofInputs inputs)) :
    (ps.foldl ((ofInputs inputs).join v) bs).Nodup ∧
    (∀ b', b' ∈ ps.foldl ((ofInputs inputs).join v) bs ↔
      ∃ b ∈ bs, b.Fills (ofInputs inputs) (v.Occurs (Fact.symbolsOf ps)) b' ∧
        ∀ p ∈ ps, b'.Holds v (ofInputs inputs) p) ∧
    ∀ qs : List Fact, qs.Perm ps → (qs.foldl ((ofInputs inputs).join v) bs).Perm
      (ps.foldl ((ofInputs inputs).join v) bs) := by
  have hm := closed_ofInputs inputs
  have hnodup : (ps.foldl ((ofInputs inputs).join v) bs).Nodup := nodup_foldl_join hne bs
  refine ⟨hnodup, fun b' => mem_foldl_join_iff hm hn hcomma hv hps hbs, ?_⟩
  intro qs hqs
  have hsymbols : ∀ s, s ∈ Fact.symbolsOf qs ↔ s ∈ Fact.symbolsOf ps :=
    fun s => (hqs.flatMap_right _).mem_iff
  have hoccurs : ∀ name, v.Occurs (Fact.symbolsOf qs) name ↔ v.Occurs (Fact.symbolsOf ps) name :=
    fun name => by simp only [Vocabulary.Occurs, hsymbols]
  have hqne : qs ≠ [] := fun he => hne (List.nil_perm.mp (he ▸ hqs))
  refine (List.perm_ext_iff_of_nodup (nodup_foldl_join hqne bs) hnodup).mpr ?_
  intro b'
  rw [mem_foldl_join_iff hm hn hcomma hv (fun s hs => hps s ((hsymbols s).mp hs)) hbs,
    mem_foldl_join_iff hm hn hcomma hv hps hbs]
  refine exists_congr fun b => and_congr_right fun _ => and_congr ?_ ?_
  · exact ⟨fun h => h.congr hoccurs, fun h => h.congr fun name => (hoccurs name).symm⟩
  · exact ⟨fun h p hp => h p (hqs.mem_iff.mpr hp), fun h p hp => h p (hqs.mem_iff.mp hp)⟩

/-- A function of a conjunction and the pattern that matches it, with one operand given. -/
theorem joins_conjunction :
    let m := ofInputs [.represent (.call "f" .boolean
      [.conj (.symbol ⟨"a", .boolean, .free⟩) (.symbol ⟨"b", .boolean, .free⟩)])]
    let n := ofInputs [.represent (.call "f" .boolean
      [.conj (.universal "x" .boolean) (.universal "y" .boolean)])]
    let b := (Binding.unbound n.vocabulary.vars).set "y" "a"
    m.vocabulary.Named ∧ (m.vocabulary.All fun e => e.name.CommaFree) ∧ n.vocabulary.WellFormed ∧
    n.facts ≠ [] ∧ (∀ s ∈ Fact.symbolsOf n.facts, s < n.vocabulary.size) ∧
    b.Over n.vocabulary m ∧
    (∃ b' ∈ n.facts.foldl (m.join n.vocabulary) [b], b'.get "x" = "b" ∧ b'.get "y" = "a") ∧
    (n.facts.foldl (m.join n.vocabulary) [b]).Nodup ∧
    (∀ b', b' ∈ n.facts.foldl (m.join n.vocabulary) [b] ↔
      ∃ b₀ ∈ [b], b₀.Fills m (n.vocabulary.Occurs (Fact.symbolsOf n.facts)) b' ∧
        ∀ p ∈ n.facts, b'.Holds n.vocabulary m p) ∧
    ∀ qs : List Fact, qs.Perm n.facts → (qs.foldl (m.join n.vocabulary) [b]).Perm
      (n.facts.foldl (m.join n.vocabulary) [b]) := by
  intro m n b
  have hnamed : m.vocabulary.Named := by
    rw [Vocabulary.Named, Vocabulary.All]
    decide +kernel
  have hcomma : m.vocabulary.All fun e => e.name.CommaFree := by
    rw [Vocabulary.All]
    decide +kernel
  have hv : n.vocabulary.WellFormed := (closed_ofInputs _).filed.vocabulary
  have hne : n.facts ≠ [] := by decide +kernel
  have hlt : ∀ s ∈ Fact.symbolsOf n.facts, s < n.vocabulary.size := by decide +kernel
  have hover : b.Over n.vocabulary m := by
    have hvar : ("y" : Text) ∈ n.vocabulary.vars := by decide +kernel
    have hlt : 4 < m.vocabulary.size := by decide +kernel
    have hname : m.vocabulary.name 4 = "a" := by decide +kernel
    have hset := (Binding.over_unbound n.vocabulary m).set hvar hlt
    rwa [hname] at hset
  have hfound : ∃ b' ∈ n.facts.foldl (m.join n.vocabulary) [b],
      b'.get "x" = "b" ∧ b'.get "y" = "a" := by decide +kernel
  exact ⟨hnamed, hcomma, hv, hne, hlt, hover, hfound,
    joins_exact _ hnamed hcomma hv hne hlt (List.forall_mem_singleton.mpr hover)⟩

/-- A variable that is bound to a symbol without a name is taken to be unbound. -/
theorem joins_inexact :
    let m := ofInputs [.represent (.call "f" .boolean
      [.symbol ⟨"", .boolean, .free⟩, .symbol ⟨"a", .boolean, .free⟩])]
    let n := ofInputs [.represent (.call "f" .boolean
      [.universal "x" .boolean, .universal "x" .boolean])]
    (m.vocabulary.All fun e => e.name.CommaFree) ∧ n.vocabulary.WellFormed ∧ n.facts ≠ [] ∧
    (∀ s ∈ Fact.symbolsOf n.facts, s < n.vocabulary.size) ∧
    (Binding.unbound n.vocabulary.vars).Over n.vocabulary m ∧
    ∃ b ∈ n.facts.foldl (m.join n.vocabulary) [Binding.unbound n.vocabulary.vars],
      ∃ p ∈ n.facts, ¬ b.Holds n.vocabulary m p := by
  intro m n
  refine ⟨?_, (closed_ofInputs _).filed.vocabulary, ?_, ?_, Binding.over_unbound _ _, ?_⟩
  · rw [Vocabulary.All]
    decide +kernel
  · decide +kernel
  · decide +kernel
  · decide +kernel

end Model

end Discharge.Congruence
