import Discharge.Congruence.Matching
import Discharge.Proofs.Congruence.Names
import Discharge.Proofs.Congruence.Simplification

namespace Discharge.Congruence

universe u

variable {D : Type u} {I : Interpretation D}

namespace Binding

theorem lookup_insertEntry (name value other : Text) (l : List (Text × Text)) :
    (insertEntry name value l).lookup other =
      if name = other then some value else l.lookup other := by
  have hne : name ≠ other → (other == name) = false :=
    fun h => beq_eq_false_iff_ne.mpr (Ne.symm h)
  induction l with
  | nil =>
    by_cases h : name = other
    · simp [insertEntry, h]
    · simp [insertEntry, h, hne h, List.lookup_cons]
  | cons e rest ih =>
    obtain ⟨n, v⟩ := e
    unfold insertEntry
    split
    · rename_i hn
      cases eq_of_beq hn
      by_cases h : name = other
      · simp [h]
      · simp [h, List.lookup_cons, hne h]
    · rename_i hn
      split
      · by_cases h : name = other
        · simp [h]
        · simp [h, List.lookup_cons, hne h]
      · rw [List.lookup_cons, List.lookup_cons, ih]
        by_cases h : name = other
        · subst h
          have hnew : (name == n) = false :=
            beq_eq_false_iff_ne.mpr fun he => hn (beq_iff_eq.mpr he.symm)
          simp [hnew]
        · simp [h]

theorem get_set (b : Binding) (name value other : Text) :
    (b.set name value).get other = if name = other then value else b.get other := by
  rw [get, set, lookup_insertEntry]
  split <;> rfl

theorem unbound_eq (names : List Text) :
    unbound names = names.foldl (fun b n => b.set n "") ⟨[]⟩ := by
  rw [unbound, ofList, List.foldl_map]

theorem get_unbound (names : List Text) (name : Text) : (unbound names).get name = "" := by
  rw [unbound_eq]
  refine List.foldlRecOn (motive := fun b : Binding => b.get name = "") names _ rfl ?_
  intro b h n _
  rw [get_set, h, ite_self]

def Extends (b b' : Binding) : Prop := ∀ name, b.get name ≠ "" → b'.get name = b.get name

theorem Extends.refl (b : Binding) : b.Extends b := fun _ _ => rfl

theorem Extends.trans {a b c : Binding} (h : a.Extends b) (h' : b.Extends c) : a.Extends c := by
  intro name hn
  have hb := h name hn
  rw [h' name (by rw [hb]; exact hn), hb]

theorem extends_set {b : Binding} {name : Text} (h : b.get name = "") (value : Text) :
    b.Extends (b.set name value) := by
  intro other ho
  rw [get_set, if_neg]
  rintro rfl
  exact ho h

def Rooted (b : Binding) (v : Vocabulary) : Prop := ∀ name, b.get name ≠ "" →
  ∃ i < v.size, v.name i = name ∧ v.root i = i ∧ (v.usage i).isVariable = true

theorem Rooted.set {b : Binding} {v : Vocabulary} (h : b.Rooted v) {i : Nat} (hi : i < v.size)
    (hr : v.root i = i) (hu : (v.usage i).isVariable = true) (value : Text) :
    (b.set (v.name i) value).Rooted v := by
  intro name hn
  rw [get_set] at hn
  split at hn
  · rename_i he
    exact ⟨i, hi, he, hr, hu⟩
  · exact h name hn

def Binds (b : Binding) (v : Vocabulary) (s : Nat) : Prop :=
  (v.usage (v.root s)).isVariable = true → b.get (v.rootName s) ≠ ""

/-- The name of the model that a symbol of the pattern stands for. -/
def text (b : Binding) (v : Vocabulary) (s : Nat) : Text :=
  if (v.usage (v.root s)).isVariable then b.get (v.rootName s) else v.rootName s

def class? (b : Binding) (v : Vocabulary) (m : Model) (s : Nat) : Option Nat :=
  m.vocabulary.rootOf? (b.text v s)

/-- The value that a binding gives to the class of a symbol of the pattern. -/
def assigned (b : Binding) (v : Vocabulary) (I : Interpretation D) (s : Nat) : D :=
  I.value (if (v.usage (v.root s)).isVariable then b.get (v.rootName s) else v.rootName s)

theorem Extends.binds {b b' : Binding} (h : b.Extends b') {v : Vocabulary} {s : Nat}
    (hb : b.Binds v s) : b'.Binds v s := by
  intro hu
  rw [h _ (hb hu)]
  exact hb hu

theorem Extends.text_eq {b b' : Binding} (h : b.Extends b') {v : Vocabulary} {s : Nat}
    (hb : b.Binds v s) : b'.text v s = b.text v s := by
  unfold text
  split
  · rename_i hu
    rw [h _ (hb hu)]
  · rfl

theorem Extends.class?_eq {b b' : Binding} (h : b.Extends b') {v : Vocabulary} {m : Model} {s : Nat}
    (hb : b.Binds v s) : b'.class? v m s = b.class? v m s := by
  rw [class?, class?, h.text_eq hb]

/-- The class that a symbol stands for has the value that is assigned to it. -/
theorem assigned_eq_value {b : Binding} {v : Vocabulary} {m : Model} (hs : m.Satisfied I)
    (hm : m.Closed) {s a : Nat} (h : b.class? v m s = some a) :
    b.assigned v I s = m.vocabulary.value I a :=
  (hs.value_rootOf? hm h).2.symm

/-- Whether a fact of the pattern has become a fact of the model. -/
structure Solves (b : Binding) (v : Vocabulary) (m : Model) (p : Fact) : Prop where
  binds : ∀ s ∈ p.app.places ++ [p.result], b.Binds v s
  becomes : ∃ f ∈ m.facts, ∃ g ∈ m.orders f, (p.app.places ++ [p.result]).map (b.class? v m) =
    (g.app.places ++ [g.result]).map some

theorem Solves.extends {b b' : Binding} {v : Vocabulary} {m : Model} {p : Fact}
    (h : b.Solves v m p) (he : b.Extends b') : b'.Solves v m p := by
  refine ⟨fun s hs => he.binds (h.binds s hs), ?_⟩
  rw [List.map_congr_left fun s hs => he.class?_eq (h.binds s hs)]
  exact h.becomes

/-- Whether a fact of the pattern holds of the values that a binding gives. -/
structure Fulfills (b : Binding) (v : Vocabulary) (I : Interpretation D) (p : Fact) : Prop where
  binds : ∀ s ∈ p.app.places ++ [p.result], b.Binds v s
  holds : b.assigned v I p.result =
    I.apply (b.assigned v I p.app.op) (p.app.args.map (b.assigned v I))

theorem Fulfills.extends {b b' : Binding} {v : Vocabulary} {p : Fact} (h : b.Fulfills v I p)
    (he : b.Extends b') : b'.Fulfills v I p := by
  have hsame : ∀ s ∈ p.app.places ++ [p.result], b'.assigned v I s = b.assigned v I s :=
    fun s hs => congrArg I.value (he.text_eq (h.binds s hs))
  refine ⟨fun s hs => he.binds (h.binds s hs), ?_⟩
  have hargs : p.app.args.map (b'.assigned v I) = p.app.args.map (b.assigned v I) :=
    List.map_congr_left fun s hs => hsame s (by simp [Application.places, hs])
  rw [hsame _ (by simp), hsame p.app.op p.op_mem_symbols, hargs]
  exact h.holds

end Binding

section Distinguishing

variable {α : Type} {key : α → Text}

/-- The keys that were seen and the values that were kept, after one more value. -/
def keepFirst (key : α → Text) (p : Std.TreeMap Text Unit × Array α) (a : α) :
    Std.TreeMap Text Unit × Array α :=
  if p.1.contains (key a) then p else (p.1.insert (key a) (), p.2.push a)

theorem firstOfKey_eq (values : List α) :
    firstOfKey key values = (values.foldl (keepFirst key) (∅, #[])).2.toList := rfl

theorem mem_of_mem_firstOfKey {values : List α} {a : α} (h : a ∈ firstOfKey key values) :
    a ∈ values := by
  rw [firstOfKey_eq, Array.mem_toList_iff] at h
  refine List.foldlRecOn (motive := fun p => a ∈ p.2 → a ∈ values) values (keepFirst key) (by simp)
    ?_ h
  intro p ih b hb h
  rw [keepFirst] at h
  split at h
  · exact ih h
  · rcases Array.mem_push.mp h with h | rfl
    · exact ih h
    · exact hb

end Distinguishing

namespace Model

section Unifying

variable {m : Model} {v : Vocabulary}

theorem unify_spec (hm : m.vocabulary.WellFormed) (hnames : m.vocabulary.Named)
    (hv : v.WellFormed) {s a : Nat} (hsv : s < v.size) (ha : a < m.vocabulary.size)
    (hroot : m.root a = a) {b b' : Binding} (hb : b.Rooted v) (h : m.unify v s a b = some b') :
    b.Extends b' ∧ b'.Rooted v ∧ b'.Binds v s ∧ b'.class? v m s = some a := by
  have hrs := hv.root_lt hsv
  have hrr := hv.root_root s
  unfold unify at h
  dsimp only at h
  split at h
  · rename_i hu
    split at h
    · -- The class was unbound and gets the symbol.
      rename_i hempty
      cases h
      have hget : b.get (v.name (v.root s)) = "" := Text.isEmpty_iff.mp hempty
      refine ⟨Binding.extends_set hget _, hb.set hrs hrr hu _, ?_, ?_⟩
      · intro _
        rw [Vocabulary.rootName, Binding.get_set, if_pos rfl]
        exact hnames.name_ne ha
      · rw [Binding.class?, Binding.text, if_pos hu, Vocabulary.rootName, Binding.get_set,
          if_pos rfl, hm.rootOf?_name ha]
        exact congrArg some hroot
    · rename_i hbound
      split at h
      · rename_i hclass
        cases h
        refine ⟨.refl b, hb, ?_, ?_⟩
        · intro _ hget
          rw [Vocabulary.rootName] at hget
          rw [hget] at hbound
          exact hbound (by decide)
        · rw [Binding.class?, Binding.text, if_pos hu]
          exact beq_iff_eq.mp hclass
      · cases h
  · rename_i hu
    split at h
    · rename_i hclass
      cases h
      refine ⟨.refl b, hb, fun hvar => (hu hvar).elim, ?_⟩
      rw [Binding.class?, Binding.text, if_neg hu]
      exact beq_iff_eq.mp hclass
    · cases h

theorem unifyAll_spec (hm : m.vocabulary.WellFormed) (hnames : m.vocabulary.Named)
    (hv : v.WellFormed) (ss as : List Nat) (hlen : ss.length = as.length)
    (hss : ∀ s ∈ ss, s < v.size) (has : ∀ a ∈ as, a < m.vocabulary.size ∧ m.root a = a)
    {b b' : Binding} (hb : b.Rooted v) (h : m.unifyAll v ss as b = some b') :
    b.Extends b' ∧ b'.Rooted v ∧ (∀ s ∈ ss, b'.Binds v s) ∧
      ss.map (b'.class? v m) = as.map some := by
  induction ss generalizing as b with
  | nil =>
    cases as with
    | nil =>
      cases h
      exact ⟨.refl _, hb, by simp, rfl⟩
    | cons a rest => simp at hlen
  | cons s ss ih =>
    cases as with
    | nil => simp at hlen
    | cons a as =>
      rw [unifyAll, Option.bind_eq_some_iff] at h
      obtain ⟨c, hc, hrest⟩ := h
      obtain ⟨halt, har⟩ := has a List.mem_cons_self
      obtain ⟨hext, hrooted, hbinds, hclass⟩ := unify_spec hm hnames hv
        (hss s List.mem_cons_self) halt har hb hc
      obtain ⟨hext', hrooted', hbinds', hclasses⟩ := ih as (by simpa using hlen)
        (fun x hx => hss x (List.mem_cons_of_mem _ hx))
        (fun x hx => has x (List.mem_cons_of_mem _ hx)) hrooted hrest
      refine ⟨hext.trans hext', hrooted',
        List.forall_mem_cons.mpr ⟨hext'.binds hbinds, hbinds'⟩, ?_⟩
      rw [List.map_cons, List.map_cons, hclasses, hext'.class?_eq hbinds, hclass]

theorem value_of_orders (hI : I.Lawful) {f g : Fact} (hg : g ∈ m.orders f)
    (hf : m.vocabulary.value I f.result = f.app.value m.vocabulary I) :
    m.vocabulary.value I g.result = g.app.value m.vocabulary I := by
  unfold orders at hg
  split at hg
  · rename_i a b hargs
    split at hg
    · rename_i hcomm
      rcases List.mem_cons.mp hg with rfl | hg
      · exact hf
      · rw [List.mem_singleton.mp hg, hf, Application.value, Application.value, hargs]
        exact hI.exchange _ _ _ hcomm (List.Perm.swap _ _ _)
    · rw [List.mem_singleton.mp hg]
      exact hf
  · rw [List.mem_singleton.mp hg]
    exact hf

theorem orders_frame {f g : Fact} (hg : g ∈ m.orders f) :
    g.app.op = f.app.op ∧ g.result = f.result ∧ g.app.args.Perm f.app.args := by
  unfold orders at hg
  split at hg
  · rename_i a b hargs
    split at hg
    · rcases List.mem_cons.mp hg with rfl | hg
      · exact ⟨rfl, rfl, List.Perm.refl _⟩
      · rw [List.mem_singleton.mp hg, hargs]
        exact ⟨rfl, rfl, List.Perm.swap _ _ _⟩
    · rw [List.mem_singleton.mp hg]
      exact ⟨rfl, rfl, List.Perm.refl _⟩
  · rw [List.mem_singleton.mp hg]
    exact ⟨rfl, rfl, List.Perm.refl _⟩

theorem Closed.symbols_fact_lt (hm : m.Closed) {f : Fact} (hf : f ∈ m.facts) :
    ∀ s ∈ f.app.places ++ [f.result], s < m.vocabulary.size := by
  obtain ⟨i, r, hr, -, rfl⟩ := mem_facts.mp hf
  intro s hs
  simp only [Application.places, Application.canonical, List.mem_append, List.mem_cons,
    List.mem_map, List.not_mem_nil, or_false] at hs
  rcases hs with (rfl | ⟨x, hx, rfl⟩) | rfl
  · exact hm.filed.root_lt (hm.filed.op_lt hr)
  · exact hm.filed.root_lt (hm.filed.symbols_lt hr x (Record.arg_mem_symbols hx))
  · exact hm.filed.root_lt (hm.filed.result_lt hr)

theorem mem_eligible {p g : Fact} (h : g ∈ m.eligible v p) :
    ∃ f ∈ m.facts, f.app.args.length = p.app.args.length ∧ g ∈ m.orders f := by
  unfold eligible at h
  obtain ⟨f, hf, hg⟩ := List.mem_flatMap.mp h
  obtain ⟨hmem, hfits⟩ := List.mem_filter.mp hf
  simp only [Bool.and_eq_true, beq_iff_eq] at hfits
  exact ⟨f, hmem, hfits.1, hg⟩

theorem Closed.root_fact (hm : m.Closed) {f : Fact} (hf : f ∈ m.facts) :
    ∀ s ∈ f.app.places ++ [f.result], m.root s = s := by
  obtain ⟨i, r, -, -, rfl⟩ := mem_facts.mp hf
  have hr := hm.filed.vocabulary
  intro s hs
  simp only [Application.places, Application.canonical, List.mem_append, List.mem_cons,
    List.mem_map, List.not_mem_nil, or_false] at hs
  rcases hs with (rfl | ⟨x, -, rfl⟩) | rfl
  · exact hr.root_root _
  · exact hr.root_root _
  · exact hr.root_root _

theorem Closed.symbols_orders (hm : m.Closed) {f g : Fact} (hf : f ∈ m.facts)
    (hg : g ∈ m.orders f) :
    ∀ s ∈ g.app.places ++ [g.result], s < m.vocabulary.size ∧ m.root s = s := by
  obtain ⟨hop, hres, hperm⟩ := orders_frame hg
  intro s hs
  have hmem : s ∈ f.app.places ++ [f.result] := by
    simp only [Application.places, List.mem_append, List.mem_cons, List.not_mem_nil,
      or_false] at hs ⊢
    rw [hop, hres, hperm.mem_iff] at hs
    exact hs
  exact ⟨hm.symbols_fact_lt hf s hmem, hm.root_fact hf s hmem⟩

theorem solves_unifyFact (hm : m.Closed) (hnames : m.vocabulary.Named) (hv : v.WellFormed)
    {p g : Fact} (hp : ∀ s ∈ p.app.places ++ [p.result], s < v.size) (hg : g ∈ m.eligible v p)
    {b b' : Binding} (hb : b.Rooted v) (h : m.unifyFact v p g b = some b') :
    b.Extends b' ∧ b'.Rooted v ∧ b'.Solves v m p := by
  obtain ⟨f, hf, hlen, hord⟩ := mem_eligible hg
  obtain ⟨-, -, hperm⟩ := orders_frame hord
  have hlen' : (p.app.places ++ [p.result]).length = (g.app.places ++ [g.result]).length := by
    simp [Application.places, hperm.length_eq, hlen]
  obtain ⟨hext, hrooted, hbinds, hclasses⟩ := unifyAll_spec hm.filed.vocabulary hnames hv _ _ hlen'
    hp (hm.symbols_orders hf hord) hb h
  exact ⟨hext, hrooted, hbinds, f, hf, g, hord, hclasses⟩

/-- A fact of the pattern that has become a fact of the model holds. -/
theorem fulfills_of_solves (hs : m.Satisfied I) (hI : I.Lawful) (hm : m.Closed) {p : Fact}
    {b : Binding} (h : b.Solves v m p) : b.Fulfills v I p := by
  obtain ⟨f, hf, g, hord, hclasses⟩ := h.becomes
  have hfact := value_of_orders hI hord
    ((agrees_of_satisfied hs hm).value_fact hm hs.reads hf)
  have hvals : (p.app.places ++ [p.result]).map (b.assigned v I) =
      (g.app.places ++ [g.result]).map (m.vocabulary.value I) := by
    have hlen := congrArg List.length hclasses
    rw [List.length_map, List.length_map] at hlen
    refine List.ext_getElem (by simpa using hlen) ?_
    intro i hi hi'
    rw [List.length_map] at hi hi'
    have hclass := List.getElem_of_eq hclasses (i := i) (by simpa using hi)
    rw [List.getElem_map, List.getElem_map] at hclass ⊢
    exact Binding.assigned_eq_value hs hm hclass
  refine ⟨h.binds, ?_⟩
  simp only [Application.places, List.cons_append, List.map_cons, List.map_append, List.map_nil,
    List.cons.injEq] at hvals
  obtain ⟨hop, hrest⟩ := hvals
  obtain ⟨hargs, hresult⟩ := List.append_inj' hrest rfl
  rw [hop, hargs, (List.cons.inj hresult).1, hfact]
  rfl

theorem solves_of_mem_join (hm : m.Closed) (hnames : m.vocabulary.Named) (hv : v.WellFormed)
    {p : Fact} (hp : ∀ s ∈ p.app.places ++ [p.result], s < v.size) {bs : List Binding}
    (hbs : ∀ b ∈ bs, b.Rooted v) {b' : Binding} (h : b' ∈ m.join v bs p) :
    ∃ b ∈ bs, b.Extends b' ∧ b'.Rooted v ∧ b'.Solves v m p := by
  obtain ⟨b, hb, hfound⟩ := List.mem_flatMap.mp (mem_of_mem_firstOfKey h)
  obtain ⟨g, hg, hunify⟩ := List.mem_filterMap.mp hfound
  exact ⟨b, hb, solves_unifyFact hm hnames hv hp hg (hbs b hb) hunify⟩

theorem solves_of_mem_foldl_join (hm : m.Closed) (hnames : m.vocabulary.Named) (hv : v.WellFormed)
    (ps : List Fact) (hps : ∀ p ∈ ps, ∀ s ∈ p.app.places ++ [p.result], s < v.size)
    {bs : List Binding} (hbs : ∀ b ∈ bs, b.Rooted v) {b' : Binding}
    (h : b' ∈ ps.foldl (m.join v) bs) :
    ∃ b ∈ bs, b.Extends b' ∧ b'.Rooted v ∧ ∀ p ∈ ps, b'.Solves v m p := by
  induction ps generalizing bs with
  | nil => exact ⟨b', h, .refl b', hbs b' h, by simp⟩
  | cons p rest ih =>
    have hp := hps p List.mem_cons_self
    have hjoin := fun {c : Binding} => @solves_of_mem_join m v hm hnames hv p hp bs hbs c
    obtain ⟨c, hc, hext, hrooted, hrest⟩ := ih (fun q hq => hps q (List.mem_cons_of_mem _ hq))
      (fun c hc => by obtain ⟨-, -, -, hrooted, -⟩ := hjoin hc; exact hrooted) h
    obtain ⟨b, hb, hext', -, hsolves⟩ := hjoin hc
    exact ⟨b, hb, hext'.trans hext, hrooted,
      List.forall_mem_cons.mpr ⟨hsolves.extends hext, hrest⟩⟩

/-- Every binding that a join finds extends one that it started from and makes the fact hold. -/
theorem mem_join (hs : m.Satisfied I) (hI : I.Lawful) (hm : m.Closed)
    (hnames : m.vocabulary.Named) (hv : v.WellFormed) {p : Fact}
    (hp : ∀ s ∈ p.app.places ++ [p.result], s < v.size) {bs : List Binding}
    (hbs : ∀ b ∈ bs, b.Rooted v) {b' : Binding} (h : b' ∈ m.join v bs p) :
    ∃ b ∈ bs, b.Extends b' ∧ b'.Rooted v ∧ b'.Fulfills v I p := by
  obtain ⟨b, hb, hext, hrooted, hsolves⟩ := solves_of_mem_join hm hnames hv hp hbs h
  exact ⟨b, hb, hext, hrooted, fulfills_of_solves hs hI hm hsolves⟩

theorem mem_foldl_join (hs : m.Satisfied I) (hI : I.Lawful) (hm : m.Closed)
    (hnames : m.vocabulary.Named) (hv : v.WellFormed) (ps : List Fact)
    (hps : ∀ p ∈ ps, ∀ s ∈ p.app.places ++ [p.result], s < v.size) {bs : List Binding}
    (hbs : ∀ b ∈ bs, b.Rooted v) {b' : Binding} (h : b' ∈ ps.foldl (m.join v) bs) :
    ∃ b ∈ bs, b.Extends b' ∧ b'.Rooted v ∧ ∀ p ∈ ps, b'.Fulfills v I p := by
  obtain ⟨b, hb, hext, hrooted, hsolves⟩ := solves_of_mem_foldl_join hm hnames hv ps hps hbs h
  exact ⟨b, hb, hext, hrooted, fun p hp => fulfills_of_solves hs hI hm (hsolves p hp)⟩

end Unifying

end Model

end Discharge.Congruence
