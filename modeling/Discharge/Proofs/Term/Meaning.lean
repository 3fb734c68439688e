import Discharge.Proofs.Congruence.Interpretation
import Discharge.Proofs.Term.Plain

namespace Discharge

open Congruence

universe u

variable {D : Type u} {I J : Interpretation D}

namespace Congruence.Interpretation

/-- Whether a term is true whatever its quantified symbols stand for. -/
def Holds (I : Interpretation D) (t : Term) : Prop := ∀ σ, I.denote σ t = I.truth

def Decides (I : Interpretation D) (t : Term) : Prop :=
  ∀ σ, I.denote σ t = I.truth ∨ I.denote σ t = I.falsehood

theorem denote_call (σ : Text → D) (op : Text) (k : Kind) (args : List Term) :
    I.denote σ (.call op k args) = I.apply (I.value op) (args.map (I.denote σ)) := by
  simp [Term.call, denote, denoteAll_eq_map]

theorem denote_equal (σ : Text → D) (a b : Term) :
    I.denote σ (.equal a b) = I.apply (I.value "=") [I.denote σ a, I.denote σ b] :=
  denote_call σ "=" .boolean [a, b]

theorem denote_conj (σ : Text → D) (a b : Term) :
    I.denote σ (.conj a b) = I.apply (I.value "and") [I.denote σ a, I.denote σ b] :=
  denote_call σ "and" .boolean [a, b]

theorem denote_disj (σ : Text → D) (a b : Term) :
    I.denote σ (.disj a b) = I.apply (I.value "or") [I.denote σ a, I.denote σ b] :=
  denote_call σ "or" .boolean [a, b]

mutual

theorem denote_congr (t : Term) (ht : t.named = true) {σ τ : Text → D} (hap : J.apply = I.apply)
    (hfree : ∀ s ∈ t.symbols, s.quantifier ≠ .universal → J.value s.name = I.value s.name)
    (hvar : ∀ s ∈ t.symbols, s.quantifier = .universal → τ s.name = σ s.name) :
    J.denote τ t = I.denote σ t := by
  match t with
  | .symbol s =>
    simp only [denote]
    split
    · rename_i hs
      exact hvar s (by simp [Term.symbols]) hs
    · rename_i hs
      exact hfree s (by simp [Term.symbols]) hs
  | .apply fn args k =>
    simp only [Term.named, Bool.and_eq_true] at ht
    have hfn := denote_congr fn ht.1 hap
      (fun s hs => hfree s (by simp [Term.symbols_apply, hs]))
      (fun s hs => hvar s (by simp [Term.symbols_apply, hs]))
    have hargs := denoteAll_congr args ht.2 hap
      (fun s hs => hfree s (by rw [Term.symbols]; exact List.mem_append_right _ hs))
      (fun s hs => hvar s (by rw [Term.symbols]; exact List.mem_append_right _ hs))
    simp only [denote]
    rw [hap, hfn, hargs]
  | .lambda _ _ _ => simp [Term.named] at ht
  | .cases _ _ _ => simp [Term.named] at ht

theorem denoteAll_congr (ts : List Term) (hts : Term.namedAll ts = true) {σ τ : Text → D}
    (hap : J.apply = I.apply)
    (hfree : ∀ s ∈ Term.symbolsAll ts, s.quantifier ≠ .universal →
      J.value s.name = I.value s.name)
    (hvar : ∀ s ∈ Term.symbolsAll ts, s.quantifier = .universal → τ s.name = σ s.name) :
    J.denoteAll τ ts = I.denoteAll σ ts := by
  match ts with
  | [] => simp only [denoteAll]
  | t :: rest =>
    simp only [Term.namedAll, Bool.and_eq_true] at hts
    have hhead := denote_congr t hts.1 hap
      (fun s hs => hfree s (by rw [Term.symbolsAll]; exact List.mem_append_left _ hs))
      (fun s hs => hvar s (by rw [Term.symbolsAll]; exact List.mem_append_left _ hs))
    have htail := denoteAll_congr rest hts.2 hap
      (fun s hs => hfree s (by rw [Term.symbolsAll]; exact List.mem_append_right _ hs))
      (fun s hs => hvar s (by rw [Term.symbolsAll]; exact List.mem_append_right _ hs))
    simp only [denoteAll]
    rw [hhead, htail]

end

end Congruence.Interpretation

section Keeping

variable {α : Type} {p : List α → α → Bool} {l kept : List α} {a : α}

/-- Keeps a value, unless what has been kept speaks against it. -/
def keepUnless (p : List α → α → Bool) (kept : List α) (a : α) : List α :=
  if p kept a then kept else kept ++ [a]

theorem mem_of_mem_foldl (h : a ∈ l.foldl (keepUnless p) []) : a ∈ l := by
  refine List.foldlRecOn (motive := fun kept => a ∈ kept → a ∈ l) l _ (by simp) ?_ h
  intro kept ih b hb h
  unfold keepUnless at h
  split at h
  · exact ih h
  · rcases List.mem_append.mp h with h | h
    · exact ih h
    · rw [List.mem_singleton.mp h]
      exact hb

theorem subset_foldl : kept ⊆ l.foldl (keepUnless p) kept := by
  refine List.foldlRecOn (motive := fun out => kept ⊆ out) l _ (List.Subset.refl _) ?_
  intro out ih b _
  unfold keepUnless
  split
  · exact ih
  · exact List.subset_append_of_subset_left _ ih

theorem mem_foldl (kept : List α) (ha : a ∈ l) : a ∈ l.foldl (keepUnless p) kept ∨
    ∃ seen ⊆ l.foldl (keepUnless p) kept, p seen a = true := by
  induction l generalizing kept with
  | nil => simp at ha
  | cons b rest ih =>
    rw [List.foldl_cons]
    rcases List.mem_cons.mp ha with rfl | ha
    · by_cases hp : p kept a = true
      · have hsame : keepUnless p kept a = kept := if_pos hp
        rw [hsame]
        exact .inr ⟨kept, subset_foldl, hp⟩
      · have hmore : keepUnless p kept a = kept ++ [a] := if_neg hp
        rw [hmore]
        exact .inl (subset_foldl (by simp))
    · exact ih _ ha

theorem Text.mem_distinct {l : List Text} {t : Text} : t ∈ Text.distinct l ↔ t ∈ l := by
  refine ⟨mem_of_mem_foldl, fun h => ?_⟩
  rcases mem_foldl (p := fun seen t => seen.contains t) [] h with h | ⟨seen, hsub, hseen⟩
  · exact h
  · exact hsub (List.contains_iff_mem.mp hseen)

end Keeping

namespace Term

theorem firstOfName_subset (l : List Symbol) : ∀ s ∈ firstOfName l, s ∈ l :=
  fun _ hs => mem_of_mem_foldl hs

theorem exists_mem_firstOfName {l : List Symbol} {s : Symbol} (hs : s ∈ l) :
    ∃ t ∈ firstOfName l, t.name = s.name := by
  rcases mem_foldl (p := fun seen s => seen.any fun t => t.name == s.name) [] hs with
    h | ⟨seen, hsub, hany⟩
  · exact ⟨s, h, rfl⟩
  · obtain ⟨t, ht, hn⟩ := List.any_eq_true.mp hany
    exact ⟨t, hsub ht, eq_of_beq hn⟩

theorem mem_vars {t : Term} {s : Symbol} (h : s ∈ t.vars) :
    s ∈ t.symbols ∧ s.quantifier = .universal := by
  have hmem := firstOfName_subset _ s h
  simpa using List.mem_filter.mp hmem

theorem exists_mem_vars {t : Term} {s : Symbol} (h : s ∈ t.symbols)
    (hq : s.quantifier = .universal) : ∃ v ∈ t.vars, v.name = s.name :=
  exists_mem_firstOfName (List.mem_filter.mpr ⟨h, by simp [hq]⟩)

theorem denote_congr_vars {t : Term} (ht : t.named = true) {σ τ : Text → D}
    (h : ∀ w ∈ t.vars, τ w.name = σ w.name) : I.denote τ t = I.denote σ t := by
  refine Interpretation.denote_congr t ht rfl (fun _ _ _ => rfl) ?_
  intro s hs hu
  obtain ⟨w, hw, hn⟩ := exists_mem_vars hs hu
  rw [← hn]
  exact h w hw

/-- A substitution that puts a symbol for each variable of a term, and for nothing else in it. -/
structure Instantiates (θ : Substitution) (value : Text → Text) (t : Term) : Prop where
  variable_eq : ∀ s ∈ t.symbols, s.quantifier = .universal →
    ∃ k, θ.get? s.name = some (symbol ⟨value s.name, k, .free⟩)
  constant_eq : ∀ s ∈ t.symbols, s.quantifier ≠ .universal → θ.get? s.name = none
  application_eq : ∀ u ∈ t.applications, ∀ k, θ.get? (apply u.1 u.2 k).render = none

theorem Instantiates.mono {θ : Substitution} {value : Text → Text} {t t' : Term}
    (h : t.Instantiates θ value) (hsub : ∀ s ∈ t'.symbols, s ∈ t.symbols)
    (happ : t'.applications ⊆ t.applications) : t'.Instantiates θ value :=
  ⟨fun s hs => h.variable_eq s (hsub s hs), fun s hs => h.constant_eq s (hsub s hs),
    fun u hu => h.application_eq u (happ hu)⟩

theorem Substitutable.instantiates {t : Term} (h : t.Substitutable) (value : Text → Text) :
    t.Instantiates (t.vars.map fun v => (v.name, symbol ⟨value v.name, v.kind, .free⟩)) value := by
  have hget : ∀ form e, Substitution.get?
      (t.vars.map fun v => (v.name, symbol ⟨value v.name, v.kind, .free⟩)) form = some e →
      ∃ v ∈ t.vars, v.name = form ∧ e = symbol ⟨value v.name, v.kind, .free⟩ := by
    intro form e he
    obtain ⟨p, hp, rfl⟩ := Option.map_eq_some_iff.mp he
    obtain ⟨v, hv, rfl⟩ := List.mem_map.mp (List.mem_of_find?_eq_some hp)
    have hform := List.find?_some hp
    exact ⟨v, hv, by simpa using hform, rfl⟩
  have hnone : ∀ form, (∀ v ∈ t.vars, v.name ≠ form) → Substitution.get?
      (t.vars.map fun v => (v.name, symbol ⟨value v.name, v.kind, .free⟩)) form = none := by
    intro form hne
    cases he : Substitution.get?
      (t.vars.map fun v => (v.name, symbol ⟨value v.name, v.kind, .free⟩)) form with
    | none => rfl
    | some e =>
      obtain ⟨v, hv, hn, -⟩ := hget form e he
      exact (hne v hv hn).elim
  refine ⟨?_, ?_, ?_⟩
  · intro s hs hq
    obtain ⟨v, hv, hn⟩ := exists_mem_vars hs hq
    cases he : Substitution.get?
      (t.vars.map fun v => (v.name, symbol ⟨value v.name, v.kind, .free⟩)) s.name with
    | none =>
      rw [Substitution.get?, Option.map_eq_none_iff, List.find?_eq_none] at he
      exact (he (v.name, _) (List.mem_map_of_mem hv) (by simp [hn])).elim
    | some e =>
      obtain ⟨w, -, hw, rfl⟩ := hget s.name e he
      exact ⟨w.kind, by rw [hw]⟩
  · intro s hs hq
    refine hnone s.name ?_
    intro v hv hn
    obtain ⟨hmem, huniv⟩ := mem_vars hv
    exact hq (h.uniform v hmem s hs hn huniv)
  · intro u hu k
    refine hnone _ ?_
    intro v hv hn
    obtain ⟨hmem, huniv⟩ := mem_vars hv
    -- The kind of an application is not written.
    exact h.apart v hmem huniv u hu (by rw [hn, render, render, print, print])

section Substituting

variable {θ : Substitution} {value : Text → Text}

theorem Instantiates.substitute_apply {fn : Term} {args : List Term} {k : Kind}
    (h : (apply fn args k).Instantiates θ value) :
    (apply fn args k).substitute θ = apply (fn.substitute θ) (substituteAll θ args) k := by
  rw [substitute, h.application_eq (fn, args) (by simp [applications])]
  rfl

theorem Instantiates.fn {fn : Term} {args : List Term} {k : Kind}
    (h : (apply fn args k).Instantiates θ value) : fn.Instantiates θ value :=
  h.mono (fun s hs => by simp [symbols_apply, hs]) fun u hu => by simp [applications, hu]

theorem Instantiates.arg {fn : Term} {args : List Term} {k : Kind}
    (h : (apply fn args k).Instantiates θ value) {a : Term} (ha : a ∈ args) :
    a.Instantiates θ value := by
  refine h.mono (fun s hs => ?_) fun u hu => ?_
  · rw [symbols_apply]
    exact List.mem_append_right _ (List.mem_flatMap.mpr ⟨a, ha, hs⟩)
  · rw [applications, applicationsAll_eq_flatMap]
    exact List.mem_cons_of_mem _ (List.mem_append_right _ (List.mem_flatMap.mpr ⟨a, ha, hu⟩))

mutual

/-- An instance has the value of the term under the values of what was put in. -/
theorem read_substitute (t : Term) (ht : t.applicative = true) (h : t.Instantiates θ value) :
    I.read (t.substitute θ) = I.denote (fun name => I.value (value name)) t := by
  match t with
  | symbol s =>
    rw [substitute, Interpretation.denote]
    split
    · rename_i hq
      obtain ⟨k, hk⟩ := h.variable_eq s (by simp [symbols]) hq
      rw [hk]
      exact Interpretation.read_symbol _
    · rename_i hq
      rw [h.constant_eq s (by simp [symbols]) hq]
      exact Interpretation.read_symbol _
  | apply fn args k =>
    simp only [applicative, Bool.and_eq_true] at ht
    rw [h.substitute_apply, Interpretation.read_apply, Interpretation.denote,
      read_substitute fn ht.1 h.fn, read_substituteAll args ht.2 fun a ha => h.arg ha]
  | lambda _ _ _ => simp [applicative] at ht
  | cases _ _ _ => simp [applicative] at ht

theorem read_substituteAll (ts : List Term) (hts : applicativeAll ts = true)
    (h : ∀ t ∈ ts, t.Instantiates θ value) :
    (substituteAll θ ts).map I.read = I.denoteAll (fun name => I.value (value name)) ts := by
  match ts with
  | [] => rfl
  | t :: rest =>
    simp only [applicativeAll, Bool.and_eq_true] at hts
    rw [substituteAll, List.map_cons, Interpretation.denoteAll,
      read_substitute t hts.1 (h t List.mem_cons_self),
      read_substituteAll rest hts.2 fun s hs => h s (List.mem_cons_of_mem _ hs)]

end

mutual

theorem quantifier_substitute (t : Term) (ht : t.applicative = true) (h : t.Instantiates θ value)
    {s : Symbol} (hs : s ∈ (t.substitute θ).symbols) :
    s.quantifier = .free ∨ s.quantifier = .existential ∧ s ∈ t.symbols := by
  match t with
  | symbol s' =>
    rw [substitute] at hs
    by_cases hq : s'.quantifier = .universal
    · obtain ⟨k, hk⟩ := h.variable_eq s' (by simp [symbols]) hq
      rw [hk, Option.getD_some, symbols, List.mem_singleton] at hs
      exact .inl (by rw [hs])
    · rw [h.constant_eq s' (by simp [symbols]) hq, Option.getD_none] at hs
      obtain rfl := List.mem_singleton.mp hs
      cases he : s.quantifier with
      | free => exact .inl rfl
      | universal => exact (hq he).elim
      | existential => exact .inr ⟨rfl, hs⟩
  | apply fn args k =>
    simp only [applicative, Bool.and_eq_true] at ht
    rw [h.substitute_apply, symbols] at hs
    rw [symbols_apply]
    rcases List.mem_append.mp hs with hs | hs
    · rcases quantifier_substitute fn ht.1 h.fn hs with hq | ⟨hq, hmem⟩
      · exact .inl hq
      · exact .inr ⟨hq, List.mem_append_left _ hmem⟩
    · have hargs := quantifier_substituteAll args ht.2 (fun a ha => h.arg ha) hs
      rcases hargs with hq | ⟨hq, a, ha, hmem⟩
      · exact .inl hq
      · exact .inr ⟨hq, List.mem_append_right _ (List.mem_flatMap.mpr ⟨a, ha, hmem⟩)⟩
  | lambda _ _ _ => simp [applicative] at ht
  | cases _ _ _ => simp [applicative] at ht

theorem quantifier_substituteAll (ts : List Term) (hts : applicativeAll ts = true)
    (h : ∀ t ∈ ts, t.Instantiates θ value) {s : Symbol}
    (hs : s ∈ symbolsAll (substituteAll θ ts)) :
    s.quantifier = .free ∨ s.quantifier = .existential ∧ ∃ t ∈ ts, s ∈ t.symbols := by
  match ts with
  | [] => simp [substituteAll, symbolsAll] at hs
  | t :: rest =>
    simp only [applicativeAll, Bool.and_eq_true] at hts
    rw [substituteAll, symbolsAll] at hs
    rcases List.mem_append.mp hs with hs | hs
    · rcases quantifier_substitute t hts.1 (h t List.mem_cons_self) hs with hq | ⟨hq, hmem⟩
      · exact .inl hq
      · exact .inr ⟨hq, t, List.mem_cons_self, hmem⟩
    · have hrest := fun a ha => h a (List.mem_cons_of_mem _ ha)
      rcases quantifier_substituteAll rest hts.2 hrest hs with hq | ⟨hq, a, ha, hmem⟩
      · exact .inl hq
      · exact .inr ⟨hq, a, List.mem_cons_of_mem _ ha, hmem⟩

end

mutual

theorem named_substitute (t : Term) (ht : t.named = true) (h : t.Instantiates θ value)
    (hval : ∀ s ∈ t.symbols, s.quantifier = .universal → value s.name ≠ "") :
    (t.substitute θ).named = true := by
  match t with
  | symbol s =>
    rw [substitute]
    by_cases hq : s.quantifier = .universal
    · obtain ⟨k, hk⟩ := h.variable_eq s (by simp [symbols]) hq
      have hne := hval s (by simp [symbols]) hq
      rw [hk, Option.getD_some]
      exact named_symbol hne
    · rw [h.constant_eq s (by simp [symbols]) hq]
      exact ht
  | apply fn args k =>
    simp only [named, Bool.and_eq_true] at ht
    have hfn := named_substitute fn ht.1 h.fn fun s hs => hval s (by simp [symbols_apply, hs])
    have hargs := namedAll_substitute args ht.2 (fun a ha => h.arg ha) fun a ha s hs =>
      hval s (by
        rw [symbols_apply]
        exact List.mem_append_right _ (List.mem_flatMap.mpr ⟨a, ha, hs⟩))
    rw [h.substitute_apply]
    simp [named, hfn, hargs]
  | lambda _ _ _ => simp [named] at ht
  | cases _ _ _ => simp [named] at ht

theorem namedAll_substitute (ts : List Term) (hts : namedAll ts = true)
    (h : ∀ t ∈ ts, t.Instantiates θ value)
    (hval : ∀ t ∈ ts, ∀ s ∈ t.symbols, s.quantifier = .universal → value s.name ≠ "") :
    namedAll (substituteAll θ ts) = true := by
  match ts with
  | [] => rfl
  | t :: rest =>
    simp only [namedAll, Bool.and_eq_true] at hts
    have hhead := named_substitute t hts.1 (h t List.mem_cons_self) (hval t List.mem_cons_self)
    have htail := namedAll_substitute rest hts.2 (fun s hs => h s (List.mem_cons_of_mem _ hs))
      fun s hs => hval s (List.mem_cons_of_mem _ hs)
    rw [substituteAll]
    simp [namedAll, hhead, htail]

end

end Substituting

section Splitting

variable {op : Text}

theorem splitOn_apply (fn : Term) (args : List Term) (k : Kind) :
    (apply fn args k).splitOn op =
      if (apply fn args k).operator? = some op then splitAll op args else [apply fn args k] := by
  rw [splitOn]
  by_cases h : (apply fn args k).operator? = some op
  · simp [h]
  · simp [h]

theorem splitAll_eq_flatMap (ts : List Term) : splitAll op ts = ts.flatMap (splitOn op) := by
  induction ts with
  | nil => rfl
  | cons t rest ih => rw [splitAll, ih, List.flatMap_cons]

/-- What holds of a term if it holds of the parts that it is split into, and is then composed. -/
theorem splitOn_induction {P : Term → List Term → Prop} (op : Text)
    (part : ∀ t, t.operator? ≠ some op → P t [t])
    (joined : ∀ s args k, s.name = op → (∀ a ∈ args, P a (a.splitOn op)) →
      P (apply (symbol s) args k) (args.flatMap (splitOn op))) (t : Term) : P t (t.splitOn op) := by
  match t with
  | symbol s => exact part _ nofun
  | apply (symbol s) args k =>
    rw [splitOn_apply]
    split
    · rename_i hop
      rw [splitAll_eq_flatMap]
      exact joined s args k (Option.some.inj hop) fun a _ => splitOn_induction op part joined a
    · rename_i hop
      exact part _ hop
  | apply (apply _ _ _) _ _ => exact part _ nofun
  | apply (lambda _ _ _) _ _ => exact part _ nofun
  | apply (cases _ _ _) _ _ => exact part _ nofun
  | lambda _ _ _ => exact part _ nofun
  | cases _ _ _ => exact part _ nofun

theorem plain_of_mem_splitOn {t : Term} (ht : t.plain = true) :
    ∀ p ∈ t.splitOn op, p.plain = true := by
  revert ht
  refine splitOn_induction (P := fun t ps => t.plain = true → ∀ p ∈ ps, p.plain = true) op ?_ ?_ t
  · intro t _ ht p hp
    rw [List.mem_singleton.mp hp]
    exact ht
  · intro s args k _ ih ht p hp
    obtain ⟨a, ha, hpa⟩ := List.mem_flatMap.mp hp
    exact ih a ha ((plain_apply_iff.mp ht).2.1 a ha) p hpa

theorem read_conjuncts (hI : I.Lawful) {t : Term} (ht : t.plain = true) :
    I.read t = I.truth ↔ ∀ c ∈ t.conjuncts, I.read c = I.truth := by
  revert ht
  refine splitOn_induction (P := fun t ps => t.plain = true →
    (I.read t = I.truth ↔ ∀ c ∈ ps, I.read c = I.truth)) "and" ?_ ?_ t
  · intro t _ _
    simp
  · intro s args k hs ih ht
    obtain ⟨-, hargs, hne⟩ := plain_apply_iff.mp ht
    have hne : args ≠ [] := hne (by rw [← hs]; rfl)
    have hall : (∀ c ∈ args.flatMap (splitOn "and"), I.read c = I.truth) ↔
        ∀ a ∈ args, I.read a = I.truth := by
      simp only [List.mem_flatMap]
      constructor
      · intro h a ha
        exact (ih a ha (hargs a ha)).mpr fun c hc => h c ⟨a, ha, hc⟩
      · rintro h c ⟨a, ha, hc⟩
        exact (ih a ha (hargs a ha)).mp (h a ha) c hc
    rw [hall, Interpretation.read_apply, Interpretation.read_symbol, hs]
    constructor
    · intro h a ha
      exact hI.conjunct _ h _ (List.mem_map_of_mem ha)
    · intro h
      refine hI.conjuncts _ (by simpa using hne) ?_
      intro d hd
      obtain ⟨a, ha, rfl⟩ := List.mem_map.mp hd
      exact h a ha

theorem read_of_disjunct (hI : I.Lawful) {t d : Term} (hd : d ∈ t.disjuncts)
    (h : I.read d = I.truth) : I.read t = I.truth := by
  revert d
  refine splitOn_induction (P := fun t ps => ∀ {d : Term}, d ∈ ps → I.read d = I.truth →
    I.read t = I.truth) "or" ?_ ?_ t
  · intro t _ d hd h
    rw [← List.mem_singleton.mp hd]
    exact h
  · intro s args k hs ih d hd h
    obtain ⟨a, ha, hda⟩ := List.mem_flatMap.mp hd
    rw [Interpretation.read_apply, Interpretation.read_symbol, hs]
    refine hI.disjunct _ ?_
    rw [← ih a ha hda h]
    exact List.mem_map_of_mem ha

end Splitting

end Term

end Discharge
