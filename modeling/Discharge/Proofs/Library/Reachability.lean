import Discharge.Proofs.Library.Visibility
import Mathlib.Order.Lattice.Nat

/-!
What a module sees is what it can reach. The search goes on until every module that was found has
been asked for its imports, and each module is found by the first of those that import it. Modules
therefore stand in the order of their distance, and the imports that are reported as missing are
those of the modules found that are not loaded.
-/

namespace Discharge

namespace Error

def reported (e : Option Error) : List Cause := (e.map causes).getD []

theorem causesAll_because (cs : List Cause) : causesAll (cs.map because) = cs := by
  induction cs with
  | nil => rfl
  | cons c rest ih => rw [List.map_cons, causesAll, causes, ih, List.singleton_append]

theorem reported_join (cs : List Cause) : reported (join (cs.map because)) = cs := by
  cases cs with
  | nil => rfl
  | cons c rest => exact causesAll_because (c :: rest)

theorem reported_join_append (e : Option Error) (cs : List Cause) :
    reported (join (e.toList ++ cs.map because)) = reported e ++ cs := by
  cases e with
  | none => exact reported_join cs
  | some e => exact congrArg (e.causes ++ ·) (causesAll_because cs)

end Error

namespace Library

variable {l : Library} {m : Module}

def Imports (l : Library) (a b : Module) : Prop := b.name ∈ l.importsOf a ∧ l.get? b.name = some b

/-- The modules that a chain of so many imports leads to. All modules on it are loaded. -/
inductive Chain (l : Library) (m : Module) : Nat → Module → Prop where
  | start : Chain l m 0 m
  | step {k : Nat} {a b : Module} (h : Chain l m k a) (hb : l.Imports a b) : Chain l m (k + 1) b

noncomputable def distance (l : Library) (m n : Module) : Nat := sInf {k | l.Chain m k n}

namespace Visible

inductive Explores (l : Library) : Nat → Visible → Visible → Prop where
  | over {position : Nat} {v : Visible} (h : v.modules[position]? = none) :
    Explores l position v v
  | next {position : Nat} {v v' : Visible} {a : Module} (ha : v.modules[position]? = some a)
    (h : Explores l (position + 1) ((l.importsOf a).foldl (meet l a.name) v) v') :
    Explores l position v v'

/-- Whether the module at a position imports a module. -/
def Brings (l : Library) (v : Visible) (i : Nat) (b : Module) : Prop :=
  ∃ a, v.modules[i]? = some a ∧ l.Imports a b

/-- Whether a module was found no later than when the imports of a position were met: all up to
it, but the module that looks, are imported by modules up to that position. -/
def Places (l : Library) (m : Module) (v : Visible) (i : Nat) (b : Module) : Prop :=
  ∃ k : Nat, v.modules[k]? = some b ∧
    ∀ j ≤ k, ∀ c, v.modules[j]? = some c → c = m ∨ ∃ i' ≤ i, v.Brings l i' c

/-- What is known of a view in which no imports were met but those of the modules before a
position. -/
structure Traced (l : Library) (m : Module) (bound : Nat) (v : Visible) : Prop where
  found : v.Found l
  first : v.modules[0]? = some m
  listed : ∀ b, l.get? b.name = some b → b.name ∈ v.seen → b ∈ v.modules
  reached : ∀ b ∈ v.modules, ∃ k, l.Chain m k b
  brought : ∀ b ∈ v.modules, b = m ∨ ∃ i < bound, v.Brings l i b
  missing_nodup : (v.missing.map Prod.fst).Nodup
  missing_iff : ∀ name, name ∈ v.missing.map Prod.fst ↔ name ∈ v.seen ∧ l.get? name = none
  asked : ∀ e ∈ v.missing, ∃ i < bound, ∃ a, v.modules[i]? = some a ∧ a.name = e.2 ∧
    e.1 ∈ l.importsOf a

/-- What is known of a view in which the imports of the modules before a position were met, and no
others. -/
structure Explored (l : Library) (m : Module) (position : Nat) (v : Visible) : Prop
    extends Traced l m position v where
  met : ∀ i < position, ∀ a, v.modules[i]? = some a → ∀ name ∈ l.importsOf a, name ∈ v.seen
  placed : ∀ i < position, ∀ b, v.Brings l i b → v.Places l m i b

variable {v v' : Visible} {a b : Module} {name : Text} {position : Nat}

structure Precedes (v v' : Visible) : Prop where
  modules : v.modules <+: v'.modules
  seen : v.seen ⊆ v'.seen

namespace Precedes

theorem refl (v : Visible) : v.Precedes v := ⟨List.prefix_rfl, List.Subset.refl _⟩

theorem trans {v'' : Visible} (h : v.Precedes v') (h' : v'.Precedes v'') : v.Precedes v'' :=
  ⟨h.modules.trans h'.modules, List.Subset.trans h.seen h'.seen⟩

theorem get (h : v.Precedes v') {i : Nat} (ha : v.modules[i]? = some a) :
    v'.modules[i]? = some a := by
  obtain ⟨later, hlater⟩ := h.modules
  rw [← hlater, List.getElem?_append_left (List.getElem?_eq_some_iff.mp ha).1, ha]

theorem get_of_le (h : v.Precedes v') {i j : Nat} (hj : v.modules[j]? = some b) (hi : i ≤ j)
    (ha : v'.modules[i]? = some a) : v.modules[i]? = some a := by
  have hlt : i < v.modules.length := lt_of_le_of_lt hi (List.getElem?_eq_some_iff.mp hj).1
  have hv := List.getElem?_eq_getElem hlt
  rw [hv, ← ha, h.get hv]

theorem brings (h : v.Precedes v') {i : Nat} (hb : v.Brings l i b) : v'.Brings l i b := by
  obtain ⟨a, ha, himports⟩ := hb
  exact ⟨a, h.get ha, himports⟩

theorem places (h : v.Precedes v') {i : Nat} (hb : v.Places l m i b) : v'.Places l m i b := by
  obtain ⟨k, hk, hbrings⟩ := hb
  refine ⟨k, h.get hk, fun j hj c hc => ?_⟩
  refine (hbrings j hj c (h.get_of_le hk hj hc)).imp_right ?_
  rintro ⟨i', hi', hc'⟩
  exact ⟨i', hi', h.brings hc'⟩

end Precedes

theorem Traced.mono {bound bound' : Nat} (h : v.Traced l m bound) (hle : bound ≤ bound') :
    v.Traced l m bound' :=
  { h with
    brought := fun b hb => (h.brought b hb).imp_right fun ⟨i, hi, hbrings⟩ =>
      ⟨i, lt_of_lt_of_le hi hle, hbrings⟩
    asked := fun e he =>
      let ⟨i, hi, hasked⟩ := h.asked e he
      ⟨i, lt_of_lt_of_le hi hle, hasked⟩ }

theorem Traced.find (h : v.Traced l m (position + 1)) (ha : v.modules[position]? = some a)
    (himports : l.Imports a b)
    (hfound : ({ v with modules := v.modules ++ [b], seen := b.name :: v.seen } :
      Visible).Found l) :
    ({ v with modules := v.modules ++ [b], seen := b.name :: v.seen } : Visible).Traced l m
      (position + 1) := by
  have hprecedes : v.Precedes { v with modules := v.modules ++ [b], seen := b.name :: v.seen } :=
    ⟨List.prefix_append _ _, List.subset_cons_self _ _⟩
  refine ⟨hfound, hprecedes.get h.first, ?listed, ?reached, ?brought, h.missing_nodup,
    ?missing_iff, ?asked⟩
  case listed =>
    intro c hc hmem
    rcases List.mem_cons.mp hmem with hsame | hmem
    · rw [hsame, himports.2] at hc
      exact List.mem_append_right _ (List.mem_singleton.mpr (Option.some.inj hc).symm)
    · exact List.mem_append_left _ (h.listed c hc hmem)
  case reached =>
    intro c hc
    rcases List.mem_append.mp hc with hc | hc
    · exact h.reached c hc
    · obtain ⟨k, hk⟩ := h.reached a (List.mem_of_getElem? ha)
      exact ⟨k + 1, List.mem_singleton.mp hc ▸ .step hk himports⟩
  case brought =>
    intro c hc
    rcases List.mem_append.mp hc with hc | hc
    · exact (h.brought c hc).imp_right fun ⟨i, hi, hc⟩ => ⟨i, hi, hprecedes.brings hc⟩
    · rw [List.mem_singleton.mp hc]
      exact .inr ⟨position, Nat.lt_succ_self _, a, hprecedes.get ha, himports⟩
  case missing_iff =>
    intro n
    rw [h.missing_iff, List.mem_cons]
    refine and_congr_left fun hnone => ⟨.inr, fun hn => hn.resolve_left fun he => ?_⟩
    rw [he, himports.2] at hnone
    cases hnone
  case asked =>
    intro e he
    obtain ⟨i, hi, c, hc, hasked⟩ := h.asked e he
    exact ⟨i, hi, c, hprecedes.get hc, hasked⟩

theorem Traced.miss (h : v.Traced l m (position + 1)) (ha : v.modules[position]? = some a)
    (hname : name ∈ l.importsOf a) (hnone : l.get? name = none) (hseen : name ∉ v.seen)
    (hfound : ({ v with seen := name :: v.seen, missing := v.missing ++ [(name, a.name)] } :
      Visible).Found l) :
    ({ v with seen := name :: v.seen, missing := v.missing ++ [(name, a.name)] } :
      Visible).Traced l m (position + 1) := by
  refine ⟨hfound, h.first, ?listed, h.reached, h.brought, ?missing_nodup, ?missing_iff, ?asked⟩
  case listed =>
    intro c hc hmem
    refine h.listed c hc ((List.mem_cons.mp hmem).resolve_left fun he => ?_)
    rw [he, hnone] at hc
    cases hc
  case missing_nodup =>
    rw [List.map_append, List.map_singleton, List.nodup_append_comm, List.singleton_append,
      List.nodup_cons]
    exact ⟨fun hmem => hseen ((h.missing_iff name).mp hmem).1, h.missing_nodup⟩
  case missing_iff =>
    intro n
    rw [List.map_append, List.map_singleton, List.mem_append, h.missing_iff,
      List.mem_singleton, List.mem_cons]
    constructor
    · rintro (⟨hn, hget⟩ | rfl)
      · exact ⟨.inr hn, hget⟩
      · exact ⟨.inl rfl, hnone⟩
    · rintro ⟨rfl | hn, hget⟩
      · exact .inr rfl
      · exact .inl ⟨hn, hget⟩
  case asked =>
    intro e he
    rcases List.mem_append.mp he with he | he
    · exact h.asked e he
    · rw [List.mem_singleton.mp he]
      exact ⟨position, Nat.lt_succ_self _, a, ha, rfl, hname⟩

theorem Traced.meet (h : v.Traced l m (position + 1)) (ha : v.modules[position]? = some a)
    (hname : name ∈ l.importsOf a) :
    (Visible.meet l a.name v name).Traced l m (position + 1) ∧
      v.Precedes (Visible.meet l a.name v name) ∧ name ∈ (Visible.meet l a.name v name).seen := by
  have hfound := h.found.meet a.name name
  revert hfound
  unfold Visible.meet
  split
  · rename_i hseen
    exact fun _ => ⟨h, .refl v, List.contains_iff_mem.mp hseen⟩
  · rename_i hseen
    split
    · rename_i b hb
      obtain rfl := name_of_get? hb
      exact fun hfound => ⟨h.find ha ⟨hname, hb⟩ hfound,
        ⟨List.prefix_append _ _, List.subset_cons_self _ _⟩, List.mem_cons_self⟩
    · rename_i hnone
      have hfresh : name ∉ v.seen := mt List.contains_iff_mem.mpr hseen
      exact fun hfound => ⟨h.miss ha hname hnone hfresh hfound,
        ⟨List.prefix_rfl, List.subset_cons_self _ _⟩, List.mem_cons_self⟩

theorem Traced.meets (h : v.Traced l m (position + 1)) (ha : v.modules[position]? = some a)
    {names : List Text} (hnames : names ⊆ l.importsOf a) :
    (names.foldl (Visible.meet l a.name) v).Traced l m (position + 1) ∧
      v.Precedes (names.foldl (Visible.meet l a.name) v) ∧
      names ⊆ (names.foldl (Visible.meet l a.name) v).seen := by
  induction names generalizing v with
  | nil => exact ⟨h, .refl v, List.nil_subset _⟩
  | cons name rest ih =>
    obtain ⟨hname, hrest⟩ := List.cons_subset.mp hnames
    obtain ⟨htraced, hprecedes, hmet⟩ := h.meet ha hname
    obtain ⟨htraced', hprecedes', hmets⟩ := ih htraced (hprecedes.get ha) hrest
    exact ⟨htraced', hprecedes.trans hprecedes',
      List.cons_subset.mpr ⟨hprecedes'.seen hmet, hmets⟩⟩

theorem explored_start (h : l.get? m.name = some m) :
    (⟨[m], [m.name], []⟩ : Visible).Explored l m 0 where
  found := found_start h
  first := rfl
  listed b hb hmem := by
    rw [List.mem_singleton.mp hmem, h] at hb
    exact List.mem_singleton.mpr (Option.some.inj hb).symm
  reached b hb := ⟨0, List.mem_singleton.mp hb ▸ .start⟩
  brought b hb := .inl (List.mem_singleton.mp hb)
  missing_nodup := List.nodup_nil
  missing_iff name := by
    refine iff_of_false List.not_mem_nil fun ⟨hmem, hnone⟩ => ?_
    rw [List.mem_singleton.mp hmem, h] at hnone
    cases hnone
  asked e he := absurd he List.not_mem_nil
  met i hi := absurd hi (Nat.not_lt_zero i)
  placed i hi := absurd hi (Nat.not_lt_zero i)

/-- Going on by one module: all modules found by then were brought by those up to it. -/
theorem Explored.next (h : v.Explored l m position) (ha : v.modules[position]? = some a) :
    ((l.importsOf a).foldl (Visible.meet l a.name) v).Explored l m (position + 1) := by
  obtain ⟨htraced, hprecedes, hmets⟩ :=
    (h.toTraced.mono (Nat.le_succ position)).meets ha (List.Subset.refl _)
  generalize (l.importsOf a).foldl (Visible.meet l a.name) v = v' at htraced hprecedes hmets ⊢
  refine ⟨htraced, fun i hi c hc name hname => ?_, fun i hi b hb => ?_⟩
  · rcases Nat.lt_succ_iff_lt_or_eq.mp hi with hi | rfl
    · exact hprecedes.seen (h.met i hi c (hprecedes.get_of_le ha hi.le hc) name hname)
    · rw [hprecedes.get ha] at hc
      exact hmets (Option.some.inj hc ▸ hname)
  · rcases Nat.lt_succ_iff_lt_or_eq.mp hi with hi | rfl
    · obtain ⟨c, hc, himports⟩ := hb
      exact hprecedes.places (h.placed i hi b ⟨c, hprecedes.get_of_le ha hi.le hc, himports⟩)
    · obtain ⟨c, hc, himports⟩ := hb
      rw [hprecedes.get ha] at hc
      obtain rfl := Option.some.inj hc
      have hmem := htraced.listed b himports.2 (hmets himports.1)
      obtain ⟨k, hk⟩ := List.mem_iff_getElem?.mp hmem
      refine ⟨k, hk, fun j _ d hd => ?_⟩
      exact (htraced.brought d (List.mem_of_getElem? hd)).imp_right fun ⟨i', hi', hbrings⟩ =>
        ⟨i', Nat.le_of_lt_succ hi', hbrings⟩

theorem Explored.explore (h : v.Explored l m position) (fuel : Nat) :
    ∃ position', (v.explore l fuel position).Explored l m position' ∧
      (position' = position + fuel ∨
        (v.explore l fuel position).modules.length ≤ position' ∧ position' ≤ position + fuel) := by
  induction fuel generalizing position v with
  | zero => exact ⟨position, h, .inl rfl⟩
  | succ fuel ih =>
    rw [Visible.explore]
    split
    · rename_i hnone
      exact ⟨position, h, .inr ⟨List.getElem?_eq_none_iff.mp hnone, by omega⟩⟩
    · rename_i a ha
      obtain ⟨position', hexplored, hposition⟩ := ih (h.next ha)
      exact ⟨position', hexplored, by omega⟩

theorem Explored.mem_missing_iff (h : v.Explored l m position) :
    name ∈ v.missing.map Prod.fst ↔
      l.get? name = none ∧ ∃ a ∈ v.modules.take position, name ∈ l.importsOf a := by
  have htake : ∀ a, a ∈ v.modules.take position ↔ ∃ i < position, v.modules[i]? = some a := by
    intro a
    simp [List.mem_iff_getElem?, List.getElem?_take, ite_eq_iff]
  rw [h.missing_iff]
  constructor
  · rintro ⟨hseen, hnone⟩
    obtain ⟨e, he, rfl⟩ := List.mem_map.mp ((h.missing_iff name).mpr ⟨hseen, hnone⟩)
    obtain ⟨i, hi, a, ha, -, hname⟩ := h.asked e he
    exact ⟨hnone, a, (htake a).mpr ⟨i, hi, ha⟩, hname⟩
  · rintro ⟨hnone, a, hmem, hname⟩
    obtain ⟨i, hi, ha⟩ := (htake a).mp hmem
    exact ⟨h.met i hi a ha name hname, hnone⟩

section Complete

/-- All that a chain leads to is found, once no module is left to explore. -/
theorem Explored.mem_of_chain (h : v.Explored l m position) (hover : v.modules.length ≤ position)
    {k : Nat} (hchain : l.Chain m k b) : b ∈ v.modules := by
  induction hchain with
  | start => exact List.mem_of_getElem? h.first
  | step _ himports ih =>
    obtain ⟨i, hi⟩ := List.mem_iff_getElem?.mp ih
    have hlt : i < position := lt_of_lt_of_le (List.getElem?_eq_some_iff.mp hi).1 hover
    exact h.listed _ himports.2 (h.met i hlt _ hi _ himports.1)

theorem Found.position_unique (h : v.Found l) {i j : Nat} (hi : v.modules[i]? = some a)
    (hj : v.modules[j]? = some a) : i = j := by
  obtain ⟨hlt, -⟩ := List.getElem?_eq_some_iff.mp hi
  exact (List.getElem?_inj hlt (h.nodup.of_map Module.name)).mp (hi.trans hj.symm)

/-- What leads to a module leads to every module found before it, in no more steps. -/
theorem Explored.exists_chain_le (h : v.Explored l m position)
    (hover : v.modules.length ≤ position) {k i j : Nat} (hchain : l.Chain m k b)
    (hb : v.modules[j]? = some b) (hij : i ≤ j) (ha : v.modules[i]? = some a) :
    ∃ k' ≤ k, l.Chain m k' a := by
  induction hchain generalizing i j a with
  | start =>
    have hj := h.found.position_unique hb h.first
    have hi : i = 0 := by omega
    rw [hi, h.first] at ha
    exact ⟨0, le_refl 0, Option.some.inj ha ▸ .start⟩
  | @step k c b hc himports ih =>
    -- The module before `b` on the chain stands somewhere. Those that `b` and `a` were first
    -- imported by stand no later.
    obtain ⟨n, hn⟩ := List.mem_iff_getElem?.mp (h.mem_of_chain hover hc)
    have hlt : n < position := lt_of_lt_of_le (List.getElem?_eq_some_iff.mp hn).1 hover
    obtain ⟨j', hj', hbrings⟩ := h.placed n hlt b ⟨c, hn, himports⟩
    obtain rfl := h.found.position_unique hb hj'
    rcases hbrings i hij a ha with rfl | ⟨n', hle, c', hc', himports'⟩
    · exact ⟨0, Nat.zero_le _, .start⟩
    · obtain ⟨k', hk', hchain'⟩ := ih hn hle hc'
      exact ⟨k' + 1, Nat.succ_le_succ hk', .step hchain' himports'⟩

theorem Explored.pairwise_distance (h : v.Explored l m position)
    (hover : v.modules.length ≤ position) :
    v.modules.Pairwise fun a b => l.distance m a ≤ l.distance m b := by
  rw [List.pairwise_iff_getElem]
  intro i j hi hj hlt
  have hchain : l.Chain m (l.distance m v.modules[j]) v.modules[j] :=
    Nat.sInf_mem (h.reached _ (List.getElem_mem hj))
  obtain ⟨k, hk, hchain'⟩ := h.exists_chain_le hover hchain (List.getElem?_eq_getElem hj) hlt.le
    (List.getElem?_eq_getElem hi)
  exact (Nat.sInf_le hchain').trans hk

end Complete

theorem Found.explores (h : v.Found l) {fuel : Nat} (hfuel : l.modules.length ≤ fuel + position) :
    v.Explores l position (v.explore l fuel position) := by
  induction fuel generalizing position v with
  | zero => exact .over (List.getElem?_eq_none (by have := h.length_le; omega))
  | succ fuel ih =>
    rw [Visible.explore]
    split
    · rename_i hnone
      exact .over hnone
    · rename_i a ha
      exact .next ha (ih (h.meets _ _) (by omega))

/-- Whether a view shows all that can be reached from a module, and says what is missing. -/
structure Exact (l : Library) (m : Module) (v : Visible) : Prop where
  ends : Explores l 0 ⟨[m], [m.name], []⟩ v
  mem_iff : ∀ n, n ∈ v.modules ↔ ∃ k, l.Chain m k n
  nodup : (v.modules.map Module.name).Nodup
  head : v.modules.head? = some m
  nearer_first : v.modules.Pairwise fun a b => l.distance m a ≤ l.distance m b
  /-- The error names each import of a module shown that is not loaded once, and one that asks for
  it. -/
  reported : ∃ missing : List (Text × Text),
    Error.reported v.error? = missing.map (fun (name, importer) => .missingImport name importer) ∧
    (missing.map Prod.fst).Nodup ∧
    (∀ name, name ∈ missing.map Prod.fst ↔
      l.get? name = none ∧ ∃ a ∈ v.modules, name ∈ l.importsOf a) ∧
    ∀ e ∈ missing, ∃ a ∈ v.modules, a.name = e.2 ∧ e.1 ∈ l.importsOf a

theorem reported_error? (v : Visible) : Error.reported v.error? =
    v.missing.map (fun (name, importer) => .missingImport name importer) := by
  rw [error?, ← Error.reported_join (v.missing.map _), List.map_map]
  rfl

end Visible

/-- The modules whose imports are in scope of a module. -/
def followed (l : Library) (m : Module) : Scope → List Module
  | .own => []
  | .direct => [m]
  | .transitive => (l.visible m .transitive).modules

theorem explored_visible (h : l.get? m.name = some m) : ∃ position,
    (l.visible m .transitive).Explored l m position ∧
      (l.visible m .transitive).modules.length ≤ position := by
  obtain ⟨position, hexplored, hposition⟩ :=
    (Visible.explored_start h).explore l.modules.length
  have hle := hexplored.found.length_le
  have hvisible : l.visible m .transitive =
      Visible.explore l l.modules.length 0 ⟨[m], [m.name], []⟩ := rfl
  rw [hvisible]
  exact ⟨position, hexplored, by omega⟩

/-- However far one looks, the imports of the modules that are followed are met, and no others. -/
theorem explored_scope (h : l.get? m.name = some m) (scope : Scope) : ∃ position,
    (l.visible m scope).Explored l m position ∧
      (l.visible m scope).modules.take position = l.followed m scope := by
  cases scope with
  | own => exact ⟨0, Visible.explored_start h, rfl⟩
  | direct =>
    have hexplored : (l.visible m .direct).Explored l m 1 := (Visible.explored_start h).next rfl
    refine ⟨1, hexplored, ?_⟩
    rw [List.take_one, List.head?_eq_getElem?, hexplored.first]
    rfl
  | transitive =>
    obtain ⟨position, hexplored, hover⟩ := explored_visible h
    exact ⟨position, hexplored, List.take_of_length_le hover⟩

/-- A loaded module sees exactly the loaded modules that it can reach, itself first and the nearer
ones before the others, and is told which imports of these are missing. -/
theorem visible_exact (h : l.get? m.name = some m) : (l.visible m .transitive).Exact l m := by
  obtain ⟨position, hexplored, hover⟩ := explored_visible h
  refine
    { ends := (found_start h).explores (by omega)
      mem_iff := fun n => ⟨hexplored.reached n, fun ⟨_, hn⟩ => hexplored.mem_of_chain hover hn⟩
      nodup := hexplored.found.nodup
      head := List.head?_eq_getElem?.trans hexplored.first
      nearer_first := hexplored.pairwise_distance hover
      reported := ⟨_, Visible.reported_error? _, hexplored.missing_nodup, fun name => ?_,
        fun e he => ?_⟩ }
  · rw [hexplored.mem_missing_iff, List.take_of_length_le hover]
  · obtain ⟨i, -, a, ha, hasked⟩ := hexplored.asked e he
    exact ⟨a, List.mem_of_getElem? ha, hasked⟩

/-- A module that imports itself, two that import each other, and imports that are not loaded, one
of them by default. -/
def meshedLibrary : Library where
  modules :=
    [{ name := "Stack", imports := ["Stack", "Ghost", "Queue", "Queue"] },
      { name := "Queue", imports := ["List", "Stack"] },
      { name := "Integer", imports := ["Queue", "Ghost"] },
      { name := "List" },
      { name := "Unseen", imports := ["Phantom"] }]
  defaults := ["Integer", "Lost"]

def meshedModule : Module where
  name := "Stack"
  imports := ["Stack", "Ghost", "Queue", "Queue"]

theorem visible_exact_meshedLibrary : meshedLibrary.get? meshedModule.name = some meshedModule ∧
    (meshedLibrary.visible meshedModule .transitive).Exact meshedLibrary meshedModule :=
  ⟨rfl, visible_exact rfl⟩

example : (meshedLibrary.visible meshedModule .transitive).modules.map Module.name =
    ["Stack", "Queue", "Integer", "List"] := by decide

end Library

end Discharge
