import Discharge.Proofs.Library.Reachability

/-!
The nearest declaration of a name counts, whether one looks for the name or lists all that is
visible: the list has, of each name, what the look-up finds.
-/

namespace Discharge.Library

variable {l : Library} {m : Module} {n : Text}

theorem find?_declared (a : Module) (n : Text) :
    (Module.declared a).find? (fun d => d.name == n) = Module.declared? a n := by
  rw [Module.declared, Module.declared?]
  induction a.symbols with
  | nil => rfl
  | cons s rest ih =>
    obtain ⟨name, k⟩ := s
    rw [List.map_cons, List.find?_cons, List.lookup_cons]
    by_cases hname : name = n
    · simp [hname]
    · have hne : (name == n) = false := beq_eq_false_iff_ne.mpr hname
      have hne' : (n == name) = false := beq_eq_false_iff_ne.mpr fun he => hname he.symm
      simp only [hne, hne']
      exact ih

theorem find?_overwrite (d : DeclaredSymbol) (found : List DeclaredSymbol) (n : Text) :
    (overwrite d found).find? (fun s => s.name == n) =
      if d.name = n then some d else found.find? fun s => s.name == n := by
  rw [overwrite, List.find?_cons, List.find?_filter]
  by_cases hd : d.name = n
  · simp [hd]
  · rw [beq_eq_false_iff_ne.mpr hd, if_neg hd]
    refine congrArg (fun p => found.find? p) (funext fun s => ?_)
    by_cases hs : s.name = n
    · simp [hs, Ne.symm hd]
    · simp [hs]

/-- Of several declarations of a name the first is found, since it is the last to overwrite. -/
theorem find?_foldr_overwrite (ds found : List DeclaredSymbol) (n : Text) :
    (ds.foldr overwrite found).find? (fun s => s.name == n) =
      (ds.find? fun s => s.name == n).or (found.find? fun s => s.name == n) := by
  induction ds with
  | nil => rfl
  | cons d rest ih =>
    rw [List.foldr_cons, find?_overwrite, ih, List.find?_cons]
    by_cases hd : d.name = n
    · simp [hd]
    · rw [if_neg hd, beq_eq_false_iff_ne.mpr hd]

theorem find?_merged (ms : List Module) (n : Text) :
    (ms.foldr (fun a found => (Module.declared a).foldr overwrite found) []).find? (fun d => d.name == n) =
      ms.findSome? fun a => Module.declared? a n := by
  induction ms with
  | nil => rfl
  | cons a rest ih =>
    rw [List.foldr_cons, find?_foldr_overwrite, find?_declared, ih, List.findSome?_cons]
    cases Module.declared? a n <;> rfl

theorem symbol?_eq (h : l.get? m.name = some m) (n : Text) : l.symbol? m.name n =
    (l.visible m .transitive).modules.findSome? fun a => Module.declared? a n := by
  rw [symbol?, h]
  rfl

theorem symbols_eq (h : l.get? m.name = some m) :
    l.symbols m.name = (l.visible m .transitive).modules.foldr
      (fun a found => (Module.declared a).foldr overwrite found) [] := by
  rw [symbols, h]

theorem find?_symbols (h : l.get? m.name = some m) (n : Text) :
    (l.symbols m.name).find? (fun d => d.name == n) = l.symbol? m.name n := by
  rw [symbols_eq h, symbol?_eq h, find?_merged]

theorem declared?_eq_some_iff {a : Module} {d : DeclaredSymbol} :
    Module.declared? a n = some d ↔
      d.name = n ∧ d.module = a.name ∧ a.symbols.lookup n = some d.kind := by
  obtain ⟨name, module, k⟩ := d
  rw [Module.declared?, Option.map_eq_some_iff]
  constructor
  · rintro ⟨k', hk, he⟩
    cases he
    exact ⟨rfl, rfl, hk⟩
  · rintro ⟨rfl, rfl, hk⟩
    exact ⟨k, hk, rfl⟩

theorem declared?_eq_none_iff {a : Module} :
    Module.declared? a n = none ↔ a.symbols.lookup n = none := by
  rw [Module.declared?, Option.map_eq_none_iff]

theorem nodup_overwrite {d : DeclaredSymbol} {found : List DeclaredSymbol}
    (h : (found.map DeclaredSymbol.name).Nodup) :
    ((overwrite d found).map DeclaredSymbol.name).Nodup := by
  rw [overwrite, List.map_cons, List.nodup_cons]
  refine ⟨fun hmem => ?_, h.sublist (List.filter_sublist.map _)⟩
  obtain ⟨s, hs, hsame⟩ := List.mem_map.mp hmem
  simpa [hsame] using (List.mem_filter.mp hs).2

theorem nodup_foldr_overwrite (ds : List DeclaredSymbol) {found : List DeclaredSymbol}
    (h : (found.map DeclaredSymbol.name).Nodup) :
    ((ds.foldr overwrite found).map DeclaredSymbol.name).Nodup := by
  induction ds with
  | nil => exact h
  | cons d rest ih => exact nodup_overwrite ih

theorem nodup_symbols (l : Library) (name : Text) :
    ((l.symbols name).map DeclaredSymbol.name).Nodup := by
  rw [symbols]
  cases l.get? name with
  | none => exact List.nodup_nil
  | some m =>
    dsimp only
    induction (l.visible m .transitive).modules with
    | nil => exact List.nodup_nil
    | cons a rest ih => exact nodup_foldr_overwrite (Module.declared a) ih

theorem lookup_kinds (ds : List DeclaredSymbol) (n : Text) :
    (ds.map fun d => (d.name, d.kind)).lookup n =
      (ds.find? fun d => d.name == n).map DeclaredSymbol.kind := by
  induction ds with
  | nil => rfl
  | cons d rest ih =>
    rw [List.map_cons, List.lookup_cons, List.find?_cons]
    by_cases hname : d.name = n
    · simp [hname]
    · have hne : (d.name == n) = false := beq_eq_false_iff_ne.mpr hname
      have hne' : (n == d.name) = false := beq_eq_false_iff_ne.mpr fun he => hname he.symm
      simp only [hne, hne']
      exact ih

/-- Whether a module declares a name, and with which kind, and no module that is nearer to another
declares it at all. -/
structure DeclaresNearest (l : Library) (m : Module) (d : DeclaredSymbol) (a : Module) : Prop where
  visible : a ∈ (l.visible m .transitive).modules
  module : d.module = a.name
  kind : a.symbols.lookup d.name = some d.kind
  nearest : ∀ b ∈ (l.visible m .transitive).modules, l.distance m b < l.distance m a →
    b.symbols.lookup d.name = none

theorem exists_nearest (h : l.get? m.name = some m) {d : DeclaredSymbol}
    (hd : l.symbol? m.name n = some d) : d.name = n ∧ ∃ a, l.DeclaresNearest m d a := by
  rw [symbol?_eq h] at hd
  obtain ⟨nearer, a, farther, hsplit, ha, hnone⟩ := List.findSome?_eq_some_iff.mp hd
  obtain ⟨rfl, hmodule, hkind⟩ := declared?_eq_some_iff.mp ha
  refine ⟨rfl, a, by simp [hsplit], hmodule, hkind, fun b hb hlt => ?_⟩
  obtain ⟨position, hexplored, hover⟩ := explored_visible h
  have hsorted := hexplored.pairwise_distance hover
  rw [hsplit] at hb hsorted
  rcases List.mem_append.mp hb with hb | hb
  · exact declared?_eq_none_iff.mp (hnone b hb)
  · -- The others stand behind the module that declares the name, and are no nearer.
    have hle := (List.pairwise_append.mp hsorted).2.1
    rcases List.mem_cons.mp hb with rfl | hb
    · exact (lt_irrefl _ hlt).elim
    · exact ((List.rel_of_pairwise_cons hle hb).not_gt hlt).elim

/-- Whether the list of what a module sees and the look-up of a name agree on it, on its nearest
declaration. -/
structure Resolves (l : Library) (m : Module) (n : Text) : Prop where
  contains_iff : (∃ d ∈ l.symbols m.name, d.name = n) ↔ (l.symbol? m.name n).isSome
  same : (l.symbols m.name).find? (fun d => d.name == n) = l.symbol? m.name n
  nearest : ∀ d, l.symbol? m.name n = some d → d.name = n ∧ ∃ a, l.DeclaresNearest m d a
  undeclared : l.symbol? m.name n = none →
    ∀ b ∈ (l.visible m .transitive).modules, b.symbols.lookup n = none
  symbol_eq : (⟨l.kinds m.name, []⟩ : Formula.Signature).symbol n =
    ⟨n, ((l.symbol? m.name n).map DeclaredSymbol.kind).getD .entity, .free⟩

theorem lookup_kinds_eq (h : l.get? m.name = some m) (n : Text) :
    (l.kinds m.name).lookup n = (l.symbol? m.name n).map DeclaredSymbol.kind := by
  rw [kinds, lookup_kinds, find?_symbols h]

theorem resolves (h : l.get? m.name = some m) (n : Text) : l.Resolves m n where
  contains_iff := by
    rw [← find?_symbols h, List.find?_isSome]
    simp
  same := find?_symbols h n
  nearest _ hd := exists_nearest h hd
  undeclared hnone b hb := by
    rw [symbol?_eq h, List.findSome?_eq_none_iff] at hnone
    exact declared?_eq_none_iff.mp (hnone b hb)
  symbol_eq := by
    rw [Formula.Signature.symbol, List.lookup_nil, lookup_kinds_eq h]

theorem hasIntegerSorts_eq (h : l.get? m.name = some m) : l.hasIntegerSorts m.name =
    (((l.kinds m.name).lookup Kind.integer.name).isSome &&
      ((l.kinds m.name).lookup Kind.natural.name).isSome) := by
  rw [lookup_kinds_eq h, lookup_kinds_eq h, Option.isSome_map, Option.isSome_map]
  rfl

/-- The nearest declaration of each name counts, in the list of all that is visible and in the
look-up of one name, and so for reading formulas and for proving them. The list has no name
twice. -/
theorem nearest_declaration (h : l.get? m.name = some m) : (∀ n, l.Resolves m n) ∧
    ((l.symbols m.name).map DeclaredSymbol.name).Nodup ∧
    l.hasIntegerSorts m.name =
      (((l.kinds m.name).lookup Kind.integer.name).isSome &&
        ((l.kinds m.name).lookup Kind.natural.name).isSome) :=
  ⟨resolves h, nodup_symbols l m.name, hasIntegerSorts_eq h⟩

/-- A module that declares a name which one that it imports declares too, and so does one farther
away. -/
def shadowingLibrary : Library where
  modules :=
    [{ name := "Natural", imports := ["Stack"], symbols := [("N", ⟨"SSet"⟩), ("+", .natural)] },
      { name := "Integer", imports := ["Natural"], symbols := [("Z", ⟨"SSet"⟩), ("+", .integer)] },
      { name := "Stack", imports := ["Integer"], symbols := [("Push", ⟨"Str"⟩)] }]

def shadowingModule : Module where
  name := "Stack"
  imports := ["Integer"]
  symbols := [("Push", ⟨"Str"⟩)]

theorem nearest_declaration_shadowingLibrary :
    shadowingLibrary.get? shadowingModule.name = some shadowingModule ∧
    shadowingLibrary.symbol? shadowingModule.name "+" = some ⟨"+", "Integer", .integer⟩ ∧
    shadowingLibrary.Resolves shadowingModule "+" ∧
    ((shadowingLibrary.symbols shadowingModule.name).map DeclaredSymbol.name).Nodup := by
  obtain ⟨hresolves, hunique, -⟩ := nearest_declaration (m := shadowingModule)
    (l := shadowingLibrary) rfl
  exact ⟨rfl, by decide, hresolves "+", hunique⟩

end Discharge.Library
