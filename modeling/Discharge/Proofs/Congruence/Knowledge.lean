import Discharge.Proofs.Congruence.Operands
import Discharge.Proofs.Congruence.Saturation
import Discharge.Proofs.Congruence.TwoValued

/-!
What a model knows, as an interpretation. Its points are the classes of the model and a point for
every name that the model does not have; an application has the class that the model finds for it,
and connectives are completed where it finds none. The interpretation is lawful because the model
is saturated, in a contradictory model too if `false` is taken to be a name that it does not have.
Whatever is known of a term is its value.
-/

namespace Discharge

universe u

def Symbol.nameUnder (σ : Text → Text) (s : Symbol) : Text :=
  if s.quantifier = .universal then σ s.name else s.name

namespace Term

mutual

/-- The term with names for its quantified symbols. -/
def under (σ : Text → Text) : Term → Term
  | symbol s =>
    if s.quantifier = .universal then symbol ⟨σ s.name, s.kind, .free⟩ else symbol s
  | apply fn args k => apply (fn.under σ) (underAll σ args) k
  | lambda params body k => lambda params body k
  | cases branches otherwise k => cases branches otherwise k

def underAll (σ : Text → Text) : List Term → List Term
  | [] => []
  | t :: rest => t.under σ :: underAll σ rest

end

end Term

namespace Congruence

namespace Demand

variable {α : Type u} {op : Text} {args : List α} {result t f : α} {p : α × α}

theorem of_perm (h : Demand op args result t f p) (hop : isCommutative op = true) {args' : List α}
    (hp : args.Perm args') :
    Demand op args' result t f p ∨ Demand op args' result t f (p.2, p.1) := by
  have himp : op ≠ "implies" := by
    rintro rfl
    revert hop
    decide
  cases h with
  | equal hop' ha =>
    subst ha
    rcases List.pair_perm.mp hp with rfl | rfl
    · exact .inl (.equal hop' rfl)
    · exact .inl (.equal hop' rfl)
  | equation hop' ha hr =>
    subst ha
    rcases List.pair_perm.mp hp with rfl | rfl
    · exact .inl (.equation hop' rfl hr)
    · exact .inr (.equation hop' rfl hr)
  | conjunct hop' hr ha => exact .inl (.conjunct hop' hr (hp.mem_iff.mp ha))
  | refuted hop' hf => exact .inl (.refuted hop' (hp.mem_iff.mp hf))
  | conjuncts hop' hne hall =>
    exact .inl (.conjuncts hop' (fun he => hne (by rw [he] at hp; exact hp.eq_nil))
      fun a ha => hall a (hp.mem_iff.mpr ha))
  | disjunct hop' ht => exact .inl (.disjunct hop' (hp.mem_iff.mp ht))
  | refutes hop' hr ha => exact .inl (.refutes hop' hr (hp.mem_iff.mp ha))
  | disjuncts hop' hne hall =>
    exact .inl (.disjuncts hop' (fun he => hne (by rw [he] at hp; exact hp.eq_nil))
      fun a ha => hall a (hp.mem_iff.mpr ha))
  | detached hop' => exact (himp hop').elim
  | vacuous hop' => exact (himp hop').elim
  | concluded hop' => exact (himp hop').elim

end Demand

/-- A class of a model, or what a name stands for that the model does not have. -/
inductive Point where
  | known (i : Nat)
  | unknown (name : Text)
  deriving DecidableEq

def Point.index : Point → Nat
  | known i => i
  | unknown _ => 0

namespace Model

def Knows (m : Model) : Point → Prop
  | .known i => m.root i = i
  | .unknown _ => False

instance (m : Model) : DecidablePred m.Knows
  | .known i => inferInstanceAs (Decidable (m.root i = i))
  | .unknown _ => inferInstanceAs (Decidable False)

/-- The class that the model finds for an operator and operands. -/
def grasp? (m : Model) (fn : Point) (args : List Point) : Option Nat :=
  if m.Knows fn ∧ ∀ a ∈ args, m.Knows a then m.result? ⟨fn.index, args.map Point.index⟩ else none

def pointName (m : Model) : Point → Text
  | .known i => m.vocabulary.name i
  | .unknown name => name

/-- What the model knows. In a contradictory model `false` is no class. -/
noncomputable def knowledge (m : Model) : Interpretation Point where
  value name :=
    if name = "false" ∧ m.contradiction = true then .unknown name
    else ((m.vocabulary.rootOf? name).map Point.known).getD (.unknown name)
  apply fn args :=
    match m.grasp? fn args with
    | some r => .known r
    | none =>
      match Connective.named? (m.pointName fn) with
      | some c => c.complete (.known Vocabulary.truth)
        (if m.contradiction = true then .unknown "false" else .known Vocabulary.falsehood) args
      | none => .unknown .empty

variable {m : Model} {suits : Connective → Nat → Prop}

theorem exists_of_knows {a : Point} (h : m.Knows a) : ∃ i, a = .known i ∧ m.root i = i := by
  cases a with
  | known i => exact ⟨i, rfl, h⟩
  | unknown name => exact h.elim

theorem value_knowledge {name : Text} (h : name = "false" → m.contradiction = false) :
    m.knowledge.value name =
      ((m.vocabulary.rootOf? name).map Point.known).getD (.unknown name) := by
  refine if_neg ?_
  rintro ⟨hf, hc⟩
  rw [h hf] at hc
  contradiction

theorem value_knowledge_of_rootOf? {name : Text} {i : Nat}
    (h : name = "false" → m.contradiction = false) (hi : m.vocabulary.rootOf? name = some i) :
    m.knowledge.value name = .known i := by
  rw [value_knowledge h, hi]
  rfl

theorem rootOf?_of_value_knowledge {name : Text} {i : Nat}
    (h : m.knowledge.value name = .known i) : m.vocabulary.rootOf? name = some i := by
  simp only [knowledge] at h
  split at h
  · cases h
  · cases hr : m.vocabulary.rootOf? name with
    | none => rw [hr] at h; cases h
    | some j => rw [hr] at h; cases h; rfl

theorem truth_knowledge (hm : m.Closed) : m.knowledge.truth = .known Vocabulary.truth := by
  refine value_knowledge_of_rootOf? (fun h => absurd h (by decide)) ?_
  rw [Vocabulary.rootOf?, hm.filed.vocabulary.lookup?_truth]
  exact congrArg some hm.filed.root_truth

theorem falsehood_knowledge (hm : m.Closed) : m.knowledge.falsehood =
    if m.contradiction = true then .unknown "false" else .known Vocabulary.falsehood := by
  split
  · rename_i hc
    exact if_pos ⟨rfl, hc⟩
  · rename_i hc
    have hc : m.contradiction = false := by simpa using hc
    refine value_knowledge_of_rootOf? (fun _ => hc) ?_
    rw [Vocabulary.rootOf?, hm.filed.vocabulary.lookup?_falsehood]
    exact congrArg some (hm.root_falsehood_of_consistent hc)

theorem truth_ne_falsehood_knowledge (hm : m.Closed) :
    m.knowledge.truth ≠ m.knowledge.falsehood := by
  rw [truth_knowledge hm, falsehood_knowledge hm]
  split <;> simp [Vocabulary.truth, Vocabulary.falsehood]

/-- A connective is its own class, so its point has its name. -/
theorem pointName_connective (hm : m.Closed) (h : m.ConfinedTo suits) (c : Connective) :
    m.pointName (m.knowledge.value c.name) = c.name := by
  have hne : c.name ≠ "false" := by cases c <;> decide
  rw [value_knowledge fun he => (hne he).elim, Vocabulary.rootOf?]
  cases hi : m.vocabulary.lookup? c.name with
  | none => rfl
  | some i =>
    have hname := hm.filed.vocabulary.name_of_lookup? hi
    have hroot : m.root i = i := h.root_connective hm.filed.vocabulary (by
      rw [Vocabulary.Joinable, hname, Connective.named?_name]
      simp)
    change m.vocabulary.name (m.root i) = _
    rw [hroot, hname]

theorem apply_of_grasp? {fn : Point} {args : List Point} {r : Nat}
    (h : m.grasp? fn args = some r) : m.knowledge.apply fn args = .known r := by
  simp only [knowledge, h]

theorem apply_connective (hm : m.Closed) (h : m.ConfinedTo suits) {c : Connective}
    {args : List Point}
    (hnone : m.grasp? (m.knowledge.value c.name) args = none) :
    m.knowledge.apply (m.knowledge.value c.name) args =
      c.complete m.knowledge.truth m.knowledge.falsehood args := by
  have hc : Connective.named? (m.pointName (m.knowledge.value c.name)) = some c := by
    rw [pointName_connective hm h, Connective.named?_name]
  rw [truth_knowledge hm, falsehood_knowledge hm]
  generalize m.knowledge.value c.name = fn at hnone hc
  simp only [knowledge, hnone, hc]

theorem Closed.exists_fact_of_grasp? (hm : m.Closed) {fn : Point} {args : List Point} {r : Nat}
    (h : m.grasp? fn args = some r) : (∃ op, fn = .known op ∧ m.root op = op) ∧
      (∀ a ∈ args, m.Knows a) ∧ m.root r = r ∧
      ∃ f ∈ m.facts, f.result = r ∧ f.app.op = fn.index ∧
        f.app.args.Perm (args.map Point.index) ∧
        (f.app.args = args.map Point.index ∨
          isCommutative (m.vocabulary.name f.app.op) = true) := by
  unfold grasp? at h
  split at h
  · rename_i hknows
    obtain ⟨op, rfl, hop⟩ := exists_of_knows hknows.1
    obtain ⟨f, hf, hres, hfop, hperm, hargs⟩ := hm.exists_fact h
    have hroots : (args.map Point.index).map m.root = args.map Point.index := by
      rw [List.map_map]
      refine List.map_congr_left ?_
      intro a ha
      obtain ⟨i, rfl, hi⟩ := exists_of_knows (hknows.2 a ha)
      exact hi
    rw [hroots] at hperm hargs
    refine ⟨⟨op, rfl, hop⟩, hknows.2, ?_, f, hf, hres, ?_, hperm, hargs⟩
    · rw [← hres]
      exact hm.root_result hf
    · rw [hfop]
      exact hop
  · cases h

/-- The rules of the connectives have been applied to everything that is grasped. -/
theorem eq_of_demand_knowledge (hm : m.Closed) (hc : m.ConfinedTo suits) {c : Connective}
    {args : List Point} {r : Nat} (hg : m.grasp? (m.knowledge.value c.name) args = some r)
    {p : Point × Point}
    (hd : Demand c.name args (.known r) m.knowledge.truth m.knowledge.falsehood p) :
    p.1 = p.2 := by
  obtain ⟨⟨op, hfn, hop⟩, hargs, hr, f, hf, hres, hfop, hperm, hsame⟩ := hm.exists_fact_of_grasp? hg
  have hname : m.vocabulary.name f.app.op = c.name := by
    have hpoint := pointName_connective hm hc c
    rw [hfn] at hpoint hfop
    rw [hfop]
    exact hpoint
  have htruth : m.Knows m.knowledge.truth := by
    rw [truth_knowledge hm]
    exact hm.filed.root_truth
  -- In a contradictory model no demand is about `false`, which is not known there.
  obtain ⟨hd, h₁, h₂⟩ : Demand c.name args (.known r) (.known Vocabulary.truth)
      (.known Vocabulary.falsehood) p ∧ m.Knows p.1 ∧ m.Knows p.2 := by
    rw [truth_knowledge hm] at htruth hd
    rw [falsehood_knowledge hm] at hd
    split at hd
    · have habsent : Point.unknown "false" ∉ args := fun hmem => hargs _ hmem
      have hd' := hd.of_absent (by simp) habsent (.known Vocabulary.truth)
      exact ⟨hd.of_absent (by simp) habsent _, hd'.both hargs hr htruth htruth⟩
    · rename_i hcons
      have hfalse : m.Knows (.known Vocabulary.falsehood) :=
        hm.root_falsehood_of_consistent (by simpa using hcons)
      exact ⟨hd, hd.both hargs hr htruth hfalse⟩
  have hindex := hd.map Point.index
  obtain ⟨i, hi, hir⟩ := exists_of_knows h₁
  obtain ⟨j, hj, hjr⟩ := exists_of_knows h₂
  have hroots : m.root p.1.index = m.root p.2.index := by
    rw [← hname] at hindex
    change Demand _ (args.map Point.index) r _ _ _ at hindex
    rw [← hres] at hindex
    rcases hsame with hsame | hcomm
    · rw [← hsame] at hindex
      exact hm.root_eq_of_demand hf hindex
    · rcases hindex.of_perm hcomm hperm.symm with hd | hd
      · exact hm.root_eq_of_demand hf hd
      · exact (hm.root_eq_of_demand hf hd).symm
  rw [hi, hj] at hroots ⊢
  exact congrArg Point.known (by rw [← hir, ← hjr]; exact hroots)

theorem grasp?_perm (hm : m.Closed) (hc : m.ConfinedTo suits) {c : Connective}
    (hcomm : isCommutative c.name = true) {args args' : List Point} (hp : args.Perm args') :
    m.grasp? (m.knowledge.value c.name) args = m.grasp? (m.knowledge.value c.name) args' := by
  have hname := pointName_connective hm hc c
  generalize m.knowledge.value c.name = fn at hname
  unfold grasp?
  simp only [hp.mem_iff]
  split
  · rename_i hknows
    obtain ⟨op, rfl, hop⟩ := exists_of_knows hknows.1
    refine result?_perm ?_ (hp.map Point.index)
    change isCommutative (m.vocabulary.name (m.root op)) = true
    rw [hop]
    change m.vocabulary.name op = c.name at hname
    rw [hname]
    exact hcomm
  · rfl

theorem lawful_knowledge (hm : m.Closed) (hc : m.ConfinedTo suits) : m.knowledge.Lawful := by
  refine Interpretation.lawful_of_demand ?_ ?_
  · intro c args p hd
    cases hg : m.grasp? (m.knowledge.value c.name) args with
    | some r =>
      rw [apply_of_grasp? hg] at hd
      exact eq_of_demand_knowledge hm hc hg hd
    | none =>
      rw [apply_connective hm hc hg] at hd
      exact Connective.eq_of_demand_complete (truth_ne_falsehood_knowledge hm) hd
  · intro op args args' hop hp
    obtain ⟨c, rfl, hne⟩ := exists_connective_of_isCommutative hop
    have hg := grasp?_perm hm hc hop hp
    cases h : m.grasp? (m.knowledge.value c.name) args with
    | some r => rw [apply_of_grasp? h, apply_of_grasp? (hg.symm.trans h)]
    | none =>
      rw [apply_connective hm hc h, apply_connective hm hc (hg.symm.trans h)]
      exact Connective.complete_perm hne hp

def Grasps (m : Model) (fn : Point) (args : List Point) : Prop := (m.grasp? fn args).isSome = true

theorem grasp?_known {op : Nat} {is : List Nat} (hop : m.root op = op)
    (his : ∀ i ∈ is, m.root i = i) :
    m.grasp? (.known op) (is.map Point.known) = m.result? ⟨op, is⟩ := by
  have hknows : m.Knows (.known op) ∧ ∀ a ∈ is.map Point.known, m.Knows a := by
    refine ⟨hop, ?_⟩
    intro a ha
    obtain ⟨i, hi, rfl⟩ := List.mem_map.mp ha
    exact his i hi
  rw [grasp?, if_pos hknows, List.map_map]
  exact congrArg (fun args => m.result? ⟨op, args⟩) (List.map_id is)

theorem root_result? (hm : m.Closed) {app : Application} {r : Nat} (h : m.result? app = some r) :
    m.root r = r := by
  obtain ⟨i, -, rfl⟩ := Option.map_eq_some_iff.mp h
  exact hm.filed.vocabulary.root_root _

theorem find?_under_symbol (m : Model) (σ : Text → Text) (s : Symbol) :
    m.find? ((Term.symbol s).under σ) = m.vocabulary.rootOf? (s.nameUnder σ) := by
  rw [Term.under, Symbol.nameUnder]
  split
  · rfl
  · rfl

section Finding

variable {J : Interpretation Point} {σ : Text → Text}

mutual

/-- What is known of a term under names for its variables is its value, if the variables have the
classes of these names as values; and every application in the term is grasped. -/
theorem read_of_find? (hm : m.Closed) (hap : J.apply = m.knowledge.apply) (t : Term)
    (ht : t.applicative = true)
    (hJ : ∀ s ∈ t.symbols, ∀ i, m.vocabulary.rootOf? (s.nameUnder σ) = some i →
      J.value s.name = .known i) {r : Nat} (h : m.find? (t.under σ) = some r) :
    J.read t = .known r ∧ m.root r = r ∧ J.Throughout m.Grasps t := by
  match t with
  | .symbol s =>
    rw [find?_under_symbol] at h
    refine ⟨?_, ?_, ?_⟩
    · rw [Interpretation.read_symbol]
      exact hJ s List.mem_cons_self r h
    · obtain ⟨i, -, rfl⟩ := Option.map_eq_some_iff.mp h
      exact hm.filed.vocabulary.root_root i
    · intro u hu
      simp [Term.applications] at hu
  | .apply fn args k =>
    rw [Term.applicative, Bool.and_eq_true] at ht
    rw [Term.under, find?_apply_eq hm] at h
    simp only [Option.bind_eq_some_iff] at h
    obtain ⟨op, hop, is, his, hres⟩ := h
    obtain ⟨hfn, hroot, hthrough⟩ := read_of_find? hm hap fn ht.1
      (fun s hs => hJ s (by rw [Term.symbols]; exact List.mem_append_left _ hs)) hop
    obtain ⟨hargs, hroots, hthroughs⟩ := readAll_of_findAll? hm hap args ht.2
      (fun s hs => hJ s (by rw [Term.symbols]; exact List.mem_append_right _ hs)) his
    have hgrasp : m.grasp? (J.read fn) (args.map J.read) = some r := by
      rw [hfn, hargs, grasp?_known hroot hroots]
      exact hres
    refine ⟨?_, root_result? hm hres, ?_⟩
    · rw [Interpretation.read_apply, hap]
      exact apply_of_grasp? hgrasp
    · intro u hu
      rw [Term.applications, List.mem_cons, List.mem_append,
        Term.applicationsAll_eq_flatMap, List.mem_flatMap] at hu
      rcases hu with rfl | hu | ⟨a, ha, hu⟩
      · exact Option.isSome_iff_exists.mpr ⟨r, hgrasp⟩
      · exact hthrough u hu
      · exact hthroughs a ha u hu
  | .lambda params body k => exact absurd ht (by simp [Term.applicative])
  | .cases branches otherwise k => exact absurd ht (by simp [Term.applicative])

theorem readAll_of_findAll? (hm : m.Closed) (hap : J.apply = m.knowledge.apply) (ts : List Term)
    (hts : Term.applicativeAll ts = true)
    (hJ : ∀ s ∈ Term.symbolsAll ts, ∀ i, m.vocabulary.rootOf? (s.nameUnder σ) = some i →
      J.value s.name = .known i) {is : List Nat} (h : m.findAll? (Term.underAll σ ts) = some is) :
    ts.map J.read = is.map Point.known ∧ (∀ i ∈ is, m.root i = i) ∧
      ∀ t ∈ ts, J.Throughout m.Grasps t := by
  match ts with
  | [] =>
    rw [Term.underAll, findAll?] at h
    cases h
    exact ⟨rfl, by simp, by simp⟩
  | t :: rest =>
    rw [Term.applicativeAll, Bool.and_eq_true] at hts
    rw [Term.underAll, findAll?] at h
    simp only [bind, Option.bind_eq_some_iff, pure, Option.some.injEq] at h
    obtain ⟨i, hi, js, hjs, rfl⟩ := h
    obtain ⟨hread, hroot, hthrough⟩ := read_of_find? hm hap t hts.1
      (fun s hs => hJ s (by rw [Term.symbolsAll]; exact List.mem_append_left _ hs)) hi
    obtain ⟨hreads, hroots, hthroughs⟩ := readAll_of_findAll? hm hap rest hts.2
      (fun s hs => hJ s (by rw [Term.symbolsAll]; exact List.mem_append_right _ hs)) hjs
    exact ⟨by rw [List.map_cons, List.map_cons, hread, hreads],
      List.forall_mem_cons.mpr ⟨hroot, hroots⟩, List.forall_mem_cons.mpr ⟨hthrough, hthroughs⟩⟩

end

end Finding

end Model

end Congruence

end Discharge
