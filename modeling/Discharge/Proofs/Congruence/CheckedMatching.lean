import Discharge.Proofs.Congruence.Checked

namespace Discharge.Congruence.Checked

section Definitions

variable (m : Model) (pattern : Vocabulary)

def unify (symbol actual : Nat) (b : Binding) : Except Fault (Option Binding) := do
  let name ← pattern.nameAt (pattern.root symbol)
  if (← pattern.usageOf name).isVariable then
    let bound := b.get name
    if bound.isEmpty then return some (b.set name (← m.vocabulary.nameAt actual))
    else return if m.vocabulary.rootOf? bound == some actual then some b else none
  else return if m.vocabulary.rootOf? name == some actual then some b else none

def unifyAll : List Nat → List Nat → Binding → Except Fault (Option Binding)
  | s :: ss, a :: as, b => do
    match ← unify m pattern s a b with
    | none => return none
    | some b => unifyAll ss as b
  | _, _, b => .ok (some b)

def unifyFact (p f : Fact) (b : Binding) : Except Fault (Option Binding) :=
  unifyAll m pattern (p.app.places ++ [p.result]) (f.app.places ++ [f.result]) b

def orders (f : Fact) : Except Fault (List Fact) :=
  match f.app.args with
  | [a, b] =>
    return if isCommutative (← m.vocabulary.nameAt f.app.op) then
      [f, ⟨⟨f.app.op, [b, a]⟩, f.result⟩] else [f]
  | _ => .ok [f]

def eligible (p : Fact) : Except Fault (List Fact) := do
  let name ← pattern.nameAt (pattern.root p.app.op)
  let usage ← pattern.usageOf name
  let fits : Fact → Bool :=
    if usage.isVariable then fun _ => true
    else match m.vocabulary.rootOf? name with
      | none => fun _ => false
      | some op => fun f => f.app.op == op
  let facts := m.facts.filter fun f => f.app.args.length == p.app.args.length && fits f
  return (← facts.mapM (orders m)).flatten

def join (bindings : List Binding) (p : Fact) : Except Fault (List Binding) := do
  let facts ← eligible m pattern p
  let found ← bindings.mapM fun b => facts.mapM fun f => unifyFact m pattern p f b
  return firstOfKey Binding.key (found.flatMap (List.filterMap id))

end Definitions

variable {m : Model} {pattern : Vocabulary}

theorem unify_eq (hpattern : pattern.WellFormed) {symbol actual : Nat}
    (hs : symbol < pattern.size) (ha : actual < m.vocabulary.size) (b : Binding) :
    unify m pattern symbol actual b = .ok (m.unify pattern symbol actual b) := by
  have hr := hpattern.root_lt hs
  rw [unify, Vocabulary.nameAt_eq hr]
  dsimp only [bind, Except.bind]
  rw [Vocabulary.usageOf_eq (hpattern.lookup?_name hr), Vocabulary.nameAt_eq ha, Model.unify]
  dsimp only
  split
  · split <;> rfl
  · rfl

theorem unifyAll_eq (hpattern : pattern.WellFormed) (ss as : List Nat)
    (hs : ∀ s ∈ ss, s < pattern.size) (ha : ∀ a ∈ as, a < m.vocabulary.size) (b : Binding) :
    unifyAll m pattern ss as b = .ok (m.unifyAll pattern ss as b) := by
  induction ss generalizing as b with
  | nil => cases as <;> rfl
  | cons s ss ih =>
    cases as with
    | nil => rfl
    | cons a as =>
      obtain ⟨hs₀, hs⟩ := List.forall_mem_cons.mp hs
      obtain ⟨ha₀, ha⟩ := List.forall_mem_cons.mp ha
      rw [unifyAll, Model.unifyAll, unify_eq hpattern hs₀ ha₀ b]
      cases m.unify pattern s a b with
      | none => rfl
      | some b => exact ih as hs ha b

theorem orders_eq (hm : m.Closed) {f : Fact} (hf : f ∈ m.facts) :
    orders m f = .ok (m.orders f) := by
  have hop := hm.symbols_fact_lt hf f.app.op f.op_mem_symbols
  obtain ⟨⟨op, args⟩, result⟩ := f
  match args with
  | [a, b] =>
    unfold orders Model.orders
    dsimp only
    rw [Vocabulary.nameAt_eq hop]
    rfl
  | [] | [_] | _ :: _ :: _ :: _ => rfl

theorem eligible_eq (hm : m.Closed) (hpattern : pattern.WellFormed) {p : Fact}
    (hp : ∀ s ∈ p.app.places ++ [p.result], s < pattern.size) :
    eligible m pattern p = .ok (m.eligible pattern p) := by
  have hr := hpattern.root_lt (hp p.app.op p.op_mem_symbols)
  rw [eligible, Vocabulary.nameAt_eq hr]
  dsimp only [bind, Except.bind]
  rw [Vocabulary.usageOf_eq (hpattern.lookup?_name hr)]
  dsimp only
  rw [mapM_eq_ok fun f hf => orders_eq hm (List.mem_of_mem_filter hf)]
  exact congrArg Except.ok List.flatMap_def.symm

theorem join_eq (hm : m.Closed) (hpattern : pattern.WellFormed) {p : Fact}
    (hp : ∀ s ∈ p.app.places ++ [p.result], s < pattern.size) (bindings : List Binding) :
    join m pattern bindings p = .ok (m.join pattern bindings p) := by
  have hunify (b : Binding) : ((m.eligible pattern p).mapM fun f => unifyFact m pattern p f b) =
      .ok ((m.eligible pattern p).map fun f => m.unifyFact pattern p f b) := by
    refine mapM_eq_ok fun g hg => unifyAll_eq hpattern _ _ hp ?_ b
    obtain ⟨f, hf, -, horder⟩ := Model.mem_eligible hg
    exact fun s hs => (hm.symbols_orders hf horder s hs).1
  rw [join, eligible_eq hm hpattern hp]
  dsimp only [bind, Except.bind]
  rw [mapM_eq_ok fun b _ => hunify b]
  refine congrArg Except.ok ?_
  rw [Model.join, List.flatMap_map]
  refine congrArg (firstOfKey Binding.key) (List.flatMap_congr fun b _ => ?_)
  rw [List.filterMap_map]
  rfl

end Discharge.Congruence.Checked
