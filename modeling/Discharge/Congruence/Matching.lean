import Discharge.Congruence.Model

/-!
Matching of patterns in models. A pattern is a list of facts over a vocabulary of its own; a binding
gives model symbols to its variables, and joining the facts one after another extends it by every
way in which they hold in the model.
-/

namespace Discharge.Congruence

/-- The values of variables, in the order of their names. An empty value means that the variable is
still unbound. -/
structure Binding where
  entries : List (Text × Text)
  deriving DecidableEq, Repr, Inhabited

namespace Binding

def get (b : Binding) (name : Text) : Text := (b.entries.lookup name).getD ""

def insertEntry (name value : Text) : List (Text × Text) → List (Text × Text)
  | [] => [(name, value)]
  | (n, v) :: rest =>
    if n == name then (name, value) :: rest
    else if name < n then (name, value) :: (n, v) :: rest
    else (n, v) :: insertEntry name value rest

def set (b : Binding) (name value : Text) : Binding := ⟨insertEntry name value b.entries⟩

def ofList (values : List (Text × Text)) : Binding :=
  values.foldl (fun b (n, v) => b.set n v) ⟨[]⟩

def unbound (names : List Text) : Binding := ofList (names.map fun n => (n, ""))

/-- The text that tells bindings apart. -/
def key (b : Binding) : Text :=
  Text.intercalate "," (b.entries.map fun (n, v) => n ++ "=" ++ v)

def render (b : Binding) : Text := "\x7b" ++ b.key ++ "\x7d"

end Binding

/-- How well a binding suits the model of a vocabulary; lower is better. Four fifths of the weight
goes to the average age of the classes bound, the rest to how many values share one. -/
def Vocabulary.score (v : Vocabulary) (b : Binding) : Nat :=
  let roots := b.entries.filterMap fun (_, value) =>
    if value.isEmpty then none else v.rootOf? value
  if roots.isEmpty then 0
  else
    let count := roots.length.toFloat
    let age := (roots.foldl (· + ·) 0).toFloat / count
    let diversity := 1.0 - roots.eraseDups.length.toFloat / count
    (80.0 * (age / v.size.toFloat + 0.01) + 20.0 * (diversity + 0.01)).toUInt64.toNat

def firstOfKey {α : Type} (key : α → Text) (values : List α) : List α :=
  (values.foldl (fun (seen, kept) a =>
    let k := key a
    if seen.contains k then (seen, kept) else (seen.insert k (), kept.push a))
    ((∅ : Std.TreeMap Text Unit), (#[] : Array α))).2.toList

namespace Model

/-- Extends a binding so that a symbol of the pattern stands for a root of the model. A constant of
the pattern has to name that class, and a bound variable has to have its value in it. -/
def unify (m : Model) (pattern : Vocabulary) (symbol actual : Nat) (b : Binding) :
    Option Binding :=
  let r := pattern.root symbol
  let name := pattern.name r
  if (pattern.usage r).isVariable then
    let bound := b.get name
    if bound.isEmpty then some (b.set name (m.vocabulary.name actual))
    else if m.vocabulary.rootOf? bound == some actual then some b
    else none
  else if m.vocabulary.rootOf? name == some actual then some b
  else none

def unifyAll (m : Model) (pattern : Vocabulary) :
    List Nat → List Nat → Binding → Option Binding
  | s :: ss, a :: as, b => (m.unify pattern s a b).bind (m.unifyAll pattern ss as)
  | _, _, b => some b

def unifyFact (m : Model) (pattern : Vocabulary) (p f : Fact) (b : Binding) : Option Binding :=
  m.unifyAll pattern (p.app.places ++ [p.result]) (f.app.places ++ [f.result]) b

def orders (m : Model) (f : Fact) : List Fact :=
  match f.app.args with
  | [a, b] =>
    if isCommutative (m.vocabulary.name f.app.op) then [f, ⟨⟨f.app.op, [b, a]⟩, f.result⟩] else [f]
  | _ => [f]

/-- The facts that a fact of the pattern may become: those of its arity and, if its operator is a
constant, of that operator. -/
def eligible (m : Model) (pattern : Vocabulary) (p : Fact) : List Fact :=
  let r := pattern.root p.app.op
  let fits : Fact → Bool :=
    if (pattern.usage r).isVariable then fun _ => true
    else match m.vocabulary.rootOf? (pattern.name r) with
      | none => fun _ => false
      | some op => fun f => f.app.op == op
  (m.facts.filter fun f => f.app.args.length == p.app.args.length && fits f).flatMap m.orders

/-- Extends each binding by every way in which the fact of the pattern holds in the model. -/
def join (m : Model) (pattern : Vocabulary) (bindings : List Binding) (p : Fact) : List Binding :=
  let facts := m.eligible pattern p
  firstOfKey Binding.key
    (bindings.flatMap fun b => facts.filterMap fun f => m.unifyFact pattern p f b)

end Model

end Discharge.Congruence
