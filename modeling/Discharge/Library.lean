import Discharge.Condition
import Discharge.Error

/-!
Modules and what can be seen from them. A module sees itself, then what it imports and what is
imported by default, then what those import, each module once and the nearer ones first.
-/

namespace Discharge

/-- A theorem as a module declares it. -/
structure Declaration where
  name : Text
  assertion : Option Term
  deriving Inhabited

structure Module where
  name : Text
  path : Text := ""
  imports : List Text := []
  symbols : List (Text × Kind) := []
  theorems : List Declaration := []
  conditions : List Condition := []
  deriving Inhabited

structure Theorem where
  name : Text
  module : Text
  assertion : Term
  deriving Inhabited

structure DeclaredSymbol where
  name : Text
  module : Text
  kind : Kind
  deriving DecidableEq, Repr, Inhabited

/-- How far a question about a module looks. -/
inductive Scope where
  | own
  | direct
  | transitive
  deriving DecidableEq, Repr, Inhabited

structure Library where
  modules : List Module := []
  defaults : List Text := []
  deriving Inhabited

namespace Library

def get? (l : Library) (name : Text) : Option Module :=
  l.modules.find? fun m => m.name == name

def contains (l : Library) (name : Text) : Bool := (l.get? name).isSome

def put (l : Library) (m : Module) : Library :=
  { l with modules := m :: l.modules.filter fun n => n.name != m.name }

def putAll (l : Library) (modules : List Module) : Library := modules.foldl put l

def names (l : Library) : List Text := Text.sorted (l.modules.map Module.name)

def module (l : Library) (name : Text) : Except Error Module :=
  match l.get? name with
  | some m => .ok m
  | none => .error (.because (.noSuchModule name))

def importsOf (l : Library) (m : Module) : List Text := m.imports ++ l.defaults

structure Visible where
  modules : List Module
  seen : List Text
  missing : List (Text × Text)
  deriving Inhabited

def Visible.meet (l : Library) (importer : Text) (v : Visible) (name : Text) : Visible :=
  if v.seen.contains name then v
  else match l.get? name with
    | some m => { v with modules := v.modules ++ [m], seen := name :: v.seen }
    | none =>
      { v with seen := name :: v.seen, missing := v.missing ++ [(name, importer)] }

/-- Meets the imports of the found modules from a position on, at most `fuel` modules of them. -/
def Visible.explore (l : Library) : (fuel position : Nat) → Visible → Visible
  | 0, _, v => v
  | fuel + 1, position, v =>
    match v.modules[position]? with
    | none => v
    | some m => explore l fuel (position + 1) ((l.importsOf m).foldl (Visible.meet l m.name) v)

def Visible.error? (v : Visible) : Option Error :=
  Error.join (v.missing.map fun (name, importer) => .because (.missingImport name importer))

/-- The modules in scope of a module, which is the first of them. No module is found twice, so
there are no more of them than the library has. -/
def visible (l : Library) (m : Module) (scope : Scope) : Visible :=
  let start : Visible := ⟨[m], [m.name], []⟩
  match scope with
  | .own => start
  | .direct => start.explore l 1 0
  | .transitive => start.explore l l.modules.length 0

structure Collected where
  theorems : List Theorem
  errors : List Error
  deriving Inhabited

def Collected.add (module : Text) (c : Collected) (d : Declaration) : Collected :=
  match d.assertion with
  | none => { c with errors := c.errors ++ [.because (.missingAssertion module d.name)] }
  | some assertion =>
    match c.theorems.find? fun t => t.name == d.name with
    | some kept =>
      { c with errors := c.errors ++ [.because (.shadowedTheorem d.name kept.module module)] }
    | none => { c with theorems := c.theorems ++ [⟨d.name, module, assertion⟩] }

def theorems (l : Library) (name : Text) (scope : Scope) : Collected :=
  match l.get? name with
  | none => ⟨[], [.because (.noSuchModule name)]⟩
  | some m =>
    let v := l.visible m scope
    v.modules.foldl (fun c m => m.theorems.foldl (Collected.add m.name) c) ⟨[], v.error?.toList⟩

def Module.declared? (m : Module) (name : Text) : Option DeclaredSymbol :=
  (m.symbols.lookup name).map fun k => ⟨name, m.name, k⟩

def symbol? (l : Library) (module name : Text) : Option DeclaredSymbol := do
  let m ← l.get? module
  (l.visible m .transitive).modules.findSome? fun m => Module.declared? m name

def Module.declared (m : Module) : List DeclaredSymbol :=
  m.symbols.map fun (name, k) => ⟨name, m.name, k⟩

/-- Adds a declaration in place of any other of its name. -/
def overwrite (d : DeclaredSymbol) (found : List DeclaredSymbol) : List DeclaredSymbol :=
  d :: found.filter fun s => s.name != d.name

/-- The symbols that are visible from a module. The farthest modules come first, and what the nearer
ones declare overwrites theirs. -/
def symbols (l : Library) (module : Text) : List DeclaredSymbol :=
  match l.get? module with
  | none => []
  | some m =>
    (l.visible m .transitive).modules.foldr (fun m found => (Module.declared m).foldr overwrite found) []

def hasIntegerSorts (l : Library) (module : Text) : Bool :=
  (l.symbol? module Kind.integer.name).isSome && (l.symbol? module Kind.natural.name).isSome

end Library

end Discharge
