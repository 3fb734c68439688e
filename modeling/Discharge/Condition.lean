import Discharge.Term.Printer

/-!
Verification conditions: assumed formulas that have to imply goal formulas, with the place of the
program text that they were generated for.
-/

namespace Discharge

structure Location where
  file : Text := ""
  line : Int := 0
  column : Int := 0
  deriving DecidableEq, Repr, Inhabited

def Location.render (l : Location) : Text :=
  if l.file.isEmpty then "?"
  else l.file ++ ":" ++ toString l.line ++ ":" ++ toString l.column

structure Sequent where
  left : List Term
  right : List Term
  deriving Inhabited

def Sequent.side (terms : List Term) : Text :=
  "\x7b" ++ Text.intercalate ", " (terms.map Term.render) ++ "\x7d"

def Sequent.render (s : Sequent) : Text :=
  side s.left ++ " ==> " ++ side s.right

structure Condition where
  id : Int
  explanation : Text := ""
  location : Location := {}
  sequent : Sequent
  deriving Inhabited

end Discharge
