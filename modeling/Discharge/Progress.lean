import Discharge.Result

/-!
The count of decided obligations that a progress display shows. It begins anew with the first
obligation that is started after all those of a module were finished.
-/

namespace Discharge

structure Progress where
  /-- How many obligations the display is for and how many have finished, once it is there. -/
  display : Option (Int × Nat) := none
  proved : Nat := 0
  deriving DecidableEq, Repr, Inhabited

namespace Progress

def isFinished (p : Progress) : Bool :=
  match p.display with
  | none => true
  | some (total, finished) => total != -1 && total ≤ finished

def started (p : Progress) (total : Int) : Progress :=
  if p.isFinished then ⟨some (total, 0), 0⟩ else p

def finished (p : Progress) (status : Status) : Progress :=
  { display := p.display.map fun (total, n) => (total, n + 1)
    proved := if status.isTerminal then p.proved + 1 else p.proved }

end Progress

end Discharge
