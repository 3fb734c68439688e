import Discharge.Condition
import Discharge.Text.Banner

namespace Discharge.Search

/-- Time is counted in ticks of a microsecond. -/
def milliseconds (ticks : Nat) : Nat := ticks / 1000

inductive Line where
  | noMatch (rule : Text) (time : Nat)
  | emptied (rule : Text) (time : Nat)
  | step (round chosen roundTime searchTime elapsed : Nat) (score : Int)
      (rule candidate change : Text)
  | model (text : Text)
  deriving DecidableEq, Repr, Inhabited

def Line.render : Line → Text
  | noMatch rule time =>
    "Could not find any matches for " ++ rule ++ "[" ++ toString time ++ "ms]\n\n"
  | emptied rule time =>
    "Emptied queue for " ++ rule ++ " with no new results [" ++ toString time ++ "ms]\n\n"
  | step round chosen roundTime searchTime elapsed score rule candidate change =>
    "Iter:" ++ toString round ++ "." ++ toString chosen ++
      " Iter Time: " ++ toString roundTime ++
      " Search Time for this theorem: " ++ toString searchTime ++
      " Elapsed Time: " ++ toString elapsed ++
      "\n[" ++ toString score ++ "]" ++ rule ++ "\n" ++ candidate ++ "\t" ++ change ++ "\n\n"
  | model text => text ++ "\n\n"

structure Trace where
  id : Int
  sequent : Text
  lines : List Line
  final : Option Text
  deriving DecidableEq, Repr, Inhabited

def Trace.render (t : Trace) : Text :=
  let banner := Text.banner (toString t.id)
  banner ++ "Before application of theorems: " ++ t.sequent ++ "\n" ++
    Text.join (t.lines.map Line.render) ++
    ((t.final.map fun m => ("Final model:\n" : Text) ++ m ++ "\n").getD "") ++ banner

end Discharge.Search
