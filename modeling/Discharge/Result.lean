import Discharge.Condition

namespace Discharge

inductive Status where
  | evaluating
  | proved
  /-- The assumptions contradict each other, so the condition holds for want of a case. -/
  | falseAssumption
  deriving DecidableEq, Repr, Inhabited

namespace Status

def name : Status → Text
  | evaluating => "STILL_EVALUATING"
  | proved => "PROVED"
  | falseAssumption => "FALSE_ASSUMPTION"

/-- Whether no further work can change the status. -/
def isTerminal (s : Status) : Bool := s != evaluating

def ofName? (text : Text) : Option Status :=
  [evaluating, proved, falseAssumption].find? fun s => s.name == text

def code : Status → Nat
  | evaluating => 0
  | proved => 1
  | falseAssumption => 2

def ofCode? (n : Int) : Option Status :=
  [evaluating, proved, falseAssumption].find? fun s => s.code == n

def codeName (n : Int) : Text := ((ofCode? n).map name).getD "UNKNOWN"

end Status

structure Result where
  id : Int
  explanation : Text := ""
  location : Location := {}
  status : Status := .evaluating
  skipped : Bool := false
  cached : Bool := false
  steps : Int := 0
  duration : Int := 0
  trace : Text := ""
  deriving DecidableEq, Repr, Inhabited

namespace Result

def phrase (r : Result) : Text :=
  if r.skipped then "skipped"
  else match r.status with
    | .proved => "Proved"
    | .falseAssumption => "Proved (Assumption(s) false)"
    | .evaluating => "Out of theorems, or timed out"

def milliseconds (r : Result) : Int := r.duration.tdiv 1000000

/-- The outcome of a condition that is not attempted. -/
def skip (c : Condition) : Result :=
  { id := c.id, explanation := c.explanation, location := c.location, skipped := true }

end Result

end Discharge
