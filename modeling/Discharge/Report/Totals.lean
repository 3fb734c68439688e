import Discharge.Result

namespace Discharge

structure Report where
  run : Text := ""
  file : Text
  module : Text
  proofFile : Text := ""
  results : Option (List Result)
  proof : Text := ""
  previous : Text := ""
  summary : Text := ""
  deriving DecidableEq, Repr, Inhabited

namespace Report

def resultList (r : Report) : List Result := r.results.getD []

def failed (r : Report) : Bool := r.resultList.any fun x => !x.status.isTerminal

structure Totals where
  proved : Nat := 0
  vacuous : Nat := 0
  failed : Nat := 0
  skipped : Nat := 0
  cached : Nat := 0
  deriving DecidableEq, Repr, Inhabited

namespace Totals

def total (t : Totals) : Nat := t.proved + t.vacuous + t.failed + t.skipped

def add (t : Totals) (r : Result) : Totals :=
  let t := if r.cached then { t with cached := t.cached + 1 } else t
  if r.skipped then { t with skipped := t.skipped + 1 }
  else match r.status with
    | .proved => { t with proved := t.proved + 1 }
    | .falseAssumption => { t with vacuous := t.vacuous + 1 }
    | .evaluating => { t with failed := t.failed + 1 }

def ofReports (reports : List Report) : Totals :=
  (reports.flatMap resultList).foldl add {}

end Totals

end Report

end Discharge
