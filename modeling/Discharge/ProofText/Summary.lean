import Discharge.Result
import Discharge.Text.Banner

namespace Discharge.ProofText

def summaryLine (r : Result) : Text :=
  if r.skipped then toString r.id ++ " skipped\n"
  else toString r.id ++ " " ++ r.phrase ++ " time: " ++ toString r.milliseconds ++ " ms\n"

def summary (results : List Result) (elapsed : Nat) : Text :=
  let banner := Text.banner "Summary"
  banner ++ Text.join (results.map summaryLine) ++
    "Elapsed time from construction: " ++ toString elapsed ++ " ms\n" ++ banner

def body (results : List Result) (elapsed : Nat) : Text :=
  Text.join (results.map Result.trace) ++ summary results elapsed

end Discharge.ProofText
