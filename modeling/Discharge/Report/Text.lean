import Discharge.ProofText.Diff
import Discharge.Report.Totals

namespace Discharge.Report

def provedStyle : Style := ⟨.green, true⟩
def vacuousStyle : Style := ⟨.brightYellow, true⟩
def failedStyle : Style := ⟨.red, true⟩
def skippedStyle : Style := ⟨.white, false⟩
def fileStyle : Style := ⟨.cyan, true⟩
def lineStyle : Style := ⟨.brightBlue, true⟩
def noteStyle : Style := ⟨.white, false⟩

def statusStyle (r : Result) : Style :=
  if r.skipped then skippedStyle
  else match r.status with
    | .proved => provedStyle
    | .falseAssumption => vacuousStyle
    | .evaluating => failedStyle

def padRight (width : Nat) (text : Text) : Text :=
  text ++ String.ofList (List.replicate (width - text.length) ' ')

def effort (colours : Bool) (r : Result) : Text :=
  if r.skipped then ""
  else
    noteStyle.paint colours
      (" [" ++ toString r.milliseconds ++ " ms, " ++ toString r.steps ++ " steps") ++
    (if r.cached then noteStyle.paint colours ", cached" else "") ++
    noteStyle.paint colours "]"

def resultLine (colours : Bool) (r : Result) : Text :=
  "  " ++ (statusStyle r).paint colours (padRight 30 r.phrase) ++
    lineStyle.paint colours (" VC " ++ toString r.id) ++ effort colours r ++
    (if r.explanation.isEmpty then .empty else " " ++ r.explanation) ++
    lineStyle.paint colours (" " ++ r.location.render) ++ "\n"

def render (colours : Bool) (r : Report) : Text :=
  fileStyle.paint colours "--> " ++
    fileStyle.paint colours (r.file ++ " (" ++ r.module ++ ")") ++ "\n" ++
    Text.join (r.resultList.map (resultLine colours))

def renderDiff (colours : Bool) (r : Report) : Text :=
  let changed := ProofText.diff colours r.previous r.proof
  if changed.isEmpty then "" else "proof of " ++ r.module ++ " changed:\n" ++ changed

def Totals.render (colours : Bool) (t : Totals) : Text :=
  let part (style : Style) (n : Nat) (text : Text) : List Text :=
    if n == 0 then [] else [style.paint colours (toString n ++ text)]
  Text.intercalate ", " (provedStyle.paint colours (toString t.proved ++ " proved") ::
    part vacuousStyle t.vacuous " with false assumptions" ++
    part failedStyle t.failed " not proved" ++
    part skippedStyle t.skipped " skipped") ++
  " of " ++ toString t.total ++ " VCs" ++
  (if t.cached == 0 then .empty else
    noteStyle.paint colours (" (" ++ toString t.cached ++ " from cache)")) ++ "\n"

def renderAll (colours diff : Bool) (reports : List Report) : Text :=
  Text.join (reports.map fun r =>
    r.render colours ++ if diff then r.renderDiff colours else .empty) ++
  (Totals.ofReports reports).render colours

end Discharge.Report
