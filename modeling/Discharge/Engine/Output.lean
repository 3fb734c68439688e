import Discharge.Engine.Batch
import Discharge.Report.Json
import Discharge.Report.Text

namespace Discharge

structure Display where
  json : Bool := false
  diff : Bool := false
  colours : Bool := false
  target : Text := ""
  deriving DecidableEq, Repr, Inhabited

structure Shown where
  text : Text := ""
  error : Option Error := none
  files : Tree
  deriving Inhabited

def Display.present (d : Display) (files : Tree) (reports : List Report) : Shown :=
  if !d.json then ⟨Report.renderAll d.colours d.diff reports, none, files⟩
  else
    let text := Report.renderJson reports
    if d.target.isEmpty then ⟨text ++ "\n", none, files⟩
    else match files.write d.target text with
      | .ok files => ⟨"", none, files⟩
      | .error fault => ⟨"", some (.because (.file "open" d.target fault)), files⟩

structure Finished where
  text : Text
  failed : Bool
  error : Option Error
  deriving Inhabited

namespace Engine

def provePaths (e : Engine) (interruption : Option Interruption) (paths : List Text)
    (d : Display) : Except Fault Finished × Engine :=
  match (worker interruption).provePaths paths {} e with
  | (.error f, e) => (.error f, e)
  | (.ok b, e) =>
    let shown := d.present e.files b.reports
    (.ok ⟨shown.text, b.reports.any Report.failed, (Error.join b.errors).or shown.error⟩,
      { e with files := shown.files })

end Engine

end Discharge
