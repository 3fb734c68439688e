import Discharge.Text

namespace Discharge.Text

def lineWidth : Nat := 80

def bannerLabel (label : Text) : Text :=
  " " ++ (if label.length > lineWidth - 2 then ofList (label.toList.take (lineWidth - 3))
    else label) ++ " "

/-- So many equals signs. -/
def rule (width : Nat) : Text := ofList (List.replicate width 0x3D)

/-- A line of equals signs with the label in its middle. Its width is counted in bytes. -/
def banner (label : Text) : Text :=
  let label := bannerLabel label
  let before := lineWidth / 2 - label.length / 2
  rule before ++ label ++ rule (lineWidth - before - label.length) ++ "\n"

end Discharge.Text
