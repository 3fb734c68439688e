import Discharge.Text

namespace Discharge.Report

inductive Colour where
  | red
  | green
  | cyan
  | white
  | brightYellow
  | brightBlue
  deriving DecidableEq, Repr, Inhabited

def Colour.code : Colour → Text
  | red => "31"
  | green => "32"
  | cyan => "36"
  | white => "37"
  | brightYellow => "93"
  | brightBlue => "94"

structure Style where
  colour : Colour
  bold : Bool := false
  deriving DecidableEq, Repr, Inhabited

def Style.paint (s : Style) (colours : Bool) (text : Text) : Text :=
  if colours then
    "\x1b[" ++ s.colour.code ++ (if s.bold then (";1" : Text) else "") ++ "m" ++ text ++
      "\x1b[0" ++ (if s.bold then (";22" : Text) else "") ++ "m"
  else text

end Discharge.Report
