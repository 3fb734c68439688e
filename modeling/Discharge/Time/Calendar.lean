import Discharge.Time.Duration

namespace Discharge.Time

structure Date where
  year : Int
  month : Nat
  day : Nat
  deriving DecidableEq, Repr, Inhabited

/-- The date that is a number of days after the first of January 1970. Days are counted from the
first of March of the year 0, so that a leap day ends its year of a 400-year cycle. -/
def Date.ofDays (days : Int) : Date :=
  let z := days + 719468
  let cycle := z.fdiv 146097
  let day := (z.fmod 146097).toNat
  let year := (day - day / 1460 + day / 36524 - day / 146096) / 365
  let dayOfYear := day - (365 * year + year / 4 - year / 100)
  let m := (5 * dayOfYear + 2) / 153
  let month := if m < 10 then m + 3 else m - 9
  ⟨cycle * 400 + year + (if month ≤ 2 then 1 else 0), month, dayOfYear - (153 * m + 2) / 5 + 1⟩

def weekdays : List String := ["Sun", "Mon", "Tue", "Wed", "Thu", "Fri", "Sat"]

def months : List String :=
  ["Jan", "Feb", "Mar", "Apr", "May", "Jun", "Jul", "Aug", "Sep", "Oct", "Nov", "Dec"]

def weekday (days : Int) : Nat := ((days + 4).fmod 7).toNat

def two (n : Nat) : String := String.ofList (padded 2 n)

/-- The seconds from the first of March of the year -292277022400 to the start of 1970. -/
def secondsBefore1970 : Int := 9223372028741760000

/-- Seconds after the start of 1970 as a clock of 64 bits has them that starts in the year
-292277022400: a time before its start is one that it reaches at its end. -/
def onClock (seconds : Int) : Int :=
  (seconds + secondsBefore1970).fmod (2 * Decimal.wordLimit) - secondsBefore1970

def isZoneChar (c : Char) : Bool := c.isAlphanum || c == '+' || c == '-'

/-- What a zone is called, if it has a name, and by how many seconds it is ahead of universal
time. -/
structure Zone where
  abbreviation : String := ""
  offset : Int := 0
  plain : ∀ c ∈ abbreviation.toList, isZoneChar c = true
  deriving DecidableEq

namespace Zone

def utc : Zone where
  abbreviation := "UTC"
  plain := by simp [isZoneChar]

instance : Inhabited Zone := ⟨utc⟩

def text (z : Zone) : String :=
  if z.abbreviation.isEmpty then
    let minutes := z.offset.natAbs / 60
    (if z.offset ≤ -60 then "-" else "+") ++ two (minutes / 60) ++ two (minutes % 60)
  else z.abbreviation

end Zone

def dateText (zone : Zone) (seconds : Int) : String :=
  let seconds := onClock (seconds + zone.offset)
  let days := seconds.fdiv 86400
  let second := (seconds.fmod 86400).toNat
  let date := Date.ofDays days
  (weekdays[weekday days]?).getD "" ++ ", " ++ two date.day ++ " " ++
    (months[date.month - 1]?).getD "" ++ " " ++
    (if date.year < 0 then "-" else "") ++ String.ofList (padded 4 date.year.natAbs) ++ " " ++
    two (second / 3600) ++ ":" ++ two (second / 60 % 60) ++ ":" ++ two (second % 60) ++ " " ++
    zone.text

example : dateText ⟨"", -12600, by simp⟩ 0 = "Wed, 31 Dec 1969 20:30:00 -0330" := rfl

end Discharge.Time
