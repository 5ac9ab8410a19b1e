import JsonPlan.Decimal.Numeral

/-! Days of the proleptic Gregorian calendar, counted from the first of January 1970. -/

namespace JsonPlan.Calendar

/-- A day by year, month 1 to 12 and day of the month from 1. -/
structure Civil where
  year : Int
  month : Nat
  day : Nat
  deriving DecidableEq, Repr

namespace Civil

/-- Days from the first of March of the year 0 to the epoch. -/
def epochOffset : Int := 719468

/-- Days in 400 years, after which the calendar repeats. -/
def eraDays : Int := 146097

/-- The day with number `days`. Years are counted from March, so that a leap day ends one. -/
def ofDays (days : Int) : Civil :=
  let z := days + epochOffset
  let era := z / eraDays
  let doe := z % eraDays
  let yoe := (doe - doe / 1460 + doe / 36524 - doe / 146096) / 365
  let doy := doe - (365 * yoe + yoe / 4 - yoe / 100)
  let mp := (5 * doy + 2) / 153
  let month := if mp < 10 then mp + 3 else mp - 9
  { year := yoe + era * 400 + if month ≤ 2 then 1 else 0
    month := month.toNat
    day := (doy - (153 * mp + 2) / 5 + 1).toNat }

/-- The number of a day. -/
def toDays (c : Civil) : Int :=
  let y := if c.month ≤ 2 then c.year - 1 else c.year
  let yoe := y % 400
  let mp : Int := if 2 < c.month then c.month - 3 else c.month + 9
  let doy := (153 * mp + 2) / 5 + c.day - 1
  y / 400 * eraDays + (yoe * 365 + yoe / 4 - yoe / 100 + doy) - epochOffset

end Civil

/-- The day of the week of a day number, from Sunday. -/
def weekday (days : Int) : Nat := ((days + 4) % 7).toNat

def weekdayNames : List String := ["Sun", "Mon", "Tue", "Wed", "Thu", "Fri", "Sat"]

def monthNames : List String :=
  ["Jan", "Feb", "Mar", "Apr", "May", "Jun", "Jul", "Aug", "Sep", "Oct", "Nov", "Dec"]

end JsonPlan.Calendar
