import JsonPlan.Calendar.Gregorian
import JsonPlan.Calendar.Instant
import JsonPlan.Json.Reader

/-!
Reading dates of the form `2024-01-15T10:30:00.500Z`, by what each of their fields means. Each
reader takes what it reads off the front of the characters and hands back the rest.
-/

namespace JsonPlan.Calendar

open Json (isDigit digitsValue readDigits)

namespace Instant

/-! ## Clocks and instants -/

/-- An instant that there can be: a leap second has as many nanoseconds again. -/
def Admitted (t : Instant) : Prop := t.nanos < 2 * nanosPerSecond

instance (t : Instant) : Decidable t.Admitted := inferInstanceAs (Decidable (_ < _))

/-- An instant in a leap second that is not the last one of its minute. -/
def LeapsInside (t : Instant) : Prop := nanosPerSecond ≤ t.nanos ∧ t.seconds % 60 ≠ 59

instance (t : Instant) : Decidable t.LeapsInside := inferInstanceAs (Decidable (_ ∧ _))

/-- The instant of which a clock tells. It has a second 60 behind second 59 and nowhere else, and
shows the second after a leap second inside of a minute twice. -/
def shown (t : Instant) : Instant :=
  if t.LeapsInside then ⟨t.seconds + 1, t.nanos - nanosPerSecond⟩ else t

/-- What the calendar and a clock can show. -/
structure Clock.Valid (c : Clock) : Prop where
  date : c.date.Valid
  hour_lt : c.hour < 24
  minute_lt : c.minute < 60
  second_le : c.second ≤ 60
  fraction_lt : c.fraction < nanosPerSecond

instance (c : Clock) : Decidable c.Valid :=
  decidable_of_iff (c.date.Valid ∧ c.hour < 24 ∧ c.minute < 60 ∧ c.second ≤ 60 ∧
      c.fraction < nanosPerSecond)
    ⟨fun ⟨date, hour, minute, second, fraction⟩ => ⟨date, hour, minute, second, fraction⟩,
      fun h => ⟨h.date, h.hour_lt, h.minute_lt, h.second_le, h.fraction_lt⟩⟩

/-- When a clock shows this. Second 60 is one more than the second 59 that it follows. -/
def Clock.instant (c : Clock) : Instant where
  seconds := c.date.toDays * 86400 + (c.hour * 3600 + c.minute * 60 + min c.second 59 : Nat)
  nanos := (c.second - 59) * nanosPerSecond + c.fraction

/-! ## Readers -/

/-- Reads a given character. -/
def readMark (mark : Char) : List Char → Option (List Char)
  | c :: cs => if c = mark then some cs else none
  | [] => none

/-- Reads as many digits as a field has. -/
def readField (width : Nat) (cs : List Char) : Option (Nat × List Char) :=
  let ds := cs.take width
  if ds.length = width ∧ ds.all isDigit then some (digitsValue ds, cs.drop width) else none

/-- Reads a year: four digits, or a sign and the digits after it. -/
def readYear : List Char → Option (Int × List Char)
  | '-' :: cs => (readDigits cs).map fun year => (-(digitsValue year.1 : Int), year.2)
  | '+' :: cs => (readDigits cs).map fun year => ((digitsValue year.1 : Int), year.2)
  | cs => (readField 4 cs).map fun year => ((year.1 : Int), year.2)

/-- Reads the nanoseconds of 3, 6 or 9 digits after a point, if a point comes next. -/
def readNanos : List Char → Option (Nat × List Char)
  | '.' :: cs => do
    let (ds, cs) ← readDigits cs
    if ds.length ∈ [3, 6, 9] then some (digitsValue ds * 10 ^ (9 - ds.length), cs) else none
  | cs => some (0, cs)

def readDate (cs : List Char) : Option (Civil × List Char) := do
  let (year, cs) ← readYear cs
  let (month, cs) ← readField 2 (← readMark '-' cs)
  let (day, cs) ← readField 2 (← readMark '-' cs)
  return (⟨year, month, day⟩, cs)

/-- Reads what a clock shows. -/
def readClock (cs : List Char) : Option (Clock × List Char) := do
  let (date, cs) ← readDate cs
  let (hour, cs) ← readField 2 (← readMark 'T' cs)
  let (minute, cs) ← readField 2 (← readMark ':' cs)
  let (second, cs) ← readField 2 (← readMark ':' cs)
  let (fraction, cs) ← readNanos cs
  return (⟨date, hour, minute, second, fraction⟩, ← readMark 'Z' cs)

/-- Reads an instant that is all of a text, if the calendar and the clock have it. -/
def ofIso? (text : String) : Option Instant :=
  match readClock text.toList with
  | some (c, []) => if c.Valid then some c.instant else none
  | _ => none

end Instant
end JsonPlan.Calendar
