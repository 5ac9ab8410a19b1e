import JsonPlan.Calendar.Civil

/-! Instants in UTC with nanoseconds, leap seconds included, and their texts. -/

namespace JsonPlan.Calendar

open Decimal

/-- Seconds since the epoch and nanoseconds. From `10 ^ 9` on the nanoseconds belong to a leap second
after that second, which is a second 59 as a rule. -/
structure Instant where
  seconds : Int
  nanos : Nat
  deriving DecidableEq, Repr

namespace Instant

def nanosPerSecond : Nat := 1_000_000_000

/-- What a calendar and a clock in UTC show. -/
structure Clock where
  date : Civil
  hour : Nat
  minute : Nat
  /-- 60 in a leap second after a second 59. -/
  second : Nat
  /-- Nanoseconds of the second. -/
  fraction : Nat
  deriving DecidableEq, Repr

def days (t : Instant) : Int := t.seconds / 86400

def clock (t : Instant) : Clock :=
  let s := (t.seconds % 86400).toNat
  { date := .ofDays t.days
    hour := s / 3600
    minute := s / 60 % 60
    second := s % 60 + t.nanos / nanosPerSecond
    fraction := t.nanos % nanosPerSecond }

/-- Whole milliseconds since the epoch; in a leap second more than 999 of them follow the second. -/
def milliseconds (t : Instant) : Int := t.seconds * 1000 + t.nanos / 1_000_000

/-- A year has at least four digits, and a sign outside of 0 to 9999. -/
def yearText (y : Int) : String :=
  if 0 ≤ y ∧ y ≤ 9999 then padded 4 y.natAbs
  else (if y < 0 then "-" else "+") ++ padded 4 y.natAbs

/-- A point and the fewest of 3, 6 or 9 digits that are exact; nothing for a whole second. -/
def fractionText (nanos : Nat) : String :=
  if nanos = 0 then ""
  else if nanos % 1_000_000 = 0 then "." ++ padded 3 (nanos / 1_000_000)
  else if nanos % 1_000 = 0 then "." ++ padded 6 (nanos / 1_000)
  else "." ++ padded 9 nanos

def Clock.dateText (c : Clock) : String :=
  yearText c.date.year ++ "-" ++ padded 2 c.date.month ++ "-" ++ padded 2 c.date.day

def Clock.timeText (c : Clock) : String :=
  padded 2 c.hour ++ ":" ++ padded 2 c.minute ++ ":" ++ padded 2 c.second

/-- Such as `2024-01-15T10:30:00.500Z`. -/
def iso (t : Instant) : String :=
  let c := t.clock
  c.dateText ++ "T" ++ c.timeText ++ fractionText c.fraction ++ "Z"

/-- Such as `Mon, 15 Jan 2024 10:30:00 GMT`. -/
def rfc1123 (t : Instant) : String :=
  let c := t.clock
  weekdayNames.getD (weekday t.days) "" ++ ", " ++ padded 2 c.date.day ++ " " ++
    monthNames.getD (c.date.month - 1) "" ++ " " ++ yearText c.date.year ++ " " ++ c.timeText ++
    " GMT"

/-- Such as `2024-01-15 10:30:00 UTC`, for listings. -/
def plain (t : Instant) : String :=
  let c := t.clock
  c.dateText ++ " " ++ c.timeText ++ fractionText c.fraction ++ " UTC"

end Instant
end JsonPlan.Calendar
