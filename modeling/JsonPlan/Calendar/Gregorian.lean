import JsonPlan.Calendar.Civil

/-! The Gregorian calendar by its rules: leap years, lengths of months, and the day after a day. -/

namespace JsonPlan.Calendar

/-- Every fourth year has a leap day, but of those that end a century only every fourth. -/
def IsLeap (year : Int) : Prop := year % 4 = 0 ∧ (year % 100 = 0 → year % 400 = 0)

instance (year : Int) : Decidable (IsLeap year) := inferInstanceAs (Decidable (_ ∧ _))

/-- The leap days of a year: one or none. -/
def leapDays (year : Int) : Nat := if IsLeap year then 1 else 0

def monthLength (year : Int) : Nat → Nat
  | 2 => 28 + leapDays year
  | 4 | 6 | 9 | 11 => 30
  | _ => 31

namespace Civil

/-- A day that the calendar has. -/
structure Valid (c : Civil) : Prop where
  month_pos : 1 ≤ c.month
  month_le : c.month ≤ 12
  day_pos : 1 ≤ c.day
  day_le : c.day ≤ monthLength c.year c.month

instance (c : Civil) : Decidable c.Valid :=
  decidable_of_iff (1 ≤ c.month ∧ c.month ≤ 12 ∧ 1 ≤ c.day ∧ c.day ≤ monthLength c.year c.month)
    ⟨fun ⟨month_pos, month_le, day_pos, day_le⟩ => ⟨month_pos, month_le, day_pos, day_le⟩,
      fun h => ⟨h.month_pos, h.month_le, h.day_pos, h.day_le⟩⟩

/-- The day after. -/
def next (c : Civil) : Civil :=
  if c.day < monthLength c.year c.month then { c with day := c.day + 1 }
  else if c.month < 12 then ⟨c.year, c.month + 1, 1⟩
  else ⟨c.year + 1, 1, 1⟩

end Civil
end JsonPlan.Calendar
