import JsonPlan.Calendar.Gregorian
import Mathlib.Tactic.IntervalCases

/-!
Day numbers count the days of the Gregorian calendar. For the proofs a day is one of a year that
begins with March, since the leap day is the last one of such a year.
-/

namespace JsonPlan.Calendar.Civil

/-! ## Eras -/

/-- A day of an era of 400 years, by the centuries, the spans of four years, the years and the days
that have passed in it. -/
structure Passed (doe c q k d : Int) : Prop where
  century : 0 ≤ c ∧ c ≤ 3
  four : 0 ≤ q ∧ q ≤ 24
  year : 0 ≤ k ∧ k ≤ 3
  day : 0 ≤ d ∧ d ≤ 365
  leap : d = 365 → k = 3 ∧ (q = 24 → c = 3)
  total : doe = c * 36524 + q * 1461 + k * 365 + d

theorem exists_passed {doe : Int} (h0 : 0 ≤ doe) (h1 : doe < eraDays) :
    ∃ c q k d, Passed doe c q k d := by
  rw [eraDays] at h1
  obtain ⟨c, r, hc, hr, hlast, hdoe⟩ : ∃ c r, (0 ≤ c ∧ c ≤ 3) ∧ (0 ≤ r ∧ r ≤ 36524) ∧
      (r = 36524 → c = 3) ∧ doe = c * 36524 + r := by
    by_cases h : doe = 146096
    · exact ⟨3, 36524, by omega⟩
    · exact ⟨doe / 36524, doe % 36524, by omega⟩
  obtain ⟨k, d, hk, hd, hleap, hs⟩ : ∃ k d, (0 ≤ k ∧ k ≤ 3) ∧ (0 ≤ d ∧ d ≤ 365) ∧
      (d = 365 → k = 3) ∧ r % 1461 = k * 365 + d := by
    by_cases h : r % 1461 = 1460
    · exact ⟨3, 365, by omega⟩
    · exact ⟨r % 1461 / 365, r % 1461 % 365, by omega⟩
  exact ⟨c, r / 1461, k, d, hc, by omega, hk, hd, by omega, by omega⟩

theorem Passed.bounds {doe c q k d : Int} (h : Passed doe c q k d) : 0 ≤ doe ∧ doe < eraDays := by
  obtain ⟨hc, hq, hk, hd, hleap, hdoe⟩ := h
  have hspan : q * 1461 + k * 365 + d ≤ 36524 := by omega
  rw [eraDays]
  omega

/-- A year in the middle of an era has as many days in front of it as 365 for each year and one for
each leap day, so that the quotient by 365 has to leave these days out. -/
theorem Passed.yearOfEra {doe c q k d : Int} (h : Passed doe c q k d) :
    (doe - doe / 1460 + doe / 36524 - doe / 146096) / 365 = c * 100 + q * 4 + k := by
  obtain ⟨hc, hq, hk, hd, hleap, hdoe⟩ := h
  have hcentury : doe / 36524 - doe / 146096 = c := by
    by_cases hlast : q * 1461 + k * 365 + d = 36524
    · have hc3 : c = 3 := by omega
      omega
    · have hcentury : doe / 36524 = c := by omega
      have hera : doe / 146096 = 0 := by omega
      omega
  have hfour : doe / 1460 = c * 25 + q ∨ (doe / 1460 = c * 25 + q + 1 ∧ 1 ≤ d) := by omega
  have hleapday : d = 365 → doe / 1460 = c * 25 + q + 1 := by omega
  omega

/-! ## Years from March -/

/-- The number of the first of March of a year. -/
def marchStart (y : Int) : Int :=
  y / 400 * eraDays + (y % 400 * 365 + y % 400 / 4 - y % 400 / 100) - epochOffset

/-- The place of a month in a year from March. -/
def marchMonth (month : Nat) : Int := if 2 < month then month - 3 else month + 9

/-- The day, from 0, on which a month of a year from March starts. -/
def monthStart (mp : Int) : Int := (153 * mp + 2) / 5

/-- Day `d`, from 0, of the year that begins with March of `y`. -/
def ofMarch (y d : Int) : Civil :=
  let mp := (5 * d + 2) / 153
  let month := if mp < 10 then mp + 3 else mp - 9
  { year := y + if month ≤ 2 then 1 else 0
    month := month.toNat
    day := (d - (153 * mp + 2) / 5 + 1).toNat }

/-- The year that begins with March of `y` has a day `d`. -/
structure InYear (y d : Int) : Prop where
  nonneg : 0 ≤ d
  lt_length : d < 365 + leapDays (y + 1)

variable {y d : Int}

theorem leapDays_le (y : Int) : leapDays y ≤ 1 := by
  rw [leapDays]
  split <;> decide

theorem InYear.le (h : InYear y d) : d ≤ 365 := by
  have hleap := leapDays_le (y + 1)
  have hlength := h.lt_length
  omega

theorem InYear.isLeap (h : InYear y d) (hd : d = 365) : IsLeap (y + 1) := by
  have hlength := h.lt_length
  rw [leapDays] at hlength
  split at hlength
  · assumption
  · omega

theorem parts_year (y : Int) : y % 400 / 100 * 100 + y % 100 / 4 * 4 + y % 4 = y % 400 := by
  omega

/-- The parts of a day of a year in its era. -/
theorem InYear.passed (h : InYear y d) :
    Passed (y % 400 * 365 + y % 400 / 4 - y % 400 / 100 + d) (y % 400 / 100) (y % 100 / 4) (y % 4)
      d := by
  refine ⟨by omega, by omega, by omega, ⟨h.nonneg, h.le⟩, ?_, by omega⟩
  intro hd
  obtain ⟨hfour, hcentury⟩ := h.isLeap hd
  omega

theorem exists_inYear (n : Int) : ∃ y d, InYear y d ∧ n = marchStart y + d := by
  have h0 : 0 ≤ (n + epochOffset) % eraDays := Int.emod_nonneg _ (by decide)
  have h1 : (n + epochOffset) % eraDays < eraDays := Int.emod_lt_of_pos _ (by decide)
  have hera := Int.mul_ediv_add_emod (n + epochOffset) eraDays
  generalize (n + epochOffset) / eraDays = era at hera
  obtain ⟨c, q, k, d, hpassed⟩ := exists_passed h0 h1
  obtain ⟨hc, hq, hk, hd, hleap, hdoe⟩ := hpassed
  have hyear : (era * 400 + (c * 100 + q * 4 + k)) % 400 = c * 100 + q * 4 + k := by omega
  have hquot : (era * 400 + (c * 100 + q * 4 + k)) / 400 = era := by omega
  have hfour : (c * 100 + q * 4 + k) / 4 = c * 25 + q := by omega
  have hcentury : (c * 100 + q * 4 + k) / 100 = c := by omega
  refine ⟨era * 400 + (c * 100 + q * 4 + k), d, ⟨hd.1, ?_⟩, ?_⟩
  · by_cases hlast : d = 365
    · have hisLeap : IsLeap (era * 400 + (c * 100 + q * 4 + k) + 1) := by
        obtain ⟨hk3, hq24⟩ := hleap hlast
        exact ⟨by omega, by omega⟩
      rw [leapDays, if_pos hisLeap, hlast]
      decide
    · omega
  · rw [marchStart, hyear, hquot, hfour, hcentury]
    simp only [eraDays, epochOffset] at *
    omega

theorem ofDays_marchStart (h : InYear y d) : ofDays (marchStart y + d) = ofMarch y d := by
  have hpassed := h.passed
  have hyoe := hpassed.yearOfEra
  have hbounds := hpassed.bounds
  generalize hdoe : y % 400 * 365 + y % 400 / 4 - y % 400 / 100 + d = doe at *
  have hz : marchStart y + d + epochOffset = doe + y / 400 * eraDays := by
    rw [marchStart]
    omega
  have hera : (marchStart y + d + epochOffset) / eraDays = y / 400 := by
    rw [hz, Int.add_mul_ediv_right _ _ (by decide), Int.ediv_eq_zero_of_lt hbounds.1 hbounds.2,
      Int.zero_add]
  have hrest : (marchStart y + d + epochOffset) % eraDays = doe := by
    rw [hz, Int.add_mul_emod_self_right, Int.emod_eq_of_lt hbounds.1 hbounds.2]
  rw [parts_year] at hyoe
  have hdoy : doe - (365 * (y % 400) + y % 400 / 4 - y % 400 / 100) = d := by omega
  have hsum : y % 400 + y / 400 * 400 = y := by omega
  rw [ofDays]
  simp only [hera, hrest, hyoe, hdoy, hsum]
  rfl

/-! ## Months -/

theorem eq_of_monthStart_le {mp : Int} (h : monthStart mp ≤ d) (hnext : d < monthStart (mp + 1)) :
    (5 * d + 2) / 153 = mp := by
  simp only [monthStart] at h hnext
  omega

/-- A month ends where the next one starts, and February where its year ends. -/
theorem monthStart_add_length (year : Int) {month : Nat} (h1 : 1 ≤ month) (h12 : month ≤ 12) :
    monthStart (marchMonth month) + monthLength year month =
      if month = 2 then (365 : Int) + leapDays year else monthStart (marchMonth month + 1) := by
  by_cases h2 : month = 2
  · subst h2
    rw [if_pos rfl, monthLength, Int.natCast_add, ← Int.add_assoc]
    rfl
  · rw [if_neg h2]
    interval_cases month <;> first | rfl | exact absurd rfl h2

theorem toDays_eq (c : Civil) :
    c.toDays = marchStart (if c.month ≤ 2 then c.year - 1 else c.year) +
      (monthStart (marchMonth c.month) + (c.day - 1)) := by
  rw [toDays, marchStart, monthStart, marchMonth]
  omega

/-- The year, the month and the day that a day of a year from March has. -/
theorem ofMarch_spec (h : InYear y d) :
    1 ≤ (ofMarch y d).month ∧ (ofMarch y d).month ≤ 12 ∧ 1 ≤ (ofMarch y d).day ∧
      (ofMarch y d).year = (if (ofMarch y d).month ≤ 2 then y + 1 else y) ∧
      monthStart (marchMonth (ofMarch y d).month) + ((ofMarch y d).day - 1) = d ∧
      d < monthStart (marchMonth (ofMarch y d).month + 1) := by
  have hd := h.nonneg
  have hd' := h.le
  simp only [ofMarch, marchMonth, monthStart]
  omega

theorem toDays_ofMarch (h : InYear y d) : (ofMarch y d).toDays = marchStart y + d := by
  obtain ⟨-, -, -, hyear, hday, -⟩ := ofMarch_spec h
  have hmarch : (if (ofMarch y d).month ≤ 2 then (ofMarch y d).year - 1 else (ofMarch y d).year) =
      y := by
    rw [hyear]
    split <;> omega
  rw [toDays_eq, hmarch, hday]

theorem valid_ofMarch (h : InYear y d) : (ofMarch y d).Valid := by
  obtain ⟨h1, h12, hday, hyear, hd, hnext⟩ := ofMarch_spec h
  have hlength := monthStart_add_length (ofMarch y d).year h1 h12
  have hlast := h.lt_length
  refine ⟨h1, h12, hday, ?_⟩
  by_cases h2 : (ofMarch y d).month = 2
  · rw [if_pos (by omega)] at hyear
    rw [if_pos h2, hyear] at hlength
    rw [hyear]
    omega
  · rw [if_neg h2] at hlength
    omega

/-- The start of a month, which leaves room for it and, except for February, for what follows. -/
theorem monthStart_bounds {month : Nat} (h1 : 1 ≤ month) (h12 : month ≤ 12) :
    0 ≤ monthStart (marchMonth month) ∧
      monthStart (marchMonth month) + 30 ≤ monthStart (marchMonth month + 1) ∧
      (month ≠ 2 → monthStart (marchMonth month + 1) ≤ 337) ∧
      (month = 2 → monthStart (marchMonth month) = 337) := by
  simp only [monthStart, marchMonth]
  omega

theorem ofMarch_eq {c : Civil} (h1 : 1 ≤ c.month) (h12 : c.month ≤ 12)
    (h : (5 * (monthStart (marchMonth c.month) + (c.day - 1)) + 2) / 153 = marchMonth c.month) :
    ofMarch (if c.month ≤ 2 then c.year - 1 else c.year)
      (monthStart (marchMonth c.month) + (c.day - 1)) = c := by
  obtain ⟨year, month, day⟩ := c
  simp only at *
  simp only [ofMarch, h, Civil.mk.injEq]
  simp only [← monthStart.eq_1, marchMonth]
  omega

/-- Every day of the calendar is one of a year from March. -/
theorem Valid.exists_inYear {c : Civil} (h : c.Valid) : ∃ y d, InYear y d ∧ c = ofMarch y d := by
  obtain ⟨h1, h12, hday, hlength⟩ := h
  have hend := monthStart_add_length c.year h1 h12
  have hleap := leapDays_le c.year
  obtain ⟨hstart, hroom, hother, hfebruary⟩ := monthStart_bounds h1 h12
  have hmonth : (5 * (monthStart (marchMonth c.month) + (c.day - 1)) + 2) / 153 =
      marchMonth c.month := by
    apply eq_of_monthStart_le
    · omega
    · split at hend <;> omega
  refine ⟨_, _, ⟨?_, ?_⟩, (ofMarch_eq h1 h12 hmonth).symm⟩
  · omega
  · by_cases h2 : c.month = 2
    · rw [if_pos h2] at hend
      rw [if_pos (by omega), Int.sub_add_cancel]
      omega
    · rw [if_neg h2] at hend
      omega

theorem toDays_ofDays (n : Int) : (ofDays n).toDays = n := by
  obtain ⟨y, d, h, rfl⟩ := exists_inYear n
  rw [ofDays_marchStart h, toDays_ofMarch h]

theorem valid_ofDays (n : Int) : (ofDays n).Valid := by
  obtain ⟨y, d, h, rfl⟩ := exists_inYear n
  rw [ofDays_marchStart h]
  exact valid_ofMarch h

theorem ofDays_toDays {c : Civil} (h : c.Valid) : ofDays c.toDays = c := by
  obtain ⟨y, d, hd, rfl⟩ := h.exists_inYear
  rw [toDays_ofMarch hd, ofDays_marchStart hd]

/-! ## The day after -/

theorem marchStart_succ (y : Int) : marchStart (y + 1) = marchStart y + 365 + leapDays (y + 1) := by
  have hleap : (leapDays (y + 1) : Int) = if IsLeap (y + 1) then 1 else 0 := by
    rw [leapDays]
    split <;> rfl
  rw [hleap, marchStart, marchStart, eraDays]
  by_cases hera : y % 400 = 399
  · rw [if_pos ⟨by omega, by omega⟩]
    omega
  · have hyear : (y + 1) % 400 = y % 400 + 1 := by omega
    have hquot : (y + 1) / 400 = y / 400 := by omega
    rw [hyear, hquot]
    by_cases hcentury : y % 100 = 99
    · have hnot : ¬ IsLeap (y + 1) := fun h => by
        have hmultiple := h.2 (by omega)
        omega
      rw [if_neg hnot]
      omega
    · by_cases hfour : y % 4 = 3
      · rw [if_pos ⟨by omega, fun h => by omega⟩]
        omega
      · have hnot : ¬ IsLeap (y + 1) := fun h => by
          have hmultiple := h.1
          omega
        rw [if_neg hnot]
        omega

theorem monthLength_pos (year : Int) (month : Nat) : 1 ≤ monthLength year month := by
  unfold monthLength
  split <;> omega

theorem Valid.next {c : Civil} (h : c.Valid) : c.next.Valid := by
  obtain ⟨h1, h12, hday, hlength⟩ := h
  rw [Civil.next]
  by_cases hlast : c.day < monthLength c.year c.month
  · rw [if_pos hlast]
    exact ⟨h1, h12, Nat.le_add_left 1 _, hlast⟩
  · rw [if_neg hlast]
    by_cases hdecember : c.month < 12
    · rw [if_pos hdecember]
      exact ⟨Nat.le_add_left 1 _, hdecember, Nat.le_refl 1, monthLength_pos _ _⟩
    · rw [if_neg hdecember]
      exact ⟨Nat.le_refl 1, by simp, Nat.le_refl 1, monthLength_pos _ _⟩

theorem toDays_first (year : Int) (month : Nat) :
    (Civil.mk year month 1).toDays =
      marchStart (if month ≤ 2 then year - 1 else year) + monthStart (marchMonth month) := by
  rw [toDays_eq]
  simp

/-- The rules of the calendar count on from one day number to the next. -/
theorem toDays_next {c : Civil} (h : c.Valid) : c.next.toDays = c.toDays + 1 := by
  obtain ⟨h1, h12, hday, hlength⟩ := h
  have hend := monthStart_add_length c.year h1 h12
  rw [toDays_eq c, Civil.next]
  by_cases hlast : c.day < monthLength c.year c.month
  · rw [if_pos hlast, toDays_eq]
    simp only
    omega
  · rw [if_neg hlast, show c.day = monthLength c.year c.month by omega]
    by_cases h2 : c.month = 2
    · have hmarch := marchStart_succ (c.year - 1)
      rw [Int.sub_add_cancel] at hmarch
      have hthird : monthStart (marchMonth (2 + 1)) = 0 := rfl
      rw [if_pos h2, h2] at hend
      rw [h2, if_pos (by decide), toDays_first, hthird, if_neg (by decide), if_pos (by decide),
        hmarch]
      omega
    · rw [if_neg h2] at hend
      by_cases hdecember : c.month < 12
      · have hmonth : marchMonth (c.month + 1) = marchMonth c.month + 1 := by
          simp only [marchMonth]
          omega
        have hyear : (if c.month + 1 ≤ 2 then c.year - 1 else c.year) =
            if c.month ≤ 2 then c.year - 1 else c.year := by
          split <;> split <;> omega
        rw [if_pos hdecember, toDays_first, hmonth, hyear]
        omega
      · have htwelfth : c.month = 12 := by omega
        have hnext : marchMonth 1 = marchMonth 12 + 1 := rfl
        rw [htwelfth] at hend
        rw [if_neg hdecember, toDays_first, htwelfth, hnext, if_pos (by decide), if_neg (by decide),
          Int.add_sub_cancel]
        omega

/-- So each day number is that of the day which follows the one before, from the first of January
1970 on and back from there. -/
theorem ofDays_succ (n : Int) : ofDays (n + 1) = (ofDays n).next := by
  have hvalid := valid_ofDays n
  have hnext := toDays_next hvalid
  rw [toDays_ofDays] at hnext
  rw [← hnext, ofDays_toDays hvalid.next]

example : ofDays 0 = ⟨1970, 1, 1⟩ := by decide

end JsonPlan.Calendar.Civil
