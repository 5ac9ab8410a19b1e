import JsonPlan.Proofs.Binary.Error
import JsonPlan.Proofs.Output.Scalar
import JsonPlan.Proofs.Output.Writing

/-!
How near the text of a float stays to its value. With at most fifteen digits behind the point the
scaled fraction keeps bits behind its own point, so that rounding it twice moves it by less than
one. The carry and the zeros that are dropped leave the value as it is, and what is too small for
its digits is less than one unit of the last of them.
-/

namespace JsonPlan.Decimal

open Binary Json

/-! ## Split decimals -/

namespace Split

/-- The number that a split decimal is. -/
def value (s : Split) : Rat := s.whole + s.fraction / ((10 ^ s.scale : Nat) : Rat)

variable {s : Split}

theorem value_carry (s : Split) : s.carry.value = s.value := by
  have hpos : (0 : Rat) < ((10 ^ s.scale : Nat) : Rat) := by positivity
  rw [carry]
  split
  · rename_i hfull
    rw [value, value, Nat.cast_sub hfull, sub_div, div_self hpos.ne', Nat.cast_add, Nat.cast_one]
    ring
  · rfl

theorem Fits.value_drop (h : s.Fits) (hzero : 0 < s.fraction ∧ s.fraction % 10 = 0) :
    s.drop.value = s.value := by
  obtain ⟨scale, hscale⟩ := Nat.exists_eq_add_of_le (h.scale_pos hzero.1.ne')
  obtain ⟨rest, hrest⟩ := Nat.dvd_of_mod_eq_zero hzero.2
  rw [value, value, Split.drop, hscale, hrest, Nat.add_sub_cancel_left,
    Nat.mul_div_cancel_left _ (by decide), Nat.pow_add]
  push_cast
  rw [mul_div_mul_left _ _ (by norm_num)]

theorem Fits.value_strip (h : s.Fits) : s.strip.value = s.value := by
  fun_induction Split.strip s with
  | case1 s hzero ih => rw [ih (h.drop hzero.1.ne'), h.value_drop hzero]
  | case2 s _ => rfl

theorem value_scaled (s : Split) :
    (s.scaled.1 : Rat) / ((10 ^ s.scaled.2 : Nat) : Rat) = s.value := by
  rw [scaled, value]
  split
  · rename_i hzero
    simp [hzero]
  · have hpos : (0 : Rat) < ((10 ^ s.scale : Nat) : Rat) := by positivity
    rw [Nat.cast_add, Nat.cast_mul, add_div, mul_div_cancel_right₀ _ hpos.ne']

theorem natAbs_floor {v : Rat} (hv : 0 ≤ v) : ((v.floor.natAbs : Nat) : Rat) = v.floor := by
  rw [← Int.cast_natCast, Int.natAbs_of_nonneg (Rat.le_floor_iff.mpr (by simpa using hv))]

/-- The fraction of a value that is cut is its scaled fraction, rounded twice. -/
theorem exists_value_cut {v : Rat} {scale : Nat} (hv : 0 ≤ v) (hscale : scale ≤ 17) :
    ∃ r, Magnitude.nearest (scaledFraction v scale) = .finite r ∧
      (cut v scale).value = v.floor + roundUp r / ((10 ^ scale : Nat) : Rat) := by
  have hnonneg := scaledFraction_nonneg v scale
  obtain ⟨r, hr⟩ := Magnitude.exists_nearest hnonneg ((scaledFraction_lt v scale).le.trans
    (by exact_mod_cast Nat.pow_le_pow_right (by decide) (hscale.trans (by decide))))
  have hfraction : (((roundUp r).natAbs : Nat) : Rat) = roundUp r := by
    rw [← Int.cast_natCast,
      Int.natAbs_of_nonneg (roundUp_nonneg (Magnitude.nearest_nonneg hr hnonneg))]
  refine ⟨r, hr, ?_⟩
  rw [cut_eq hr, value, natAbs_floor hv, hfraction]

/-- The carry and the zeros that are dropped leave the value as it is. -/
theorem value_ofMagnitude {v : Rat} {scale : Nat} (hscale : scale ≤ 17) :
    (ofMagnitude v scale).value = (cut v scale).value := by
  rw [ofMagnitude, (fits_carry (fraction_cut_le hscale)).value_strip, value_carry]

/-- The scaled fraction moves by less than one when it is rounded to a double and then to a whole
number. -/
theorem abs_value_ofMagnitude_sub_lt {v : Rat} {scale : Nat} (hv : 0 ≤ v) (hscale : scale ≤ 15) :
    |(ofMagnitude v scale).value - v| < 1 / ((10 ^ scale : Nat) : Rat) := by
  have hpos : (0 : Rat) < ((10 ^ scale : Nat) : Rat) := by positivity
  have hnonneg := scaledFraction_nonneg v scale
  have hlt : scaledFraction v scale < ((2 ^ 52 : Nat) : Rat) := by
    refine (scaledFraction_lt v scale).trans_le ?_
    exact_mod_cast (Nat.pow_le_pow_right (by decide) hscale).trans (by decide : 10 ^ 15 ≤ 2 ^ 52)
  obtain ⟨r, hr, hcut⟩ := exists_value_cut hv (hscale.trans (by decide : 15 ≤ 17))
  have hround : |(roundUp r : Rat) - scaledFraction v scale| < 1 := by
    have hscaled := abs_lt.mp (Magnitude.abs_nearest_sub_lt hnonneg hlt hr)
    have hwhole := abs_le.mp (abs_roundUp_sub_le r)
    rw [abs_lt]
    constructor <;> linarith
  have hvalue : (ofMagnitude v scale).value - v =
      (roundUp r - scaledFraction v scale) / ((10 ^ scale : Nat) : Rat) := by
    rw [value_ofMagnitude (hscale.trans (by decide)), hcut, scaledFraction, sub_div,
      mul_div_cancel_right₀ _ hpos.ne']
    ring
  rw [hvalue, abs_div, abs_of_pos hpos]
  exact div_lt_div_of_pos_right hround hpos

end Split

/-! ## What is too small -/

namespace Precision

theorem justBelowFive_bounds : 4 < justBelowFive ∧ justBelowFive < 5 := by
  decide +kernel

theorem zeroBelow_eq {p : Precision} {places : Nat}
    (hplaces : max p.decimals.toNat p.precision.toNat = places) (h : places ≤ 16) :
    p.zeroBelow = Magnitude.nearest (justBelowFive / 10 * (1 / ((10 ^ places : Nat) : Rat))) := by
  have hguard : p.guardDigits = places + 1 := by
    rw [guardDigits, hplaces, show UInt32.size = 4294967296 from rfl]
    omega
  have hpower : p.guardPower = .finite ((10 ^ (places + 1) : Nat) : Rat) := by
    rw [guardPower, hguard, if_pos (by rw [maxScale]; omega)]
  have hquotient : justBelowFive / ((10 ^ (places + 1) : Nat) : Rat) =
      justBelowFive / 10 * (1 / ((10 ^ places : Nat) : Rat)) := by
    rw [Nat.pow_succ, Nat.cast_mul]
    field_simp
    norm_num
  rw [zeroBelow, hpower, Magnitude.quotient, if_neg (by positivity), hquotient]

/-- Half of a unit stays below the unit when it is rounded. -/
theorem exists_nearest_half {unit : Rat} (hlow : 1 / ((10 ^ 15 : Nat) : Rat) ≤ unit)
    (hhigh : unit ≤ 1) :
    ∃ r, Magnitude.nearest (justBelowFive / 10 * unit) = .finite r ∧ r < unit := by
  obtain ⟨hfour, hfive⟩ := justBelowFive_bounds
  norm_num at hlow
  have hunit : 0 < unit := by linarith
  have hmore := mul_lt_mul_of_pos_right hfour hunit
  have hless := mul_lt_mul_of_pos_right hfive hunit
  -- Far above the smallest double, the least bit of a number is no more than the number.
  have hsmall : pow2 (-1074) ≤ justBelowFive / 10 * unit := by
    have htiny : pow2 (-1074) ≤ pow2 (-52) := pow2_le_pow2 (by decide)
    rw [show pow2 (-52) = mkRat 1 (2 ^ 52) from rfl] at htiny
    norm_num at htiny
    linarith
  have hpos := (pow2_pos (-1074)).trans_le hsmall
  obtain ⟨r, hr⟩ := Magnitude.exists_nearest hpos.le (by norm_num; linarith)
  have hbit := Magnitude.pow2_leastBit_le hpos hsmall
  have hround := (abs_le.mp (Magnitude.abs_nearest_sub_le hr)).2
  exact ⟨r, hr, by linarith⟩

/-- What is dropped lies below one unit of the last digit of either kind. -/
theorem lt_of_exceeds {p : Precision} {v : Rat} (h : p.zeroBelow.exceeds v = true)
    (hdecimals : p.decimals.toNat ≤ 15) (hprecision : p.precision.toNat ≤ 15) :
    v < 1 / ((10 ^ max p.decimals.toNat p.precision.toNat : Nat) : Rat) := by
  generalize hplaces : max p.decimals.toNat p.precision.toNat = places
  have hlow : 1 / ((10 ^ 15 : Nat) : Rat) ≤ 1 / ((10 ^ places : Nat) : Rat) :=
    one_div_le_one_div_of_le (by positivity)
      (by exact_mod_cast Nat.pow_le_pow_right (by decide) (by omega))
  have hhigh : 1 / ((10 ^ places : Nat) : Rat) ≤ 1 := by
    rw [div_le_one (by positivity)]
    exact_mod_cast Nat.one_le_pow places 10 (by decide)
  obtain ⟨r, hr, hlt⟩ := exists_nearest_half hlow hhigh
  rw [zeroBelow_eq hplaces (by omega), hr, Magnitude.exceeds, decide_eq_true_iff] at h
  exact h.trans hlt

theorem digits_le_max (p : Precision) (v : Rat) :
    p.digits v ≤ max p.decimals.toNat p.precision.toNat := by
  rw [digits]
  split
  · exact le_max_left _ _
  · exact le_max_right _ _

/-- What is written as zero is less than one unit of the last digit it may have. -/
theorem lt_of_zero {p : Precision} {v : Rat} (h : v = 0 ∨ p.zeroBelow.exceeds v = true)
    (hdecimals : p.decimals.toNat ≤ 15) (hprecision : p.precision.toNat ≤ 15) :
    v < 1 / ((10 ^ p.digits v : Nat) : Rat) := by
  rcases h with rfl | hbelow
  · positivity
  · refine (lt_of_exceeds hbelow hdecimals hprecision).trans_le ?_
    exact one_div_le_one_div_of_le (by positivity)
      (by exact_mod_cast Nat.pow_le_pow_right (by decide) (p.digits_le_max v))

end Precision

/-! ## Numbers -/

theorem value_signed (negative : Bool) (n places : Nat) :
    Number.value ⟨(if negative then -1 else 1) * (n : Int), places⟩ =
      (if negative then -1 else 1) * (n / ((10 ^ places : Nat) : Rat)) := by
  rw [Number.value, Rat.mkRat_eq_div]
  cases negative with
  | true =>
      push_cast
      ring
  | false =>
      push_cast
      ring

theorem abs_signed_sub (negative : Bool) (x y : Rat) :
    |(if negative then -1 else 1) * x - (if negative then -1 else 1) * y| = |x - y| := by
  rw [← mul_sub, abs_mul]
  cases negative <;> simp

/-- The number that is written for a magnitude that can be split. -/
def Precision.amount (p : Precision) (v : Rat) : Rat :=
  if v = 0 ∨ p.zeroBelow.exceeds v = true then 0 else (Split.ofMagnitude v (p.scale v)).value

/-- The number of a finite float. -/
theorem exists_number (p : Precision) (negative : Bool) {m : Nat} {q : Int}
    (hlimit : m * pow2 q < ((10 ^ 18 : Nat) : Rat)) :
    ∃ n, ofFloat p (.finite negative m q) = .number n ∧
      n.value = (if negative then -1 else 1) * p.amount (m * pow2 q) := by
  rw [ofFloat, Precision.amount]
  generalize (m : Rat) * pow2 q = v at *
  by_cases hzero : v = 0 ∨ p.zeroBelow.exceeds v = true
  · refine ⟨⟨0, 0⟩, by simp only [if_pos hzero]; rfl, ?_⟩
    simpa [hzero] using value_signed negative 0 0
  · have hsplit : ¬ splitLimit ≤ v := not_le.mpr hlimit
    refine ⟨_, by simp only [if_neg hzero, if_neg hsplit]; rfl, ?_⟩
    rw [value_signed, Split.value_scaled, if_neg hzero]

theorem Precision.abs_amount_sub_lt {p : Precision} (hdecimals : p.decimals.toNat ≤ 15)
    (hprecision : p.precision.toNat ≤ 15) {v : Rat} (hv : 0 ≤ v) :
    |p.amount v - v| < 1 / ((10 ^ p.digits v : Nat) : Rat) := by
  rw [amount]
  by_cases hzero : v = 0 ∨ p.zeroBelow.exceeds v = true
  · rw [if_pos hzero, zero_sub, abs_neg, abs_of_nonneg hv]
    exact lt_of_zero hzero hdecimals hprecision
  · have hdigits := p.digits_le_max v
    have hscale : p.scale v = p.digits v := by
      rw [scale, maxScale]
      omega
    rw [if_neg hzero, hscale]
    exact Split.abs_value_ofMagnitude_sub_lt hv (by omega)

theorem exists_number_close {p : Precision} (hdecimals : p.decimals.toNat ≤ 15)
    (hprecision : p.precision.toNat ≤ 15) (negative : Bool) {m : Nat} {q : Int}
    (hlimit : m * pow2 q < ((10 ^ 18 : Nat) : Rat)) :
    ∃ n, ofFloat p (.finite negative m q) = .number n ∧
      |n.value - (if negative then -1 else 1) * (m * pow2 q)| <
        1 / ((10 ^ p.digits (m * pow2 q) : Nat) : Rat) := by
  obtain ⟨n, hnumber, hvalue⟩ := exists_number p negative hlimit
  refine ⟨n, hnumber, ?_⟩
  rw [hvalue, abs_signed_sub]
  exact Precision.abs_amount_sub_lt hdecimals hprecision
    (mul_nonneg (Nat.cast_nonneg _) (pow2_pos q).le)

/-! ## Texts -/

/-- A float is read back as a decimal that differs from it by less than one unit of the last digit
it may have. Its whole part is taken off without rounding. -/
theorem fixed_close (p : Precision) (w : Binary64) {v : Rat} (hv : w.datum.value? = some v)
    (hlimit : |v| < ((10 ^ 18 : Nat) : Rat)) (hdecimals : p.decimals ≤ 15)
    (hprecision : p.precision ≤ 15) :
    ∃ out n, (Writing.fixed p w.datum).into "" = (out, none) ∧ parse out = some (.number n) ∧
      |n.value - v| <
        1 / ((10 ^ (if 1 ≤ |v| then p.decimals.toNat else p.precision.toNat) : Nat) : Rat) ∧
      Magnitude.nearest (|v| - |v|.floor) = .finite (|v| - |v|.floor) := by
  obtain ⟨negative, m, q, hdatum, habs, rfl⟩ := Datum.eq_finite hv
  rw [habs] at hlimit ⊢
  obtain ⟨n, hnumber, hclose⟩ := exists_number_close (UInt32.le_iff_toNat_le.mp hdecimals)
    (UInt32.le_iff_toNat_le.mp hprecision) negative hlimit
  have hreads := (reads_fixed p (d := w.datum) (by rw [hdatum]; rfl)).parse
  rw [hdatum, hnumber] at hreads
  refine ⟨fixed p w.datum, n, ?_, ?_, hclose, ?_⟩
  · rw [Writing.fixed_eq]
    exact Trace.into_empty _
  · rw [hdatum]
    exact hreads
  · have hdouble := (Binary64.isDouble hdatum).sub_floor
    refine Magnitude.nearest_of_isDouble hdouble (sub_nonneg.mpr (Rat.floor_le _)) ?_
    have hone : pow2 0 < pow2 1024 := pow2_lt_pow2_iff.mpr (by decide)
    have hfloor := Rat.lt_floor_add_one (m * pow2 q : Rat)
    rw [show pow2 0 = 1 from rfl] at hone
    push_cast at hfloor
    linarith

/-- The fraction rounds up to one, and the whole part takes it over. From one upwards the digits are
those of `decimals`, three of them. -/
theorem fixed_close_carried :
    let w : Binary64 := ⟨0xc033fff972474539⟩
    let v : Rat := -5629471386715449 / 281474976710656
    w.datum.value? = some v ∧ (Writing.fixed ⟨3, 5⟩ w.datum).into "" = ("-20", none) ∧
      ∃ n, parse "-20" = some (.number n) ∧ |n.value - v| < 1 / 1000 := by
  intro w v
  have hv : w.datum.value? = some v := by decide +kernel
  have hout : (Writing.fixed ⟨3, 5⟩ w.datum).into "" = ("-20", none) := by decide +kernel
  have habs : |v| = 5629471386715449 / 281474976710656 := by
    norm_num [v, abs_of_neg]
  obtain ⟨out, n, htext, hparse, hclose, -⟩ :=
    fixed_close ⟨3, 5⟩ w hv (by rw [habs]; norm_num) (by decide) (by decide)
  obtain ⟨rfl, -⟩ := Prod.mk.inj (hout.symm.trans htext)
  rw [if_pos (by rw [habs]; norm_num), show UInt32.toNat 3 = 3 from rfl] at hclose
  exact ⟨hv, hout, n, hparse, by norm_num at hclose ⊢; exact hclose⟩

example : (Precision.single.decimals ≤ 15 ∧ Precision.single.precision ≤ 15) ∧
    Precision.double.decimals ≤ 15 ∧ Precision.double.precision ≤ 15 := by
  decide

end JsonPlan.Decimal
