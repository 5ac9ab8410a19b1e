import JsonPlan.Proofs.Binary.Format
import Mathlib.Data.Rat.Floor
import Mathlib.Tactic.Ring

/-!
How far rounding moves a number. A double stays where it is, and so does its distance to the whole
number below it.
-/

namespace JsonPlan.Binary

/-! ## Whole numbers -/

theorem half_eq : mkRat 1 2 = (1 / 2 : Rat) := by
  norm_num

theorem abs_roundEven_sub_le (x : Rat) : |(roundEven x : Rat) - x| ≤ 1 / 2 := by
  have hlow := Rat.floor_le x
  have hhigh := Rat.lt_floor_add_one x
  push_cast at hhigh
  rw [roundEven, half_eq, abs_le]
  split_ifs with hdown hup heven
  · constructor <;> linarith
  · push_cast
    constructor <;> linarith
  · constructor <;> linarith
  · push_cast
    constructor <;> linarith

theorem abs_roundUp_sub_le (x : Rat) : |(roundUp x : Rat) - x| ≤ 1 / 2 := by
  have hlow := Rat.floor_le (x + mkRat 1 2)
  have hhigh := Rat.lt_floor_add_one (x + mkRat 1 2)
  rw [half_eq] at hlow hhigh
  push_cast at hhigh
  rw [roundUp, half_eq, abs_le]
  constructor <;> linarith

/-! ## Least bits -/

namespace Magnitude

theorem pow2_leastBit_le {x : Rat} (hx : 0 < x) (h : pow2 (-1074) ≤ x) :
    pow2 (leastBit x) ≤ x := by
  rw [leastBit]
  rcases max_choice (log2 x - 52) (-1074) with hmax | hmax
  · rw [hmax]
    exact (pow2_le_pow2 (by omega)).trans (pow2_log2_le hx)
  · rw [hmax]
    exact h

theorem pow2_leastBit_le_add_one {x : Rat} (hx : 0 ≤ x) : pow2 (leastBit x) ≤ x + 1 := by
  have hone : pow2 0 = 1 := rfl
  rcases hx.eq_or_lt with rfl | hpos
  · have hzero : leastBit 0 ≤ 0 := by decide
    linarith [pow2_le_pow2 hzero]
  · by_cases h : pow2 (-1074) ≤ x
    · linarith [pow2_leastBit_le hpos h]
    · have hlog : log2 x < -1074 :=
        pow2_lt_pow2_iff.mp ((pow2_log2_le hpos).trans_lt (not_le.mp h))
      have hbit : leastBit x ≤ 0 := by
        rw [leastBit]
        omega
      linarith [pow2_le_pow2 hbit]

/-- Below `2 ^ 52` a double has bits behind its point. -/
theorem leastBit_neg {x : Rat} (hx : 0 ≤ x) (h : x < ((2 ^ 52 : Nat) : Rat)) :
    leastBit x < 0 := by
  rcases hx.eq_or_lt with rfl | hpos
  · decide
  · have hlog := log2_lt hpos h
    rw [leastBit]
    omega

/-! ## Errors -/

/-- A number moves by at most half of its least bit. -/
theorem abs_rounded_sub_le (x : Rat) :
    |roundEven (x / pow2 (leastBit x)) * pow2 (leastBit x) - x| ≤ pow2 (leastBit x) / 2 := by
  have hunit := pow2_pos (leastBit x)
  have hwhole := abs_roundEven_sub_le (x / pow2 (leastBit x))
  have hx : x / pow2 (leastBit x) * pow2 (leastBit x) = x := div_mul_cancel₀ x hunit.ne'
  calc |roundEven (x / pow2 (leastBit x)) * pow2 (leastBit x) - x|
      = |(roundEven (x / pow2 (leastBit x)) : Rat) - x / pow2 (leastBit x)| *
          pow2 (leastBit x) := by
        rw [← abs_of_pos hunit, ← abs_mul, abs_of_pos hunit, sub_mul, hx]
    _ ≤ 1 / 2 * pow2 (leastBit x) := mul_le_mul_of_nonneg_right hwhole hunit.le
    _ = pow2 (leastBit x) / 2 := by ring

theorem abs_nearest_sub_le {x r : Rat} (h : nearest x = .finite r) :
    |r - x| ≤ pow2 (leastBit x) / 2 := by
  rw [nearest_eq_finite h]
  exact abs_rounded_sub_le x

theorem abs_nearest_sub_lt {x r : Rat} (hx : 0 ≤ x) (h : x < ((2 ^ 52 : Nat) : Rat))
    (hr : nearest x = .finite r) : |r - x| < 1 / 2 := by
  have hunit : pow2 (leastBit x) < pow2 0 := pow2_lt_pow2_iff.mpr (leastBit_neg hx h)
  rw [show pow2 0 = 1 from rfl] at hunit
  exact (abs_nearest_sub_le hr).trans_lt (by linarith)

/-- Nothing up to `10 ^ 18` is rounded to infinity. -/
theorem exists_nearest {x : Rat} (hx : 0 ≤ x) (h : x ≤ ((10 ^ 18 : Nat) : Rat)) :
    ∃ r, nearest x = .finite r := by
  have hunit := pow2_leastBit_le_add_one hx
  have herror := (abs_le.mp (abs_rounded_sub_le x)).2
  have hlarge : pow2 64 ≤ pow2 1024 := pow2_le_pow2 (by decide)
  rw [show pow2 64 = ((2 ^ 64 : Nat) : Rat) from rfl] at hlarge
  norm_num at h hlarge
  rw [nearest, if_pos (by linarith)]
  exact ⟨_, rfl⟩

end Magnitude

/-! ## Doubles -/

/-- A number of at most 53 bits, none below the least exponent of a double. -/
def IsDouble (x : Rat) : Prop :=
  ∃ (m : Nat) (q : Int), m < 2 ^ 53 ∧ -1074 ≤ q ∧ x = m * pow2 q

theorem isDouble_zero : IsDouble 0 := ⟨0, 0, by decide, by decide, by simp⟩

theorem Magnitude.nearest_zero : nearest 0 = .finite 0 := by
  have hround : roundEven 0 = 0 := roundEven_intCast 0
  simp [nearest, hround, pow2_pos]

/-- A double is a multiple of the bit at which it would be rounded. -/
theorem IsDouble.exists_multiple {x : Rat} (h : IsDouble x) (hx : 0 < x) :
    ∃ n : Int, x = n * pow2 (Magnitude.leastBit x) := by
  obtain ⟨m, q, hm, hq, hvalue⟩ := h
  have hlt : x < pow2 (53 + q) := by
    have hcast : (m : Rat) < ((2 ^ 53 : Nat) : Rat) := by exact_mod_cast hm
    rw [hvalue, pow2_add]
    exact mul_lt_mul_of_pos_right hcast (pow2_pos q)
  have hlog := pow2_lt_pow2_iff.mp ((pow2_log2_le hx).trans_lt hlt)
  obtain ⟨k, hk⟩ : ∃ k : Nat, q = k + Magnitude.leastBit x := by
    refine ⟨(q - Magnitude.leastBit x).toNat, ?_⟩
    rw [Magnitude.leastBit]
    omega
  refine ⟨(m * 2 ^ k : Nat), ?_⟩
  rw [Int.cast_natCast, Nat.cast_mul, mul_assoc]
  change x = m * (pow2 (k : Int) * pow2 (Magnitude.leastBit x))
  rw [← pow2_add, ← hk, hvalue]

theorem Magnitude.nearest_of_isDouble {x : Rat} (h : IsDouble x) (hx : 0 ≤ x)
    (hlarge : x < pow2 1024) : nearest x = .finite x := by
  rcases hx.eq_or_lt with rfl | hpos
  · exact nearest_zero
  · obtain ⟨n, hn⟩ := h.exists_multiple hpos
    have hwhole : x / pow2 (leastBit x) = n := by
      rw [div_eq_iff (pow2_pos _).ne']
      exact hn
    rw [nearest, hwhole, roundEven_intCast, ← hn, if_pos hlarge]

/-- What the bits behind the point stand for. -/
theorem sub_floor_shifted (m k : Nat) :
    (m * pow2 (-k) - (m * pow2 (-k)).floor : Rat) = (m % 2 ^ k : Nat) * pow2 (-k) := by
  have hdiv (n : Nat) : (n : Rat) * pow2 (-k) = n / ((2 ^ k : Nat) : Rat) := by
    rw [pow2_eq_zpow, zpow_neg, zpow_natCast, Nat.cast_pow, Nat.cast_ofNat, div_eq_mul_inv]
  rw [hdiv, hdiv]
  exact Int.fract_div_natCast_eq_div_natCast_mod

/-- A double without its whole part. -/
theorem IsDouble.sub_floor {x : Rat} (h : IsDouble x) : IsDouble (x - x.floor) := by
  obtain ⟨m, q, hm, hq, rfl⟩ := h
  rcases le_or_gt 0 q with hwhole | hsplit
  · obtain ⟨k, rfl⟩ := Int.eq_ofNat_of_zero_le hwhole
    have hvalue : (m : Rat) * pow2 k = ((m * 2 ^ k : Nat) : Int) := by
      rw [Int.cast_natCast, Nat.cast_mul]
      rfl
    rw [hvalue, Rat.floor_intCast, sub_self]
    exact isDouble_zero
  · obtain ⟨k, rfl⟩ : ∃ k : Nat, q = -k := ⟨(-q).toNat, by omega⟩
    exact ⟨m % 2 ^ k, -k, (Nat.mod_le m _).trans_lt hm, hq, sub_floor_shifted m k⟩

theorem Binary64.isDouble {w : Binary64} {negative : Bool} {m : Nat} {q : Int}
    (h : w.datum = .finite negative m q) : IsDouble (m * pow2 q) := by
  have hmin : Format.binary64.minExponent = -1074 := by decide
  obtain ⟨hm, hq⟩ := Format.bounds_of_decode h
  rw [hmin] at hq
  exact ⟨m, q, hm, hq, rfl⟩

end JsonPlan.Binary
