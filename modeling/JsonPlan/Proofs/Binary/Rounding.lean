import JsonPlan.Binary.Rounding
import Mathlib.Algebra.Order.Field.Power
import Mathlib.Data.Rat.Cast.Order
import Mathlib.Tactic.Linarith
import Mathlib.Tactic.NormNum
import Mathlib.Tactic.Positivity

/-! Rounding to whole numbers keeps order, and rounding to doubles does not pass a number that is
kept. -/

namespace JsonPlan.Binary

/-! ## Powers of two -/

theorem pow2_eq_zpow (e : Int) : pow2 e = (2 : Rat) ^ e := by
  cases e with
  | ofNat n => simp [pow2]
  | negSucc n => simp [pow2, Rat.mkRat_eq_div, zpow_negSucc]

theorem pow2_pos (e : Int) : 0 < pow2 e := by
  rw [pow2_eq_zpow]
  positivity

theorem pow2_lt_pow2_iff {a b : Int} : pow2 a < pow2 b ↔ a < b := by
  rw [pow2_eq_zpow, pow2_eq_zpow]
  exact zpow_lt_zpow_iff_right₀ (by norm_num)

theorem pow2_le_pow2 {a b : Int} (h : a ≤ b) : pow2 a ≤ pow2 b := by
  rw [pow2_eq_zpow, pow2_eq_zpow]
  exact zpow_le_zpow_right₀ (by norm_num) h

theorem pow2_add (a b : Int) : pow2 (a + b) = pow2 a * pow2 b := by
  rw [pow2_eq_zpow, pow2_eq_zpow, pow2_eq_zpow, zpow_add₀ (by norm_num)]

theorem natAbs_num_div_den {x : Rat} (h : 0 ≤ x) : (x.num.natAbs : Rat) / x.den = x := by
  have habs : ((x.num.natAbs : Int) : Rat) = x.num := by
    rw [Int.natAbs_of_nonneg (Rat.num_nonneg.mpr h)]
  rw [← Int.cast_natCast, habs, Rat.num_div_den]

theorem pow2_log2_le {x : Rat} (h : 0 < x) : pow2 (log2 x) ≤ x := by
  rw [log2]
  split
  · assumption
  · have hnum : ((2 ^ x.num.natAbs.log2 : Nat) : Rat) ≤ x.num.natAbs := by
      have hne : x.num.natAbs ≠ 0 := by
        rw [Int.natAbs_ne_zero, Rat.num_ne_zero]
        exact h.ne'
      exact_mod_cast Nat.log2_self_le hne
    have hden : ((x.den : Nat) : Rat) ≤ (2 ^ (x.den.log2 + 1) : Nat) := by
      exact_mod_cast Nat.le_of_lt Nat.lt_log2_self
    have hexponent : (x.num.natAbs.log2 : Int) - x.den.log2 - 1 =
        (x.num.natAbs.log2 : Int) - ((x.den.log2 + 1 : Nat) : Int) := by
      omega
    rw [pow2_eq_zpow, hexponent, zpow_sub₀ (by norm_num), zpow_natCast, zpow_natCast]
    calc (2 : Rat) ^ x.num.natAbs.log2 / 2 ^ (x.den.log2 + 1)
        ≤ x.num.natAbs / x.den :=
          div_le_div₀ (by positivity) (by exact_mod_cast hnum)
            (by exact_mod_cast x.den_pos) (by exact_mod_cast hden)
      _ = x := natAbs_num_div_den h.le

/-! ## Whole numbers -/

theorem roundEven_intCast (n : Int) : roundEven (n : Rat) = n := by
  have hhalf : (0 : Rat) < mkRat 1 2 := by decide
  simp [roundEven, hhalf]

theorem roundUp_intCast (n : Int) : roundUp (n : Rat) = n := by
  have hhalf : (n : Rat) + mkRat 1 2 < ((n + 1 : Int) : Rat) := by
    push_cast
    norm_num
  apply le_antisymm
  · exact Int.lt_add_one_iff.mp (Rat.floor_lt_iff.mpr hhalf)
  · rw [roundUp, Rat.le_floor_iff]
    norm_num

theorem roundEven_mono {x y : Rat} (h : x ≤ y) : roundEven x ≤ roundEven y := by
  have hbelow (z : Rat) : z.floor ≤ roundEven z ∧ roundEven z ≤ z.floor + 1 := by
    rw [roundEven]
    split_ifs <;> omega
  rcases (Rat.floor_monotone h).lt_or_eq with hlt | heq
  · have hx := hbelow x
    have hy := hbelow y
    omega
  · have hrest : x - x.floor ≤ y - y.floor := by
      rw [heq]
      linarith
    rw [roundEven, roundEven, heq]
    rw [heq] at hrest
    split_ifs <;> first | omega | (exfalso; linarith)

theorem roundUp_mono {x y : Rat} (h : x ≤ y) : roundUp x ≤ roundUp y :=
  Rat.floor_monotone (by linarith)

theorem roundEven_le {x : Rat} {n : Int} (h : x ≤ n) : roundEven x ≤ n :=
  (roundEven_mono h).trans_eq (roundEven_intCast n)

theorem le_roundEven {x : Rat} {n : Int} (h : n ≤ x) : n ≤ roundEven x :=
  (roundEven_intCast n).symm.trans_le (roundEven_mono h)

theorem roundUp_le {x : Rat} {n : Int} (h : x ≤ n) : roundUp x ≤ n :=
  (roundUp_mono h).trans_eq (roundUp_intCast n)

theorem roundUp_nonneg {x : Rat} (h : 0 ≤ x) : 0 ≤ roundUp x :=
  (roundUp_intCast 0).symm.trans_le (roundUp_mono (by simpa using h))

/-! ## Doubles -/

/-- What `x` is rounded to, unless it is infinite. -/
theorem Magnitude.nearest_eq_finite {x r : Rat} (h : nearest x = .finite r) :
    r = roundEven (x / pow2 (leastBit x)) * pow2 (leastBit x) := by
  rw [nearest] at h
  split_ifs at h
  exact (Magnitude.finite.inj h).symm

/-- A multiple of the bit at which `x` is rounded bounds what `x` is rounded to. -/
theorem Magnitude.nearest_le {x y r : Rat} {n : Int} (h : nearest x = .finite r) (hxy : x ≤ y)
    (hy : y = n * pow2 (leastBit x)) : r ≤ y := by
  have hunit := pow2_pos (leastBit x)
  have hround : roundEven (x / pow2 (leastBit x)) ≤ n := by
    apply roundEven_le
    rw [div_le_iff₀ hunit, ← hy]
    exact hxy
  rw [nearest_eq_finite h, hy]
  exact mul_le_mul_of_nonneg_right (by exact_mod_cast hround) hunit.le

theorem Magnitude.le_nearest {x y r : Rat} {n : Int} (h : nearest x = .finite r) (hyx : y ≤ x)
    (hy : y = n * pow2 (leastBit x)) : y ≤ r := by
  have hunit := pow2_pos (leastBit x)
  have hround : n ≤ roundEven (x / pow2 (leastBit x)) := by
    apply le_roundEven
    rw [le_div_iff₀ hunit, ← hy]
    exact hyx
  rw [nearest_eq_finite h, hy]
  exact mul_le_mul_of_nonneg_right (by exact_mod_cast hround) hunit.le

theorem Magnitude.nearest_nonneg {x r : Rat} (h : nearest x = .finite r) (hx : 0 ≤ x) : 0 ≤ r :=
  le_nearest (n := 0) h hx (by simp)

theorem log2_lt {x : Rat} {k : Nat} (hx : 0 < x) (h : x < ((2 ^ k : Nat) : Rat)) :
    log2 x < k :=
  pow2_lt_pow2_iff.mp ((pow2_log2_le hx).trans_lt h)

/-- Powers of ten up to `10 ^ 17` are doubles. -/
theorem Magnitude.nearest_le_pow {x r : Rat} {s : Nat} (hs : s ≤ 17) (hx : 0 ≤ x)
    (hlt : x < ((10 ^ s : Nat) : Rat)) (h : nearest x = .finite r) :
    r ≤ ((10 ^ s : Nat) : Rat) := by
  have hbit : leastBit x ≤ s := by
    rcases hx.eq_or_lt with rfl | hpos
    · have hzero : leastBit 0 = -53 := by decide
      omega
    · have htwo : ((10 ^ s : Nat) : Rat) ≤ ((2 ^ (4 * s) : Nat) : Rat) := by
        rw [Nat.pow_mul]
        exact_mod_cast Nat.pow_le_pow_left (by decide) s
      have hlog := log2_lt hpos (lt_of_lt_of_le hlt htwo)
      rw [leastBit]
      omega
  refine nearest_le (n := ((5 ^ s * 2 ^ (s - leastBit x).toNat : Nat) : Int)) h hlt.le ?_
  have htwo : ((2 ^ (s - leastBit x).toNat : Nat) : Rat) * pow2 (leastBit x) = 2 ^ s := by
    rw [pow2_eq_zpow, Nat.cast_pow, Nat.cast_ofNat, ← zpow_natCast,
      ← zpow_add₀ (by norm_num), ← zpow_natCast]
    congr 1
    omega
  rw [Int.cast_natCast, Nat.cast_mul, mul_assoc, htwo]
  push_cast
  rw [← mul_pow]
  norm_num

end JsonPlan.Binary
