import JsonPlan.Proofs.Binary.Monotone

/-!
Powers and quotients against powers of two. No number of roundings takes a product of magnitudes
below the product of the powers of two that they reach, and an infinite magnitude reaches them all.
-/

namespace JsonPlan.Binary.Magnitude

/-! ## Powers -/

/-- A power of two from one upwards is reached or passed. -/
def AtLeast (e : Nat) : Magnitude → Prop
  | .finite x => pow2 e ≤ x
  | .infinite => True

theorem AtLeast.mono {e e' : Nat} {m : Magnitude} (h : m.AtLeast e) (hle : e' ≤ e) :
    m.AtLeast e' := by
  cases m with
  | infinite => trivial
  | finite x => exact (pow2_le_pow2 (by omega)).trans h

theorem atLeast_nearest {e : Nat} {x : Rat} (h : pow2 e ≤ x) : (nearest x).AtLeast e := by
  cases hr : nearest x with
  | infinite => trivial
  | finite r => exact pow2_le_nearest (by omega) h hr

theorem AtLeast.mul {i j : Nat} {a b : Magnitude} (ha : a.AtLeast i) (hb : b.AtLeast j) :
    (a.mul b).AtLeast (i + j) := by
  cases a with
  | infinite => trivial
  | finite x =>
      cases b with
      | infinite => trivial
      | finite y =>
          apply atLeast_nearest
          rw [Nat.cast_add, pow2_add]
          exact mul_le_mul ha hb (pow2_pos j).le ((pow2_pos i).le.trans ha)

/-- The last bit of the exponent moves into the accumulator. -/
theorem AtLeast.step {i j n : Nat} {acc base : Magnitude} (hacc : acc.AtLeast i)
    (hbase : base.AtLeast j) :
    (if n % 2 = 1 then acc.mul base else acc).AtLeast (i + j * (n % 2)) := by
  rcases Nat.mod_two_eq_zero_or_one n with heven | hodd
  · rw [if_neg (by omega), heven]
    exact hacc
  · rw [if_pos hodd, hodd, Nat.mul_one]
    exact hacc.mul hbase

/-- The accumulator and the power that is still to come make up the whole power. -/
theorem AtLeast.powFrom {i j n : Nat} {acc base : Magnitude} (hacc : acc.AtLeast i)
    (hbase : base.AtLeast j) : (powFrom acc base n).AtLeast (i + j * n) := by
  induction acc, base, n using powFrom.induct generalizing i j with
  | case1 acc base n hlast =>
      have hn : i + j * n = i + j * (n % 2) := by rw [Nat.mod_eq_of_lt (by omega)]
      rw [Magnitude.powFrom, if_pos hlast, hn]
      exact hacc.step hbase
  | case2 acc base n _ hmore =>
      rename_i ih
      rw [Magnitude.powFrom, if_neg hmore]
      have hsplit : i + j * n = i + j * (n % 2) + (j + j) * (n / 2) := by
        conv_lhs => rw [← Nat.mod_add_div n 2]
        ring
      rw [hsplit]
      exact ih (hacc.step hbase) (hbase.mul hbase)

theorem atLeast_pow {e k : Nat} (h : 2 ^ e ≤ 10 ^ k) :
    (finite ((10 ^ k : Nat) : Rat)).AtLeast e := by
  change ((2 ^ e : Nat) : Rat) ≤ _
  exact_mod_cast h

/-- A power of ten is at least the same power of eight. -/
theorem atLeast_powTen (n : Nat) : (powFrom (.finite 1) (.finite 10) n).AtLeast (3 * n) := by
  have hone : (finite 1).AtLeast 0 := (by decide : pow2 (0 : Nat) ≤ 1)
  have hten : (finite 10).AtLeast 3 := (by decide : pow2 (3 : Nat) ≤ 10)
  simpa using hone.powFrom hten (n := n)

/-! ## Quotients -/

theorem AtLeast.exceeds {e : Nat} {m : Magnitude} {x : Rat} (h : m.AtLeast e) (hx : x < pow2 e) :
    m.exceeds x = true := by
  cases m with
  | infinite => rfl
  | finite y => exact decide_eq_true (hx.trans_le h)

/-- A quotient by more than the dividend does not pass one. -/
theorem AtLeast.not_exceeds_quotient {e : Nat} {m : Magnitude} {c x : Rat} (h : m.AtLeast e)
    (hc : 0 ≤ c) (hlt : c < pow2 e) (hx : 1 ≤ x) : ¬ (quotient c m).exceeds x = true := by
  cases m with
  | infinite =>
      rw [quotient, Magnitude.exceeds, decide_eq_true_iff]
      linarith
  | finite y =>
      have hpos : 0 < y := (pow2_pos e).trans_le h
      have hone : c / y < ((10 ^ 0 : Nat) : Rat) := by
        rw [div_lt_iff₀ hpos]
        simpa using hlt.trans_le h
      obtain ⟨r, hr⟩ := exists_nearest (div_nonneg hc hpos.le) (hone.le.trans (by norm_num))
      have hle := nearest_le_pow (Nat.zero_le 17) (div_nonneg hc hpos.le) hone hr
      rw [quotient, if_neg hpos.ne', hr, Magnitude.exceeds, decide_eq_true_iff, not_lt]
      exact hle.trans (by simpa using hx)

theorem isDouble_pow2 {e : Int} (he : -1074 ≤ e) : IsDouble (pow2 e) :=
  ⟨1, e, by decide, he, by rw [Nat.cast_one, one_mul]⟩

/-- The reciprocal of a magnitude that reaches a power of two. -/
theorem AtLeast.exists_reciprocal {e : Nat} {m : Magnitude} (h : m.AtLeast e) (he : e ≤ 1074) :
    ∃ r, quotient 1 m = .finite r ∧ 0 ≤ r ∧ r ≤ pow2 (-e) := by
  cases m with
  | infinite => exact ⟨0, rfl, le_rfl, (pow2_pos _).le⟩
  | finite y =>
      have hpos : 0 < y := (pow2_pos e).trans_le h
      have hle : 1 / y ≤ pow2 (-e) := by
        rw [div_le_iff₀ hpos]
        calc (1 : Rat) = pow2 (-e) * pow2 e := by rw [← pow2_add, Int.add_left_neg]; rfl
          _ ≤ pow2 (-e) * y := mul_le_mul_of_nonneg_left h (pow2_pos _).le
      have hone : pow2 (-e) ≤ pow2 0 := pow2_le_pow2 (by omega)
      rw [show pow2 0 = 1 from rfl] at hone
      obtain ⟨r, hr⟩ := exists_nearest (one_div_nonneg.mpr hpos.le)
        ((hle.trans hone).trans (by norm_num))
      refine ⟨r, ?_, nearest_nonneg hr (one_div_nonneg.mpr hpos.le), ?_⟩
      · rw [quotient, if_neg hpos.ne', hr]
      · refine nearest_mono (one_div_nonneg.mpr hpos.le) hle hr ?_
        exact nearest_of_isDouble (isDouble_pow2 (by omega)) (pow2_pos _).le
          (pow2_lt_pow2_iff.mpr (by omega))

/-- Dividing by a reciprocal multiplies. -/
theorem AtLeast.quotient_reciprocal {e i : Nat} {m : Magnitude} {c : Rat} (h : m.AtLeast e)
    (he : e ≤ 1074) (hc : pow2 i ≤ c) : (quotient c (quotient 1 m)).AtLeast (i + e) := by
  obtain ⟨r, hr, hnonneg, hle⟩ := h.exists_reciprocal he
  rw [hr, quotient]
  split
  · trivial
  · rename_i hne
    apply atLeast_nearest
    rw [le_div_iff₀ (hnonneg.lt_of_ne' hne)]
    calc pow2 (i + e : Nat) * r ≤ pow2 (i + e : Nat) * pow2 (-e) :=
          mul_le_mul_of_nonneg_left hle (pow2_pos _).le
      _ = pow2 i := by
          rw [← pow2_add]
          congr 1
          omega
      _ ≤ c := hc

end JsonPlan.Binary.Magnitude
