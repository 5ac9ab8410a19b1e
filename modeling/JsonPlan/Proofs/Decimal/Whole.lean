import JsonPlan.Proofs.Binary.Power
import JsonPlan.Proofs.Decimal.Canonical

/-!
The whole part of a float from one upwards. More digits never cost it as long as their number, with
the guard digit, stays below `2 ^ 31`. From there on the exponent of the guard power wraps round to
a negative one, and all that lies below about five times a power of ten is written as zero.
-/

namespace JsonPlan.Decimal

open Binary Json

/-! ## Whole parts -/

/-- The whole part of a value is written as it is or one greater, with a sign in front of it if the
value has one. -/
def KeepsWhole (v : Rat) (out : String) : Prop :=
  ∃ (n : Nat) (fraction : List Char), ((n : Int) = |v|.floor ∨ (n : Int) = |v|.floor + 1) ∧
    (∀ c ∈ fraction, isDigit c = true) ∧
    out = Positional.text ⟨decide (v < 0), digits n, fraction⟩

theorem KeepsWhole.ne_zero {v : Rat} {out : String} (h : KeepsWhole v out) (hone : 1 ≤ |v|) :
    out ≠ "0" := by
  obtain ⟨n, fraction, hwhole, -, rfl⟩ := h
  have hfloor : 1 ≤ |v|.floor := Rat.le_floor_iff.mpr (by simpa using hone)
  obtain ⟨c, hc, hne⟩ := exists_mem_digits_ne (n := n) (by omega)
  exact Positional.text_ne_zero ⟨c, List.mem_append_left _ hc, hne⟩

namespace Split

theorem whole_strip (s : Split) : s.strip.whole = s.whole := by
  fun_induction Split.strip s with
  | case1 s _ ih => rw [ih, drop]
  | case2 s _ => rfl

theorem whole_carry (s : Split) : s.carry.whole = s.whole ∨ s.carry.whole = s.whole + 1 := by
  rw [carry]
  split
  · exact .inr rfl
  · exact .inl rfl

theorem whole_ofMagnitude {v : Rat} (hv : 0 ≤ v) (scale : Nat) :
    ((ofMagnitude v scale).whole : Int) = v.floor ∨
      ((ofMagnitude v scale).whole : Int) = v.floor + 1 := by
  have hcut : ((cut v scale).whole : Int) = v.floor :=
    Int.natAbs_of_nonneg (Rat.le_floor_iff.mpr (by simpa using hv))
  rw [ofMagnitude, whole_strip, ← hcut]
  rcases whole_carry (cut v scale) with h | h <;> omega

/-- The chunks of what is split at its point. -/
theorem keepsWhole_chunks {v : Rat} (hone : 1 ≤ |v|) (scale : Nat) :
    KeepsWhole v (String.join ((ofMagnitude |v| scale).chunks (decide (v < 0)))) := by
  have hwhole := whole_ofMagnitude (abs_nonneg v) scale
  have hfloor : 1 ≤ |v|.floor := Rat.le_floor_iff.mpr (by simpa using hone)
  generalize ofMagnitude |v| scale = s at hwhole ⊢
  refine ⟨s.whole, (s.positional (decide (v < 0))).fraction, hwhole, ?_, ?_⟩
  · intro c hc
    rw [positional] at hc
    split at hc
    · cases hc
    · exact isDigit_of_mem_fractionDigits hc
  · rw [join_chunks (by omega)]
    rfl

end Split

/-! ## The guard power -/

namespace Precision

variable {p : Precision} {v : Rat}

/-- The number of digits and the guard digit do not fit a signed word. -/
def Wraps (p : Precision) : Prop := 2 ^ 31 ≤ max p.decimals.toNat p.precision.toNat + 1

/-- What is written as zero once the exponent has wrapped round. -/
def lostBelow (p : Precision) : Magnitude :=
  .quotient justBelowFive
    (.quotient 1 (.finite ((10 ^ (UInt32.size - p.guardDigits) : Nat) : Rat)))

/-- The digits that are asked for cost a value its whole part. -/
def Loses (p : Precision) (v : Rat) : Prop := p.Wraps ∧ p.lostBelow.exceeds v = true

theorem guardDigits_eq (p : Precision) :
    p.guardDigits = min 4294967295 (max p.decimals.toNat p.precision.toNat + 1) := rfl

theorem atLeast_guardPower (h : ¬ p.Wraps) : p.guardPower.AtLeast 3 := by
  have hguard : 1 ≤ p.guardDigits ∧ p.guardDigits < 2 ^ 31 := by
    rw [Wraps] at h
    rw [guardDigits_eq]
    omega
  rw [guardPower]
  split
  · exact Magnitude.atLeast_pow
      ((by decide : 2 ^ 3 ≤ 10 ^ 1).trans (Nat.pow_le_pow_right (by decide) hguard.1))
  · have hsigned : Int.bmod p.guardDigits UInt32.size = p.guardDigits := by
      rw [Int.bmod, show UInt32.size = 4294967296 from rfl]
      split <;> omega
    rw [hsigned, Magnitude.tenToThe, if_neg (by omega), Int.natAbs_natCast]
    exact (Magnitude.atLeast_powTen _).mono (by omega)

/-- The exponent is negative, and the power is a reciprocal. -/
theorem guardPower_of_wraps (h : p.Wraps) : p.guardPower =
    .quotient 1 (.powFrom (.finite 1) (.finite 10) (UInt32.size - p.guardDigits)) := by
  have hsize : UInt32.size = 4294967296 := rfl
  have hguard : 2 ^ 31 ≤ p.guardDigits ∧ p.guardDigits < UInt32.size := by
    rw [Wraps] at h
    rw [guardDigits_eq, hsize]
    omega
  have hsigned : Int.bmod p.guardDigits UInt32.size = p.guardDigits - UInt32.size := by
    rw [Int.bmod, hsize]
    split <;> omega
  have habs : (p.guardDigits - UInt32.size : Int).natAbs = UInt32.size - p.guardDigits := by
    omega
  rw [guardPower, if_neg (by rw [maxScale]; omega), hsigned, Magnitude.tenToThe,
    if_pos (by omega), habs]

theorem powTen_eq : ∀ k : Fin 20, Magnitude.powFrom (.finite 1) (.finite 10) k =
    .finite ((10 ^ (k : Nat) : Nat) : Rat) := by
  decide +kernel

/-- A reciprocal as the guard power makes the threshold at least four times as great. -/
theorem atLeast_threshold {e : Nat} {m : Magnitude} (h : m.AtLeast e) (he : e ≤ 1074) :
    (Magnitude.quotient justBelowFive (.quotient 1 m)).AtLeast (2 + e) :=
  h.quotient_reciprocal he ((by decide : pow2 (2 : Nat) ≤ 4).trans justBelowFive_bounds.1.le)

/-- Up to `10 ^ 19` the power that is computed is exact, and from there on all is lost. -/
theorem exceeds_zeroBelow_iff (h : p.Wraps) (hlimit : v < ((10 ^ 18 : Nat) : Rat)) :
    p.zeroBelow.exceeds v = true ↔ p.lostBelow.exceeds v = true := by
  rw [zeroBelow, guardPower_of_wraps h, lostBelow]
  generalize UInt32.size - p.guardDigits = k
  rcases lt_or_ge k 20 with hsmall | hlarge
  · rw [powTen_eq ⟨k, hsmall⟩]
  · have hbelow : v < pow2 (2 + 60 : Nat) := hlimit.trans (by decide)
    have hpow := Magnitude.atLeast_pow (e := 60)
      ((by decide : 2 ^ 60 ≤ 10 ^ 20).trans (Nat.pow_le_pow_right (by decide) hlarge))
    have hpow' : (Magnitude.powFrom (.finite 1) (.finite 10) k).AtLeast 60 :=
      (Magnitude.atLeast_powTen k).mono (by omega)
    rw [(atLeast_threshold hpow (by decide)).exceeds hbelow,
      (atLeast_threshold hpow' (by decide)).exceeds hbelow]

/-- Nothing below 32 is kept, whatever the exponent wraps to. -/
theorem loses_of_lt (h : p.Wraps) (hv : v < 32) : p.Loses v := by
  have hone : 1 ≤ UInt32.size - p.guardDigits := by
    rw [guardDigits_eq, show UInt32.size = 4294967296 from rfl]
    omega
  have hpow := Magnitude.atLeast_pow (e := 3)
    ((by decide : 2 ^ 3 ≤ 10 ^ 1).trans (Nat.pow_le_pow_right (by decide) hone))
  exact ⟨h, (atLeast_threshold hpow (by decide)).exceeds (hv.trans_eq rfl)⟩

theorem exceeds_zeroBelow_iff_loses (hone : 1 ≤ v) (hlimit : v < ((10 ^ 18 : Nat) : Rat)) :
    p.zeroBelow.exceeds v = true ↔ p.Loses v := by
  rw [Loses]
  by_cases h : p.Wraps
  · rw [exceeds_zeroBelow_iff h hlimit, and_iff_right h]
  · have hbounds := justBelowFive_bounds
    have hkept := (atLeast_guardPower h).not_exceeds_quotient (c := justBelowFive) (by linarith)
      (hbounds.2.trans (by decide)) hone
    exact iff_of_false hkept fun hloses => h hloses.1

end Precision

/-! ## Texts -/

/-- A float from one upwards keeps its whole part, or that part plus one, unless the number of
digits wraps round; then it is written as zero. -/
theorem fixed_whole (p : Precision) (w : Binary64) {v : Rat} (hv : w.datum.value? = some v)
    (hone : 1 ≤ |v|) (hlimit : |v| < ((10 ^ 18 : Nat) : Rat)) :
    ∃ out, (Writing.fixed p w.datum).into "" = (out, none) ∧
      (KeepsWhole v out ↔ ¬ p.Loses |v|) ∧ (out = "0" ↔ p.Loses |v|) := by
  obtain ⟨negative, m, q, hdatum, habs, hsigned⟩ := Datum.eq_finite hv
  have hpos : |v| ≠ 0 := by linarith
  have hlost := p.exceeds_zeroBelow_iff_loses hone hlimit
  refine ⟨fixed p w.datum, Writing.fixed_into_empty p w.datum, ?_⟩
  rw [hdatum, fixed, fixedChunks, ← habs]
  by_cases hloses : p.Loses |v|
  · have hzero : ¬ KeepsWhole v "0" := fun h => h.ne_zero hone rfl
    rw [if_pos (.inr (hlost.mpr hloses))]
    exact ⟨iff_of_false hzero (not_not_intro hloses), iff_of_true rfl hloses⟩
  · have hkept : ¬ (|v| = 0 ∨ p.zeroBelow.exceeds |v| = true) := by
      rintro (hzero | hbelow)
      · exact hpos hzero
      · exact hloses (hlost.mp hbelow)
    have hsplit : ¬ splitLimit ≤ |v| := not_le.mpr hlimit
    have hsign : negative = decide (v < 0) :=
      negative_eq (by rw [habs]; exact hsigned) (abs_ne_zero.mp hpos)
    have hkeeps := Split.keepsWhole_chunks hone (p.scale |v|)
    rw [if_neg hkept, if_neg hsplit, hsign]
    exact ⟨iff_of_true hkeeps hloses, iff_of_false (hkeeps.ne_zero hone) hloses⟩

/-- The guard power is a tenth, and what is below fifty up to a rounding is lost. -/
theorem fixed_whole_fifty :
    let p : Precision := ⟨4294967295, 2⟩
    let x : Binary64 := ⟨0x4048fffffffffffe⟩
    let y : Binary64 := ⟨0x4048fffffffffffd⟩
    let v : Rat := 3518437208883199 / 70368744177664
    let w : Rat := 7036874417766397 / 140737488355328
    x.datum.value? = some v ∧ y.datum.value? = some w ∧
      (Writing.fixed p x.datum).into "" = ("49.99999999999998576", none) ∧
      (Writing.fixed p y.datum).into "" = ("0", none) ∧
      KeepsWhole v "49.99999999999998576" ∧ ¬ p.Loses v ∧ p.Loses w := by
  intro p x y v w
  have hv : x.datum.value? = some v := by decide +kernel
  have hw : y.datum.value? = some w := by decide +kernel
  have hx : (Writing.fixed p x.datum).into "" = ("49.99999999999998576", none) := by
    decide +kernel
  have hy : (Writing.fixed p y.datum).into "" = ("0", none) := by decide +kernel
  have habs : |v| = v := abs_of_nonneg (by norm_num [v])
  have habs' : |w| = w := abs_of_nonneg (by norm_num [w])
  obtain ⟨out, htext, hkeeps, hzero⟩ :=
    fixed_whole p x hv (by norm_num [habs, v]) (by norm_num [habs, v])
  obtain ⟨out', htext', -, hzero'⟩ :=
    fixed_whole p y hw (by norm_num [habs', w]) (by norm_num [habs', w])
  obtain ⟨rfl, -⟩ := Prod.mk.inj (hx.symm.trans htext)
  obtain ⟨rfl, -⟩ := Prod.mk.inj (hy.symm.trans htext')
  have hkept : ¬ p.Loses |v| := fun h => absurd (hzero.mpr h) (by decide)
  exact ⟨hv, hw, hx, hy, hkeeps.mpr hkept, habs ▸ hkept, habs' ▸ hzero'.mp rfl⟩

/-- One is written as zero when all the digits are asked for that a word can number. -/
theorem fixed_loses_one :
    let p : Precision := ⟨4294967295, 2⟩
    let w : Binary64 := ⟨0x3ff0000000000000⟩
    w.datum.value? = some 1 ∧ (Writing.fixed p w.datum).into "" = ("0", none) ∧
      ¬ KeepsWhole 1 "0" := by
  intro p w
  refine ⟨by decide +kernel, by decide +kernel, fun h => ?_⟩
  exact h.ne_zero (by norm_num) rfl

end JsonPlan.Decimal
