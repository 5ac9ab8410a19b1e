import JsonPlan.Capacity
import Mathlib.Algebra.Group.Nat.Defs
import Mathlib.Order.Bounds.Basic
import Mathlib.Order.MinMax

/-!
The sizes that are reserved. Up to the first whole chunk they are the least step of the ladder that
is large enough, from there on the next multiple of a chunk, and none is beyond the largest size. A
larger size never gets less.
-/

namespace JsonPlan.Capacity

/-! ## On the ladder -/

/-- The powers of two from 16 to 2048, and two steps up to the first whole chunk. -/
def IsStep (s : Nat) : Prop := (∃ k, 4 ≤ k ∧ k ≤ 11 ∧ s = 2 ^ k) ∨ s = 4098 ∨ s = 8000

theorem mem_ladder {s : Nat} : s ∈ ladder ↔ IsStep s := by
  have hpowers : (∃ k, 4 ≤ k ∧ k ≤ 11 ∧ s = 2 ^ k) ↔
      s ∈ [16, 32, 64, 128, 256, 512, 1024, 2048] := by
    constructor
    · rintro ⟨k, hlow, hhigh, rfl⟩
      have hcases : ∀ k ≤ 11, 4 ≤ k → 2 ^ k ∈ [16, 32, 64, 128, 256, 512, 1024, 2048] := by decide
      exact hcases k hhigh hlow
    · intro hs
      have hcases : ∀ s ∈ [16, 32, 64, 128, 256, 512, 1024, 2048],
          ∃ k ≤ 11, 4 ≤ k ∧ s = 2 ^ k := by decide
      obtain ⟨k, hhigh, hlow, rfl⟩ := hcases s hs
      exact ⟨k, hlow, hhigh, rfl⟩
  have hsplit : ladder = [16, 32, 64, 128, 256, 512, 1024, 2048] ++ [4098, 8000] := rfl
  rw [IsStep, hpowers, hsplit, List.mem_append]
  simp

/-- In an ascending list the first element that is large enough is the least one. -/
theorem isLeast_of_find? {steps : List Nat} (hsteps : steps.Pairwise (· ≤ ·)) {n s : Nat}
    (h : steps.find? (n ≤ ·) = some s) : IsLeast {s | s ∈ steps ∧ n ≤ s} s := by
  obtain ⟨hlarge, before, after, rfl, hbefore⟩ := List.find?_eq_some_iff_append.mp h
  refine ⟨⟨by simp, by simpa using hlarge⟩, ?_⟩
  rintro t ⟨ht, hn⟩
  rcases List.mem_append.mp ht with ht | ht
  · have hsmall : ¬ n ≤ t := by simpa using hbefore t ht
    exact absurd hn hsmall
  · rcases List.mem_cons.mp ht with rfl | ht
    · exact Nat.le_refl t
    · exact (List.pairwise_cons.mp (List.pairwise_append.mp hsteps).2.1).1 t ht

theorem isLeast_bucket {n : Nat} (h : n < chunk) : IsLeast {s | IsStep s ∧ n ≤ s} (bucket n) := by
  have hsome : (ladder.find? (n ≤ ·)).isSome := by
    rw [List.find?_isSome]
    exact ⟨chunk, by decide, by simpa using h.le⟩
  obtain ⟨s, hs⟩ := Option.isSome_iff_exists.mp hsome
  have hleast := isLeast_of_find? (by decide) hs
  rw [bucket, if_pos h, hs, Option.getD_some]
  simpa only [mem_ladder] using hleast

/-! ## In chunks -/

theorem next_eq (n : Nat) : n + (chunk - n % chunk) = chunk * (n / chunk + 1) := by
  have hsplit := Nat.div_add_mod n chunk
  have hrest : n % chunk < chunk := Nat.mod_lt n (by decide)
  rw [Nat.mul_add, Nat.mul_one]
  omega

theorem isLeast_next (n : Nat) :
    IsLeast {m | chunk ∣ m ∧ n < m} (n + (chunk - n % chunk)) := by
  have hrest : n % chunk < chunk := Nat.mod_lt n (by decide)
  refine ⟨⟨?_, by omega⟩, ?_⟩
  · rw [next_eq]
    exact Nat.dvd_mul_right chunk _
  · rintro m ⟨⟨k, rfl⟩, hlt⟩
    have hk : n / chunk < k := Nat.div_lt_of_lt_mul hlt
    rw [next_eq]
    exact Nat.mul_le_mul_left chunk hk

theorem bucket_of_ge {n : Nat} (h : chunk ≤ n) :
    bucket n = min maxSize (n + (chunk - n % chunk)) := by
  rw [bucket, if_neg (Nat.not_lt.mpr h)]

/-! ## All sizes -/

theorem bucket_le_chunk {n : Nat} (h : n < chunk) : bucket n ≤ chunk :=
  (isLeast_bucket h).2 ⟨.inr (.inr rfl), h.le⟩

theorem chunk_le_bucket {n : Nat} (h : chunk ≤ n) : chunk ≤ bucket n := by
  rw [bucket_of_ge h]
  exact le_min (by decide) (h.trans (Nat.le_add_right _ _))

theorem bucket_mono {m n : Nat} (h : m ≤ n) : bucket m ≤ bucket n := by
  rcases lt_or_ge n chunk with hn | hn
  · -- A step that is large enough for `n` is large enough for `m`.
    obtain ⟨hstep, hlarge⟩ := (isLeast_bucket hn).1
    exact (isLeast_bucket (h.trans_lt hn)).2 ⟨hstep, h.trans hlarge⟩
  · rcases lt_or_ge m chunk with hm | hm
    · exact (bucket_le_chunk hm).trans (chunk_le_bucket hn)
    · have hdiv : m / chunk ≤ n / chunk := Nat.div_le_div_right h
      rw [bucket_of_ge hm, bucket_of_ge hn, next_eq, next_eq]
      exact min_le_min_left _ (Nat.mul_le_mul_left chunk (Nat.succ_le_succ hdiv))

theorem max_le_bucket {n : Nat} (h : n ≤ maxSize) : max n 16 ≤ bucket n := by
  rcases lt_or_ge n chunk with hn | hn
  · obtain ⟨hstep, hlarge⟩ := (isLeast_bucket hn).1
    refine max_le hlarge ?_
    rcases hstep with ⟨k, hk, -, hs⟩ | hs | hs
    · rw [hs]
      exact Nat.pow_le_pow_right (n := 2) (by decide) hk
    · rw [hs]
      decide
    · rw [hs]
      decide
  · have hsmall : 16 ≤ n := le_trans (by decide) hn
    rw [max_eq_left hsmall, bucket_of_ge hn]
    exact le_min h (Nat.le_add_right _ _)

/-- What is to be reserved for `n` bytes. -/
structure Reserves (n size : Nat) : Prop where
  covers : max n 16 ≤ size
  step : n < 8000 → IsLeast {s | IsStep s ∧ n ≤ s} size
  /-- A whole multiple of a chunk gets one chunk more. -/
  next : 8000 ≤ n → ∃ m, IsLeast {m | 8000 ∣ m ∧ n < m} m ∧
    size = if m ≤ 2 ^ 64 - 1 then m else 2 ^ 64 - 1

/-- Every size of 64 bits gets what is to be reserved for it, and never less than a smaller one. -/
theorem bucket_reserves (n : Nat) (h : n ≤ 2 ^ 64 - 1) :
    Reserves n (bucket n) ∧ ∀ m ≤ n, bucket m ≤ bucket n := by
  have hmax : maxSize = 2 ^ 64 - 1 := rfl
  refine ⟨⟨max_le_bucket h, isLeast_bucket, fun hn => ⟨_, isLeast_next n, ?_⟩⟩, fun m => bucket_mono⟩
  rw [bucket_of_ge hn, hmax, min_def]
  split_ifs <;> omega

/-- The last multiple of a chunk that a size can name, and the size before it. -/
theorem bucket_reserves_last :
    bucket 18446744073709543999 = 18446744073709544000 ∧
      bucket 18446744073709544000 = 18446744073709551615 := by
  obtain ⟨⟨-, -, hbefore⟩, -⟩ := bucket_reserves 18446744073709543999 (by decide)
  obtain ⟨⟨-, -, hlast⟩, -⟩ := bucket_reserves 18446744073709544000 (by decide)
  obtain ⟨m, hm, hsize⟩ := hbefore (by decide)
  obtain ⟨m', hm', hsize'⟩ := hlast (by decide)
  obtain rfl := hm.unique (isLeast_next _)
  obtain rfl := hm'.unique (isLeast_next _)
  exact ⟨hsize.trans (by decide), hsize'.trans (by decide)⟩

end JsonPlan.Capacity
