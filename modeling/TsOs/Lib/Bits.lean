import Mathlib

/-!
# Single bits of words

A word with one bit set, the tests, settings and clearings that use it as a mask, the rounding down to a multiple of a power of two,
and the count of the bits that are set.
-/

namespace Bits

open List BitVec Option Bool Nat

variable {w : Nat}

theorem getLsbD_one_shiftLeft (k i : Nat) : (1#w <<< k).getLsbD i = (decide (i < w) && decide (i = k)) := by
  rw [getLsbD_shiftLeft]
  by_cases hw : i < w
  · by_cases hk : i = k
    · subst hk
      simp [hw]
      omega
    · by_cases hlt : i < k
      · simp [hlt, hk]
      · have : i - k ≠ 0 := by omega
        simp [hk, this]
  · simp [hw]

/-- A test with a mask of one bit. -/
theorem and_mask_eq_zero {x y : BitVec w} {k : Nat} (hy : ∀ i, y.getLsbD i = (decide (i < w) && decide (i = k))) :
    (x &&& y == 0#w) = !x.getLsbD k := by
  cases hx : x.getLsbD k with
  | true =>
    have hk : k < w := lt_of_getLsbD hx
    rw [Bool.not_true, beq_eq_false_iff_ne]
    intro h0
    have hbit : (x &&& y).getLsbD k = (0#w).getLsbD k := by rw [h0]
    rw [getLsbD_and, hy, hx] at hbit
    simp [hk] at hbit
  | false =>
    rw [Bool.not_false, beq_iff_eq]
    apply eq_of_getLsbD_eq
    intro i hi
    rw [getLsbD_and, hy, getLsbD_zero]
    by_cases hik : i = k
    · rw [hik, hx, Bool.false_and]
    · rw [decide_eq_false hik, Bool.and_false, Bool.and_false]

theorem and_mask_ne_zero {x y : BitVec w} {k : Nat} (hy : ∀ i, y.getLsbD i = (decide (i < w) && decide (i = k))) :
    (x &&& y != 0#w) = x.getLsbD k := by
  rw [bne, and_mask_eq_zero hy, Bool.not_not]

/-! ## Multiples of a power of two -/

/-- `x & ~((1 << k) - 1)` in words of `w` bits is the multiple of `2 ^ k` at or below `x`. -/
theorem and_not_mask {x k : Nat} (hx : x < 2 ^ w) (hk : k ≤ w) : x &&& (2 ^ w - 1 - (2 ^ k - 1)) = x / 2 ^ k * 2 ^ k := by
  have hle : 2 ^ k ≤ 2 ^ w := Nat.pow_le_pow_right (by decide) hk
  have hmask : 2 ^ w - 1 - (2 ^ k - 1) = 2 ^ w - ((2 ^ k - 1) + 1) := by omega
  apply eq_of_testBit_eq
  intro i
  rw [hmask, testBit_and, testBit_two_pow_sub_succ (by omega), testBit_two_pow_sub_one, testBit_mul_two_pow,
    testBit_div_two_pow]
  by_cases hi : k ≤ i
  · rw [Nat.sub_add_cancel hi]
    by_cases hw : i < w
    · simp [hi, hw, Nat.not_lt.2 hi]
    · have : x.testBit i = false := Nat.testBit_lt_two_pow (Nat.lt_of_lt_of_le hx (Nat.pow_le_pow_right (by decide) (by omega)))
      simp [this]
  · simp [hi, Nat.lt_of_not_le hi]

/-! ## Counting -/

/-- Changing one value of a predicate from false to true adds one to the count. -/
theorem countP_update {n f : Nat} {P Q : Nat → Bool} (hf : f < n) (hP : P f = false) (hQ : Q f = true)
    (hne : ∀ g, g ≠ f → Q g = P g) : (List.range n).countP Q = (List.range n).countP P + 1 := by
  induction n with
  | zero => omega
  | succ n ih =>
    rw [range_succ, countP_append, countP_append, countP_singleton, countP_singleton]
    by_cases hfn : f = n
    · have hsame : (range n).countP Q = (range n).countP P := by
        refine countP_congr (fun g hg => ?_)
        rw [hne g (by rw [mem_range] at hg; omega)]
      rw [hsame, ← hfn, hP, hQ]
      simp
    · rw [hne n (fun h => hfn h.symm)]
      omega

end Bits
