import Mathlib.Algebra.Group.Nat.Defs
import Mathlib.Tactic.ByContra

namespace ZephyrRtos.Lib

variable {w : ℕ}

def bit (w n : ℕ) : BitVec w := 1#w <<< n

def bitsFrom (b : BitVec w) (n : ℕ) : BitVec w := b &&& (BitVec.allOnes w <<< n)

def countTrailingZeros (b : BitVec w) : ℕ := b.ctz.toNat

theorem getLsbD_bit (h : n < w) : (bit w n).getLsbD i = decide (i = n) := by
  simp only [bit]
  by_cases hi : i = n
  · simp [hi, h]
  · simp only [hi]
    by_cases hlt : i < n
    · simp [hlt]
    · simp; omega

@[simp] theorem getLsbD_or_bit (b : BitVec w) (h : n < w) :
    (b ||| bit w n).getLsbD i = (b.getLsbD i || decide (i = n)) := by
  simp [getLsbD_bit h]

@[simp] theorem getLsbD_and_not_bit (b : BitVec w) (h : n < w) :
    (b &&& ~~~bit w n).getLsbD i = (b.getLsbD i && decide (i ≠ n)) := by
  by_cases hi : i < w
  · rw [BitVec.getLsbD_and, BitVec.getLsbD_not, getLsbD_bit h]
    simp [hi]
  · simp [BitVec.getLsbD_of_ge b i (by omega)]

@[simp] theorem getLsbD_bitsFrom (b : BitVec w) (n i : ℕ) :
    (bitsFrom b n).getLsbD i = (b.getLsbD i && decide (n ≤ i)) := by
  by_cases hi : i < w
  · simp only [bitsFrom, BitVec.getLsbD_and, BitVec.getLsbD_shiftLeft, hi]
    by_cases hn : n ≤ i
    · simp [hn, show i - n < w by omega]
    · simp [hn]
  · simp [BitVec.getLsbD_of_ge _ i (show w ≤ i by omega)]

theorem getLsbD_ctz (h : b ≠ 0#w) :
    b.getLsbD (countTrailingZeros b) = true := BitVec.getLsbD_true_ctz_of_ne_zero h

theorem ctz_le (h : b.getLsbD i = true) : countTrailingZeros b ≤ i := by
  by_contra hlt
  have := BitVec.getLsbD_false_of_lt_ctz (by simpa [countTrailingZeros] using hlt)
  simp [h] at this

theorem ne_zero_of_getLsbD (h : b.getLsbD i = true) : b ≠ 0#w := by
  rintro rfl
  simp at h

end ZephyrRtos.Lib
