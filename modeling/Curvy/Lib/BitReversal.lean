import Mathlib.Data.Nat.Bitwise
import Mathlib.Tactic.Ring

/-!
# Bit reversal

The low bits of a number in reverse order.
-/

namespace BitReversal

set_option autoImplicit false

def reversed : ℕ → ℕ → ℕ
  | 0, _ => 0
  | k + 1, i => i % 2 * 2 ^ k + reversed k (i / 2)

theorem reversed_lt (k i : ℕ) : reversed k i < 2 ^ k := by
  induction k generalizing i with
  | zero => exact Nat.one_pos
  | succ k ih =>
    have hrest := ih (i / 2)
    have hbit : i % 2 * 2 ^ k ≤ 1 * 2 ^ k := Nat.mul_le_mul_right _ (by omega)
    rw [reversed, pow_succ]
    omega

theorem reversed_even (k i : ℕ) : reversed (k + 1) (2 * i) = reversed k i := by
  rw [reversed, Nat.mul_mod_right, Nat.zero_mul, Nat.zero_add, Nat.mul_div_cancel_left _ Nat.two_pos]

theorem reversed_odd (k i : ℕ) : reversed (k + 1) (2 * i + 1) = 2 ^ k + reversed k i := by
  have hmod : (2 * i + 1) % 2 = 1 := by omega
  have hdiv : (2 * i + 1) / 2 = i := by omega
  rw [reversed, hmod, hdiv, Nat.one_mul]

/-- High and low bits change places. -/
theorem reversed_split (a b p r : ℕ) (hr : r < 2 ^ b) :
    reversed (a + b) (p * 2 ^ b + r) = reversed b r * 2 ^ a + reversed a p := by
  induction b generalizing r with
  | zero =>
    have h0 : r = 0 := Nat.lt_one_iff.mp hr
    rw [h0, reversed, pow_zero, Nat.mul_one, Nat.add_zero, Nat.add_zero, Nat.zero_mul, Nat.zero_add]
  | succ b ih =>
    have hpow : p * 2 ^ (b + 1) = 2 * (p * 2 ^ b) := by ring
    have hmod : (p * 2 ^ (b + 1) + r) % 2 = r % 2 := by omega
    have hdiv : (p * 2 ^ (b + 1) + r) / 2 = p * 2 ^ b + r / 2 := by omega
    have hhalf : r / 2 < 2 ^ b := by
      rw [pow_succ] at hr
      omega
    rw [← Nat.add_assoc a b 1, reversed, hmod, hdiv, ih (r / 2) hhalf, reversed]
    ring

theorem reversed_reversed (k i : ℕ) (hi : i < 2 ^ k) : reversed k (reversed k i) = i := by
  induction k generalizing i with
  | zero => rw [Nat.lt_one_iff.mp hi, reversed]
  | succ k ih =>
    have hhalf : i / 2 < 2 ^ k := by
      rw [pow_succ] at hi
      omega
    have hone : reversed 1 (i % 2) = i % 2 := by
      rw [reversed, reversed, pow_zero, Nat.mul_one, Nat.add_zero, Nat.mod_mod]
    have hsplit := reversed_split 1 k (i % 2) (reversed k (i / 2)) (reversed_lt k _)
    rw [Nat.add_comm 1 k, ih _ hhalf, hone] at hsplit
    calc reversed (k + 1) (reversed (k + 1) i)
        = reversed (k + 1) (i % 2 * 2 ^ k + reversed k (i / 2)) := rfl
      _ = i / 2 * 2 ^ 1 + i % 2 := hsplit
      _ = i := by omega

theorem testBit_reversed (k i j : ℕ) :
    (reversed k i).testBit j = (decide (j < k) && i.testBit (k - 1 - j)) := by
  induction k generalizing i with
  | zero => rw [reversed, Nat.zero_testBit, decide_eq_false (Nat.not_lt_zero j), Bool.false_and]
  | succ k ih =>
    have hlt := reversed_lt k (i / 2)
    rw [reversed, Nat.mul_comm (i % 2), Nat.testBit_two_pow_mul_add _ hlt, ih]
    by_cases hjk : j < k
    · have hsub : k + 1 - 1 - j = k - 1 - j + 1 := by omega
      rw [if_pos hjk, decide_eq_true hjk, decide_eq_true (Nat.lt_succ_of_lt hjk), hsub,
        Nat.testBit_succ]
    · rw [if_neg hjk]
      by_cases heq : j = k
      · have hzero : k + 1 - 1 - k = 0 := by omega
        rw [heq, Nat.sub_self, hzero, decide_eq_true (Nat.lt_succ_self k), Bool.true_and]
        rcases Nat.mod_two_eq_zero_or_one i with h | h
        · rw [h, Nat.testBit_zero, Nat.testBit_zero, h]
        · rw [h, Nat.testBit_zero, Nat.testBit_zero, h]
      · have hgt : ¬ j < k + 1 := by omega
        have hbit : i % 2 < 2 ^ (j - k) := by
          have hpow : 2 ^ 1 ≤ 2 ^ (j - k) := Nat.pow_le_pow_right Nat.two_pos (by omega)
          omega
        rw [decide_eq_false hgt, Bool.false_and, Nat.testBit_lt_two_pow hbit]

end BitReversal
