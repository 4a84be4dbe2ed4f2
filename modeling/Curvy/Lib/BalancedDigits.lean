import Mathlib.Algebra.BigOperators.Group.Finset.Basic
import Mathlib.Algebra.Order.Ring.Int
import Mathlib.Tactic.Ring

/-!
# Balanced digits

A number in radix `2 ^ width` with digits from minus half the radix up to half of it. A window
of half the radix or more, counting what the windows below carry in, turns negative and carries
one on. A carry leaves the lowest `count` windows exactly when they hold more than the number all
of whose windows stand one below half the radix.
-/

set_option autoImplicit false

namespace Balanced

variable (width x : Nat)

def window (i : Nat) : Nat := x / 2 ^ (width * i) % 2 ^ width

/-- The carry into window `i`. -/
def carry : Nat → Nat
  | 0 => 0
  | i + 1 => if 2 ^ (width - 1) ≤ window width x i + carry i then 1 else 0

def digit (i : Nat) : Int :=
  (window width x i : Int) + carry width x i - 2 ^ width * carry width x (i + 1)

/-- The largest number of `count` windows that carries nothing out. -/
def largest : Nat → Nat
  | 0 => 0
  | count + 1 => (2 ^ (width - 1) - 1) * 2 ^ (width * count) + largest count

theorem carry_le (i : Nat) : carry width x i ≤ 1 := by
  cases i with
  | zero => exact Nat.zero_le _
  | succ i =>
    unfold carry
    split <;> omega

theorem window_lt (i : Nat) : window width x i < 2 ^ width := Nat.mod_lt _ (Nat.two_pow_pos width)

variable {width}

theorem half_add_half (hwidth : 0 < width) : 2 ^ (width - 1) + 2 ^ (width - 1) = 2 ^ width := by
  rw [← Nat.two_mul, ← Nat.pow_succ', Nat.succ_eq_add_one, Nat.sub_add_cancel hwidth]

/-- Only the window one below half the radix passes a carry on. -/
theorem carry_succ_of_ne (i : Nat) (h : window width x i ≠ 2 ^ (width - 1) - 1) :
    carry width x (i + 1) = if 2 ^ (width - 1) ≤ window width x i then 1 else 0 := by
  have hcarry := carry_le width x i
  rw [carry]
  split <;> split <;> omega

theorem carry_succ_of_eq (i : Nat) (h : window width x i = 2 ^ (width - 1) - 1) :
    carry width x (i + 1) = carry width x i := by
  have hcarry := carry_le width x i
  have hpos : 0 < 2 ^ (width - 1) := Nat.two_pow_pos _
  rw [carry]
  split <;> omega

theorem digit_bounds (hwidth : 0 < width) (i : Nat) :
    -(2 ^ (width - 1) : Int) ≤ digit width x i ∧ digit width x i < 2 ^ (width - 1) := by
  have hhalf := half_add_half hwidth
  have hcarry := carry_le width x i
  have hwindow := window_lt width x i
  have hcast : (2 ^ (width - 1) : Int) = ((2 ^ (width - 1) : Nat) : Int) := by push_cast; rfl
  have hcast' : (2 ^ width : Int) = ((2 ^ width : Nat) : Int) := by push_cast; rfl
  unfold digit
  rw [carry, hcast, hcast', ← hhalf]
  split
  · push_cast
    omega
  · push_cast
    omega

theorem mod_succ (count : Nat) :
    x % 2 ^ (width * (count + 1)) =
      x % 2 ^ (width * count) + 2 ^ (width * count) * window width x count := by
  rw [Nat.mul_succ, pow_add, Nat.mod_mul]
  rfl

theorem sum_digits (count : Nat) :
    ∑ i ∈ Finset.range count, digit width x i * 2 ^ (width * i) =
      (x % 2 ^ (width * count) : Nat) - (2 ^ (width * count) : Int) * carry width x count := by
  induction count with
  | zero =>
    rw [Finset.sum_range_zero, Nat.mul_zero, Nat.pow_zero, Nat.mod_one, carry]
    simp
  | succ count ih =>
    rw [Finset.sum_range_succ, ih, mod_succ, digit, Nat.mul_succ, pow_add]
    push_cast
    ring

theorem largest_lt (hwidth : 0 < width) (count : Nat) : largest width count < 2 ^ (width * count) := by
  induction count with
  | zero => exact Nat.one_pos
  | succ count ih =>
    have hhalf := half_add_half hwidth
    have hpos : 0 < 2 ^ (width - 1) := Nat.two_pow_pos _
    calc largest width (count + 1)
        < (2 ^ (width - 1) - 1 + 1) * 2 ^ (width * count) := by rw [largest, Nat.add_mul]; omega
      _ ≤ 2 ^ width * 2 ^ (width * count) := Nat.mul_le_mul_right _ (by omega)
      _ = 2 ^ (width * (count + 1)) := by rw [← pow_add, Nat.mul_succ, Nat.add_comm]

/-- Compared window by window from the top. -/
theorem carry_eq_one_iff (hwidth : 0 < width) (count : Nat) :
    carry width x count = 1 ↔ largest width count < x % 2 ^ (width * count) := by
  induction count with
  | zero => simp [carry, largest, Nat.mod_one]
  | succ count ih =>
    have hpos : 0 < 2 ^ (width - 1) := Nat.two_pow_pos _
    have hlow : x % 2 ^ (width * count) < 2 ^ (width * count) := Nat.mod_lt _ (Nat.two_pow_pos _)
    have hlargest := largest_lt hwidth count
    rw [mod_succ, largest, Nat.mul_comm (2 ^ (width - 1) - 1)]
    rcases Nat.lt_trichotomy (window width x count) (2 ^ (width - 1) - 1) with h | h | h
    · have hle := Nat.mul_le_mul_left (2 ^ (width * count)) (Nat.succ_le_of_lt h)
      rw [Nat.mul_succ] at hle
      rw [carry_succ_of_ne x count (by omega), if_neg (by omega)]
      omega
    · rw [carry_succ_of_eq x count h, ih, h]
      omega
    · have hle := Nat.mul_le_mul_left (2 ^ (width * count)) (Nat.succ_le_of_lt h)
      rw [Nat.mul_succ] at hle
      rw [carry_succ_of_ne x count (by omega), if_pos (by omega)]
      omega

/-- No carry is left of a number that does not pass `largest`. -/
theorem carry_eq_zero (hwidth : 0 < width) {count : Nat} {x : Nat} (h : x ≤ largest width count) :
    carry width x count = 0 := by
  have hle := carry_le width x count
  have hone := (carry_eq_one_iff x hwidth count).not.mpr (by
    have hmod := Nat.mod_le x (2 ^ (width * count))
    omega)
  omega

theorem sum_digits_of_le (hwidth : 0 < width) {count : Nat} {x : Nat} (h : x ≤ largest width count) :
    ∑ i ∈ Finset.range count, digit width x i * 2 ^ (width * i) = (x : Int) := by
  have hlt := largest_lt hwidth count
  rw [sum_digits, carry_eq_zero hwidth h, Nat.mod_eq_of_lt (by omega), Nat.cast_zero, mul_zero, sub_zero]

end Balanced
