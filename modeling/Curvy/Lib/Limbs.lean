import Mathlib.Data.Nat.Bitwise

/-!
# Numbers as machine words

A number in words of `w` bits, the least significant word first. What the words denote is
settled bit by bit.
-/

set_option autoImplicit false

namespace Limbs

variable {w : Nat}

def value : List (BitVec w) → Nat
  | [] => 0
  | word :: words => word.toNat + value words <<< w

/-- The lowest `count` words of a number. -/
def ofNat (w : Nat) : Nat → Nat → List (BitVec w)
  | 0, _ => []
  | count + 1, n => BitVec.ofNat w n :: ofNat w count (n >>> w)

@[simp] theorem ofNat_length (count n : Nat) : (ofNat w count n).length = count := by
  induction count generalizing n with
  | zero => rfl
  | succ count ih => rw [ofNat, List.length_cons, ih]

theorem value_ofNat (count n : Nat) : value (ofNat w count n) = n % 2 ^ (w * count) := by
  induction count generalizing n with
  | zero => rw [Nat.mul_zero, Nat.pow_zero, Nat.mod_one]; rfl
  | succ count ih =>
    rw [ofNat, value, ih, BitVec.toNat_ofNat, Nat.shiftLeft_eq, Nat.shiftRight_eq_div_pow,
      Nat.mul_succ, Nat.add_comm (w * count), pow_add, Nat.mod_mul, Nat.mul_comm (2 ^ w)]

theorem value_ofNat_of_lt {count n : Nat} (h : n < 2 ^ (w * count)) :
    value (ofNat w count n) = n := by
  rw [value_ofNat, Nat.mod_eq_of_lt h]

/-- Bit `i` stands in word `i / w`; beyond the words there are none. -/
theorem testBit_value (hw : 0 < w) (words : List (BitVec w)) (i : Nat) :
    (value words).testBit i = (words.getD (i / w) 0).getLsbD (i % w) := by
  induction words generalizing i with
  | nil => simp [value]
  | cons word words ih =>
    have hsum : value (word :: words) = 2 ^ w * value words + word.toNat := by
      rw [value, Nat.shiftLeft_eq, Nat.mul_comm, Nat.add_comm]
    rw [hsum, Nat.testBit_two_pow_mul_add _ word.isLt]
    by_cases hi : i < w
    · rw [if_pos hi, Nat.div_eq_of_lt hi, Nat.mod_eq_of_lt hi]
      rfl
    · obtain ⟨j, rfl⟩ : ∃ j, i = j + w := ⟨i - w, by omega⟩
      rw [if_neg hi, Nat.add_sub_cancel, ih, Nat.add_mod_right, Nat.add_div_right _ hw]
      rfl

/-- Some word is set exactly when the number they hold is not zero. -/
theorem any_ne_zero (words : List (BitVec w)) : words.any (· ≠ 0) = true ↔ value words ≠ 0 := by
  induction words with
  | nil => simp [value]
  | cons word words ih =>
    have hpos : 0 < 2 ^ w := Nat.two_pow_pos w
    have hzero : word = 0 ↔ word.toNat = 0 := by
      rw [← BitVec.toNat_inj]
      simp
    rw [List.any_cons, Bool.or_eq_true, ih, value, Nat.shiftLeft_eq, decide_eq_true_eq, ne_eq, hzero]
    rw [ne_eq, ne_eq, Nat.add_eq_zero_iff, Nat.mul_eq_zero]
    constructor
    · rintro (h | h) ⟨ha, hb⟩
      · exact h ha
      · omega
    · intro h
      by_contra hcon
      apply h
      omega

end Limbs
