import Mathlib.Data.Fin.Tuple.Basic
import Mathlib.Data.Nat.Bitwise
import Mathlib.Data.Nat.ModEq

/-!
# Numbers in a fixed number of limbs

A number in limbs of `w` bits, the lowest first, each held in a machine word. Limbs that do not
reach `2 ^ w` are determined by the number, bit by bit.
-/

set_option autoImplicit false

namespace Radix

variable {m n w : Nat}

abbrev Words (m n : Nat) : Type := Fin n → BitVec m

/-- The lowest limb. -/
abbrev low {α : Type} (a : Fin (n + 1) → α) : α := a 0

def value (w : Nat) : {n : Nat} → Words m n → Nat
  | 0, _ => 0
  | _ + 1, a => (low a).toNat + 2 ^ w * value w (Fin.tail a)

theorem value_succ (a : Words m (n + 1)) :
    value w a = (low a).toNat + 2 ^ w * value w (Fin.tail a) := rfl

theorem value_cons (x : BitVec m) (a : Words m n) :
    value w (Fin.cons x a : Words m (n + 1)) = x.toNat + 2 ^ w * value w a := rfl

def Reduced (w : Nat) (a : Words m n) : Prop := ∀ i, (a i).toNat < 2 ^ w

instance (a : Words m n) : Decidable (Reduced w a) :=
  inferInstanceAs (Decidable (∀ i, (a i).toNat < 2 ^ w))

theorem Reduced.tail {a : Words m (n + 1)} (h : Reduced w a) : Reduced w (Fin.tail a) :=
  fun i => h i.succ

theorem Reduced.cons {x : BitVec m} {a : Words m n} (hx : x.toNat < 2 ^ w) (h : Reduced w a) :
    Reduced w (Fin.cons x a : Words m (n + 1)) :=
  fun i => Fin.cases hx h i

theorem Reduced.full (a : Words m n) : Reduced m a := fun i => (a i).isLt

theorem value_lt {a : Words m n} (h : Reduced w a) : value w a < 2 ^ (w * n) := by
  induction n with
  | zero => exact Nat.one_pos
  | succ n ih =>
    have hlow := h 0
    have hhigh : value w (Fin.tail a) + 1 ≤ 2 ^ (w * n) := ih h.tail
    calc value w a < 2 ^ w + 2 ^ w * value w (Fin.tail a) := Nat.add_lt_add_right hlow _
      _ = 2 ^ w * (value w (Fin.tail a) + 1) := by rw [Nat.mul_succ, Nat.add_comm]
      _ ≤ 2 ^ w * 2 ^ (w * n) := Nat.mul_le_mul_left _ hhigh
      _ = 2 ^ (w * (n + 1)) := by rw [← pow_add, Nat.mul_succ, Nat.add_comm]

theorem value_injective {a b : Words m n} (ha : Reduced w a) (hb : Reduced w b)
    (h : value w a = value w b) : a = b := by
  induction n with
  | zero => exact funext fun i => i.elim0
  | succ n ih =>
    have hlow := congrArg (· % 2 ^ w) h
    have hhigh := congrArg (· / 2 ^ w) h
    simp only [value_succ, Nat.add_mul_mod_self_left, Nat.mod_eq_of_lt (ha 0),
      Nat.mod_eq_of_lt (hb 0)] at hlow
    simp only [value_succ, Nat.add_mul_div_left _ _ (Nat.two_pow_pos w),
      Nat.div_eq_of_lt (ha 0), Nat.div_eq_of_lt (hb 0), Nat.zero_add] at hhigh
    have htail := ih ha.tail hb.tail hhigh
    funext i
    refine Fin.cases ?_ (fun j => ?_) i
    · exact BitVec.eq_of_toNat_eq hlow
    · exact congrFun htail j

theorem value_zero : value w (fun _ => 0 : Words m n) = 0 := by
  induction n with
  | zero => rfl
  | succ n ih =>
    change (0 : BitVec m).toNat + 2 ^ w * value w (fun _ => 0 : Words m n) = 0
    rw [ih]
    rfl

/-! ## Bits -/

theorem testBit_value (hw : 0 < w) {a : Words m n} (h : Reduced w a) (k : Nat) :
    (value w a).testBit k = if hk : k / w < n then (a ⟨k / w, hk⟩).getLsbD (k % w) else false := by
  induction n generalizing k with
  | zero => exact Nat.zero_testBit k
  | succ n ih =>
    rw [value_succ, Nat.add_comm, Nat.testBit_two_pow_mul_add _ (h 0)]
    split
    · rename_i hlow
      have hdiv : k / w = 0 := Nat.div_eq_of_lt hlow
      have hmod : k % w = k := Nat.mod_eq_of_lt hlow
      rw [dif_pos (by omega), hmod]
      have hzero : (⟨k / w, by omega⟩ : Fin (n + 1)) = 0 := Fin.ext hdiv
      rw [hzero]
      rfl
    · rename_i hhigh
      obtain ⟨j, rfl⟩ := Nat.exists_eq_add_of_le (Nat.not_lt.mp hhigh)
      have hdiv : (w + j) / w = j / w + 1 := by rw [Nat.add_div_left _ hw]
      have hmod : (w + j) % w = j % w := Nat.add_mod_left _ _
      rw [Nat.add_sub_cancel_left, ih h.tail]
      split
      · rename_i hj
        rw [dif_pos (by omega), hmod]
        have hsucc : (⟨(w + j) / w, by omega⟩ : Fin (n + 1)) = Fin.succ ⟨j / w, hj⟩ :=
          Fin.ext hdiv
        rw [hsucc]
        rfl
      · rw [dif_neg (by omega)]

/-- The limbs of a number. -/
def ofNat (m w n number : Nat) : Words m n := fun i => BitVec.ofNat m (number / 2 ^ (w * i) % 2 ^ w)

theorem ofNat_toNat (hw : w ≤ m) (number : Nat) (i : Fin n) :
    (ofNat m w n number i).toNat = number / 2 ^ (w * i) % 2 ^ w := by
  rw [ofNat, BitVec.toNat_ofNat]
  apply Nat.mod_eq_of_lt
  exact Nat.lt_of_lt_of_le (Nat.mod_lt _ (Nat.two_pow_pos w)) (Nat.pow_le_pow_right (by omega) hw)

theorem ofNat_reduced (hw : w ≤ m) (number : Nat) : Reduced w (ofNat m w n number) := by
  intro i
  rw [ofNat_toNat hw]
  exact Nat.mod_lt _ (Nat.two_pow_pos w)

theorem value_ofNat (hw : w ≤ m) (number : Nat) :
    value w (ofNat m w n number) = number % 2 ^ (w * n) := by
  induction n generalizing number with
  | zero =>
    rw [Nat.mul_zero, Nat.pow_zero, Nat.mod_one]
    rfl
  | succ n ih =>
    have htail : Fin.tail (ofNat m w (n + 1) number) = ofNat m w n (number / 2 ^ w) := by
      funext i
      rw [ofNat, Nat.div_div_eq_div_mul, ← pow_add]
      unfold Fin.tail ofNat
      rw [Fin.val_succ, Nat.mul_succ, Nat.add_comm]
    rw [value_succ, htail, ih, ofNat_toNat hw, Fin.val_zero, Nat.mul_zero, Nat.pow_zero, Nat.div_one,
      Nat.mul_succ, Nat.add_comm (w * n), pow_add, Nat.mod_mul]

theorem ofNat_value (hw : w ≤ m) {a : Words m n} (h : Reduced w a) :
    ofNat m w n (value w a) = a := by
  apply value_injective (ofNat_reduced hw _) h
  rw [value_ofNat hw, Nat.mod_eq_of_lt (value_lt h)]

theorem ofNat_getLsbD (hw : w ≤ m) (number : Nat) (i : Fin n) (j : Nat) :
    (ofNat m w n number i).getLsbD j = (decide (j < w) && number.testBit (w * i + j)) := by
  rw [BitVec.getLsbD, ofNat_toNat hw, Nat.testBit_mod_two_pow, Nat.testBit_div_two_pow,
    Nat.add_comm j]

end Radix
