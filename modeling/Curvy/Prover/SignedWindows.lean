import Curvy.Lib.BalancedDigits
import Curvy.Lib.Limbs
import Curvy.Witness.Field
import Mathlib.Algebra.Order.Ring.Int
import Mathlib.Tactic.IntervalCases

/-!
# Signed windows of a scalar

A scalar is cut into windows with digits around zero, in order with a carry or window by window
from the carry found behind it.
-/

namespace Curvy.Prover

set_option autoImplicit false

open Witness (frModulus)

/-- `scalar_window`: `width` bits from `startBit` on, from one limb or two. -/
def scalarWindow (words : List (BitVec 64)) (startBit width : Nat) : Nat :=
  let limb := startBit / 64
  let shift := startBit % 64
  let value := words.getD limb 0 >>> shift
  let value :=
    if shift ≠ 0 ∧ shift + width > 64 then value ||| words.getD (limb + 1) 0 <<< (64 - shift)
    else value
  (value &&& ((1#64 <<< width) - 1)).toNat

/-- `as i16`. -/
def toI16 (x : Int) : Int := x.bmod 65536

/-- The backward walk of `signed_window_digit` from the window below `window`. -/
def carryInto (words : List (BitVec 64)) (width : Nat) : Nat → Int
  | 0 => 0
  | prior + 1 =>
    let radix : Nat := 1 <<< width
    let midpoint : Int := (radix >>> 1 : Nat)
    let digit : Int := scalarWindow words (prior * width) width
    if digit ≠ midpoint - 1 then (if digit ≥ midpoint then 1 else 0)
    else carryInto words width prior

def signedWindowDigit (words : List (BitVec 64)) (width window : Nat) : Int :=
  let radix : Nat := 1 <<< width
  let midpoint : Int := (radix >>> 1 : Nat)
  let carry := carryInto words width window
  let unsigned := scalarWindow words (window * width) width + carry
  if unsigned ≥ midpoint then toI16 (unsigned - radix) else toI16 unsigned

/-- The loop of `for_each_signed_window` from `window` on: what it emits and its last carry. -/
def signedWindowsFrom (words : List (BitVec 64)) (width : Nat) :
    Nat → Nat → Int → List (Nat × Int) × Int
  | 0, _, carry => ([], carry)
  | windows + 1, window, carry =>
    let radix : Nat := 1 <<< width
    let midpoint : Int := (radix >>> 1 : Nat)
    let unsigned := scalarWindow words (window * width) width + carry
    let (digit, carry) := if unsigned ≥ midpoint then (unsigned - radix, 1) else (unsigned, 0)
    let (emitted, carry) := signedWindowsFrom words width windows (window + 1) carry
    ((window, toI16 digit) :: emitted, carry)

def forEachSignedWindow (words : List (BitVec 64)) (width windows : Nat) : List (Nat × Int) × Int :=
  signedWindowsFrom words width windows 0 0

/-- `Fr::MODULUS_BIT_SIZE`. -/
def modulusBitSize : Nat := 254

/-- `div_ceil` of the bits of the modulus. -/
def windowCount (width : Nat) : Nat := (modulusBitSize + (width - 1)) / width

/-! ### Windows -/

theorem mask_testBit {width : Nat} (hwidth : width < 64) (j : Nat) :
    ((1#64 <<< width) - 1).getLsbD j = decide (j < width) := by
  have hpow : 2 ^ width < 2 ^ 64 := Nat.pow_lt_pow_right (by omega) hwidth
  have hpos : 0 < 2 ^ width := Nat.two_pow_pos width
  have hnat : ((1#64 <<< width) - 1).toNat = 2 ^ width - 1 := by
    rw [BitVec.toNat_sub, BitVec.toNat_shiftLeft, Nat.shiftLeft_eq]
    have hone : (1#64).toNat = 1 := rfl
    have hone' : (1 : BitVec 64).toNat = 1 := rfl
    rw [hone, hone', Nat.one_mul, Nat.mod_eq_of_lt hpow]
    omega
  rw [BitVec.getLsbD, hnat, Nat.testBit_two_pow_sub_one]

theorem scalarWindow_eq (words : List (BitVec 64)) (startBit : Nat) {width : Nat} (hwidth : width < 64) :
    scalarWindow words startBit width = Limbs.value words / 2 ^ startBit % 2 ^ width := by
  apply Nat.eq_of_testBit_eq
  intro j
  rw [Nat.testBit_mod_two_pow, ← Nat.shiftRight_eq_div_pow, Nat.testBit_shiftRight,
    Limbs.testBit_value (by omega)]
  unfold scalarWindow
  dsimp only
  rw [← BitVec.getLsbD, BitVec.getLsbD_and, mask_testBit hwidth]
  by_cases hj : j < width
  · rw [decide_eq_true hj, Bool.and_true, Bool.true_and]
    by_cases hlow : startBit % 64 + j < 64
    · -- the bit stands in the first limb; what the second one adds begins above it
      have hdiv : (startBit + j) / 64 = startBit / 64 := by omega
      have hmod : (startBit + j) % 64 = startBit % 64 + j := by omega
      rw [hdiv, hmod]
      split
      · rw [BitVec.getLsbD_or, BitVec.getLsbD_ushiftRight, BitVec.getLsbD_shiftLeft,
          decide_eq_true (by omega : j < 64 - startBit % 64), Bool.not_true, Bool.and_false,
          Bool.false_and, Bool.or_false]
      · rw [BitVec.getLsbD_ushiftRight]
    · have hdiv : (startBit + j) / 64 = startBit / 64 + 1 := by omega
      have hmod : (startBit + j) % 64 = j - (64 - startBit % 64) := by omega
      have hstraddle : startBit % 64 ≠ 0 ∧ startBit % 64 + width > 64 := by omega
      rw [hdiv, hmod, if_pos hstraddle, BitVec.getLsbD_or, BitVec.getLsbD_ushiftRight,
        BitVec.getLsbD_shiftLeft, BitVec.getLsbD_of_ge _ _ (by omega),
        decide_eq_true (by omega : j < 64), decide_eq_false (by omega : ¬ j < 64 - startBit % 64)]
      simp
  · rw [decide_eq_false hj, Bool.and_false, Bool.false_and]

theorem scalarWindow_window (words : List (BitVec 64)) {width : Nat} (hwidth : width < 64) (i : Nat) :
    scalarWindow words (i * width) width = Balanced.window width (Limbs.value words) i := by
  rw [scalarWindow_eq words _ hwidth, Nat.mul_comm]
  rfl

theorem radix_eq (width : Nat) : 1 <<< width = 2 ^ width := by
  rw [Nat.shiftLeft_eq, Nat.one_mul]

theorem midpoint_eq {width : Nat} (hwidth : 0 < width) : 1 <<< width >>> 1 = 2 ^ (width - 1) := by
  have hhalf := Balanced.half_add_half hwidth
  rw [Nat.shiftLeft_eq, Nat.one_mul, Nat.shiftRight_eq_div_pow]
  omega

/-! ### The carry -/

/-- The walk finds the carry of the windows in order. -/
theorem carryInto_eq (words : List (BitVec 64)) {width : Nat} (hlow : 0 < width) (hhigh : width < 64)
    (i : Nat) : carryInto words width i = (Balanced.carry width (Limbs.value words) i : Nat) := by
  induction i with
  | zero => rfl
  | succ i ih =>
    have hpos : 0 < 2 ^ (width - 1) := Nat.two_pow_pos _
    rw [carryInto, midpoint_eq hlow, scalarWindow_window words hhigh]
    by_cases h : Balanced.window width (Limbs.value words) i = 2 ^ (width - 1) - 1
    · rw [if_neg (by omega), Balanced.carry_succ_of_eq _ _ h, ih]
    · rw [if_pos (by omega), Balanced.carry_succ_of_ne _ _ h]
      split <;> split <;> omega

theorem toI16_eq {x : Int} (hlow : -32768 ≤ x) (hhigh : x < 32768) : toI16 x = x := by
  unfold toI16
  rw [Int.bmod_def]
  omega

/-- The digit of a window and the carry it sends on, from the carry it gets. -/
theorem recode_window {width : Nat} (hlow : 0 < width) (hhigh : width ≤ 16) (x i : Nat) :
    let unsigned : Int := (Balanced.window width x i : Int) + (Balanced.carry width x i : Nat)
    let radix : Int := (2 ^ width : Nat)
    let midpoint : Int := (2 ^ (width - 1) : Nat)
    (unsigned ≥ midpoint → toI16 (unsigned - radix) = Balanced.digit width x i ∧
      Balanced.carry width x (i + 1) = 1) ∧
    (¬ unsigned ≥ midpoint → toI16 unsigned = Balanced.digit width x i ∧
      Balanced.carry width x (i + 1) = 0) := by
  have hbounds := Balanced.digit_bounds x hlow i
  have hpow : 2 ^ (width - 1) ≤ 2 ^ 15 := Nat.pow_le_pow_right (by omega) (by omega)
  have hcast : (2 ^ (width - 1) : Int) = ((2 ^ (width - 1) : Nat) : Int) := by push_cast; rfl
  rw [hcast] at hbounds
  have hdigit : toI16 (Balanced.digit width x i) = Balanced.digit width x i :=
    toI16_eq (by omega) (by omega)
  dsimp only
  constructor
  · intro h
    have hcarry : Balanced.carry width x (i + 1) = 1 := by
      rw [Balanced.carry, if_pos (by omega)]
    refine ⟨?_, hcarry⟩
    rw [← hdigit, Balanced.digit, hcarry]
    push_cast
    rw [mul_one]
  · intro h
    have hcarry : Balanced.carry width x (i + 1) = 0 := by
      rw [Balanced.carry, if_neg (by omega)]
    refine ⟨?_, hcarry⟩
    rw [← hdigit, Balanced.digit, hcarry]
    push_cast
    rw [mul_zero, sub_zero]

theorem signedWindowDigit_eq (words : List (BitVec 64)) {width : Nat} (hlow : 0 < width)
    (hhigh : width ≤ 16) (i : Nat) :
    signedWindowDigit words width i = Balanced.digit width (Limbs.value words) i := by
  obtain ⟨hneg, hpos⟩ := recode_window hlow hhigh (Limbs.value words) i
  unfold signedWindowDigit
  dsimp only
  rw [midpoint_eq hlow, radix_eq, carryInto_eq words hlow (by omega),
    scalarWindow_window words (by omega)]
  split
  · rename_i h
    exact (hneg h).1
  · rename_i h
    exact (hpos h).1

theorem signedWindowsFrom_eq (words : List (BitVec 64)) {width : Nat} (hlow : 0 < width)
    (hhigh : width ≤ 16) (windows i : Nat) :
    signedWindowsFrom words width windows i (Balanced.carry width (Limbs.value words) i : Nat) =
      ((List.range' i windows).map fun j => (j, signedWindowDigit words width j),
        ((Balanced.carry width (Limbs.value words) (i + windows) : Nat) : Int)) := by
  induction windows generalizing i with
  | zero => rfl
  | succ windows ih =>
    obtain ⟨hneg, hpos⟩ := recode_window hlow hhigh (Limbs.value words) i
    have hnext := ih (i + 1)
    rw [List.range'_succ, List.map_cons, signedWindowDigit_eq words hlow hhigh i]
    unfold signedWindowsFrom
    dsimp only
    rw [midpoint_eq hlow, radix_eq, scalarWindow_window words (by omega)]
    rw [Nat.add_assoc, Nat.add_comm 1 windows] at hnext
    split
    · rename_i h
      obtain ⟨hdigit, hcarry⟩ := hneg h
      rw [hcarry] at hnext
      dsimp only
      rw [hdigit]
      rw [show (1 : Int) = ((1 : Nat) : Int) from rfl, hnext]
    · rename_i h
      obtain ⟨hdigit, hcarry⟩ := hpos h
      rw [hcarry] at hnext
      dsimp only
      rw [hdigit]
      rw [show (0 : Int) = ((0 : Nat) : Int) from rfl, hnext]

/-! ### Recoding -/

/-- Every width leaves the top window room: below the modulus no carry is left over. -/
theorem modulus_le_largest {width : Nat} (hlow : 3 ≤ width) (hhigh : width ≤ 16) :
    frModulus ≤ Balanced.largest width (windowCount width) := by
  interval_cases width <;> decide

/-- Walking from window to window and starting at any one of them give the same digits. They lie
around zero in sixteen bits, their weighted sum is the scalar and no carry is left. -/
theorem signed_windows_exact {width : Nat} (hlow : 3 ≤ width) (hhigh : width ≤ 16)
    (scalar : List (BitVec 64)) (hscalar : Limbs.value scalar < frModulus) :
    forEachSignedWindow scalar width (windowCount width) =
      ((List.range (windowCount width)).map fun i => (i, signedWindowDigit scalar width i), 0) ∧
    (∀ i, -(2 ^ (width - 1) : Int) ≤ signedWindowDigit scalar width i ∧
      signedWindowDigit scalar width i < 2 ^ (width - 1)) ∧
    (∀ i, -32768 ≤ signedWindowDigit scalar width i ∧ signedWindowDigit scalar width i ≤ 32767) ∧
    ∑ i ∈ Finset.range (windowCount width), signedWindowDigit scalar width i * 2 ^ (width * i) =
      (Limbs.value scalar : Int) := by
  have hpos : 0 < width := by omega
  have hle : Limbs.value scalar ≤ Balanced.largest width (windowCount width) :=
    le_trans (Nat.le_of_lt hscalar) (modulus_le_largest hlow hhigh)
  have hbounds : ∀ i, -(2 ^ (width - 1) : Int) ≤ signedWindowDigit scalar width i ∧
      signedWindowDigit scalar width i < 2 ^ (width - 1) := by
    intro i
    rw [signedWindowDigit_eq scalar hpos hhigh]
    exact Balanced.digit_bounds _ hpos i
  refine ⟨?_, hbounds, ?_, ?_⟩
  · have hrun := signedWindowsFrom_eq scalar hpos hhigh (windowCount width) 0
    rw [Nat.zero_add, Balanced.carry_eq_zero hpos hle] at hrun
    rw [forEachSignedWindow, List.range_eq_range']
    exact hrun
  · intro i
    have hpow : (2 : Int) ^ (width - 1) ≤ 2 ^ 15 := pow_le_pow_right₀ (by omega) (by omega)
    obtain ⟨hmin, hmax⟩ := hbounds i
    omega
  · rw [← Balanced.sum_digits_of_le hpos hle]
    exact Finset.sum_congr rfl fun i _ => by rw [signedWindowDigit_eq scalar hpos hhigh]

/-- The largest scalar in windows of three bits, whose top window is the ambiguous one. -/
theorem signed_windows_exact_example :
    ∑ i ∈ Finset.range (windowCount 3),
        signedWindowDigit (Limbs.ofNat 64 4 (frModulus - 1)) 3 i * 2 ^ (3 * i) =
      (Limbs.value (Limbs.ofNat 64 4 (frModulus - 1)) : Int) :=
  (signed_windows_exact (by omega) (by omega) _ (by decide)).2.2.2

end Curvy.Prover
