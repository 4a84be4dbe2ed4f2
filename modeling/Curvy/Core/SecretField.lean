import Curvy.Witness.ScalarField

/-!
# Field arithmetic on Montgomery residues

An element is kept as its product with the radix `2 ^ 256`. Addition and negation reduce by one
selected subtraction or addition of the modulus; conversion and product are the library's.
-/

namespace Curvy

set_option autoImplicit false

open Witness (Fr frModulus)

/-- `BaseModulus`. -/
def baseModulus : BitVec 256 := 0x30644e72e131a029b85045b68181585d2833e84879b9709143e1f593f0000001#256

structure Element where
  residue : BitVec 256
  reduced : residue.toNat < frModulus

namespace Element

def radix : Fr := (2 ^ 256 : Nat)

/-- `into_ark`: the same residue, read as a field element. -/
def intoArk (x : Element) : Fr := (x.residue.toNat : Fr) * radix⁻¹

theorem frModulus_lt : frModulus < 2 ^ 256 := by decide

theorem baseModulus_toNat : baseModulus.toNat = frModulus := rfl

def ofResidue (x : Fr) : Element where
  residue := BitVec.ofNat 256 x.val
  reduced := by
    have hlt : x.val < frModulus := ZMod.val_lt x
    have hbound := frModulus_lt
    rw [BitVec.toNat_ofNat, Nat.mod_eq_of_lt (by omega)]
    exact hlt

def zero : Element := ⟨0#256, by decide⟩

/-- `ConstMontyForm::new`. -/
def new (n : Nat) : Element := ofResidue ((n : Fr) * radix)

/-- `ConstMontyForm::mul`. -/
def mul (left right : Element) : Element :=
  ofResidue ((left.residue.toNat : Fr) * (right.residue.toNat : Fr) * radix⁻¹)

theorem add_reduced (left right : Element) :
    (if left.residue + right.residue < baseModulus then left.residue + right.residue
      else left.residue + right.residue - baseModulus).toNat =
    if left.residue.toNat + right.residue.toNat < frModulus then
      left.residue.toNat + right.residue.toNat
    else left.residue.toNat + right.residue.toNat - frModulus := by
  have hl := left.reduced
  have hr := right.reduced
  have hbound : 2 * frModulus < 2 ^ 256 := by decide
  have hsum : (left.residue + right.residue).toNat = left.residue.toNat + right.residue.toNat := by
    rw [BitVec.toNat_add, Nat.mod_eq_of_lt (by omega)]
  have hiff : left.residue + right.residue < baseModulus ↔
      left.residue.toNat + right.residue.toNat < frModulus := by
    rw [BitVec.lt_def, hsum, baseModulus_toNat]
  by_cases h : left.residue.toNat + right.residue.toNat < frModulus
  · rw [if_pos (hiff.mpr h), if_pos h, hsum]
  · rw [if_neg (fun hlt => h (hiff.mp hlt)), if_neg h, BitVec.toNat_sub, hsum, baseModulus_toNat]
    omega

def add (left right : Element) : Element where
  residue :=
    let sum := left.residue + right.residue
    let reduced := sum - baseModulus
    if sum < baseModulus then sum else reduced
  reduced := by
    have hl := left.reduced
    have hr := right.reduced
    have hsum := add_reduced left right
    dsimp only
    rw [hsum]
    split <;> omega

theorem negate_reduced (x : Element) :
    (if decide (x.residue ≠ 0#256) then 0#256 - x.residue + baseModulus
      else 0#256 - x.residue).toNat =
    if x.residue.toNat = 0 then 0 else frModulus - x.residue.toNat := by
  have hx := x.reduced
  have hbound := frModulus_lt
  by_cases hzero : x.residue = 0#256
  · rw [hzero]
    rfl
  · have hne : x.residue.toNat ≠ 0 := fun h => hzero (BitVec.eq_of_toNat_eq h)
    rw [if_pos (decide_eq_true hzero), if_neg hne, BitVec.toNat_add, BitVec.toNat_sub,
      baseModulus_toNat]
    have hnone : (0#256).toNat = 0 := rfl
    omega

/-- A borrow is left by every residue but zero. -/
def negate (x : Element) : Element where
  residue :=
    let difference := 0#256 - x.residue
    let borrow := decide (x.residue ≠ 0#256)
    let corrected := difference + baseModulus
    if borrow then corrected else difference
  reduced := by
    have hx := x.reduced
    have hneg := negate_reduced x
    dsimp only
    rw [hneg]
    split <;> omega

/-! ### What the operations denote -/

theorem radix_ne_zero : radix ≠ 0 := by decide

theorem intoArk_ofResidue (x : Fr) : (ofResidue x).intoArk = x * radix⁻¹ := by
  have hlt : x.val < frModulus := ZMod.val_lt x
  have hbound := frModulus_lt
  have hval : (ofResidue x).residue.toNat = x.val := by
    rw [ofResidue, BitVec.toNat_ofNat, Nat.mod_eq_of_lt (by omega)]
  rw [intoArk, hval, ZMod.natCast_zmod_val]

@[simp] theorem intoArk_zero : zero.intoArk = 0 := by
  have hzero : zero.residue.toNat = 0 := rfl
  rw [intoArk, hzero, Nat.cast_zero, zero_mul]

@[simp] theorem intoArk_new (n : Nat) : (new n).intoArk = (n : Fr) := by
  rw [new, intoArk_ofResidue, mul_inv_cancel_right₀ radix_ne_zero]

@[simp] theorem intoArk_mul (left right : Element) :
    (mul left right).intoArk = left.intoArk * right.intoArk := by
  rw [mul, intoArk_ofResidue, intoArk, intoArk]
  ring

@[simp] theorem intoArk_add (left right : Element) :
    (add left right).intoArk = left.intoArk + right.intoArk := by
  have hres : ((add left right).residue.toNat : Fr) = left.residue.toNat + right.residue.toNat := by
    rw [← Nat.cast_add]
    refine Eq.trans (congrArg Nat.cast (add_reduced left right)) ?_
    split
    · rfl
    · rw [Nat.cast_sub (by omega), ZMod.natCast_self, sub_zero]
  rw [intoArk, hres, intoArk, intoArk, add_mul]

@[simp] theorem intoArk_negate (x : Element) : (negate x).intoArk = -x.intoArk := by
  have hx := x.reduced
  have hres : ((negate x).residue.toNat : Fr) = -x.residue.toNat := by
    refine Eq.trans (congrArg Nat.cast (negate_reduced x)) ?_
    split
    · rename_i hzero
      rw [hzero, Nat.cast_zero, neg_zero]
    · rw [Nat.cast_sub (by omega), ZMod.natCast_self, zero_sub]
  rw [intoArk, hres, intoArk, neg_mul]

end Element

end Curvy
