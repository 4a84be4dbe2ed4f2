import Curvy.Lib.Limbs
import Curvy.Witness.ScalarField
import Mathlib.Order.Compare

/-!
# What the graph operations mean

Each operation of a graph, said on the canonical integers of its operands. Comparisons read an
integer above half the modulus as negative.
-/

namespace Curvy.Witness

set_option autoImplicit false

/-- Centred representative of a canonical integer. -/
def centred (a : Nat) : Int := if a ≤ frModulus / 2 then a else (a : Int) - frModulus

def bit (p : Prop) [Decidable p] : Nat := if p then 1 else 0

/-- `v` is the result of the operation on the canonical integers `a` and `b`. -/
def Operation.Denotes (operation : Operation) (a b v : Nat) : Prop :=
  match operation with
  | .mul | .montgomeryMul => v = a * b % frModulus
  | .add => v = (a + b) % frModulus
  | .sub => (v : Int) = ((a : Int) - b) % frModulus
  | .eq => v = bit (a = b)
  | .neq => v = bit (a ≠ b)
  | .lt => v = bit (centred a < centred b)
  | .gt => v = bit (centred b < centred a)
  | .leq => v = bit (centred a ≤ centred b)
  | .geq => v = bit (centred b ≤ centred a)
  | .logicalOr => v = bit (a ≠ 0 ∨ b ≠ 0)
  | .logicalAnd => v = bit (a ≠ 0 ∧ b ≠ 0)
  | .neg => (v : Int) = (-(a : Int)) % frModulus
  | .inv => v * a % frModulus = 1
  | .div => v * b % frModulus = a
  | .pow => v = a ^ b % frModulus
  | .shl => v = a * 2 ^ b % 2 ^ 254 % frModulus
  | .shr => v = a / 2 ^ b
  | .bitAnd => v = (a &&& b) % frModulus
  | .bitXor => v = (a ^^^ b) % frModulus
  | .bitOr => v = (a ||| b) % frModulus
  | .mod => v = a % b
  | .integerDiv => v = a / b

/-- The error of an operation on operands it is not defined for. -/
def Operation.fault (operation : Operation) (index a b : Nat) : Option WitnessError :=
  match operation with
  | .inv => if a = 0 then some (.divisionByZero index) else none
  | .div | .mod | .integerDiv => if b = 0 then some (.divisionByZero index) else none
  | .shl | .shr => if b < 256 then none else some (.invalidShift index)
  | _ => none

/-! ### The centred order -/

theorem centred_val (x : Fr) : centred x.val = x.valMinAbs := (ZMod.valMinAbs_def_pos x).symm

theorem centred_injective : Function.Injective fun x : Fr => centred x.val := by
  intro x y h
  dsimp only at h
  rw [centred_val, centred_val] at h
  exact ZMod.injective_valMinAbs h

theorem centred_cast (x : Fr) : ((centred x.val : Int) : Fr) = x := by
  rw [centred_val, ZMod.coe_valMinAbs]

theorem centred_bounds (x : Fr) :
    -(frModulus / 2 : Int) ≤ centred x.val ∧ centred x.val ≤ frModulus / 2 := by
  have hlt : x.val < frModulus := ZMod.val_lt x
  have hodd : frModulus % 2 = 1 := by decide
  unfold centred
  split <;> omega

theorem compare_congr {α β : Type} [LinearOrder α] [LinearOrder β] {a b : α} {c d : β}
    (hlt : a < b ↔ c < d) (heq : a = b ↔ c = d) : compare a b = compare c d := by
  rw [LinearOrder.compare_eq_compareOfLessAndEq, LinearOrder.compare_eq_compareOfLessAndEq]
  simp only [compareOfLessAndEq, hlt, heq]

theorem neg_val_of_above {x : Fr} (h : ¬ x.val ≤ frModulus / 2) :
    (-x).val = frModulus - x.val := by
  have hne : x ≠ 0 := by
    rintro rfl
    rw [ZMod.val_zero] at h
    omega
  rw [ZMod.neg_val, if_neg hne]

/-- The four cases of the comparison are those of the signs. -/
theorem compareBalanced_eq (left right : Fr) :
    Fr.compareBalanced left right = compare (centred left.val) (centred right.val) := by
  have hleft : left.val < frModulus := ZMod.val_lt left
  have hright : right.val < frModulus := ZMod.val_lt right
  have hhalf : frModulus >>> 1 = frModulus / 2 := rfl
  unfold Fr.compareBalanced centred
  rw [hhalf]
  dsimp only
  by_cases hl : left.val ≤ frModulus / 2 <;> by_cases hr : right.val ≤ frModulus / 2
  · rw [if_pos hl, if_pos hr, decide_eq_false (by omega), decide_eq_false (by omega)]
    exact compare_congr (by omega) (by omega)
  · rw [if_pos hl, if_neg hr, decide_eq_false (by omega), decide_eq_true (by omega)]
    exact (Int.compare_eq_gt.mpr (by omega)).symm
  · rw [if_neg hl, if_pos hr, decide_eq_true (by omega), decide_eq_false (by omega)]
    exact (Int.compare_eq_lt.mpr (by omega)).symm
  · rw [if_neg hl, if_neg hr, decide_eq_true (by omega), decide_eq_true (by omega)]
    dsimp only
    rw [neg_val_of_above hl, neg_val_of_above hr]
    exact compare_congr (by omega) (by omega)

theorem compareBalanced_isLE {left right : Fr} :
    (Fr.compareBalanced left right).isLE = true ↔ centred left.val ≤ centred right.val := by
  rw [compareBalanced_eq, Int.isLE_compare]

theorem compareBalanced_linear :
    IsLinearOrder Fr fun left right => (Fr.compareBalanced left right).isLE = true where
  refl a := compareBalanced_isLE.mpr le_rfl
  trans a b c hab hbc :=
    compareBalanced_isLE.mpr (le_trans (compareBalanced_isLE.mp hab) (compareBalanced_isLE.mp hbc))
  antisymm a b hab hba :=
    centred_injective (le_antisymm (compareBalanced_isLE.mp hab) (compareBalanced_isLE.mp hba))
  total a b := by
    rw [compareBalanced_isLE, compareBalanced_isLE]
    exact le_total _ _

/-! ### Results on canonical integers -/

theorem ofBool_val (p : Prop) [Decidable p] : (Fr.ofBool (decide p)).val = bit p := by
  have hone : (1 : Fr).val = 1 := ZMod.val_one'' (by decide)
  unfold Fr.ofBool bit
  by_cases h : p
  · rw [if_pos h, if_pos (decide_eq_true h), hone]
  · rw [if_neg h, if_neg (by simpa using h), ZMod.val_zero]

theorem ofBool_val_of_iff {b : Bool} {p : Prop} [Decidable p] (h : b = true ↔ p) :
    (Fr.ofBool b).val = bit p := by
  have hb : b = decide p := Bool.eq_iff_iff.mpr (by rw [h, decide_eq_true_eq])
  rw [hb, ofBool_val]

theorem val_eq_zero_iff {x : Fr} : x.val = 0 ↔ x = 0 := ZMod.val_eq_zero x

theorem val_inj {x y : Fr} : x.val = y.val ↔ x = y := (ZMod.val_injective frModulus).eq_iff

theorem int_val_eq {x : Fr} {i : Int} (h : x = (i : Fr)) : (x.val : Int) = i % frModulus := by
  rw [h, ZMod.val_intCast]

theorem natCast_val_of_le {x : Fr} {n : Nat} (h : n ≤ x.val) : ((n : Nat) : Fr).val = n :=
  ZMod.val_cast_of_lt (lt_of_le_of_lt h (ZMod.val_lt x))

theorem shl_value (a b : Nat) :
    (a <<< b % 2 ^ 256) &&& (2 ^ 254 - 1) = a * 2 ^ b % 2 ^ 254 := by
  rw [Nat.and_two_pow_sub_one_eq_mod, Nat.shiftLeft_eq, Nat.mod_mod_of_dvd]
  exact Nat.pow_dvd_pow 2 (by omega)

theorem inverse_of_ne {x : Fr} (h : x ≠ 0) : Fr.inverse x = some x⁻¹ := by rw [Fr.inverse, if_neg h]

theorem evaluate_fault {operation : Operation} {index : Nat} {left right : Fr} {e : WitnessError}
    (h : operation.fault index left.val right.val = some e) :
    operation.evaluate index left right = .error e := by
  have hshift : ∀ isLeft, (if right.val < 256 then none else some (.invalidShift index)) = some e →
      Fr.shift index left right isLeft = .error e := by
    intro isLeft h
    split at h
    · cases h
    · obtain rfl := Option.some.inj h
      rw [Fr.shift, if_pos (by omega)]
  have hzero : ∀ x : Fr, (if x.val = 0 then some (.divisionByZero index) else none) = some e →
      x = 0 ∧ e = .divisionByZero index := by
    intro x h
    split at h
    · exact ⟨val_eq_zero_iff.mp (by assumption), (Option.some.inj h).symm⟩
    · cases h
  cases operation
  case inv =>
    obtain ⟨rfl, rfl⟩ := hzero left h
    rfl
  case div =>
    obtain ⟨rfl, rfl⟩ := hzero right h
    rfl
  case shl => exact hshift true h
  case shr => exact hshift false h
  case mod =>
    obtain ⟨rfl, rfl⟩ := hzero right h
    rfl
  case integerDiv =>
    obtain ⟨rfl, rfl⟩ := hzero right h
    rfl
  all_goals cases h

theorem evaluate_denotes {operation : Operation} {index : Nat} {left right : Fr}
    (h : operation.fault index left.val right.val = none) :
    ∃ value, operation.evaluate index left right = .ok value ∧
      operation.Denotes left.val right.val value.val := by
  have hne : ∀ x : Fr, (if x.val = 0 then some (WitnessError.divisionByZero index) else none) = none →
      x.val ≠ 0 := by
    intro x h
    split at h
    · cases h
    · assumption
  have hamount : (if right.val < 256 then none else some (WitnessError.invalidShift index)) = none →
      ¬ right.val ≥ 256 := by
    intro h
    split at h
    · omega
    · cases h
  cases operation
  case mul => exact ⟨_, rfl, ZMod.val_mul _ _⟩
  case montgomeryMul => exact ⟨_, rfl, ZMod.val_mul _ _⟩
  case add => exact ⟨_, rfl, ZMod.val_add _ _⟩
  case sub => exact ⟨_, rfl, int_val_eq (by push_cast; simp)⟩
  case neg => exact ⟨_, rfl, int_val_eq (by push_cast; simp)⟩
  case eq => exact ⟨_, rfl, ofBool_val_of_iff (by rw [decide_eq_true_eq, val_inj])⟩
  case neq => exact ⟨_, rfl, ofBool_val_of_iff (by rw [decide_eq_true_eq, ne_eq, ne_eq, val_inj])⟩
  case lt =>
    refine ⟨_, rfl, ofBool_val_of_iff ?_⟩
    rw [compareBalanced_eq, Ordering.isLT_iff_eq_lt, Int.compare_eq_lt]
  case gt =>
    refine ⟨_, rfl, ofBool_val_of_iff ?_⟩
    rw [compareBalanced_eq, Ordering.isGT_iff_eq_gt, Int.compare_eq_gt]
  case leq => exact ⟨_, rfl, ofBool_val_of_iff compareBalanced_isLE⟩
  case geq =>
    refine ⟨_, rfl, ofBool_val_of_iff ?_⟩
    rw [compareBalanced_eq, Int.isGE_compare]
  case logicalOr =>
    refine ⟨_, rfl, ofBool_val_of_iff ?_⟩
    rw [decide_eq_true_eq, ne_eq, ne_eq, ne_eq, ne_eq, val_eq_zero_iff, val_eq_zero_iff]
  case logicalAnd =>
    refine ⟨_, rfl, ofBool_val_of_iff ?_⟩
    rw [decide_eq_true_eq, ne_eq, ne_eq, ne_eq, ne_eq, val_eq_zero_iff, val_eq_zero_iff]
  case inv =>
    have hleft : left ≠ 0 := fun h0 => hne left h (val_eq_zero_iff.mpr h0)
    refine ⟨left⁻¹, by rw [Operation.evaluate, inverse_of_ne hleft], ?_⟩
    rw [Operation.Denotes, ← ZMod.val_mul, inv_mul_cancel₀ hleft]
    exact ZMod.val_one'' (by decide)
  case div =>
    have hright : right ≠ 0 := fun h0 => hne right h (val_eq_zero_iff.mpr h0)
    refine ⟨left * right⁻¹, by rw [Operation.evaluate, inverse_of_ne hright], ?_⟩
    rw [Operation.Denotes, ← ZMod.val_mul, inv_mul_cancel_right₀ hright]
  case pow =>
    refine ⟨_, rfl, ?_⟩
    rw [Operation.Denotes, ← ZMod.val_natCast, Nat.cast_pow, ZMod.natCast_zmod_val]
  case shl =>
    refine ⟨_, by rw [Operation.evaluate, Fr.shift, if_neg (hamount h), if_pos rfl], ?_⟩
    rw [Operation.Denotes, ZMod.val_natCast, shl_value]
  case shr =>
    refine ⟨_, by rw [Operation.evaluate, Fr.shift, if_neg (hamount h), if_neg Bool.false_ne_true], ?_⟩
    rw [Operation.Denotes, Nat.shiftRight_eq_div_pow]
    exact natCast_val_of_le (Nat.div_le_self _ _)
  case bitAnd => exact ⟨_, rfl, ZMod.val_natCast _ _⟩
  case bitXor => exact ⟨_, rfl, ZMod.val_natCast _ _⟩
  case bitOr => exact ⟨_, rfl, ZMod.val_natCast _ _⟩
  case mod =>
    refine ⟨_, by rw [Operation.evaluate, if_neg (hne right h)], ?_⟩
    exact natCast_val_of_le (Nat.mod_le _ _)
  case integerDiv =>
    refine ⟨_, by rw [Operation.evaluate, if_neg (hne right h)], ?_⟩
    exact natCast_val_of_le (Nat.div_le_self _ _)

/-- One canonical integer is the result: inverses and quotients of the field are unique. -/
theorem denotes_unique {operation : Operation} {index : Nat} {left right value other : Fr}
    (h : operation.fault index left.val right.val = none)
    (hvalue : operation.Denotes left.val right.val value.val)
    (hother : operation.Denotes left.val right.val other.val) : value = other := by
  have hcancel : ∀ x : Fr, (if x.val = 0 then some (WitnessError.divisionByZero index) else none) = none →
      (value * x).val = (other * x).val → value = other := by
    intro x h heq
    split at h
    · cases h
    · rename_i hne
      exact mul_right_cancel₀ (fun h0 => hne (val_eq_zero_iff.mpr h0)) (val_inj.mp heq)
  cases operation
  case inv => exact hcancel left h (by rw [ZMod.val_mul, ZMod.val_mul]; exact hvalue.trans hother.symm)
  case div => exact hcancel right h (by rw [ZMod.val_mul, ZMod.val_mul]; exact hvalue.trans hother.symm)
  case sub => exact val_inj.mp (Int.ofNat_inj.mp (hvalue.trans hother.symm))
  case neg => exact val_inj.mp (Int.ofNat_inj.mp (hvalue.trans hother.symm))
  all_goals exact val_inj.mp (hvalue.trans hother.symm)

/-! ### Shifts on limbs -/

/-- `into_bigint`: four limbs of 64 bits. -/
def intoBigint (x : Fr) : List (BitVec 64) := Limbs.ofNat 64 4 x.val

/-- `BigInt::<4>::shl`: what leaves the four limbs is dropped. -/
def bigintShl (value : List (BitVec 64)) (amount : Nat) : List (BitVec 64) :=
  Limbs.ofNat 64 4 (Limbs.value value <<< amount)

def bigintShr (value : List (BitVec 64)) (amount : Nat) : List (BitVec 64) :=
  Limbs.ofNat 64 4 (Limbs.value value >>> amount)

/-- `shift` limb by limb: the amount in the lowest limb alone, the mask on the highest. -/
def shiftLimbs (index : Nat) (left right : List (BitVec 64)) (isLeft : Bool) :
    Except WitnessError Fr :=
  if right.tail.any (· ≠ 0) || decide ((right.headD 0).toNat ≥ 256) then .error (.invalidShift index)
  else
    let amount := (right.headD 0).toNat
    let value :=
      if isLeft then
        let value := bigintShl left amount
        value.set 3 (value.getD 3 0 &&& ((1#64 <<< 62) - 1))
      else bigintShr left amount
    .ok (Limbs.value value : Fr)

theorem intoBigint_value (x : Fr) : Limbs.value (intoBigint x) = x.val := by
  have hlt : x.val < frModulus := ZMod.val_lt x
  have hbound : frModulus < 2 ^ (64 * 4) := by decide
  exact Limbs.value_ofNat_of_lt (by omega)

/-- The amount is rejected exactly when the integer is 256 or more. -/
theorem amount_rejected (x : Fr) :
    ((intoBigint x).tail.any (· ≠ 0) || decide (((intoBigint x).headD 0).toNat ≥ 256)) = true ↔
      x.val ≥ 256 := by
  have hvalue := intoBigint_value x
  have hhead : ((intoBigint x).headD 0).toNat + Limbs.value (intoBigint x).tail * 2 ^ 64 = x.val := by
    rw [← Nat.shiftLeft_eq, ← hvalue]
    rfl
  rw [Bool.or_eq_true, Limbs.any_ne_zero, decide_eq_true_eq]
  omega

theorem amount_low {x : Fr} (h : x.val < 256) : ((intoBigint x).headD 0).toNat = x.val := by
  have hhead : ((intoBigint x).headD 0).toNat = x.val % 2 ^ 64 := BitVec.toNat_ofNat _ _
  rw [hhead, Nat.mod_eq_of_lt (by omega)]

/-- Masking the highest limb masks the integer. -/
theorem mask_value (value : List (BitVec 64)) (hlength : value.length = 4) :
    Limbs.value (value.set 3 (value.getD 3 0 &&& ((1#64 <<< 62) - 1))) =
      Limbs.value value &&& (2 ^ 254 - 1) := by
  apply Nat.eq_of_testBit_eq
  intro i
  have hmask : ∀ j, ((1#64 <<< 62) - 1).getLsbD j = decide (j < 62) := by
    intro j
    have hnat : ((1#64 <<< 62) - 1).toNat = 2 ^ 62 - 1 := by decide
    rw [BitVec.getLsbD, hnat, Nat.testBit_two_pow_sub_one]
  rw [Limbs.testBit_value (by omega), Nat.testBit_and, Limbs.testBit_value (by omega),
    Nat.testBit_two_pow_sub_one]
  by_cases hi : i / 64 = 3
  · have hset : (value.set 3 (value.getD 3 0 &&& ((1#64 <<< 62) - 1))).getD 3 0 =
        value.getD 3 0 &&& ((1#64 <<< 62) - 1) := by
      rw [List.getD_eq_getElem?_getD, List.getElem?_set_self (by omega)]
      rfl
    have hlow : i % 64 < 62 ↔ i < 254 := by omega
    rw [hi, hset, BitVec.getLsbD_and, hmask, decide_eq_decide.mpr hlow]
  · have hset : (value.set 3 (value.getD 3 0 &&& ((1#64 <<< 62) - 1))).getD (i / 64) 0 =
        value.getD (i / 64) 0 := by
      rw [List.getD_eq_getElem?_getD, List.getElem?_set_ne (by omega), ← List.getD_eq_getElem?_getD]
    rw [hset]
    by_cases hlow : i < 254
    · rw [decide_eq_true hlow, Bool.and_true]
    · have hnone : value.getD (i / 64) 0 = 0 := by
        rw [List.getD_eq_getElem?_getD, List.getElem?_eq_none (by omega)]
        rfl
      rw [hnone, BitVec.ofNat_eq_ofNat, BitVec.getLsbD_zero, Bool.false_and]

theorem shiftLimbs_eq (index : Nat) (left right : Fr) (isLeft : Bool) :
    shiftLimbs index (intoBigint left) (intoBigint right) isLeft =
      Fr.shift index left right isLeft := by
  unfold shiftLimbs Fr.shift
  by_cases hamount : right.val ≥ 256
  · rw [if_pos ((amount_rejected right).mpr hamount), if_pos hamount]
  · rw [if_neg (fun h => hamount ((amount_rejected right).mp h)), if_neg hamount,
      amount_low (by omega)]
    cases isLeft with
    | true =>
      dsimp only
      have hlength : (bigintShl (intoBigint left) right.val).length = 4 := Limbs.ofNat_length _ _
      rw [if_pos rfl, if_pos rfl, mask_value _ hlength, bigintShl, Limbs.value_ofNat,
        intoBigint_value]
    | false =>
      have hlt : left.val < frModulus := ZMod.val_lt left
      have hbound : frModulus < 2 ^ (64 * 4) := by decide
      have hle : left.val >>> right.val ≤ left.val := Nat.shiftRight_le _ _
      dsimp only
      rw [if_neg Bool.false_ne_true, if_neg Bool.false_ne_true, bigintShr, intoBigint_value,
        Limbs.value_ofNat_of_lt (by omega)]

/-! ### Evaluation -/

theorem evaluate_error_iff {operation : Operation} {index : Nat} {left right : Fr}
    {e : WitnessError} : operation.evaluate index left right = .error e ↔
      operation.fault index left.val right.val = some e := by
  constructor
  · intro h
    cases hfault : operation.fault index left.val right.val with
    | none =>
      obtain ⟨value, hvalue, -⟩ := evaluate_denotes hfault
      rw [hvalue] at h
      cases h
    | some e' =>
      rw [evaluate_fault hfault] at h
      rw [Except.error.inj h]
  · exact evaluate_fault

theorem evaluate_ok_iff {operation : Operation} {index : Nat} {left right value : Fr} :
    operation.evaluate index left right = .ok value ↔
      operation.fault index left.val right.val = none ∧
        operation.Denotes left.val right.val value.val := by
  constructor
  · intro h
    cases hfault : operation.fault index left.val right.val with
    | none =>
      obtain ⟨other, hother, hdenotes⟩ := evaluate_denotes hfault
      obtain rfl := Except.ok.inj (hother.symm.trans h)
      exact ⟨rfl, hdenotes⟩
    | some e =>
      rw [evaluate_fault hfault] at h
      cases h
  · rintro ⟨hfault, hdenotes⟩
    obtain ⟨other, hother, hown⟩ : ∃ other, operation.evaluate index left right = .ok other ∧
        operation.Denotes left.val right.val other.val := evaluate_denotes hfault
    rw [hother, denotes_unique hfault hdenotes hown]

theorem euclidean_division (index : Nat) (left : Fr) {right : Fr} (h : right ≠ 0) :
    ∃ quotient remainder, Operation.integerDiv.evaluate index left right = .ok quotient ∧
      Operation.mod.evaluate index left right = .ok remainder ∧
      left.val = quotient.val * right.val + remainder.val ∧ remainder.val < right.val := by
  have hne : right.val ≠ 0 := fun h0 => h (val_eq_zero_iff.mp h0)
  refine ⟨_, _, if_neg hne, if_neg hne, ?_, ?_⟩
  · rw [natCast_val_of_le (Nat.div_le_self _ _), natCast_val_of_le (Nat.mod_le _ _), Nat.mul_comm]
    exact (Nat.div_add_mod _ _).symm
  · rw [natCast_val_of_le (Nat.mod_le _ _)]
    exact Nat.mod_lt _ (by omega)

theorem division_by_inverse (index : Nat) (left : Fr) {right : Fr} (h : right ≠ 0) :
    ∃ inverse, Operation.inv.evaluate index right left = .ok inverse ∧ right * inverse = 1 ∧
      Operation.div.evaluate index left right = .ok (left * inverse) := by
  refine ⟨right⁻¹, ?_, mul_inv_cancel₀ h, ?_⟩
  · rw [Operation.evaluate, inverse_of_ne h]
  · rw [Operation.evaluate, inverse_of_ne h]

/-- Every operation is the one on canonical integers, and fails where that one is undefined and
nowhere else. The comparison is the order of the centred representatives; quotient and remainder
are Euclidean; division multiplies by the inverse; the shift on limbs is the shift of integers. -/
theorem operations_follow_integers (operation : Operation) (index : Nat) (left right : Fr) :
    (∀ e, operation.evaluate index left right = .error e ↔
      operation.fault index left.val right.val = some e) ∧
    (∀ value, operation.evaluate index left right = .ok value ↔
      operation.fault index left.val right.val = none ∧
        operation.Denotes left.val right.val value.val) ∧
    Fr.compareBalanced left right = compare (centred left.val) (centred right.val) ∧
    (((centred left.val : Int) : Fr) = left ∧ -(frModulus / 2 : Int) ≤ centred left.val ∧
      centred left.val ≤ frModulus / 2) ∧
    (IsLinearOrder Fr fun a b => (Fr.compareBalanced a b).isLE = true) ∧
    (right ≠ 0 → ∃ quotient remainder, Operation.integerDiv.evaluate index left right = .ok quotient ∧
      Operation.mod.evaluate index left right = .ok remainder ∧
      left.val = quotient.val * right.val + remainder.val ∧ remainder.val < right.val) ∧
    (right ≠ 0 → ∃ inverse, Operation.inv.evaluate index right left = .ok inverse ∧
      right * inverse = 1 ∧ Operation.div.evaluate index left right = .ok (left * inverse)) ∧
    (∀ isLeft, shiftLimbs index (intoBigint left) (intoBigint right) isLeft =
      Fr.shift index left right isLeft) := by
  refine ⟨fun e => evaluate_error_iff, fun value => evaluate_ok_iff, compareBalanced_eq left right,
    ⟨centred_cast left, centred_bounds left⟩, compareBalanced_linear, ?_, ?_, ?_⟩
  · exact euclidean_division index left
  · exact division_by_inverse index left
  · exact shiftLimbs_eq index left right

/-- Seven by two. -/
theorem operations_follow_integers_example :
    ∃ quotient remainder, Operation.integerDiv.evaluate 0 7 2 = .ok quotient ∧
      Operation.mod.evaluate 0 7 2 = .ok remainder ∧
      (7 : Fr).val = quotient.val * (2 : Fr).val + remainder.val ∧ remainder.val < (2 : Fr).val :=
  (operations_follow_integers .mul 0 7 2).2.2.2.2.2.1 (by decide)

/-- `-1` is below `1`, and two to the 253 shifted once more leaves the field's bits. -/
example : Operation.lt.evaluate 0 (-1) 1 = .ok 1 ∧
    Operation.shl.evaluate 0 (2 ^ 253 : Nat) 1 = .ok 0 := by decide

end Curvy.Witness
