import Curvy.Witness.Wire
import Mathlib.Data.ZMod.Basic

/-!
# Field operations of witness graphs

The BN254 scalar field and the meaning of each graph operation on it. The canonical
representative of an element is `ZMod.val`; a big integer of four limbs is a natural
below `2 ^ 256`.
-/

namespace Curvy.Witness

set_option autoImplicit false

/-- Order of the BN254 scalar field. -/
def frModulus : Nat :=
  21888242871839275222246405745257275088548364400416034343698204186575808495617

abbrev Fr := ZMod frModulus

instance : NeZero frModulus := ⟨by decide⟩

namespace Fr

/-- `Field::inverse`. -/
def inverse (x : Fr) : Option Fr := if x = 0 then none else some x⁻¹

def ofBool (b : Bool) : Fr := if b then 1 else 0

/-- Signed order: elements above half the modulus count as negative. -/
def compareBalanced (left right : Fr) : Ordering :=
  let half := frModulus >>> 1
  match decide (left.val > half), decide (right.val > half) with
  | false, true => .gt
  | true, false => .lt
  | false, false => compare left.val right.val
  | true, true => compare (-right).val (-left).val

/-- `BigInt << shift` drops what leaves 256 bits; the mask then clears the top two. -/
def shift (index : Nat) (left right : Fr) (isLeft : Bool) : Except WitnessError Fr :=
  if right.val ≥ 256 then .error (.invalidShift index)
  else if isLeft then .ok (((left.val <<< right.val) % 2 ^ 256 &&& (2 ^ 254 - 1) : Nat) : Fr)
  else .ok ((left.val >>> right.val : Nat) : Fr)

/-- `Fr::from_bigint`: rejects what is not a canonical representative. -/
def ofBigint (value : Nat) : Option Fr := if value < frModulus then some (value : Fr) else none

end Fr

open Fr in
def Operation.evaluate (operation : Operation) (index : Nat) (left right : Fr) :
    Except WitnessError Fr :=
  match operation with
  | .mul | .montgomeryMul => .ok (left * right)
  | .add => .ok (left + right)
  | .sub => .ok (left - right)
  | .eq => .ok (ofBool (left = right))
  | .neq => .ok (ofBool (left ≠ right))
  | .lt => .ok (ofBool (compareBalanced left right).isLT)
  | .gt => .ok (ofBool (compareBalanced left right).isGT)
  | .leq => .ok (ofBool (compareBalanced left right).isLE)
  | .geq => .ok (ofBool (compareBalanced left right).isGE)
  | .logicalOr => .ok (ofBool (left ≠ 0 ∨ right ≠ 0))
  | .logicalAnd => .ok (ofBool (left ≠ 0 ∧ right ≠ 0))
  | .neg => .ok (-left)
  | .inv =>
    match inverse left with
    | some value => .ok value
    | none => .error (.divisionByZero index)
  | .div =>
    match inverse right with
    | some value => .ok (left * value)
    | none => .error (.divisionByZero index)
  | .pow => .ok (left ^ right.val)
  | .shl => shift index left right true
  | .shr => shift index left right false
  | .bitAnd => .ok ((left.val &&& right.val : Nat) : Fr)
  | .bitXor => .ok ((left.val ^^^ right.val : Nat) : Fr)
  | .bitOr => .ok ((left.val ||| right.val : Nat) : Fr)
  | .mod =>
    if right.val = 0 then .error (.divisionByZero index)
    else .ok ((left.val % right.val : Nat) : Fr)
  | .integerDiv =>
    if right.val = 0 then .error (.divisionByZero index)
    else .ok ((left.val / right.val : Nat) : Fr)

/-- An operation fails only on an operand it is not defined for. -/
theorem Operation.evaluate_error {operation : Operation} {index : Nat} {left right : Fr}
    {e : WitnessError} (h : operation.evaluate index left right = .error e) :
    e = .divisionByZero index ∨ e = .invalidShift index := by
  have hinv : ∀ x : Fr, ∀ f : Fr → Fr, (match Fr.inverse x with
      | some value => Except.ok (f value)
      | none => .error (WitnessError.divisionByZero index)) = .error e →
      e = .divisionByZero index := by
    intro x f hx
    cases hv : Fr.inverse x with
    | some value => simp [hv] at hx
    | none => simpa [hv] using hx.symm
  have hshift : ∀ b, Fr.shift index left right b = .error e → e = .invalidShift index := by
    intro b hb
    unfold Fr.shift at hb
    split at hb
    · exact (Except.error.inj hb).symm
    · split at hb <;> cases hb
  have hguard : ∀ v : Fr, (if right.val = 0 then Except.error (WitnessError.divisionByZero index)
      else .ok v) = .error e → e = .divisionByZero index := by
    intro v hv
    split at hv
    · exact (Except.error.inj hv).symm
    · cases hv
  cases operation
  case inv => exact .inl (hinv left id h)
  case div => exact .inl (hinv right _ h)
  case shl => exact .inr (hshift _ h)
  case shr => exact .inr (hshift _ h)
  case mod => exact .inl (hguard _ h)
  case integerDiv => exact .inl (hguard _ h)
  all_goals cases h

end Curvy.Witness
