import Curvy.Core.Field
import Curvy.Core.Imt
import Curvy.Lib.Panic

/-!
# Reading tree snapshots

Field elements, flags and big-endian counts of the two snapshot formats. An index or a slice
out of range is a panic.
-/

namespace Curvy.Snapshot

set_option autoImplicit false

open Decoder
open Witness (Fr)

abbrev Call (α : Type) := Except (Stop TreeError) α

abbrev Body (α : Type) := Decoder (Stop TreeError) α

def invalid (message : String) : Stop TreeError := .error (.invalidSnapshot message)

/-- `?` on a result of the tree. -/
def tree {α : Type} (x : Except TreeError α) : Call α :=
  match x with
  | .ok a => .ok a
  | .error e => .error (.error e)

/-- `return Err(TreeError::InvalidSnapshot(..))` under a condition. -/
def refuseIf (bad : Prop) [Decidable bad] (message : String) : Call Unit :=
  Panic.refuse bad (.invalidSnapshot message)

/-- `bytes[index]`. -/
def byteAt (bytes : List UInt8) (index : Nat) : Call UInt8 := Panic.expect bytes[index]?

/-- `bytes[offset..offset + width]` as a big-endian integer. -/
def beAt (bytes : List UInt8) (offset width : Nat) : Call Nat := do
  Panic.require (offset + width ≤ bytes.length)
  return beNat ((bytes.drop offset).take width)

/-- The byte at the cursor. -/
def readByte (message : String) : Body UInt8 := do
  let taken ← takeOr (invalid message) 1
  let byte ← byteAt taken 0
  return byte

def canonical (raw : List UInt8) : Call Fr :=
  match frFromBe32Checked raw with
  | some x => .ok x
  | none => .error (invalid "non-canonical field element")

def readField : Body Fr := do
  let raw ← takeOr (invalid "truncated field element") 32
  let x ← canonical raw
  return x

/-! ### What they read -/

theorem tree_ok {α : Type} {x : Except TreeError α} {a : α} : tree x = .ok a ↔ x = .ok a := by
  unfold tree
  split <;> simp

theorem tree_safe {α : Type} {x : Except TreeError α} : tree x ≠ .error .panic := by
  unfold tree
  split <;> exact fun h => by cases h

theorem refuseIf_ok {bad : Prop} [Decidable bad] {message : String} {u : Unit} :
    refuseIf bad message = .ok u ↔ ¬ bad := Panic.refuse_ok

theorem refuseIf_safe {bad : Prop} [Decidable bad] {message : String} :
    refuseIf bad message ≠ .error .panic := Panic.refuse_safe

theorem byteAt_ok {bytes : List UInt8} {index : Nat} {b : UInt8} :
    byteAt bytes index = .ok b ↔ bytes[index]? = some b := Panic.expect_ok

/-- Four bytes read one by one. -/
theorem four_bytes {bytes : List UInt8} {i : Nat} {a b c d : UInt8} (ha : byteAt bytes i = .ok a)
    (hb : byteAt bytes (i + 1) = .ok b) (hc : byteAt bytes (i + 2) = .ok c)
    (hd : byteAt bytes (i + 3) = .ok d) : (bytes.drop i).take 4 = [a, b, c, d] := by
  rw [byteAt_ok] at ha hb hc hd
  apply List.ext_getElem?
  intro j
  rw [List.getElem?_take, List.getElem?_drop]
  match j with
  | 0 => exact ha
  | 1 => exact hb
  | 2 => exact hc
  | 3 => exact hd
  | j + 4 =>
    rw [if_neg (by omega)]
    rfl

theorem byteAt_of_lt {bytes : List UInt8} {index : Nat} (h : index < bytes.length) :
    byteAt bytes index = .ok bytes[index] := by
  rw [byteAt, List.getElem?_eq_getElem h]
  rfl

theorem beAt_of_le {bytes : List UInt8} {offset width : Nat} (h : offset + width ≤ bytes.length) :
    beAt bytes offset width = .ok (beNat ((bytes.drop offset).take width)) := by
  rw [beAt, Panic.require, if_pos h]
  rfl

theorem readByte_computes (message : String) :
    Computes (readByte message) fun piece byte => piece = [byte] := by
  unfold readByte
  refine ((Computes.take 1).bind (S := fun taken back byte =>
    byteAt taken 0 = .ok byte ∧ back = []) ?_).congr ?_
  · rintro _ taken ⟨hlength, rfl⟩
    have hpos : 0 < taken.length := by omega
    exact .lift (by rw [byteAt_of_lt hpos]; exact fun h => by cases h)
  · intro piece byte
    constructor
    · rintro ⟨_, taken, _, ⟨hlength, rfl⟩, ⟨hbyte, rfl⟩, rfl⟩
      obtain ⟨first, rfl⟩ := List.length_eq_one_iff.mp hlength
      obtain rfl := Except.ok.inj hbyte
      rfl
    · rintro rfl
      exact ⟨[byte], [byte], [], ⟨rfl, rfl⟩, ⟨rfl, rfl⟩, rfl⟩

theorem canonical_ok {raw : List UInt8} {x : Fr} : canonical raw = .ok x ↔ raw = frToBe32 x := by
  rw [← frFromBe32Checked_eq]
  unfold canonical
  split <;> simp [*]

theorem canonical_safe {raw : List UInt8} : canonical raw ≠ .error .panic := by
  unfold canonical invalid
  split <;> exact fun h => by cases h

theorem readField_computes : Computes readField fun piece x => piece = frToBe32 x := by
  unfold readField
  refine ((Computes.take 32).bind (S := fun raw back x =>
    canonical raw = .ok x ∧ back = []) fun _ _ _ => .lift canonical_safe).congr ?_
  intro piece x
  constructor
  · rintro ⟨_, raw, _, ⟨_, rfl⟩, ⟨hraw, rfl⟩, rfl⟩
    rw [List.append_nil]
    exact canonical_ok.mp hraw
  · rintro rfl
    exact ⟨_, _, [], ⟨frToBe32_length x, rfl⟩, ⟨canonical_ok.mpr rfl, rfl⟩,
      (List.append_nil _).symm⟩

end Curvy.Snapshot
