import Curvy.Lib.Chunks
import Curvy.Lib.Codec
import Curvy.Witness.Field

/-!
# Field elements as bytes

The canonical form is the 32 big-endian bytes of the representative below the modulus. Packed
elements stand one behind another.
-/

namespace Curvy

set_option autoImplicit false

open Witness (Fr frModulus)

inductive PackedFieldsError where
  | length (length : Nat)
  | nonCanonical (index : Nat)
  deriving DecidableEq, Repr

/-- `secret_field::to_le_bytes`. -/
def toLeBytes (value : Fr) : List UInt8 := leBytes 32 value.val

/-- `secret_field::from_le_bytes`. -/
def fromLeBytes (bytes : List UInt8) : Option Fr :=
  if leNat bytes < frModulus then some (leNat bytes : Fr) else none

def frToBe32 (x : Fr) : List UInt8 := (toLeBytes x).reverse

def frFromBe32Checked (bytes : List UInt8) : Option Fr :=
  if bytes.length = 32 then fromLeBytes bytes.reverse else none

/-- The elements from `index` on; the first that is not canonical is reported. -/
def decodeElements : Nat → List (List UInt8) → Except PackedFieldsError (List Fr)
  | _, [] => .ok []
  | index, element :: elements => do
    match frFromBe32Checked element with
    | none => .error (.nonCanonical index)
    | some x => return x :: (← decodeElements (index + 1) elements)

def frFromBe32Packed (bytes : List UInt8) : Except PackedFieldsError (List Fr) :=
  if bytes.length % 32 ≠ 0 then .error (.length bytes.length)
  else decodeElements 0 (bytes.chunks 32)

def frToBe32Packed (fields : List Fr) : List UInt8 := fields.flatMap frToBe32

/-! ### The form is unique -/

theorem frToBe32_length (x : Fr) : (frToBe32 x).length = 32 := by
  rw [frToBe32, List.length_reverse, toLeBytes, leBytes_length]

theorem fromLeBytes_eq {bytes : List UInt8} (hlength : bytes.length = 32) {x : Fr} :
    fromLeBytes bytes = some x ↔ bytes = toLeBytes x := by
  have hmodulus : frModulus < 256 ^ 32 := by decide
  unfold fromLeBytes toLeBytes
  constructor
  · intro h
    split at h
    · rename_i hlt
      obtain rfl := Option.some.inj h
      rw [ZMod.val_cast_of_lt hlt, ← hlength, leBytes_leNat]
    · cases h
  · rintro rfl
    have hlt : x.val < frModulus := ZMod.val_lt x
    rw [leNat_leBytes (by omega), if_pos hlt, ZMod.natCast_zmod_val]

theorem frFromBe32Checked_eq {bytes : List UInt8} {x : Fr} :
    frFromBe32Checked bytes = some x ↔ bytes = frToBe32 x := by
  unfold frFromBe32Checked
  constructor
  · intro h
    split at h
    · rename_i hlength
      rw [fromLeBytes_eq (by rw [List.length_reverse, hlength])] at h
      rw [frToBe32, ← h, List.reverse_reverse]
    · cases h
  · rintro rfl
    rw [if_pos (frToBe32_length x), frToBe32, List.reverse_reverse,
      fromLeBytes_eq (by rw [toLeBytes, leBytes_length])]

theorem frToBe32_injective {x y : Fr} (h : frToBe32 x = frToBe32 y) : x = y := by
  have hx := frFromBe32Checked_eq.mpr h
  rw [frFromBe32Checked_eq.mpr rfl] at hx
  exact Option.some.inj hx

theorem decodeElements_ok {index : Nat} {elements : List (List UInt8)} {fields : List Fr} :
    decodeElements index elements = .ok fields ↔ elements = fields.map frToBe32 := by
  induction elements generalizing index fields with
  | nil =>
    rw [decodeElements, Except.ok.injEq, eq_comm (a := []) (b := fields.map _), List.map_eq_nil_iff]
    exact eq_comm
  | cons element elements ih =>
    rw [decodeElements]
    cases hx : frFromBe32Checked element with
    | none =>
      constructor
      · exact fun h => by cases h
      · intro h
        obtain ⟨x, tail, rfl, rfl, _⟩ := List.map_eq_cons_iff.mp h.symm
        rw [frFromBe32Checked_eq.mpr rfl] at hx
        cases hx
    | some x =>
      obtain rfl := frFromBe32Checked_eq.mp hx
      constructor
      · intro h
        obtain ⟨tail, htail, h₁⟩ := Fallible.bind_ok.mp h
        obtain rfl := Except.ok.inj h₁
        rw [List.map_cons, ih.mp htail]
      · intro h
        obtain ⟨y, tail, rfl, hy, htail⟩ := List.map_eq_cons_iff.mp h.symm
        obtain rfl := frToBe32_injective hy
        exact Fallible.bind_ok.mpr ⟨tail, ih.mpr htail.symm, rfl⟩

/-- Packed bytes decode exactly when they are the packed form of the elements. -/
theorem frFromBe32Packed_ok {bytes : List UInt8} {fields : List Fr} :
    frFromBe32Packed bytes = .ok fields ↔ bytes = frToBe32Packed fields := by
  have hpos : 0 < 32 := by decide
  have hsize : ∀ piece ∈ fields.map frToBe32, piece.length = 32 := by
    intro piece hpiece
    obtain ⟨x, _, rfl⟩ := List.mem_map.mp hpiece
    exact frToBe32_length x
  unfold frFromBe32Packed frToBe32Packed
  rw [List.flatMap_def]
  constructor
  · intro h
    split at h
    · cases h
    · rw [← decodeElements_ok.mp h, List.flatten_chunks hpos]
  · rintro rfl
    have hlength : (fields.map frToBe32).flatten.length % 32 = 0 := by
      rw [List.length_flatten_of_forall hsize, Nat.mul_mod_left]
    rw [if_neg (not_not.mpr hlength), List.chunks_flatten hpos hsize]
    exact decodeElements_ok.mpr rfl

end Curvy
