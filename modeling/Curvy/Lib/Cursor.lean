import Curvy.Lib.Codec

/-!
# Cursors over bytes

A position in a byte string stands before the bytes from there on. Reading a piece of them moves
the position behind it.
-/

set_option autoImplicit false

namespace Cursor

/-- Bytes in memory, of which there are at most `isize::MAX`. -/
abbrev Slice : Type := { bytes : List UInt8 // bytes.length < 2 ^ 63 }

/-- `rest` is what stands from `position` on. -/
def Stands (bytes : List UInt8) (position : Nat) (rest : List UInt8) : Prop :=
  position ≤ bytes.length ∧ bytes.drop position = rest

variable {bytes rest piece : List UInt8} {position count : Nat}

theorem Stands.start (bytes : List UInt8) : Stands bytes 0 bytes :=
  ⟨Nat.zero_le _, List.drop_zero⟩

theorem Stands.length (h : Stands bytes position rest) :
    position + rest.length = bytes.length := by
  rw [← h.2, List.length_drop]
  exact Nat.add_sub_of_le h.1

theorem Stands.advance (h : Stands bytes position (piece ++ rest)) :
    Stands bytes (position + piece.length) rest := by
  have hlength := h.length
  rw [List.length_append] at hlength
  constructor
  · omega
  · rw [← List.drop_drop, h.2, List.drop_left]

/-- A piece of the right length stands at the position exactly when it can be cut off there. -/
theorem Stands.take_iff (h : Stands bytes position rest) :
    (position + count ≤ bytes.length ∧ (bytes.drop position).take count = piece) ↔
      piece.length = count ∧ ∃ behind, rest = piece ++ behind ∧
        Stands bytes (position + count) behind := by
  have hlength := h.length
  rw [h.2]
  constructor
  · rintro ⟨hroom, rfl⟩
    have hpiece : (rest.take count).length = count := List.length_take_of_le (by omega)
    refine ⟨hpiece, rest.drop count, (List.take_append_drop _ _).symm, ?_⟩
    have hsplit : Stands bytes position (rest.take count ++ rest.drop count) := by
      rwa [List.take_append_drop]
    have hnext := hsplit.advance
    rwa [hpiece] at hnext
  · rintro ⟨hpiece, behind, rfl, hbehind⟩
    rw [List.length_append] at hlength
    exact ⟨by omega, List.take_left' hpiece⟩

/-- A number in its spelling of a fixed length. -/
theorem leNat_iff {length value : Nat} :
    (piece.length = length ∧ leNat piece = value) ↔
      value < 256 ^ length ∧ piece = leBytes length value := by
  constructor
  · rintro ⟨rfl, rfl⟩
    exact ⟨leNat_lt piece, (leBytes_leNat piece).symm⟩
  · rintro ⟨hvalue, rfl⟩
    exact ⟨leBytes_length _ _, leNat_leBytes hvalue⟩

end Cursor
