import Mathlib.Algebra.Order.Ring.Nat
import Mathlib.Data.List.Basic
import Mathlib.Tactic.IntervalCases

/-!
# Hexadecimal digits

The lower-case digits of a number, padded or not, and the number such digits denote.
-/

set_option autoImplicit false

namespace Hex

/-- The number a digit stands for. -/
def nibble (b : UInt8) : Option UInt8 :=
  if 48 ≤ b ∧ b ≤ 57 then some (b - 48)
  else if 97 ≤ b ∧ b ≤ 102 then some (b - 97 + 10)
  else if 65 ≤ b ∧ b ≤ 70 then some (b - 65 + 10)
  else none

def value (digits : List UInt8) : Nat :=
  digits.foldl (fun n b => n * 16 + ((nibble b).getD 0).toNat) 0

/-- The shortest lower-case spelling of a number. -/
def spell (n : Nat) : List UInt8 := (Nat.toDigits 16 n).map fun c => UInt8.ofNat c.toNat

/-- The spelling, filled up with zeros from the left. -/
def padded (width n : Nat) : List UInt8 :=
  List.replicate (width - (spell n).length) 48 ++ spell n

theorem value_concat (front : List UInt8) (b : UInt8) :
    value (front ++ [b]) = value front * 16 + ((nibble b).getD 0).toNat := by
  rw [value, List.foldl_append]
  rfl

theorem nibble_digitChar {d : Nat} (h : d < 16) :
    ((nibble (UInt8.ofNat (Nat.digitChar d).toNat)).getD 0).toNat = d := by
  interval_cases d <;> rfl

theorem spell_of_lt {n : Nat} (h : n < 16) : spell n = [UInt8.ofNat (Nat.digitChar n).toNat] := by
  rw [spell, Nat.toDigits_of_lt_base h]
  rfl

theorem spell_of_le {n : Nat} (h : 16 ≤ n) :
    spell n = spell (n / 16) ++ [UInt8.ofNat (Nat.digitChar (n % 16)).toNat] := by
  rw [spell, Nat.toDigits_of_base_le (by omega) h, List.map_append]
  rfl

theorem value_spell (n : Nat) : value (spell n) = n := by
  induction n using Nat.strongRecOn with
  | ind n ih =>
    by_cases h : n < 16
    · rw [spell_of_lt h]
      exact (Nat.zero_add _).trans (nibble_digitChar h)
    · rw [spell_of_le (by omega), value_concat, ih (n / 16) (by omega),
        nibble_digitChar (Nat.mod_lt _ (by omega))]
      omega

/-- A number from sixteen on takes two digits or more. -/
theorem two_le_length {n : Nat} (h : 16 ≤ n) : 2 ≤ (spell n).length := by
  have hpos : 0 < (spell (n / 16)).length := by
    by_cases hsmall : n / 16 < 16
    · rw [spell_of_lt hsmall]
      exact Nat.zero_lt_one
    · rw [spell_of_le (by omega), List.length_append]
      exact Nat.succ_pos _
  rw [spell_of_le h, List.length_append, List.length_singleton]
  omega

theorem take_two_length {n : Nat} (h : 16 ≤ n) : ((spell n).take 2).length = 2 := by
  rw [List.length_take]
  have := two_le_length h
  omega

theorem value_padded (width n : Nat) : value (padded width n) = n := by
  have hzeros : ∀ count, (List.replicate count (48 : UInt8)).foldl
      (fun n b => n * 16 + ((nibble b).getD 0).toNat) 0 = 0 := by
    intro count
    induction count with
    | zero => rfl
    | succ count ih => exact ih
  rw [padded, value, List.foldl_append, hzeros]
  exact value_spell n

end Hex
