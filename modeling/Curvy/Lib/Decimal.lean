import Mathlib.Algebra.Order.Ring.Nat
import Mathlib.Data.List.Basic
import Mathlib.Data.List.Induction
import Mathlib.Tactic.IntervalCases
import Mathlib.Tactic.Ring

/-!
# Decimal digits

Strings of ASCII digits, the number they denote and the one string without leading zeros that
denotes a number.
-/

set_option autoImplicit false

namespace Decimal

def IsDigit (b : UInt8) : Prop := 48 ≤ b.toNat ∧ b.toNat ≤ 57

instance (b : UInt8) : Decidable (IsDigit b) := inferInstanceAs (Decidable (_ ∧ _))

def digit (b : UInt8) : Nat := b.toNat - 48

def value (digits : List UInt8) : Nat := digits.foldl (fun n b => n * 10 + digit b) 0

/-- One digit or more. -/
def Digits (digits : List UInt8) : Prop := digits ≠ [] ∧ ∀ b ∈ digits, IsDigit b

instance (digits : List UInt8) : Decidable (Digits digits) := inferInstanceAs (Decidable (_ ∧ _))

/-- Without leading zeros. -/
def Canonical (digits : List UInt8) : Prop :=
  Digits digits ∧ (1 < digits.length → digits.head? ≠ some 48)

/-- The decimal spelling of a number. -/
def spell (n : Nat) : List UInt8 := (Nat.toDigits 10 n).map fun c => UInt8.ofNat c.toNat

theorem digit_le {b : UInt8} (h : IsDigit b) : digit b ≤ 9 := by
  unfold IsDigit at h
  unfold digit
  omega

/-! ### The number denoted -/

@[simp] theorem value_nil : value [] = 0 := rfl

theorem foldl_value (digits : List UInt8) (n : Nat) :
    digits.foldl (fun n b => n * 10 + digit b) n = n * 10 ^ digits.length + value digits := by
  induction digits generalizing n with
  | nil => simp
  | cons b digits ih =>
    rw [value, List.foldl_cons, List.foldl_cons, ih, ih (0 * 10 + digit b), List.length_cons, pow_succ']
    ring

theorem value_append (front back : List UInt8) :
    value (front ++ back) = value front * 10 ^ back.length + value back := by
  rw [value, List.foldl_append]
  exact foldl_value back _

theorem value_concat (front : List UInt8) (b : UInt8) :
    value (front ++ [b]) = value front * 10 + digit b := by
  rw [value_append]
  simp [value]

theorem value_lt {digits : List UInt8} (h : ∀ b ∈ digits, IsDigit b) :
    value digits < 10 ^ digits.length := by
  induction digits using List.reverseRecOn with
  | nil => simp
  | append_singleton front b ih =>
    rw [List.forall_mem_append] at h
    have hfront := ih h.1
    have hb := digit_le (h.2 b (List.mem_singleton.mpr rfl))
    rw [value_concat, List.length_append, List.length_singleton, pow_succ]
    omega

theorem value_replicate_zero (count : Nat) (digits : List UInt8) :
    value (List.replicate count 48 ++ digits) = value digits := by
  have hzeros : value (List.replicate count 48) = 0 := by
    induction count with
    | zero => rfl
    | succ count ih =>
      rw [List.replicate_succ', value_concat, ih]
      rfl
  rw [value_append, hzeros, Nat.zero_mul, Nat.zero_add]

/-- Horner over pieces of the digits, in any semiring. -/
theorem foldl_pieces {R : Type} [CommSemiring R] (pieces : List (List UInt8)) (x : R) :
    pieces.foldl (fun x piece => x * ((10 ^ piece.length : Nat) : R) + (value piece : R)) x =
      x * ((10 ^ pieces.flatten.length : Nat) : R) + (value pieces.flatten : R) := by
  induction pieces generalizing x with
  | nil => simp
  | cons piece pieces ih =>
    rw [List.foldl_cons, ih, List.flatten_cons, value_append, List.length_append, pow_add]
    push_cast
    ring

/-! ### The spelling -/

theorem digitChar_byte {d : Nat} (h : d < 10) :
    UInt8.ofNat (Nat.digitChar d).toNat = UInt8.ofNat (48 + d) := by
  interval_cases d <;> rfl

theorem spell_of_lt {n : Nat} (h : n < 10) : spell n = [UInt8.ofNat (48 + n)] := by
  rw [spell, Nat.toDigits_of_lt_base h, List.map_singleton, digitChar_byte h]

theorem spell_of_le {n : Nat} (h : 10 ≤ n) :
    spell n = spell (n / 10) ++ [UInt8.ofNat (48 + n % 10)] := by
  rw [spell, Nat.toDigits_of_base_le (by omega) h, List.map_append, List.map_singleton,
    digitChar_byte (Nat.mod_lt _ (by omega))]
  rfl

theorem digit_ofNat {d : Nat} (h : d < 10) :
    IsDigit (UInt8.ofNat (48 + d)) ∧ digit (UInt8.ofNat (48 + d)) = d := by
  unfold IsDigit digit
  rw [UInt8.toNat_ofNat']
  omega

theorem ofNat_digit {b : UInt8} (h : IsDigit b) : UInt8.ofNat (48 + digit b) = b := by
  have hsum : 48 + digit b = b.toNat := by
    unfold IsDigit at h
    unfold digit
    omega
  rw [hsum, UInt8.ofNat_toNat]

theorem value_spell (n : Nat) : value (spell n) = n := by
  induction n using Nat.strong_induction_on with
  | _ n ih =>
    by_cases h : n < 10
    · rw [spell_of_lt h, ← List.nil_append [_], value_concat, (digit_ofNat h).2, value_nil,
        Nat.zero_mul, Nat.zero_add]
    · have hdigit := (digit_ofNat (Nat.mod_lt n (by omega : 10 > 0))).2
      rw [spell_of_le (by omega), value_concat, ih _ (by omega), hdigit]
      omega

theorem spell_ne_nil (n : Nat) : spell n ≠ [] := by
  by_cases h : n < 10
  · rw [spell_of_lt h]
    exact List.cons_ne_nil _ _
  · rw [spell_of_le (by omega)]
    exact List.append_ne_nil_of_right_ne_nil _ (List.cons_ne_nil _ _)

theorem spell_digits (n : Nat) : ∀ b ∈ spell n, IsDigit b := by
  induction n using Nat.strong_induction_on with
  | _ n ih =>
    by_cases h : n < 10
    · rw [spell_of_lt h, List.forall_mem_singleton]
      exact (digit_ofNat h).1
    · rw [spell_of_le (by omega), List.forall_mem_append, List.forall_mem_singleton]
      exact ⟨ih _ (by omega), (digit_ofNat (Nat.mod_lt n (by omega))).1⟩

theorem spell_head {n : Nat} (hn : n ≠ 0) : (spell n).head? ≠ some 48 := by
  induction n using Nat.strong_induction_on with
  | _ n ih =>
    by_cases h : n < 10
    · rw [spell_of_lt h, List.head?_cons]
      intro heq
      have hbyte := congrArg UInt8.toNat (Option.some.inj heq)
      rw [UInt8.toNat_ofNat'] at hbyte
      have hzero : (48 : UInt8).toNat = 48 := rfl
      omega
    · rw [spell_of_le (by omega), List.head?_append_of_ne_nil _ (spell_ne_nil _)]
      exact ih _ (by omega) (by omega)

theorem spell_canonical (n : Nat) : Canonical (spell n) := by
  refine ⟨⟨spell_ne_nil n, spell_digits n⟩, fun hlength => spell_head ?_⟩
  rintro rfl
  rw [spell_of_lt (by omega)] at hlength
  exact absurd hlength (by simp)

/-- A canonical string is the spelling of its number. -/
theorem spell_value {digits : List UInt8} (h : Canonical digits) : spell (value digits) = digits := by
  induction digits using List.reverseRecOn with
  | nil => exact absurd rfl h.1.1
  | append_singleton front b ih =>
    obtain ⟨⟨-, hdigits⟩, hhead⟩ := h
    rw [List.forall_mem_append, List.forall_mem_singleton] at hdigits
    have hb := digit_le hdigits.2
    rw [value_concat]
    by_cases hfront : front = []
    · rw [hfront, value_nil, Nat.zero_mul, Nat.zero_add, spell_of_lt (by omega), ofNat_digit hdigits.2]
      rfl
    · have hpos := List.length_pos_of_ne_nil hfront
      have hlead : front.head? ≠ some 48 := by
        have hlong := hhead (by rw [List.length_append, List.length_singleton]; omega)
        rwa [List.head?_append_of_ne_nil _ hfront] at hlong
      have hspell := ih ⟨⟨hfront, hdigits.1⟩, fun _ => hlead⟩
      have hvalue : value front ≠ 0 := by
        intro hzero
        rw [hzero, spell_of_lt (by omega)] at hspell
        rw [← hspell] at hlead
        exact hlead rfl
      have hdiv : (value front * 10 + digit b) / 10 = value front := by omega
      have hmod : (value front * 10 + digit b) % 10 = digit b := by omega
      rw [spell_of_le (by omega), hdiv, hmod, hspell, ofNat_digit hdigits.2]

/-- The first digit of a canonical string of two or more counts. -/
theorem le_value {digits : List UInt8} (h : Canonical digits) (hlength : 1 < digits.length) :
    10 ^ (digits.length - 1) ≤ value digits := by
  cases digits with
  | nil => exact absurd hlength (by simp)
  | cons b digits =>
    have hb : IsDigit b := h.1.2 b List.mem_cons_self
    have hne : b ≠ 48 := fun heq => h.2 hlength (congrArg some heq)
    have hpos : 1 ≤ digit b := by
      have hnat : b.toNat ≠ 48 := fun heq => hne (UInt8.toNat_inj.mp heq)
      unfold IsDigit at hb
      unfold digit
      omega
    have hsum : value (b :: digits) = digit b * 10 ^ digits.length + value digits := by
      rw [← List.singleton_append, value_append]
      simp [value]
    rw [hsum, List.length_cons, Nat.add_sub_cancel]
    exact le_trans (Nat.le_mul_of_pos_left _ hpos) (Nat.le_add_right _ _)

/-- The printed number, as bytes of its text. -/
theorem utf8_toString (n : Nat) : (toString n).toUTF8.data.toList = spell n := by
  have hascii : ∀ c ∈ Nat.toDigits 10 n, String.utf8EncodeChar c = [UInt8.ofNat c.toNat] := by
    intro c hc
    have hdigit := Nat.isDigit_of_mem_toDigits (by omega) (by omega) hc
    have hle : c.val.toNat ≤ 127 := by
      simp only [Char.isDigit, Bool.and_eq_true, decide_eq_true_eq, UInt32.le_iff_toNat_le] at hdigit
      exact le_trans hdigit.2 (by decide)
    unfold String.utf8EncodeChar
    dsimp only
    rw [if_pos hle]
    rfl
  have htext : toString n = String.ofList (Nat.toDigits 10 n) := rfl
  rw [htext, String.toUTF8, String.toByteArray_ofList, List.utf8Encode, List.toList_data_toByteArray,
    spell]
  generalize Nat.toDigits 10 n = chars at hascii
  induction chars with
  | nil => rfl
  | cons c chars ih =>
    obtain ⟨hc, hchars⟩ := List.forall_mem_cons.mp hascii
    rw [List.flatMap_cons, hc, ih hchars]
    rfl

end Decimal
