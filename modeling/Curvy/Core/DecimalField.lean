import Curvy.Core.SecretField
import Curvy.Lib.Chunks
import Curvy.Lib.Decimal
import Curvy.Witness.Input

/-!
# Decimal field elements

Two parsers of signed decimal strings, nineteen digits a step: one for circuit inputs and one on
Montgomery residues. Both reduce modulo the field.
-/

namespace Curvy

set_option autoImplicit false

open Decimal
open Witness (Fr frModulus parseField digitWord)

inductive Bn254FrError where
  | invalidDecimal
  | nonCanonicalDecimal
  | outOfRange
  deriving DecidableEq, Repr

/-- One character of a chunk: the flag for what is no digit and the word, wrapping. -/
def pushDigit (state : Bool × UInt64) (character : UInt8) : Bool × UInt64 :=
  let digit := character - 48
  (state.1 || decide (digit > 9), state.2 * 10 + digit.toUInt64)

/-- One chunk of digits. -/
def pushChunk (state : Bool × Element) (chunk : List UInt8) : Bool × Element :=
  let (invalid, word) := chunk.foldl pushDigit (state.1, 0)
  let scale := Element.new (10 ^ chunk.length)
  (invalid, (state.2.mul scale).add (Element.new word.toNat))

def tryFrFromDecimalBytes (s : List UInt8) : Except Bn254FrError Fr :=
  let negative := s.head? == some 45
  let digits := s.drop negative.toNat
  if digits = [] then .error .invalidDecimal
  else
    let (invalid, value) := (digits.chunks 19).foldl pushChunk (false, Element.zero)
    if invalid then .error .invalidDecimal
    else .ok (if negative then value.negate else value).intoArk

/-- The word of `parse_field` with every step checked, as a build with overflow checks has it. -/
def checkedWord (chunk : List UInt8) : Option Nat :=
  chunk.foldlM (fun n b =>
    if 48 ≤ b.toNat ∧ n * 10 < 2 ^ 64 ∧ n * 10 + (b.toNat - 48) < 2 ^ 64 then
      some (n * 10 + (b.toNat - 48))
    else none) 0

/-- An optional minus and one digit or more denote `i`. -/
inductive SignedDecimal : List UInt8 → Int → Prop
  | nonneg {digits : List UInt8} : Digits digits → SignedDecimal digits (value digits)
  | neg {digits : List UInt8} : Digits digits → SignedDecimal (45 :: digits) (-(value digits : Int))

/-! ### Words -/

theorem minus_not_digit : ¬ IsDigit 45 := by decide

theorem isDigit_iff (b : UInt8) : IsDigit b ↔ ¬ b - 48 > 9 := by
  have hb := b.toNat_lt
  unfold IsDigit
  rw [gt_iff_lt, UInt8.lt_iff_toNat_lt, UInt8.toNat_sub]
  have hnine : (9 : UInt8).toNat = 9 := rfl
  have hzero : (48 : UInt8).toNat = 48 := rfl
  omega

theorem digit_toNat {b : UInt8} (h : IsDigit b) : (b - 48).toNat = digit b := by
  have hb := b.toNat_lt
  unfold IsDigit at h
  unfold digit
  rw [UInt8.toNat_sub]
  have hzero : (48 : UInt8).toNat = 48 := rfl
  omega

/-- Nineteen digits stay in a word. -/
theorem value_lt_word {digits : List UInt8} (hdigits : ∀ b ∈ digits, IsDigit b)
    (hlength : digits.length ≤ 19) : value digits < 2 ^ 64 := by
  have hvalue := value_lt hdigits
  have hpow : 10 ^ digits.length ≤ 10 ^ 19 := Nat.pow_le_pow_right (by omega) hlength
  omega

theorem checkedWord_eq {digits : List UInt8} (hdigits : ∀ b ∈ digits, IsDigit b)
    (hlength : digits.length ≤ 19) : checkedWord digits = some (value digits) := by
  induction digits using List.reverseRecOn with
  | nil => rfl
  | append_singleton front b ih =>
    have hfit := value_lt_word hdigits hlength
    rw [List.forall_mem_append, List.forall_mem_singleton] at hdigits
    rw [List.length_append, List.length_singleton] at hlength
    have hfront := ih hdigits.1 (by omega)
    have hb := hdigits.2
    rw [value_concat] at hfit ⊢
    unfold checkedWord at hfront ⊢
    rw [List.foldlM_append, hfront]
    unfold digit at hfit ⊢
    unfold IsDigit at hb
    have hguard : 48 ≤ b.toNat ∧ value front * 10 < 2 ^ 64 ∧
        value front * 10 + (b.toNat - 48) < 2 ^ 64 := ⟨hb.1, by omega, hfit⟩
    simp only [Option.bind_eq_bind, Option.bind_some, List.foldlM_cons, List.foldlM_nil, if_pos hguard]
    rfl

/-- The flag records whether some character is no digit. -/
theorem pushDigit_flag (chunk : List UInt8) (invalid : Bool) (word : UInt64) :
    (chunk.foldl pushDigit (invalid, word)).1 = true ↔ invalid = true ∨ ∃ b ∈ chunk, ¬ IsDigit b := by
  induction chunk generalizing invalid word with
  | nil => simp
  | cons b chunk ih =>
    rw [List.foldl_cons, pushDigit, ih, Bool.or_eq_true, decide_eq_true_eq, List.exists_mem_cons_iff,
      isDigit_iff, not_not, or_assoc]

theorem pushDigit_word {chunk : List UInt8} (hdigits : ∀ b ∈ chunk, IsDigit b)
    (hlength : chunk.length ≤ 19) (invalid : Bool) :
    ((chunk.foldl pushDigit (invalid, 0)).2).toNat = value chunk := by
  induction chunk using List.reverseRecOn with
  | nil => rfl
  | append_singleton front b ih =>
    have hfit := value_lt_word hdigits hlength
    rw [List.forall_mem_append, List.forall_mem_singleton] at hdigits
    rw [List.length_append, List.length_singleton] at hlength
    have hfront := ih hdigits.1 (by omega)
    rw [value_concat] at hfit ⊢
    rw [List.foldl_append, List.foldl_cons, List.foldl_nil, pushDigit]
    dsimp only
    rw [UInt64.toNat_add, UInt64.toNat_mul, hfront, UInt8.toNat_toUInt64, digit_toNat hdigits.2]
    have hten : (10 : UInt64).toNat = 10 := rfl
    rw [hten]
    omega

/-! ### Chunks -/

theorem chunk_digits {digits : List UInt8} (h : ∀ b ∈ digits, IsDigit b) {chunk : List UInt8}
    (hchunk : chunk ∈ digits.chunks 19) : (∀ b ∈ chunk, IsDigit b) ∧ chunk.length ≤ 19 := by
  constructor
  · intro b hb
    apply h b
    rw [← List.flatten_chunks (by omega : 0 < 19) digits]
    exact List.mem_flatten.mpr ⟨chunk, hchunk, hb⟩
  · rcases List.chunks_sizes (by omega : 0 < 19) digits with ⟨hall, -⟩ | ⟨full, last, heq, hfull, -, hlast⟩
    · exact le_of_eq (hall chunk hchunk)
    · rw [heq, List.mem_append, List.mem_singleton] at hchunk
      rcases hchunk with hmem | rfl
      · exact le_of_eq (hfull chunk hmem)
      · omega

theorem pushChunk_flag (pieces : List (List UInt8)) (invalid : Bool) (x : Element) :
    (pieces.foldl pushChunk (invalid, x)).1 = true ↔
      invalid = true ∨ ∃ b ∈ pieces.flatten, ¬ IsDigit b := by
  induction pieces generalizing invalid x with
  | nil => simp
  | cons piece pieces ih =>
    rw [List.foldl_cons, pushChunk, ih, pushDigit_flag, List.flatten_cons]
    simp only [List.mem_append, or_and_right, exists_or, or_assoc]

theorem pushChunk_value {pieces : List (List UInt8)}
    (h : ∀ piece ∈ pieces, (∀ b ∈ piece, IsDigit b) ∧ piece.length ≤ 19) (invalid : Bool)
    (x : Element) :
    (pieces.foldl pushChunk (invalid, x)).2.intoArk =
      pieces.foldl (fun (x : Fr) piece => x * ((10 ^ piece.length : Nat) : Fr) + (value piece : Fr))
        x.intoArk := by
  induction pieces generalizing invalid x with
  | nil => rfl
  | cons piece pieces ih =>
    obtain ⟨⟨hdigits, hlength⟩, hpieces⟩ := List.forall_mem_cons.mp h
    rw [List.foldl_cons, List.foldl_cons, pushChunk, ih hpieces, Element.intoArk_add,
      Element.intoArk_mul, Element.intoArk_new, Element.intoArk_new, pushDigit_word hdigits hlength]

/-! ### The parsers -/

theorem all_digits (digits : List UInt8) :
    digits.all (fun b => 48 ≤ b.toNat ∧ b.toNat ≤ 57) = true ↔ ∀ b ∈ digits, IsDigit b := by
  simp [IsDigit]

theorem horner_chunks (digits : List UInt8) :
    (digits.chunks 19).foldl
      (fun (x : Fr) piece => x * ((10 ^ piece.length : Nat) : Fr) + (value piece : Fr)) 0 =
      (value digits : Fr) := by
  rw [foldl_pieces, List.flatten_chunks (by omega), zero_mul, zero_add]

/-- The precomputed radix is the power of ten of a full chunk. -/
theorem scale_eq (chunk : List UInt8) :
    (if chunk.length = 19 then (10000000000000000000 : Fr) else ((10 ^ chunk.length : Nat) : Fr)) =
      ((10 ^ chunk.length : Nat) : Fr) := by
  split
  · rename_i h
    rw [h]
    norm_num
  · rfl

theorem signedDecimal_cases {bytes : List UInt8} {i : Int} :
    SignedDecimal bytes i ↔
      if bytes.head? = some 45 then Digits bytes.tail ∧ i = -(value bytes.tail : Int)
      else Digits bytes ∧ i = value bytes := by
  constructor
  · rintro (hdigits | hdigits)
    · have hhead : bytes.head? ≠ some 45 := by
        intro h
        exact minus_not_digit (hdigits.2 45 (List.mem_of_head? h))
      rw [if_neg hhead]
      exact ⟨hdigits, rfl⟩
    · rw [List.head?_cons, if_pos rfl]
      exact ⟨hdigits, rfl⟩
  · split
    · rename_i hhead
      rintro ⟨hdigits, rfl⟩
      cases bytes with
      | nil => cases hhead
      | cons b digits =>
        obtain rfl := Option.some.inj hhead
        exact .neg hdigits
    · rintro ⟨hdigits, rfl⟩
      exact .nonneg hdigits

/-- What both parsers make of the digits. -/
def signed (negative : Bool) (digits : List UInt8) : Option Fr :=
  if Digits digits then some (if negative then -(value digits : Fr) else (value digits : Fr)) else none

theorem signed_iff {bytes : List UInt8} {x : Fr} :
    (if bytes.head? = some 45 then signed true bytes.tail else signed false bytes) = some x ↔
      ∃ i, SignedDecimal bytes i ∧ x = (i : Fr) := by
  have hsigned : ∀ negative digits (i : Int),
      (i : Fr) = (if negative then -(value digits : Fr) else (value digits : Fr)) →
      (signed negative digits = some x ↔ ∃ j, (Digits digits ∧ j = i) ∧ x = (j : Fr)) := by
    intro negative digits i hi
    unfold signed
    split
    · rename_i h
      rw [← hi]
      constructor
      · intro hx
        exact ⟨i, ⟨h, rfl⟩, (Option.some.inj hx).symm⟩
      · rintro ⟨j, ⟨-, rfl⟩, rfl⟩
        rfl
    · rename_i h
      constructor
      · intro hx
        cases hx
      · rintro ⟨j, ⟨hdigits, -⟩, -⟩
        exact absurd hdigits h
  simp only [signedDecimal_cases]
  split
  · exact hsigned true _ _ (by push_cast; rfl)
  · exact hsigned false _ _ (by push_cast; rfl)

theorem parseField_eq (text : String) :
    parseField text =
      if text.toUTF8.toList.head? = some 45 then signed true text.toUTF8.toList.tail
      else signed false text.toUTF8.toList := by
  have hbody : ∀ negative digits,
      (if digits = [] ∨ ¬ digits.all (fun b => 48 ≤ b.toNat ∧ b.toNat ≤ 57) = true then none
      else
        let radix : Fr := 10000000000000000000
        let field := (digits.chunks 19).foldl (fun (field : Fr) chunk =>
          let scale := if chunk.length = 19 then radix else ((10 ^ chunk.length : Nat) : Fr)
          field * scale + (digitWord chunk : Fr)) 0
        some (if negative then -field else field)) = signed negative digits := by
    intro negative digits
    unfold signed
    by_cases h : Digits digits
    · rw [if_neg (fun hor => hor.elim h.1 (fun hn => hn ((all_digits digits).mpr h.2))), if_pos h]
      simp only [scale_eq]
      rw [← horner_chunks]
      rfl
    · rw [if_neg h, if_pos]
      by_contra hcon
      rw [not_or, not_not, all_digits] at hcon
      exact h hcon
  unfold parseField
  generalize text.toUTF8.toList = bytes
  cases bytes with
  | nil => exact hbody false []
  | cons b digits =>
    by_cases hb : b = 45
    · rw [hb, List.head?_cons, if_pos rfl]
      exact hbody true digits
    · rw [List.head?_cons, if_neg (fun h => hb (Option.some.inj h))]
      rw [← hbody]
      dsimp only
      split
      · rename_i heq
        exact absurd (List.cons.inj heq).1 hb
      · rfl

theorem tryFrFromDecimalBytes_eq (s : List UInt8) :
    tryFrFromDecimalBytes s =
      (if s.head? = some 45 then signed true s.tail else signed false s).elim
        (.error .invalidDecimal) .ok := by
  have hbody : ∀ (negative : Bool) digits,
      (if digits = [] then Except.error Bn254FrError.invalidDecimal
      else
        let (invalid, value) := (digits.chunks 19).foldl pushChunk (false, Element.zero)
        if invalid then .error .invalidDecimal
        else .ok (if negative then value.negate else value).intoArk) =
      (signed negative digits).elim (.error .invalidDecimal) .ok := by
    intro negative digits
    have hflag := pushChunk_flag (digits.chunks 19) false Element.zero
    rw [List.flatten_chunks (by omega)] at hflag
    by_cases hempty : digits = []
    · rw [if_pos hempty, signed, if_neg (fun h => h.1 hempty), Option.elim_none]
    · rw [if_neg hempty]
      dsimp only
      by_cases hdigits : ∀ b ∈ digits, IsDigit b
      · have hvalue := pushChunk_value (fun piece hpiece => chunk_digits hdigits hpiece) false Element.zero
        rw [Element.intoArk_zero, horner_chunks] at hvalue
        have hok : Digits digits := ⟨hempty, hdigits⟩
        have hclear : ¬ ((digits.chunks 19).foldl pushChunk (false, Element.zero)).1 = true := by
          rw [hflag]
          rintro (h | ⟨b, hb, hnot⟩)
          · cases h
          · exact hnot (hdigits b hb)
        rw [if_neg hclear, signed, if_pos hok, Option.elim_some]
        cases negative with
        | true => exact congrArg Except.ok ((Element.intoArk_negate _).trans (congrArg _ hvalue))
        | false => exact congrArg Except.ok hvalue
      · have hset : ((digits.chunks 19).foldl pushChunk (false, Element.zero)).1 = true := by
          rw [hflag]
          push Not at hdigits
          exact .inr hdigits
        rw [if_pos hset, signed, if_neg (fun h => hdigits h.2), Option.elim_none]
  unfold tryFrFromDecimalBytes
  dsimp only
  by_cases hhead : s.head? = some 45
  · rw [hhead, if_pos rfl, ← List.drop_one]
    exact hbody true _
  · rw [if_neg hhead, beq_eq_false_iff_ne.mpr hhead]
    exact hbody false s

/-! ### Signed reduction -/

theorem parseField_iff {text : String} {x : Fr} :
    parseField text = some x ↔ ∃ i, SignedDecimal text.toUTF8.toList i ∧ x = (i : Fr) := by
  rw [parseField_eq, signed_iff]

theorem tryFrFromDecimalBytes_iff {bytes : List UInt8} {x : Fr} :
    tryFrFromDecimalBytes bytes = .ok x ↔ ∃ i, SignedDecimal bytes i ∧ x = (i : Fr) := by
  rw [tryFrFromDecimalBytes_eq, ← signed_iff]
  cases (if bytes.head? = some 45 then signed true bytes.tail else signed false bytes) with
  | some y => exact ⟨fun h => congrArg some (Except.ok.inj h), fun h => congrArg _ (Option.some.inj h)⟩
  | none => exact ⟨fun h => (by cases h), fun h => (by cases h)⟩

/-- Both parsers accept the signed decimals and return the denoted integer in the field; no word
of theirs passes 64 bits on a chunk of digits, whatever the length of the string. -/
theorem decimal_parsers_agree :
    (∀ (text : String) (x : Fr), parseField text = some x ↔
      ∃ i, SignedDecimal text.toUTF8.toList i ∧ x = (i : Fr)) ∧
    (∀ (bytes : List UInt8) (x : Fr), tryFrFromDecimalBytes bytes = .ok x ↔
      ∃ i, SignedDecimal bytes i ∧ x = (i : Fr)) ∧
    (∀ text : String, parseField text = (tryFrFromDecimalBytes text.toUTF8.toList).toOption) ∧
    (∀ digits, Digits digits → ∀ chunk ∈ digits.chunks 19, 10 ^ chunk.length < 2 ^ 64 ∧
      checkedWord chunk = some (digitWord chunk) ∧
      ∀ invalid, ((chunk.foldl pushDigit (invalid, 0)).2).toNat = digitWord chunk) := by
  refine ⟨fun text x => parseField_iff, fun bytes x => tryFrFromDecimalBytes_iff, ?_, ?_⟩
  · intro text
    rw [parseField_eq, tryFrFromDecimalBytes_eq]
    cases (if text.toUTF8.toList.head? = some 45 then signed true text.toUTF8.toList.tail
      else signed false text.toUTF8.toList) <;> rfl
  · intro digits hdigits chunk hchunk
    obtain ⟨hchunk, hlength⟩ := chunk_digits hdigits.2 hchunk
    have hpow : 10 ^ chunk.length ≤ 10 ^ 19 := Nat.pow_le_pow_right (by omega) hlength
    refine ⟨by omega, checkedWord_eq hchunk hlength, ?_⟩
    exact fun invalid => pushDigit_word hchunk hlength invalid

end Curvy
