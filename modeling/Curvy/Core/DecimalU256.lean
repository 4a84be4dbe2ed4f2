import Curvy.Core.DecimalField
import Curvy.Core.Field
import Mathlib.Data.Nat.Size

/-!
# Decimal integers of 256 bits

Seventy-eight rounds of times ten on the 32 bytes, each carry kept. Canonical field elements are
parsed through it.
-/

namespace Curvy

set_option autoImplicit false

open Decimal
open Witness (Fr frModulus)

inductive DecimalU256Error where
  | invalidDecimal
  | outOfRange
  deriving DecidableEq, Repr

/-- `str::as_bytes`. -/
def utf8 (text : String) : List UInt8 := text.toUTF8.data.toList

/-- Ten times the bytes plus the carry, in words of 16 bits; the carry out of the last byte. -/
def timesTen : List UInt8 → UInt16 → List UInt8 × UInt16
  | [], carry => ([], carry)
  | byte :: bytes, carry =>
    let sum := carry + byte.toUInt16 * 10
    let (rest, out) := timesTen bytes (sum >>> 8)
    (sum.toUInt8 :: rest, out)

structure U256State where
  bytes : List UInt8
  invalid : Bool
  overflow : UInt16

def U256State.push (state : U256State) (character : UInt8) : U256State :=
  let digit := character - 48
  let (bytes, carry) := timesTen state.bytes digit.toUInt16
  { bytes, invalid := state.invalid || decide (digit > 9), overflow := state.overflow ||| carry }

def U256State.zero : U256State := ⟨List.replicate 32 0, false, 0⟩

def tryDecimalBytesToLe32 (s : List UInt8) : Except DecimalU256Error (List UInt8) :=
  if s = [] then .error .invalidDecimal
  else if s.length > 78 then .error .outOfRange
  else
    let padded := List.replicate (78 - s.length) 48 ++ s
    let state := padded.foldl U256State.push .zero
    if state.invalid then .error .invalidDecimal
    else if state.overflow ≠ 0 then .error .outOfRange
    else .ok state.bytes

def tryDecToLe32 (s : String) : Except DecimalU256Error (List UInt8) := tryDecimalBytesToLe32 (utf8 s)

/-- `parseBytes` is `BigUint::parse_bytes` in radix ten; `Nat.size` counts the bits. -/
def tryDecToU256 (parseBytes : List UInt8 → Option Nat) (s : List UInt8) : Except String Nat :=
  if s = [] ∨ s.length > 78 ∨ ¬ s.all (fun b => decide (IsDigit b)) then
    .error "expected an unsigned decimal integer of at most 256 bits"
  else
    match parseBytes s with
    | none => .error "invalid unsigned decimal integer"
    | some value => if value.size > 256 then .error "integer exceeds 256 bits" else .ok value

def fieldModulusDec : String :=
  "21888242871839275222246405745257275088548364400416034343698204186575808495617"

/-- `Bn254Fr::try_from_dec`. -/
def tryFromDec (s : String) : Except Bn254FrError Fr :=
  if (utf8 s).length > (utf8 fieldModulusDec).length then .error .outOfRange
  else
    match tryDecToLe32 s with
    | .error .invalidDecimal => .error .invalidDecimal
    | .error .outOfRange => .error .outOfRange
    | .ok bytes =>
      if (utf8 s).length > 1 ∧ (utf8 s).head? = some 48 then .error .nonCanonicalDecimal
      else
        match fromLeBytes bytes with
        | some value => .ok value
        | none => .error .outOfRange

/-- `Bn254Fr::to_dec`. -/
def toDec (x : Fr) : String := toString x.val

/-! ### One round -/

/-- A word holds ten times a byte and a carry of at most 255, and carries less on. -/
theorem carry_fits (byte : UInt8) {carry : UInt16} (h : carry.toNat ≤ 255) :
    carry.toNat + byte.toNat * 10 < 2 ^ 16 ∧
      (carry + byte.toUInt16 * 10).toNat = carry.toNat + byte.toNat * 10 ∧
      ((carry + byte.toUInt16 * 10) >>> 8).toNat = (carry.toNat + byte.toNat * 10) / 256 := by
  have hb := byte.toNat_lt
  have hten : (10 : UInt16).toNat = 10 := rfl
  have hsum : (carry + byte.toUInt16 * 10).toNat = carry.toNat + byte.toNat * 10 := by
    rw [UInt16.toNat_add, UInt16.toNat_mul, UInt8.toNat_toUInt16, hten]
    omega
  refine ⟨by omega, hsum, ?_⟩
  rw [UInt16.toNat_shiftRight, hsum]
  exact Nat.shiftRight_eq_div_pow _ 8

theorem timesTen_length (bytes : List UInt8) (carry : UInt16) :
    (timesTen bytes carry).1.length = bytes.length := by
  induction bytes generalizing carry with
  | nil => rfl
  | cons byte bytes ih =>
    rw [timesTen, List.length_cons, List.length_cons, ih]

/-- No carry is dropped: bytes and outgoing carry hold ten times the number. -/
theorem timesTen_value (bytes : List UInt8) {carry : UInt16} (h : carry.toNat ≤ 255) :
    leNat (timesTen bytes carry).1 + 256 ^ bytes.length * (timesTen bytes carry).2.toNat =
      10 * leNat bytes + carry.toNat := by
  induction bytes generalizing carry with
  | nil => simp [timesTen, leNat]
  | cons byte bytes ih =>
    obtain ⟨hfit, hsum, hshift⟩ := carry_fits byte h
    have hb := byte.toNat_lt
    have hcarry : ((carry + byte.toUInt16 * 10) >>> 8).toNat ≤ 255 := by omega
    have hrest := ih hcarry
    rw [hshift] at hrest
    have hlow : (carry + byte.toUInt16 * 10).toUInt8.toNat = (carry.toNat + byte.toNat * 10) % 256 := by
      rw [UInt16.toNat_toUInt8, hsum]
    rw [timesTen]
    dsimp only
    rw [leNat, leNat, hlow, List.length_cons, Nat.pow_succ]
    generalize timesTen bytes ((carry + byte.toUInt16 * 10) >>> 8) = rest at hrest ⊢
    calc _ = (carry.toNat + byte.toNat * 10) % 256 +
          256 * (leNat rest.1 + 256 ^ bytes.length * rest.2.toNat) := by ring
      _ = 10 * (byte.toNat + 256 * leNat bytes) + carry.toNat := by
        rw [hrest]
        omega

/-! ### All rounds -/

/-- What the rounds know of the characters read so far. -/
structure U256State.Holds (state : U256State) (characters : List UInt8) : Prop where
  length : state.bytes.length = 32
  invalid : state.invalid = true ↔ ∃ b ∈ characters, ¬ IsDigit b
  exact : (∀ b ∈ characters, IsDigit b) → value characters < 2 ^ 256 →
    state.overflow = 0 ∧ leNat state.bytes = value characters
  overflow : (∀ b ∈ characters, IsDigit b) → 2 ^ 256 ≤ value characters → state.overflow ≠ 0

theorem push_holds {state : U256State} {characters : List UInt8} (h : state.Holds characters)
    (character : UInt8) : (state.push character).Holds (characters ++ [character]) := by
  have hbytes : (state.push character).bytes =
      (timesTen state.bytes (character - 48).toUInt16).1 := rfl
  have hflag : (state.push character).overflow =
      state.overflow ||| (timesTen state.bytes (character - 48).toUInt16).2 := rfl
  have hcarry : (character - 48).toUInt16.toNat ≤ 255 := by
    have hlt := (character - 48).toNat_lt
    rw [UInt8.toNat_toUInt16]
    omega
  have hround := timesTen_value state.bytes hcarry
  rw [h.length, UInt8.toNat_toUInt16] at hround
  have hnew := leNat_lt (timesTen state.bytes (character - 48).toUInt16).1
  rw [timesTen_length, h.length] at hnew
  have hpow : 256 ^ 32 = 2 ^ 256 := by norm_num
  rw [hpow] at hround hnew
  refine ⟨?_, ?_, ?_, ?_⟩
  · rw [hbytes, timesTen_length, h.length]
  · have hinvalid : (state.push character).invalid =
        (state.invalid || decide (character - 48 > 9)) := rfl
    rw [hinvalid, Bool.or_eq_true, h.invalid, decide_eq_true_eq]
    simp only [List.mem_append, List.mem_singleton, or_and_right, exists_or, exists_eq_left, isDigit_iff,
      not_not]
  · intro hdigits hlt
    rw [List.forall_mem_append, List.forall_mem_singleton] at hdigits
    rw [value_concat] at hlt ⊢
    obtain ⟨hclear, hvalue⟩ := h.exact hdigits.1 (by omega)
    rw [digit_toNat hdigits.2, hvalue] at hround
    have hnone : (timesTen state.bytes (character - 48).toUInt16).2 = 0 := by
      apply UInt16.toNat_inj.mp
      have hzero : (0 : UInt16).toNat = 0 := rfl
      omega
    rw [hflag, hbytes, hclear, hnone]
    rw [hnone] at hround
    have hzero : (0 : UInt16).toNat = 0 := rfl
    exact ⟨rfl, by omega⟩
  · intro hdigits hle
    rw [List.forall_mem_append, List.forall_mem_singleton] at hdigits
    rw [value_concat] at hle
    rw [hflag, ne_eq, UInt16.or_eq_zero_iff]
    rintro ⟨hclear, hnone⟩
    by_cases hbefore : value characters < 2 ^ 256
    · have hvalue := (h.exact hdigits.1 hbefore).2
      rw [digit_toNat hdigits.2, hvalue, hnone] at hround
      have hzero : (0 : UInt16).toNat = 0 := rfl
      omega
    · exact h.overflow hdigits.1 (by omega) hclear

theorem foldl_holds (characters : List UInt8) :
    (characters.foldl U256State.push .zero).Holds characters := by
  induction characters using List.reverseRecOn with
  | nil =>
    refine ⟨rfl, by simp [U256State.zero], fun _ _ => ⟨rfl, by decide⟩, ?_⟩
    intro _ h
    exact absurd h (by decide)
  | append_singleton front b ih =>
    rw [List.foldl_append]
    exact push_holds ih b

theorem padded_digits (s : List UInt8) :
    (∃ b ∈ List.replicate (78 - s.length) 48 ++ s, ¬ IsDigit b) ↔ ∃ b ∈ s, ¬ IsDigit b := by
  constructor
  · rintro ⟨b, hb, hnot⟩
    rcases List.mem_append.mp hb with hpad | hb
    · rw [List.eq_of_mem_replicate hpad] at hnot
      exact absurd (by decide) hnot
    · exact ⟨b, hb, hnot⟩
  · rintro ⟨b, hb, hnot⟩
    exact ⟨b, List.mem_append_right _ hb, hnot⟩

/-- The parser, without its rounds. -/
theorem tryDecimalBytesToLe32_eq (s : List UInt8) :
    tryDecimalBytesToLe32 s =
      if s = [] then .error .invalidDecimal
      else if s.length > 78 then .error .outOfRange
      else if ¬ Digits s then .error .invalidDecimal
      else if 2 ^ 256 ≤ value s then .error .outOfRange
      else .ok (leBytes 32 (value s)) := by
  have hstate := foldl_holds (List.replicate (78 - s.length) 48 ++ s)
  unfold tryDecimalBytesToLe32
  by_cases hempty : s = []
  · rw [if_pos hempty, if_pos hempty]
  rw [if_neg hempty, if_neg hempty]
  by_cases hlong : s.length > 78
  · rw [if_pos hlong, if_pos hlong]
  rw [if_neg hlong, if_neg hlong]
  dsimp only
  generalize (List.replicate (78 - s.length) 48 ++ s).foldl U256State.push .zero = state at hstate ⊢
  have hinvalid := hstate.invalid
  rw [padded_digits] at hinvalid
  by_cases hdigits : ∀ b ∈ s, IsDigit b
  · have hpadded : ∀ b ∈ List.replicate (78 - s.length) 48 ++ s, IsDigit b := by
      by_contra hcon
      push Not at hcon
      obtain ⟨b, hb, hnot⟩ := (padded_digits s).mp hcon
      exact hnot (hdigits b hb)
    have hclear : ¬ state.invalid = true := by
      rw [hinvalid]
      rintro ⟨b, hb, hnot⟩
      exact hnot (hdigits b hb)
    have hok : Digits s := ⟨hempty, hdigits⟩
    rw [if_neg hclear, if_neg (not_not_intro hok)]
    have hexact := hstate.exact hpadded
    have hover := hstate.overflow hpadded
    rw [value_replicate_zero] at hexact hover
    by_cases hbig : 2 ^ 256 ≤ value s
    · rw [if_pos (hover hbig), if_pos hbig]
    · obtain ⟨hzero, hvalue⟩ := hexact (by omega)
      rw [if_neg (not_not_intro hzero), if_neg hbig, ← hvalue, ← hstate.length, leBytes_leNat]
  · have hset : state.invalid = true := by
      rw [hinvalid]
      push Not at hdigits
      exact hdigits
    rw [if_pos hset, if_pos (fun h => hdigits h.2)]

/-- Up to 78 digits of an integer that 256 bits hold. -/
def FitsU256 (s : List UInt8) : Prop := Digits s ∧ s.length ≤ 78 ∧ value s < 2 ^ 256

theorem tryDecimalBytesToLe32_ok {s out : List UInt8} :
    tryDecimalBytesToLe32 s = .ok out ↔ FitsU256 s ∧ out = leBytes 32 (value s) := by
  rw [tryDecimalBytesToLe32_eq]
  unfold FitsU256
  split
  · rename_i hempty
    exact ⟨fun h => (by cases h), fun h => absurd hempty h.1.1.1⟩
  split
  · rename_i hlong
    exact ⟨fun h => (by cases h), fun h => absurd hlong (by omega)⟩
  split
  · rename_i hdigits
    exact ⟨fun h => (by cases h), fun h => absurd h.1.1 hdigits⟩
  split
  · rename_i hbig
    exact ⟨fun h => (by cases h), fun h => absurd hbig (by omega)⟩
  · rename_i hempty hlong hdigits hbig
    constructor
    · intro h
      exact ⟨⟨not_not.mp hdigits, by omega, by omega⟩, (Except.ok.inj h).symm⟩
    · rintro ⟨-, rfl⟩
      rfl

theorem tryDecToU256_ok {parseBytes : List UInt8 → Option Nat}
    (hparse : ∀ digits, Digits digits → parseBytes digits = some (value digits)) {s : List UInt8}
    {v : Nat} : tryDecToU256 parseBytes s = .ok v ↔ FitsU256 s ∧ v = value s := by
  have hall : s.all (fun b => decide (IsDigit b)) = true ↔ ∀ b ∈ s, IsDigit b := by simp
  unfold tryDecToU256
  split
  · rename_i hbad
    rw [hall] at hbad
    constructor
    · exact fun h => (by cases h)
    · rintro ⟨⟨hdigits, hlength, -⟩, -⟩
      rcases hbad with hempty | hlong | hnot
      · exact absurd hempty hdigits.1
      · omega
      · exact absurd hdigits.2 hnot
  · rename_i hgood
    rw [hall, not_or, not_or, not_not] at hgood
    have hdigits : Digits s := ⟨hgood.1, hgood.2.2⟩
    rw [hparse s hdigits]
    dsimp only
    have hbits : (value s).size > 256 ↔ ¬ value s < 2 ^ 256 := by rw [← Nat.size_le, not_le]
    by_cases hfits : value s < 2 ^ 256
    · rw [if_neg (fun h => hbits.mp h hfits)]
      constructor
      · exact fun h => ⟨⟨hdigits, by omega, hfits⟩, (Except.ok.inj h).symm⟩
      · rintro ⟨-, rfl⟩
        rfl
    · rw [if_pos (hbits.mpr hfits)]
      exact ⟨fun h => (by cases h), fun h => absurd h.1.2.2 hfits⟩

/-! ### Canonical field elements -/

theorem utf8_injective : Function.Injective utf8 := by
  intro s t h
  apply String.toByteArray_inj.mp
  exact ByteArray.ext (Array.toList_inj.mp h)

theorem utf8_toDec (x : Fr) : utf8 (toDec x) = spell x.val := utf8_toString x.val

theorem fieldModulusDec_length : (utf8 fieldModulusDec).length = 77 := by decide

/-- A canonical decimal of the field is no longer than the modulus. -/
theorem canonical_length {digits : List UInt8} (h : Canonical digits) (hlt : value digits < frModulus) :
    digits.length ≤ 77 := by
  by_contra hlong
  have hle := le_value h (by omega)
  have hpow : 10 ^ 77 ≤ 10 ^ (digits.length - 1) := Nat.pow_le_pow_right (by omega) (by omega)
  have hmodulus : frModulus < 10 ^ 77 := by decide
  omega

theorem tryFromDec_ok {s : String} {x : Fr} :
    tryFromDec s = .ok x ↔
      Canonical (utf8 s) ∧ value (utf8 s) < frModulus ∧ x = (value (utf8 s) : Fr) := by
  have hmodulus : frModulus < 2 ^ 256 := by decide
  unfold tryFromDec tryDecToLe32
  rw [fieldModulusDec_length]
  constructor
  · intro h
    split at h
    · cases h
    rename_i hlength
    cases hle : tryDecimalBytesToLe32 (utf8 s) with
    | error e =>
      rw [hle] at h
      cases e <;> cases h
    | ok bytes =>
      obtain ⟨⟨hdigits, -, hbound⟩, rfl⟩ := tryDecimalBytesToLe32_ok.mp hle
      rw [hle] at h
      dsimp only at h
      split at h
      · cases h
      rename_i hlead
      refine ⟨⟨hdigits, fun hlong hhead => hlead ⟨hlong, hhead⟩⟩, ?_⟩
      rw [fromLeBytes, leNat_leBytes (by rw [show 256 ^ 32 = 2 ^ 256 by norm_num]; exact hbound)] at h
      by_cases hlt : value (utf8 s) < frModulus
      · rw [if_pos hlt] at h
        exact ⟨hlt, (Except.ok.inj h).symm⟩
      · rw [if_neg hlt] at h
        cases h
  · rintro ⟨hcanonical, hlt, rfl⟩
    have hlength := canonical_length hcanonical hlt
    have hle : tryDecimalBytesToLe32 (utf8 s) = .ok (leBytes 32 (value (utf8 s))) :=
      tryDecimalBytesToLe32_ok.mpr ⟨⟨hcanonical.1, by omega, by omega⟩, rfl⟩
    have hlead : ¬ ((utf8 s).length > 1 ∧ (utf8 s).head? = some 48) :=
      fun h => hcanonical.2 h.1 h.2
    rw [if_neg (by omega), hle]
    dsimp only
    rw [if_neg hlead, fromLeBytes,
      leNat_leBytes (by rw [show 256 ^ 32 = 2 ^ 256 by norm_num]; omega), if_pos hlt]

theorem tryFromDec_iff {s : String} {x : Fr} : tryFromDec s = .ok x ↔ s = toDec x := by
  rw [tryFromDec_ok]
  constructor
  · rintro ⟨hcanonical, hlt, rfl⟩
    apply utf8_injective
    rw [utf8_toDec, ZMod.val_cast_of_lt hlt, spell_value hcanonical]
  · rintro rfl
    rw [utf8_toDec, value_spell]
    exact ⟨spell_canonical _, ZMod.val_lt x, (ZMod.natCast_zmod_val x).symm⟩

/-! ### Exactness -/

/-- The 32-byte parser accepts the decimals of at most 78 digits below `2 ^ 256` and no other
string, and returns the integer; the big-integer parser accepts the same and returns the same.
A canonical field element is accepted in its own spelling only. -/
theorem decimal_u256_exact (parseBytes : List UInt8 → Option Nat)
    (hparse : ∀ digits, Digits digits → parseBytes digits = some (value digits)) :
    (∀ s out, tryDecimalBytesToLe32 s = .ok out ↔ FitsU256 s ∧ out = leBytes 32 (value s)) ∧
    (∀ s out, tryDecimalBytesToLe32 s = .ok out → out.length = 32 ∧ leNat out = value s) ∧
    (∀ (bytes : List UInt8) (carry : UInt16), carry.toNat ≤ 255 →
      leNat (timesTen bytes carry).1 + 256 ^ bytes.length * (timesTen bytes carry).2.toNat =
        10 * leNat bytes + carry.toNat) ∧
    (∀ s v, tryDecToU256 parseBytes s = .ok v ↔
      ∃ out, tryDecimalBytesToLe32 s = .ok out ∧ v = leNat out) ∧
    (∀ s x, tryFromDec s = .ok x ↔
      Canonical (utf8 s) ∧ value (utf8 s) < frModulus ∧ x = (value (utf8 s) : Fr)) ∧
    (∀ s x, tryFromDec s = .ok x ↔ s = toDec x) := by
  have hback : ∀ s out, tryDecimalBytesToLe32 s = .ok out → out.length = 32 ∧ leNat out = value s := by
    intro s out h
    obtain ⟨⟨-, -, hbound⟩, rfl⟩ := tryDecimalBytesToLe32_ok.mp h
    have hpow : 256 ^ 32 = 2 ^ 256 := by norm_num
    exact ⟨leBytes_length _ _, leNat_leBytes (by omega)⟩
  refine ⟨fun s out => tryDecimalBytesToLe32_ok, hback, fun bytes carry h => timesTen_value bytes h, ?_,
    fun s x => tryFromDec_ok, fun s x => tryFromDec_iff⟩
  intro s v
  rw [tryDecToU256_ok hparse]
  constructor
  · rintro ⟨hfits, rfl⟩
    have hout := tryDecimalBytesToLe32_ok.mpr ⟨hfits, rfl⟩
    exact ⟨_, hout, (hback s _ hout).2.symm⟩
  · rintro ⟨out, hout, rfl⟩
    exact ⟨(tryDecimalBytesToLe32_ok.mp hout).1, (hback s out hout).2⟩

/-- With a big-integer parser that reads digits and nothing else, on "0256". -/
theorem decimal_u256_exact_example :
    tryDecToU256 (fun digits => if Digits digits then some (value digits) else none) [48, 50, 53, 54] =
        .ok 256 ↔
      ∃ out, tryDecimalBytesToLe32 [48, 50, 53, 54] = .ok out ∧ 256 = leNat out :=
  (decimal_u256_exact _ fun _ h => if_pos h).2.2.2.1 _ _

end Curvy
