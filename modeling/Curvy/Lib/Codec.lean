import Curvy.Lib.Decoder
import Mathlib.Data.Nat.Bitwise

/-!
# Exact decoders

A decoder is exact for a spelling when it accepts a value of its domain in that spelling
and in no other, and leaves the bytes behind it. Two exact decoders for one spelling read
the same values; an exact decoder undoes the spelling. Here: raw bytes, little-endian
integers and groups of seven bits.
-/

set_option autoImplicit false

/-- `length` bytes of `value`, the least significant first. -/
def leBytes : Nat → Nat → List UInt8
  | 0, _ => []
  | length + 1, value => UInt8.ofNat (value % 256) :: leBytes length (value / 256)

@[simp] theorem leBytes_length (length value : Nat) : (leBytes length value).length = length := by
  induction length generalizing value with
  | zero => rfl
  | succ length ih => rw [leBytes, List.length_cons, ih]

theorem leNat_leBytes {length value : Nat} (h : value < 256 ^ length) :
    leNat (leBytes length value) = value := by
  induction length generalizing value with
  | zero =>
    simp only [Nat.pow_zero] at h
    rw [leBytes, leNat]
    omega
  | succ length ih =>
    rw [Nat.pow_succ] at h
    rw [leBytes, leNat, ih (by omega), UInt8.toNat_ofNat']
    omega

theorem leBytes_leNat (bytes : List UInt8) : leBytes bytes.length (leNat bytes) = bytes := by
  induction bytes with
  | nil => rfl
  | cons b bytes ih =>
    have hb := b.toNat_lt
    have hlow : (b.toNat + 256 * leNat bytes) % 256 = b.toNat := by omega
    have hhigh : (b.toNat + 256 * leNat bytes) / 256 = leNat bytes := by omega
    rw [List.length_cons, leNat, leBytes, hlow, hhigh, ih, UInt8.ofNat_toNat]

theorem leNat_append (x y : List UInt8) : leNat (x ++ y) = leNat x + 256 ^ x.length * leNat y := by
  induction x with
  | nil => rw [List.nil_append, leNat, List.length_nil, Nat.pow_zero, Nat.one_mul, Nat.zero_add]
  | cons b x ih =>
    rw [List.cons_append, leNat, leNat, ih, List.length_cons, Nat.pow_succ', Nat.mul_assoc,
      Nat.mul_add, Nat.add_assoc]

theorem leBytes_add (a b value : Nat) :
    leBytes (a + b) value = leBytes a value ++ leBytes b (value / 256 ^ a) := by
  induction a generalizing value with
  | zero => rw [Nat.zero_add, leBytes, List.nil_append, Nat.pow_zero, Nat.div_one]
  | succ a ih =>
    rw [Nat.succ_add, leBytes, leBytes, ih, List.cons_append, Nat.div_div_eq_div_mul,
      Nat.pow_succ']

theorem leBytes_mod (length value : Nat) :
    leBytes length (value % 256 ^ length) = leBytes length value := by
  induction length generalizing value with
  | zero => rfl
  | succ length ih =>
    rw [leBytes, leBytes, Nat.pow_succ', Nat.mod_mul_right_div_self, ih, Nat.mod_mul_right_mod]

/-- `length` bytes of `value`, the most significant first. -/
def beBytes (length value : Nat) : List UInt8 := (leBytes length value).reverse

def beNat (bytes : List UInt8) : Nat := leNat bytes.reverse

@[simp] theorem beBytes_length (length value : Nat) : (beBytes length value).length = length := by
  rw [beBytes, List.length_reverse, leBytes_length]

theorem beBytes_add (a b value : Nat) :
    beBytes (a + b) value = beBytes a (value / 256 ^ b) ++ beBytes b value := by
  rw [beBytes, Nat.add_comm, leBytes_add, List.reverse_append, beBytes, beBytes]

theorem beBytes_mod (length value : Nat) :
    beBytes length (value % 256 ^ length) = beBytes length value := by
  rw [beBytes, leBytes_mod, beBytes]

theorem beNat_lt (bytes : List UInt8) : beNat bytes < 256 ^ bytes.length := by
  have h := leNat_lt bytes.reverse
  rwa [List.length_reverse] at h

theorem beNat_beBytes {length value : Nat} (h : value < 256 ^ length) :
    beNat (beBytes length value) = value := by
  rw [beNat, beBytes, List.reverse_reverse, leNat_leBytes h]

theorem beBytes_beNat (bytes : List UInt8) : beBytes bytes.length (beNat bytes) = bytes := by
  have h := leBytes_leNat bytes.reverse
  rw [List.length_reverse] at h
  rw [beBytes, beNat, h, List.reverse_reverse]

theorem beNat_cons (b : UInt8) (bytes : List UInt8) :
    beNat (b :: bytes) = b.toNat * 256 ^ bytes.length + beNat bytes := by
  rw [beNat, List.reverse_cons, leNat_append, leNat, leNat, List.length_reverse, Nat.mul_zero,
    Nat.add_zero, Nat.mul_comm, Nat.add_comm, ← beNat]

/-- Groups of seven bits, the least significant first; every byte but the last has the
top bit set. -/
def varBytes : Nat → Nat → List UInt8
  | 0, _ => []
  | rounds + 1, value =>
    if 0x80 ≤ value then UInt8.ofNat (value % 0x80 + 0x80) :: varBytes rounds (value / 0x80)
    else [UInt8.ofNat value]

namespace Decoder

variable {ε α : Type}

/-- The decoder accepts exactly the spellings of the values in `P`. -/
def Exact (x : Decoder ε α) (P : α → Prop) (spell : α → List UInt8) : Prop :=
  ∀ bytes a rest, x bytes = .ok (a, rest) ↔ P a ∧ bytes = spell a ++ rest

variable {x : Decoder ε α} {P : α → Prop} {spell : α → List UInt8}

theorem Exact.reads (h : Exact x P spell) {a : α} (ha : P a) (rest : List UInt8) :
    x (spell a ++ rest) = .ok (a, rest) := (h _ _ _).mpr ⟨ha, rfl⟩

theorem Exact.bind_ok {β : Type} (h : Exact x P spell) {f : α → Decoder ε β} {b : β}
    {bytes rest : List UInt8} : (x >>= f) bytes = .ok (b, rest) ↔
      ∃ a u, P a ∧ bytes = spell a ++ u ∧ f a u = .ok (b, rest) := by
  simp only [Decoder.bind_ok, h _ _ _, and_assoc]

theorem Exact.bind_reads {β : Type} (h : Exact x P spell) {a : α} (ha : P a)
    (f : α → Decoder ε β) (rest : List UInt8) : (x >>= f) (spell a ++ rest) = f a rest := by
  rw [bind_apply, h.reads ha, Fallible.ok_bind]

theorem lift_bind_ok {β : Type} {y : Except ε α} {f : α → Decoder ε β} {b : β}
    {bytes rest : List UInt8} : ((liftM y : Decoder ε α) >>= f) bytes = .ok (b, rest) ↔
      ∃ a, y = .ok a ∧ f a bytes = .ok (b, rest) := by
  simp only [Decoder.bind_ok, lift_ok]
  constructor
  · rintro ⟨a, _, ⟨ha, rfl⟩, h⟩
    exact ⟨a, ha, h⟩
  · rintro ⟨a, ha, h⟩
    exact ⟨a, bytes, ⟨ha, rfl⟩, h⟩

theorem lift_ok_bind {β : Type} (a : α) (f : α → Decoder ε β) :
    ((liftM (Except.ok a : Except ε α) : Decoder ε α) >>= f) = f a := rfl

theorem lift_bind_error {β : Type} {y : Except ε α} {f : α → Decoder ε β} {e : ε}
    {bytes : List UInt8} : ((liftM y : Decoder ε α) >>= f) bytes = .error e ↔
      y = .error e ∨ ∃ a, y = .ok a ∧ f a bytes = .error e := by
  cases y with
  | error e' =>
    constructor
    · exact fun h => .inl (congrArg Except.error (Except.error.inj h))
    · rintro (h | ⟨_, h, _⟩)
      · exact congrArg Except.error (Except.error.inj h)
      · cases h
  | ok a =>
    rw [lift_ok_bind]
    constructor
    · exact fun h => .inr ⟨a, rfl, h⟩
    · rintro (h | ⟨_, h, hf⟩)
      · cases h
      · rwa [Except.ok.inj h]

theorem throw_ok {e : ε} {a : α} {bytes rest : List UInt8} :
    ¬ (throw e : Decoder ε α) bytes = .ok (a, rest) := fun h => by cases h

/-! ### Bytes and fixed-width integers -/

/-- The next `length` bytes, or `short` when there are fewer. -/
def takeOr (short : ε) (length : Nat) : Decoder ε (List UInt8) := fun remaining =>
  if remaining.length < length then .error short
  else .ok (remaining.take length, remaining.drop length)

theorem takeOr_exact (short : ε) (length : Nat) :
    Exact (takeOr short length) (fun bytes => bytes.length = length) id := by
  intro bytes a rest
  unfold takeOr
  split
  · rename_i hshort
    simp only [reduceCtorEq, false_iff, not_and]
    rintro rfl rfl
    simp only [id, List.length_append] at hshort
    omega
  · rename_i hlong
    simp only [Except.ok.injEq, Prod.mk.injEq]
    constructor
    · rintro ⟨rfl, rfl⟩
      exact ⟨List.length_take_of_le (Nat.not_lt.mp hlong), (List.take_append_drop _ _).symm⟩
    · rintro ⟨rfl, rfl⟩
      exact ⟨List.take_left, List.drop_left⟩

def leOr (short : ε) (length : Nat) : Decoder ε Nat := leNat <$> takeOr short length

theorem leOr_exact (short : ε) (length : Nat) :
    Exact (leOr short length) (fun value => value < 256 ^ length) (leBytes length) := by
  intro bytes a rest
  rw [leOr, map_eq_pure_bind, bind_ok]
  simp only [takeOr_exact short length _ _ _, pure_ok]
  constructor
  · rintro ⟨taken, _, ⟨rfl, rfl⟩, rfl, rfl⟩
    exact ⟨leNat_lt taken, by rw [leBytes_leNat]; rfl⟩
  · rintro ⟨ha, rfl⟩
    exact ⟨_, _, ⟨leBytes_length length a, rfl⟩, leNat_leBytes ha, rfl⟩

/-! ### Repetition -/

/-- The decoder `count` times. -/
def times (x : Decoder ε α) : Nat → Decoder ε (List α)
  | 0 => return []
  | count + 1 => do
    let a ← x
    let values ← times x count
    return a :: values

/-- The step `count` times, a state threaded through. -/
def scan {σ : Type} (step : σ → Decoder ε (α × σ)) : Nat → σ → Decoder ε (List α × σ)
  | 0, s => return ([], s)
  | count + 1, s => do
    let (a, s) ← step s
    let (values, s) ← scan step count s
    return (a :: values, s)

/-- The step `count` times, keeping only the state. -/
def iterate {σ : Type} (step : σ → Decoder ε σ) : Nat → σ → Decoder ε σ
  | 0, s => return s
  | count + 1, s => do
    let s ← step s
    iterate step count s

/-- The values lead from one state to the other by steps in `P`. -/
inductive Threads {σ : Type} (P : σ → α → σ → Prop) : σ → List α → σ → Prop
  | nil (s : σ) : Threads P s [] s
  | cons {s s₁ s₂ : σ} {a : α} {values : List α} (head : P s a s₁)
      (tail : Threads P s₁ values s₂) : Threads P s (a :: values) s₂

theorem Threads.of_mem {σ : Type} {P : σ → α → σ → Prop} {s s' : σ} {values : List α}
    (h : Threads P s values s') {a : α} (ha : a ∈ values) : ∃ s₁ s₂, P s₁ a s₂ := by
  induction h with
  | nil => cases ha
  | cons head _ ih =>
    rcases List.mem_cons.mp ha with rfl | ha
    · exact ⟨_, _, head⟩
    · exact ih ha

/-- A loop over exact steps is exact for the spellings one after the other. -/
theorem scan_exact {σ : Type} {step : σ → Decoder ε (α × σ)} {P : σ → α → σ → Prop}
    (h : ∀ s, Exact (step s) (fun r => P s r.1 r.2) fun r => spell r.1) (count : Nat) (s : σ) :
    Exact (scan step count s) (fun r => r.1.length = count ∧ Threads P s r.1 r.2)
      fun r => r.1.flatMap spell := by
  induction count generalizing s with
  | zero =>
    intro bytes r rest
    obtain ⟨values, s'⟩ := r
    rw [scan, pure_ok, Prod.mk.injEq]
    constructor
    · rintro ⟨⟨rfl, rfl⟩, rfl⟩
      exact ⟨⟨rfl, .nil s⟩, rfl⟩
    · rintro ⟨⟨hlength, hthreads⟩, rfl⟩
      obtain rfl := List.length_eq_zero_iff.mp hlength
      cases hthreads
      exact ⟨⟨rfl, rfl⟩, rfl⟩
  | succ count ih =>
    intro bytes r rest
    obtain ⟨values, s'⟩ := r
    rw [scan, (h s).bind_ok]
    constructor
    · rintro ⟨⟨a, s₁⟩, u, hhead, rfl, hrest⟩
      obtain ⟨⟨tail, s₂⟩, v, ⟨hlength, htail⟩, rfl, hpure⟩ := (ih s₁).bind_ok.mp hrest
      obtain ⟨hvalues, rfl⟩ := pure_ok.mp hpure
      obtain ⟨rfl, rfl⟩ := Prod.mk.inj hvalues
      exact ⟨⟨congrArg (· + 1) hlength, .cons hhead htail⟩, by simp⟩
    · rintro ⟨⟨hlength, hthreads⟩, rfl⟩
      cases hthreads with
      | nil => cases hlength
      | @cons _ s₁ _ a tail head htail =>
        refine ⟨(a, s₁), tail.flatMap spell ++ rest, head, by simp, ?_⟩
        refine (ih s₁).bind_ok.mpr ⟨(tail, s'), rest, ⟨?_, htail⟩, rfl, rfl⟩
        exact Nat.succ.inj hlength

/-! ### Groups of seven bits -/

/-- The varint loop from byte `index` on, `rounds` bytes before it gives up: at most ten
bytes, no bit past the sixty-fourth, no redundant last group. -/
def varOr (byte : Decoder ε Nat) (tooLong tooBig redundant : ε) : Nat → Nat → Nat → Decoder ε Nat
  | 0, _, _ => throw tooLong
  | rounds + 1, index, value => do
    let byte' ← byte
    let payload := byte' &&& 0x7f
    if index = 9 ∧ byte' &&& 0xfe ≠ 0 then throw tooBig
    else
      let value := value ||| payload <<< (index * 7)
      if byte' &&& 0x80 = 0 then
        if index ≠ 0 ∧ payload = 0 then throw redundant else return value
      else varOr byte tooLong tooBig redundant rounds (index + 1) value

theorem and_low_group (b : Nat) : b &&& 0x7f = b % 0x80 := Nat.and_two_pow_sub_one_eq_mod b 7

theorem and_top_bit {b : Nat} (hb : b < 256) : b &&& 0x80 = 0 ↔ b < 0x80 := by
  have h := Nat.and_two_pow b 7
  rw [show (2 : Nat) ^ 7 = 0x80 by decide] at h
  rw [h, Nat.testBit_eq_decide_div_mod_eq]
  by_cases hlow : b < 0x80
  · simp [hlow, Nat.div_eq_of_lt hlow]
  · have hdiv : b / 0x80 = 1 := by omega
    simp [hlow, hdiv]

theorem and_high_bits {b : Nat} (hb : b < 256) : b &&& 0xfe = 0 ↔ b < 2 := by
  revert b
  decide +kernel

theorem or_group {value payload index : Nat} (h : value < 2 ^ (index * 7)) :
    value ||| payload <<< (index * 7) = value + payload * 2 ^ (index * 7) := by
  rw [Nat.or_comm, ← Nat.shiftLeft_add_eq_or_of_lt h, Nat.shiftLeft_eq, Nat.add_comm]

/-- What is left of a value at byte `index`: it fits the remaining bits, and is zero only
where nothing precedes it. -/
def GroupsFrom (index value : Nat) : Prop :=
  value < 2 ^ (64 - index * 7) ∧ (index ≠ 0 → value ≠ 0)

/-- One round over byte `b`, in arithmetic. -/
theorem varOr_succ {byte : Decoder ε Nat} (tooLong tooBig redundant : ε)
    (hbyte : Exact byte (fun b => b < 256) (leBytes 1)) (rounds : Nat) {index value b : Nat}
    (hb : b < 256) (hvalue : value < 2 ^ (index * 7)) (rest : List UInt8) :
    varOr byte tooLong tooBig redundant (rounds + 1) index value (leBytes 1 b ++ rest) =
      if index = 9 ∧ ¬ b < 2 then .error tooBig
      else if b < 0x80 then
        if index ≠ 0 ∧ b = 0 then .error redundant
        else .ok (value + b * 2 ^ (index * 7), rest)
      else varOr byte tooLong tooBig redundant rounds (index + 1)
        (value + b % 0x80 * 2 ^ (index * 7)) rest := by
  have hhigh : b &&& 0xfe ≠ 0 ↔ ¬ b < 2 := not_congr (and_high_bits hb)
  rw [varOr, bind_apply, hbyte.reads hb, Fallible.ok_bind]
  simp only [and_low_group, or_group hvalue, and_top_bit hb, hhigh]
  by_cases hbig : index = 9 ∧ ¬ b < 2
  · rw [if_pos hbig, if_pos hbig]
    rfl
  rw [if_neg hbig, if_neg hbig]
  by_cases hlow : b < 0x80
  · rw [if_pos hlow, if_pos hlow, Nat.mod_eq_of_lt hlow]
    split <;> rfl
  · rw [if_neg hlow, if_neg hlow]

theorem GroupsFrom.last {index b : Nat} (hindex : index < 10) (hb : b < 0x80)
    (hbig : ¬ (index = 9 ∧ ¬ b < 2)) (hne : ¬ (index ≠ 0 ∧ b = 0)) : GroupsFrom index b := by
  refine ⟨?_, fun hi hzero => hne ⟨hi, hzero⟩⟩
  by_cases h9 : index = 9
  · subst h9
    exact Decidable.not_not.mp fun h => hbig ⟨rfl, h⟩
  · have hpow : (2 : Nat) ^ 8 ≤ 2 ^ (64 - index * 7) := Nat.pow_le_pow_right (by omega) (by omega)
    omega

theorem GroupsFrom.step_iff {index low high : Nat} (hindex : index < 9) (hlow : low < 0x80) :
    GroupsFrom (index + 1) high ↔ high ≠ 0 ∧ GroupsFrom index (low + high * 0x80) := by
  have hsplit : 64 - index * 7 = 64 - (index + 1) * 7 + 7 := by omega
  have hpow : (2 : Nat) ^ (64 - index * 7) = 2 ^ (64 - (index + 1) * 7) * 0x80 := by
    rw [hsplit, Nat.pow_add]
  unfold GroupsFrom
  rw [hpow]
  omega

theorem varOr_exact_from {byte : Decoder ε Nat} (tooLong tooBig redundant : ε)
    (hbyte : Exact byte (fun b => b < 256) (leBytes 1)) (rounds : Nat) :
    ∀ {index value : Nat}, index + rounds = 10 → value < 2 ^ (index * 7) →
    ∀ bytes a rest, varOr byte tooLong tooBig redundant rounds index value bytes = .ok (a, rest) ↔
      ∃ high, GroupsFrom index high ∧ a = value + high * 2 ^ (index * 7) ∧
        bytes = varBytes rounds high ++ rest := by
  induction rounds with
  | zero =>
    intro index value hindex _ bytes a rest
    obtain rfl : index = 10 := by omega
    simp only [varOr, GroupsFrom]
    constructor
    · exact fun h => (by cases h)
    · rintro ⟨high, ⟨hlt, hne⟩, _⟩
      simp only [Nat.reduceMul, Nat.reduceSub, Nat.pow_zero] at hlt
      exact absurd (by omega) (hne (by omega))
  | succ rounds ih =>
    intro index value hindex hvalue bytes a rest
    have hnext : ∀ low, low < 0x80 → value + low * 2 ^ (index * 7) < 2 ^ ((index + 1) * 7) := by
      intro low hlow
      rw [Nat.add_mul, Nat.pow_add]
      have hmul : low * 2 ^ (index * 7) ≤ 0x7f * 2 ^ (index * 7) :=
        Nat.mul_le_mul_right _ (by omega)
      simp only [Nat.reduceMul, Nat.reducePow]
      omega
    have hweight : ∀ low high : Nat, value + low * 2 ^ (index * 7) + high * 2 ^ ((index + 1) * 7) =
        value + (low + high * 0x80) * 2 ^ (index * 7) := by
      intro low high
      have hpow : (2 : Nat) ^ ((index + 1) * 7) = 0x80 * 2 ^ (index * 7) := by
        rw [Nat.add_mul, Nat.pow_add, Nat.mul_comm]
      rw [hpow, Nat.add_mul, Nat.mul_assoc, Nat.add_assoc]
    constructor
    · intro h
      -- the byte that was read
      obtain ⟨b, u, hread, -⟩ := bind_ok.mp (by rw [varOr] at h; exact h)
      obtain ⟨hb, rfl⟩ := (hbyte _ _ _).mp hread
      rw [varOr_succ tooLong tooBig redundant hbyte rounds hb hvalue] at h
      split at h
      · cases h
      rename_i hbig
      split at h
      · rename_i hlow
        split at h
        · cases h
        rename_i hne
        simp only [Except.ok.injEq, Prod.mk.injEq] at h
        obtain ⟨rfl, rfl⟩ := h
        refine ⟨b, .last (by omega) hlow hbig hne, rfl, ?_⟩
        rw [varBytes, if_neg (Nat.not_le.mpr hlow), leBytes, leBytes, Nat.mod_eq_of_lt hb]
      · rename_i hhigh
        have hindex9 : index < 9 := by omega
        obtain ⟨high, hgroups, rfl, rfl⟩ :=
          (ih (by omega) (hnext _ (Nat.mod_lt b (by decide))) _ _ _).mp h
        have hstep := (GroupsFrom.step_iff hindex9 (Nat.mod_lt b (by decide))).mp hgroups
        refine ⟨_, hstep.2, hweight _ _, ?_⟩
        have hmod : (b % 0x80 + high * 0x80) % 0x80 + 0x80 = b := by omega
        have hdiv : (b % 0x80 + high * 0x80) / 0x80 = high := by omega
        rw [varBytes, if_pos (by omega), hmod, hdiv, leBytes, leBytes, Nat.mod_eq_of_lt hb]
        rfl
    · rintro ⟨high, hgroups, rfl, rfl⟩
      rw [varBytes]
      split
      · rename_i hlong
        have hindex9 : index < 9 := by
          by_contra h9
          obtain rfl : index = 9 := by omega
          have := hgroups.1
          simp only [Nat.reduceMul, Nat.reduceSub, Nat.pow_one] at this
          omega
        have hb : high % 0x80 + 0x80 < 256 := by omega
        have hspell : UInt8.ofNat (high % 0x80 + 0x80) :: varBytes rounds (high / 0x80) ++ rest =
            leBytes 1 (high % 0x80 + 0x80) ++ (varBytes rounds (high / 0x80) ++ rest) := by
          rw [leBytes, leBytes, Nat.mod_eq_of_lt hb]
          rfl
        have hlow : (high % 0x80 + 0x80) % 0x80 = high % 0x80 := by omega
        have hsplit : high % 0x80 + high / 0x80 * 0x80 = high := by omega
        rw [hspell, varOr_succ tooLong tooBig redundant hbyte rounds hb hvalue,
          if_neg (by omega), if_neg (by omega), hlow]
        refine (ih (by omega) (hnext _ (by omega)) _ _ _).mpr ⟨high / 0x80, ?_, ?_, rfl⟩
        · rw [GroupsFrom.step_iff hindex9 (show high % 0x80 < 0x80 by omega), hsplit]
          exact ⟨by omega, hgroups⟩
        · rw [hweight, hsplit]
      · rename_i hshort
        have hb : high < 256 := by omega
        have hspell : [UInt8.ofNat high] ++ rest = leBytes 1 high ++ rest := by
          rw [leBytes, leBytes, Nat.mod_eq_of_lt hb]
        have hbig : ¬ (index = 9 ∧ ¬ high < 2) := by
          rintro ⟨rfl, h⟩
          exact h hgroups.1
        have hne : ¬ (index ≠ 0 ∧ high = 0) := fun h => hgroups.2 h.1 h.2
        rw [hspell, varOr_succ tooLong tooBig redundant hbyte rounds hb hvalue, if_neg hbig,
          if_pos (Nat.not_le.mp hshort), if_neg hne]

/-- The varint of a 64-bit value has one accepted spelling. -/
theorem varOr_exact {byte : Decoder ε Nat} (tooLong tooBig redundant : ε)
    (hbyte : Exact byte (fun b => b < 256) (leBytes 1)) :
    Exact (varOr byte tooLong tooBig redundant 10 0 0) (fun value => value < 2 ^ 64)
      (varBytes 10) := by
  intro bytes a rest
  rw [varOr_exact_from tooLong tooBig redundant hbyte 10 rfl (by decide)]
  simp only [GroupsFrom, Nat.zero_mul, Nat.pow_zero, Nat.mul_one, Nat.zero_add, Nat.sub_zero]
  constructor
  · rintro ⟨high, ⟨hlt, _⟩, rfl, rfl⟩
    exact ⟨hlt, rfl⟩
  · rintro ⟨hlt, rfl⟩
    exact ⟨a, ⟨hlt, fun h => absurd rfl h⟩, rfl, rfl⟩

end Decoder
