import Curvy.Lib.Chunks
import Curvy.Lib.Codec
import Mathlib.Tactic.Ring

/-!
# BLAKE-512

The hash function over strings of bits: the compression of a block under a salt and a counter,
the padding, and the counter of each block. Bits stand with the most significant first.
-/

set_option autoImplicit false

namespace Blake

/-! ## Words -/

/-- The lowest `width` bits of `value`. -/
def bits : Nat → Nat → List Bool
  | 0, _ => []
  | width + 1, value => value.testBit width :: bits width value

def value : List Bool → Nat
  | [] => 0
  | digit :: rest => digit.toNat * 2 ^ rest.length + value rest

def rotateRight (x : UInt64) (n : Nat) : UInt64 := ⟨x.toBitVec.rotateRight n⟩

/-! ## Constants -/

/-- The fractional parts of the square roots of the first eight primes. -/
def squareRoots : Array UInt64 :=
  #[0x6a09e667f3bcc908, 0xbb67ae8584caa73b, 0x3c6ef372fe94f82b, 0xa54ff53a5f1d36f1,
    0x510e527fade682d1, 0x9b05688c2b3e6c1f, 0x1f83d9abfb41bd6b, 0x5be0cd19137e2179]

theorem squareRoots_size : squareRoots.size = 8 := rfl

def iv : Vector UInt64 8 := ⟨squareRoots, squareRoots_size⟩

/-- The first digits of the fractional part of pi. -/
def piDigits : Array UInt64 :=
  #[0x243f6a8885a308d3, 0x13198a2e03707344, 0xa4093822299f31d0, 0x082efa98ec4e6c89,
    0x452821e638d01377, 0xbe5466cf34e90c6c, 0xc0ac29b7c97c50dd, 0x3f84d5b5b5470917,
    0x9216d5d98979fb1b, 0xd1310ba698dfb5ac, 0x2ffd72dbd01adfb7, 0xb8e1afed6a267e96,
    0xba7c9045f12c7f99, 0x24a19947b3916cf7, 0x0801f2e2858efc16, 0x636920d871574e69]

theorem piDigits_size : piDigits.size = 16 := rfl

def constants : Vector UInt64 16 := ⟨piDigits, piDigits_size⟩

/-- The ten permutations of the words of a block. -/
def sigma : List (List Nat) :=
  [[0, 1, 2, 3, 4, 5, 6, 7, 8, 9, 10, 11, 12, 13, 14, 15],
    [14, 10, 4, 8, 9, 15, 13, 6, 1, 12, 0, 2, 11, 7, 5, 3],
    [11, 8, 12, 0, 5, 2, 15, 13, 10, 14, 3, 6, 7, 1, 9, 4],
    [7, 9, 3, 1, 13, 12, 11, 14, 2, 6, 5, 10, 4, 0, 15, 8],
    [9, 0, 5, 7, 2, 4, 10, 15, 14, 1, 11, 12, 6, 8, 3, 13],
    [2, 12, 6, 10, 0, 11, 8, 3, 4, 13, 7, 5, 15, 14, 1, 9],
    [12, 5, 1, 15, 14, 13, 4, 10, 0, 7, 6, 3, 9, 2, 8, 11],
    [13, 11, 7, 14, 12, 1, 3, 9, 5, 0, 15, 4, 8, 6, 2, 10],
    [6, 15, 14, 9, 11, 3, 0, 8, 12, 2, 13, 7, 1, 4, 10, 5],
    [10, 2, 8, 4, 7, 6, 1, 5, 15, 11, 9, 14, 3, 12, 13, 0]]

theorem slot_lt (n : Nat) : n % 16 < 16 := by omega

/-- A position among sixteen words. -/
def slot (n : Nat) : Fin 16 := ⟨n % 16, slot_lt n⟩

/-! The salt has four words, and the two halves of the state eight each. -/

theorem salt_lt (i : Fin 8) : i.val % 4 < 4 := by omega

theorem low_lt (i : Fin 8) : i.val < 16 := by omega

theorem high_lt (i : Fin 8) : i.val + 8 < 16 := by omega

def permutation (round k : Nat) : Fin 16 := slot ((sigma.getD (round % 10) []).getD k 0)

/-! ## Compression -/

/-- Four words of the state. -/
structure Quarter where
  a : UInt64
  b : UInt64
  c : UInt64
  d : UInt64

/-- One half of the mixing of four words, with the two distances of rotation. -/
def Quarter.half (q : Quarter) (x : UInt64) (r s : Nat) : Quarter :=
  let a := q.a + q.b + x
  let d := rotateRight (q.d ^^^ a) r
  let c := q.c + d
  let b := rotateRight (q.b ^^^ c) s
  ⟨a, b, c, d⟩

abbrev State := Vector UInt64 16

/-- `G i` in a round, on the words at `a`, `b`, `c` and `d`. -/
def mix (m : Vector UInt64 16) (round i a b c d : Nat) (v : State) : State :=
  let first := permutation round (2 * i)
  let second := permutation round (2 * i + 1)
  let q : Quarter := ⟨v.get (slot a), v.get (slot b), v.get (slot c), v.get (slot d)⟩
  let q := q.half (m.get first ^^^ constants.get second) 32 25
  let q := q.half (m.get second ^^^ constants.get first) 16 11
  (((v.set (slot a) q.a).set (slot b) q.b).set (slot c) q.c).set (slot d) q.d

def round (m : Vector UInt64 16) (v : State) (r : Nat) : State :=
  let v := mix m r 0 0 4 8 12 v
  let v := mix m r 1 1 5 9 13 v
  let v := mix m r 2 2 6 10 14 v
  let v := mix m r 3 3 7 11 15 v
  let v := mix m r 4 0 5 10 15 v
  let v := mix m r 5 1 6 11 12 v
  let v := mix m r 6 2 7 8 13 v
  mix m r 7 3 4 9 14 v

/-- The state at the start: chaining value, salt and counter. -/
def start (h : Vector UInt64 8) (salt : Vector UInt64 4) (counter : Nat) : State :=
  let t₀ := UInt64.ofNat counter
  let t₁ := UInt64.ofNat (counter / 2 ^ 64)
  let mask := salt.toList ++ [t₀, t₀, t₁, t₁]
  Vector.ofFn fun i =>
    if hi : i.val < 8 then h.get ⟨i, hi⟩
    else mask.getD (i - 8) 0 ^^^ constants.get (slot (i - 8))

def compress (salt : Vector UInt64 4) (h : Vector UInt64 8) (m : Vector UInt64 16)
    (counter : Nat) : Vector UInt64 8 :=
  let v := (List.range 16).foldl (round m) (start h salt counter)
  Vector.ofFn fun i =>
    h.get i ^^^ salt.get ⟨i % 4, salt_lt i⟩ ^^^ v.get ⟨i, low_lt i⟩ ^^^ v.get ⟨i + 8, high_lt i⟩

/-! ## Padding and iteration -/

/-- The fewest zeros that bring the message and a one bit to `895` bits modulo `1024`. -/
def zeros (length : Nat) : Nat := (1918 - length % 1024) % 1024

def pad (message : List Bool) : List Bool :=
  message ++ true :: List.replicate (zeros message.length) false ++
    true :: bits 128 message.length

/-- The message bits up to the end of a block, or zero for a block without any. -/
def counter (length i : Nat) : Nat :=
  if 1024 * i < length then min length (1024 * (i + 1)) else 0

/-- The sixteen words of a block. -/
def words (block : List Bool) : Vector UInt64 16 :=
  Vector.ofFn fun i => UInt64.ofNat (value ((block.drop (64 * i)).take 64))

def hashBits (salt : Vector UInt64 4) (message : List Bool) : Vector UInt64 8 :=
  (List.chunks 1024 (pad message)).zipIdx.foldl
    (fun h block => compress salt h (words block.1) (counter message.length block.2)) iv

def byteBits (bytes : List UInt8) : List Bool := bytes.flatMap fun b => bits 8 b.toNat

/-- BLAKE-512 of a string of bytes, without salt. -/
def hash (message : List UInt8) : List UInt8 :=
  (hashBits (Vector.replicate 4 0) (byteBits message)).toList.flatMap fun w => beBytes 8 w.toNat

/-! ## Bytes -/

theorem bits_length (width value : Nat) : (bits width value).length = width := by
  induction width with
  | zero => rfl
  | succ width ih => rw [bits, List.length_cons, ih]

theorem bits_add (a b n : Nat) : bits (a + b) n = bits a (n / 2 ^ b) ++ bits b n := by
  induction a with
  | zero => rw [Nat.zero_add, bits, List.nil_append]
  | succ a ih =>
    rw [Nat.succ_add, bits, bits, ih, List.cons_append, Nat.testBit_div_two_pow]

theorem bits_mod (width n : Nat) {k : Nat} (hk : width ≤ k) :
    bits width (n % 2 ^ k) = bits width n := by
  induction width with
  | zero => rfl
  | succ width ih =>
    rw [bits, bits, ih (by omega), Nat.testBit_mod_two_pow, decide_eq_true (by omega : width < k),
      Bool.true_and]

theorem value_append (x y : List Bool) : value (x ++ y) = value x * 2 ^ y.length + value y := by
  induction x with
  | nil => rw [List.nil_append, value, Nat.zero_mul, Nat.zero_add]
  | cons b x ih =>
    rw [List.cons_append, value, value, ih, List.length_append, Nat.pow_add]
    ring

theorem value_bits (width n : Nat) : value (bits width n) = n % 2 ^ width := by
  induction width with
  | zero => rw [bits, value, Nat.pow_zero, Nat.mod_one]
  | succ width ih =>
    rw [bits, value, ih, bits_length, Nat.toNat_testBit, Nat.mod_pow_succ]
    ring

theorem byteBits_append (x y : List UInt8) : byteBits (x ++ y) = byteBits x ++ byteBits y :=
  List.flatMap_append

theorem byteBits_flatten (blocks : List (List UInt8)) :
    byteBits blocks.flatten = (blocks.map byteBits).flatten := by
  induction blocks with
  | nil => rfl
  | cons block blocks ih =>
    rw [List.flatten_cons, byteBits_append, ih, List.map_cons, List.flatten_cons]

theorem byteBits_length (bytes : List UInt8) : (byteBits bytes).length = 8 * bytes.length := by
  induction bytes with
  | nil => rfl
  | cons b bytes ih =>
    rw [byteBits, List.flatMap_cons, List.length_append, bits_length, ← byteBits, ih,
      List.length_cons]
    omega

theorem value_byteBits (bytes : List UInt8) : value (byteBits bytes) = beNat bytes := by
  induction bytes with
  | nil => rfl
  | cons b bytes ih =>
    have hb : b.toNat % 2 ^ 8 = b.toNat := Nat.mod_eq_of_lt b.toNat_lt
    have hpow : 2 ^ (8 * bytes.length) = 256 ^ bytes.length := by rw [Nat.pow_mul]
    rw [byteBits, List.flatMap_cons, value_append, value_bits, ← byteBits, ih, byteBits_length, hb,
      hpow, beNat_cons]

theorem byteBits_beBytes (length n : Nat) : byteBits (beBytes length n) = bits (8 * length) n := by
  induction length generalizing n with
  | zero => rfl
  | succ length ih =>
    have hlast : beBytes (length + 1) n = beBytes length (n / 256) ++ [UInt8.ofNat (n % 256)] := by
      rw [beBytes, leBytes, List.reverse_cons, beBytes]
    have hbyte : (UInt8.ofNat (n % 256)).toNat = n % 2 ^ 8 := by
      rw [UInt8.toNat_ofNat']
      omega
    rw [hlast, byteBits_append, ih, Nat.mul_succ, bits_add]
    congr 1
    rw [byteBits, List.flatMap_singleton, hbyte, bits_mod _ _ (Nat.le_refl 8)]

theorem byteBits_drop (k : Nat) (bytes : List UInt8) :
    (byteBits bytes).drop (8 * k) = byteBits (bytes.drop k) := by
  induction k generalizing bytes with
  | zero => rw [Nat.mul_zero, List.drop_zero, List.drop_zero]
  | succ k ih =>
    cases bytes with
    | nil => simp [byteBits]
    | cons b bytes =>
      rw [List.drop_succ_cons, ← ih, byteBits, List.flatMap_cons, ← byteBits, Nat.mul_succ,
        Nat.add_comm, ← List.drop_drop, List.drop_left' (bits_length _ _)]

theorem byteBits_take (k : Nat) (bytes : List UInt8) :
    (byteBits bytes).take (8 * k) = byteBits (bytes.take k) := by
  induction k generalizing bytes with
  | zero => rw [Nat.mul_zero, List.take_zero, List.take_zero, byteBits, List.flatMap_nil]
  | succ k ih =>
    cases bytes with
    | nil => simp [byteBits]
    | cons b bytes =>
      rw [List.take_succ_cons, byteBits, List.flatMap_cons, byteBits, List.flatMap_cons, ← byteBits,
        ← byteBits, ← ih, Nat.mul_succ, Nat.add_comm, List.take_add,
        List.take_left' (bits_length _ _), List.drop_left' (bits_length _ _)]

/-- The words of a block of bytes. -/
theorem words_byteBits (bytes : List UInt8) : words (byteBits bytes) =
    Vector.ofFn fun i => UInt64.ofNat (beNat ((bytes.drop (i * 8)).take 8)) := by
  unfold words
  congr 1
  funext i
  have hoffset : 64 * i.val = 8 * (i.val * 8) := by omega
  rw [hoffset, byteBits_drop, show 64 = 8 * 8 by rfl, byteBits_take, value_byteBits]

/-- The padding of a string of bytes up to the length. -/
def marker (length : Nat) : List UInt8 :=
  let gap := (239 - length % 128) % 128
  if gap = 0 then [0x81] else 0x80 :: (List.replicate (gap - 1) 0 ++ [0x01])

theorem byteBits_zeros (n : Nat) :
    byteBits (List.replicate n 0) = List.replicate (8 * n) false := by
  induction n with
  | zero => rfl
  | succ n ih =>
    rw [List.replicate_succ, byteBits, List.flatMap_cons, ← byteBits, ih, Nat.mul_succ,
      Nat.add_comm, List.replicate_add]
    rfl

theorem byteBits_marker (length : Nat) : byteBits (marker length) =
    true :: List.replicate (zeros (8 * length)) false ++ [true] := by
  unfold marker
  dsimp only
  split
  · have hzeros : zeros (8 * length) = 6 := by
      unfold zeros
      omega
    rw [hzeros]
    rfl
  · have hzeros : zeros (8 * length) = 7 + (8 * ((239 - length % 128) % 128 - 1) + 7) := by
      unfold zeros
      omega
    rw [byteBits, List.flatMap_cons, ← byteBits, byteBits_append, byteBits_zeros, hzeros,
      List.replicate_add, List.replicate_add]
    generalize 8 * ((239 - length % 128) % 128 - 1) = middle
    have hfirst : bits 8 (UInt8.toNat 0x80) = true :: List.replicate 7 false := rfl
    have hlast : byteBits [0x01] = List.replicate 7 false ++ [true] := rfl
    rw [hfirst, hlast]
    simp only [List.cons_append, List.append_assoc]

theorem pad_byteBits (message : List UInt8) : pad (byteBits message) =
    byteBits (message ++ marker message.length ++ beBytes 16 (8 * message.length)) := by
  unfold pad
  rw [byteBits_append, byteBits_append, byteBits_marker, byteBits_beBytes, byteBits_length]
  simp only [List.cons_append, List.append_assoc, List.nil_append]

end Blake
