import Curvy.Lib.Blake
import Mathlib.Data.Int.Init

/-!
# Incremental BLAKE-512

The hasher fills its block byte by byte and compresses it when it is full; padding goes through
`update` with the bit count lowered beforehand. A panic ends a call with `none`. What a full block
is handed to is a parameter of the calls.
-/

namespace Curvy

set_option autoImplicit false

namespace Blake512

/-! ## Tables -/

/-- `IV`. -/
def iv : Vector UInt64 8 :=
  ⟨#[0x6a09e667f3bcc908, 0xbb67ae8584caa73b, 0x3c6ef372fe94f82b, 0xa54ff53a5f1d36f1,
    0x510e527fade682d1, 0x9b05688c2b3e6c1f, 0x1f83d9abfb41bd6b, 0x5be0cd19137e2179], rfl⟩

/-- `C`. -/
def c : Vector UInt64 16 :=
  ⟨#[0x243f6a8885a308d3, 0x13198a2e03707344, 0xa4093822299f31d0, 0x082efa98ec4e6c89,
    0x452821e638d01377, 0xbe5466cf34e90c6c, 0xc0ac29b7c97c50dd, 0x3f84d5b5b5470917,
    0x9216d5d98979fb1b, 0xd1310ba698dfb5ac, 0x2ffd72dbd01adfb7, 0xb8e1afed6a267e96,
    0xba7c9045f12c7f99, 0x24a19947b3916cf7, 0x0801f2e2858efc16, 0x636920d871574e69], rfl⟩

/-- `SIGMA`. -/
def sigma : List (List Nat) :=
  [[0, 1, 2, 3, 4, 5, 6, 7, 8, 9, 10, 11, 12, 13, 14, 15],
    [14, 10, 4, 8, 9, 15, 13, 6, 1, 12, 0, 2, 11, 7, 5, 3],
    [11, 8, 12, 0, 5, 2, 15, 13, 10, 14, 3, 6, 7, 1, 9, 4],
    [7, 9, 3, 1, 13, 12, 11, 14, 2, 6, 5, 10, 4, 0, 15, 8],
    [9, 0, 5, 7, 2, 4, 10, 15, 14, 1, 11, 12, 6, 8, 3, 13],
    [2, 12, 6, 10, 0, 11, 8, 3, 4, 13, 7, 5, 15, 14, 1, 9],
    [12, 5, 1, 15, 14, 13, 4, 10, 0, 7, 6, 3, 9, 2, 8, 11],
    [13, 11, 7, 14, 12, 1, 3, 9, 5, 0, 15, 4, 8, 6, 2, 10],
    [6, 15, 14, 9, 11, 3, 0, 8, 12, 2, 13, 7, 1, 4, 10, 5],
    [10, 2, 8, 4, 7, 6, 1, 5, 15, 11, 9, 14, 3, 12, 13, 0],
    [0, 1, 2, 3, 4, 5, 6, 7, 8, 9, 10, 11, 12, 13, 14, 15],
    [14, 10, 4, 8, 9, 15, 13, 6, 1, 12, 0, 2, 11, 7, 5, 3],
    [11, 8, 12, 0, 5, 2, 15, 13, 10, 14, 3, 6, 7, 1, 9, 4],
    [7, 9, 3, 1, 13, 12, 11, 14, 2, 6, 5, 10, 4, 0, 15, 8],
    [9, 0, 5, 7, 2, 4, 10, 15, 14, 1, 11, 12, 6, 8, 3, 13],
    [2, 12, 6, 10, 0, 11, 8, 3, 4, 13, 7, 5, 15, 14, 1, 9]]

def blockBytes : Nat := 128

/-- `PADDING`. -/
def padding : List UInt8 := 0x80 :: List.replicate 127 0

/-! ## Compression -/

def rotateRight (x : UInt64) (n : Nat) : UInt64 := ⟨x.toBitVec.rotateRight n⟩

/-- An index of sixteen words; every index of the code is one. -/
def word (n : Nat) : Fin 16 := ⟨n % 16, by omega⟩

def g (m : Vector UInt64 16) (round a b c d e : Nat) (v : Vector UInt64 16) : Vector UInt64 16 :=
  let se := word ((sigma.getD round []).getD e 0)
  let se1 := word ((sigma.getD round []).getD (e + 1) 0)
  let a := word a
  let b := word b
  let c := word c
  let d := word d
  let v := v.set a (v.get a + v.get b + (m.get se ^^^ Blake512.c.get se1))
  let v := v.set d (rotateRight (v.get d ^^^ v.get a) 32)
  let v := v.set c (v.get c + v.get d)
  let v := v.set b (rotateRight (v.get b ^^^ v.get c) 25)
  let v := v.set a (v.get a + v.get b + (m.get se1 ^^^ Blake512.c.get se))
  let v := v.set d (rotateRight (v.get d ^^^ v.get a) 16)
  let v := v.set c (v.get c + v.get d)
  v.set b (rotateRight (v.get b ^^^ v.get c) 11)

/-- One round of `compress`. -/
def round (m v : Vector UInt64 16) (round : Nat) : Vector UInt64 16 :=
  let v := g m round 0 4 8 12 0 v
  let v := g m round 1 5 9 13 2 v
  let v := g m round 2 6 10 14 4 v
  let v := g m round 3 7 11 15 6 v
  let v := g m round 0 5 10 15 8 v
  let v := g m round 1 6 11 12 10 v
  let v := g m round 2 7 8 13 12 v
  g m round 3 4 9 14 14 v

/-- From a limb that reaches `2 ^ 32` on, one is carried to the next, up to the last. -/
def carry (limb : Int) : List Int → List Int
  | [] => [limb]
  | next :: rest =>
    if limb < 0x100000000 then limb :: next :: rest
    else (limb - 0x100000000) :: carry (next + 1) rest

def lengthCarry : List Int → List Int
  | [] => []
  | limb :: rest => carry limb rest

end Blake512

structure Blake512 where
  h : Vector UInt64 8
  block : Vector UInt8 128
  blockOffset : Nat
  /-- Four limbs, which may be negative. -/
  length : List Int
  nullt : Bool

namespace Blake512

def new : Blake512 where
  h := iv
  block := Vector.replicate 128 0
  blockOffset := 0
  length := [0, 0, 0, 0]
  nullt := false

/-- `self.length[i] as u64`. -/
def limb (s : Blake512) (i : Nat) : UInt64 := UInt64.ofInt (s.length.getD i 0)

def t0 (s : Blake512) : UInt64 := (s.limb 1 <<< 32) ||| (s.limb 0 &&& 0xffffffff)

def t1 (s : Blake512) : UInt64 := (s.limb 3 <<< 32) ||| (s.limb 2 &&& 0xffffffff)

/-- The words of the block. -/
def m (s : Blake512) : Vector UInt64 16 :=
  Vector.ofFn fun i => UInt64.ofNat (beNat ((s.block.toList.drop (i * 8)).take 8))

def compress (s : Blake512) : Blake512 :=
  let v := Vector.ofFn fun i : Fin 16 =>
    if hi : i.val < 8 then s.h.get ⟨i, hi⟩ else c.get (word (i - 8))
  let v := if s.nullt then v else
    let v := v.set 12 (v.get (word 12) ^^^ s.t0)
    let v := v.set 13 (v.get (word 13) ^^^ s.t0)
    let v := v.set 14 (v.get (word 14) ^^^ s.t1)
    v.set 15 (v.get (word 15) ^^^ s.t1)
  let v := (List.range 16).foldl (round s.m) v
  { s with
    h := Vector.ofFn fun i => s.h.get i ^^^ (v.get ⟨i, by omega⟩ ^^^ v.get ⟨i + 8, by omega⟩) }

/-- `self.block[self.block_offset] = byte` and the step of the offset. -/
def store (s : Blake512) (byte : UInt8) : Option Blake512 :=
  if h : s.blockOffset < 128 then
    some { s with block := s.block.set s.blockOffset byte, blockOffset := s.blockOffset + 1 }
  else none

/-- `self.length[0] += bits`. -/
def addLength (s : Blake512) (bits : Int) : Blake512 :=
  { s with length := s.length.modifyHead (· + bits) }

/-- The loop that fills the block, with the bytes still to read. -/
def fill : List UInt8 → Blake512 → Option (Blake512 × List UInt8)
  | [], s => if s.blockOffset < blockBytes then none else some (s, [])
  | byte :: rest, s =>
    if s.blockOffset < blockBytes then (s.store byte).bind (fill rest)
    else some (s, byte :: rest)

section Calls

variable (compress : Blake512 → Option Blake512)

/-- `self.length[0] += 1024`, the carry, the compression and the new block. -/
def close (s : Blake512) : Option Blake512 :=
  let s := s.addLength (blockBytes * 8)
  (compress { s with length := lengthCarry s.length }).map fun s => { s with blockOffset := 0 }

/-- The loop of `update`, with the bytes still to read. -/
def updateLoop : Nat → List UInt8 → Blake512 → Option Blake512
  | 0, _, _ => none
  | fuel + 1, data, s =>
    if blockBytes ≤ s.blockOffset + data.length then do
      let filled ← fill data s
      let s ← close compress filled.1
      updateLoop fuel filled.2 s
    else data.foldlM store s

def update (data : List UInt8) (s : Blake512) : Option Blake512 :=
  updateLoop compress (data.length + 1) data s

/-- `PADDING[start..end]`. -/
def paddingSlice (start stop : Nat) : Option (List UInt8) :=
  if start ≤ stop ∧ stop ≤ padding.length then some ((padding.take stop).drop start) else none

/-- A difference of offsets. -/
def minus (a b : Nat) : Option Nat := if b ≤ a then some (a - b) else none

/-- The sixteen bytes of the message length. -/
def msglen (s : Blake512) : List UInt8 :=
  let len := lengthCarry (s.addLength (s.blockOffset * 8)).length
  (List.range 4).flatMap fun i => beBytes 4 (len.getD (3 - i) 0 % 0x100000000).toNat

/-- The padding of an offset below `111`. -/
def padBelow (s : Blake512) : Option Blake512 := do
  let gap ← minus 111 s.blockOffset
  let bytes ← paddingSlice 0 gap
  let s := if s.blockOffset = 0 then { s with nullt := true } else s
  update compress bytes (s.addLength (-(gap * 8)))

/-- The padding of an offset above `111`: the rest of the block and most of another. -/
def padAbove (s : Blake512) : Option Blake512 := do
  let gap ← minus 128 s.blockOffset
  let bytes ← paddingSlice 0 gap
  let s ← update compress bytes (s.addLength (-(gap * 8)))
  let bytes ← paddingSlice 1 (1 + 111)
  let s ← update compress bytes (s.addLength (-(111 * 8)))
  some { s with nullt := true }

/-- The padding bits up to the length. -/
def padMarker (s : Blake512) : Option Blake512 :=
  if s.blockOffset = 111 then update compress [0x81] (s.addLength (-8))
  else do
    let s ← (if s.blockOffset < 111 then padBelow compress s else padAbove compress s)
    let s ← update compress [0x01] s
    some (s.addLength (-8))

/-- The method `padding`. -/
def pad (s : Blake512) : Option Blake512 := do
  let padded ← padMarker compress s
  update compress s.msglen (padded.addLength (-128))

def digest (s : Blake512) : Option (List UInt8) :=
  (pad compress s).map fun s => s.h.toList.flatMap fun w => beBytes 8 w.toNat

/-- `update` on one piece after another, then `digest`. -/
def hashPieces (pieces : List (List UInt8)) : Option (List UInt8) :=
  (pieces.foldlM (fun s data => update compress data s) new).bind (digest compress)

end Calls

/-- The compression of the code. -/
def compressed (s : Blake512) : Option Blake512 := some s.compress

/-- The compression, stopped by a limb that is not a word of 32 bits. -/
def compressedChecked (s : Blake512) : Option Blake512 :=
  if s.length.all fun limb => 0 ≤ limb && limb < 0x100000000 then some s.compress else none

def blake512 (data : List UInt8) : Option (List UInt8) :=
  (update compressed data new).bind (digest compressed)

end Blake512

end Curvy
