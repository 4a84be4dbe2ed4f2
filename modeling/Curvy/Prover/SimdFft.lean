import Mathlib.Algebra.Field.Basic
import Mathlib.Algebra.Ring.Prod
import Mathlib.Algebra.Group.Nat.Defs

/-!
# The fused transform on four lanes

An inverse transform, a scaling and a transform in one depth-first walk over vectors of four lanes.
Lanes hold field elements and a table reads as zero behind its end; the transform on limbs, where
such a read panics, is `SlicedFft`.
-/

namespace Curvy.Prover.SimdFft

set_option autoImplicit false

variable {F : Type}

/-! ## Lanes -/

/-- Four lanes. -/
abbrev V (F : Type) := F × F × F × F

def splat (c : F) : V F := (c, c, c, c)

def lanes4 (a b c d : F) : V F := (a, b, c, d)

def lanes2 (a b : F) : V F := (a, b, a, b)

def lane (v : V F) : ℕ → F
  | 0 => v.1
  | 1 => v.2.1
  | 2 => v.2.2.1
  | _ => v.2.2.2

/-- Lanes 0 to 3 are those of the first vector, 4 to 7 those of the second. -/
def pick (a b : V F) (i : ℕ) : F := if i < 4 then lane a i else lane b (i - 4)

/-- `i32x4_shuffle`. -/
def shuffle (i j k l : ℕ) (a b : V F) : V F := (pick a b i, pick a b j, pick a b k, pick a b l)

section Lanes

variable [CommRing F]

/-- The butterfly of a decimation in frequency. -/
def dif (w : Option F) (x y : V F) : V F × V F :=
  (x + y, match w with
    | some w => (x - y) * splat w
    | none => x - y)

/-- The butterfly of a decimation in time. -/
def dit (w : Option F) (x y : V F) : V F × V F :=
  let t := match w with
    | some w => y * splat w
    | none => y
  (x + t, x - t)

/-- The two stages inside a vector, on the way in. -/
def difLanes (v : V F) (tw : List F) (k q : ℕ) : V F :=
  let lo := shuffle 0 1 0 1 v v
  let hi := shuffle 2 3 2 3 v v
  let s := lo + hi
  let d := (lo - hi) * lanes2 (tw.getD k 0) (tw.getD (k + q) 0)
  let v := shuffle 0 1 6 7 s d
  let lo := shuffle 0 0 2 2 v v
  let hi := shuffle 1 1 3 3 v v
  let s := lo + hi
  let d := (lo - hi) * splat (tw.getD (2 * k) 0)
  shuffle 0 5 2 7 s d

/-- And on the way out. -/
def ditLanes (v : V F) (tw : List F) (k q : ℕ) : V F :=
  let lo := shuffle 0 0 2 2 v v
  let hi := shuffle 1 1 3 3 v v
  let t := hi * splat (tw.getD (2 * k) 0)
  let v := shuffle 0 5 2 7 (lo + t) (lo - t)
  let lo := shuffle 0 1 0 1 v v
  let hi := shuffle 2 3 2 3 v v
  let t := hi * lanes2 (tw.getD k 0) (tw.getD (k + q) 0)
  shuffle 0 1 6 7 (lo + t) (lo - t)

end Lanes

/-! ## Tables -/

/-- The target is a 32-bit one. -/
def usizeBits : ℕ := 32

def isPowerOfTwo (n : ℕ) : Bool := decide (n = 2 ^ n.log2)

def trailingZeros (n : ℕ) : ℕ := (List.range usizeBits).findIdx n.testBit

/-- `rev`: the low `bits` bits of `k` in reverse order. -/
def rev (k bits : ℕ) : ℕ :=
  if bits = 0 then 0
  else ((BitVec.ofNat usizeBits k).reverse >>> (usizeBits - bits)).toNat

def twiddleChunk : ℕ := 4096

section Tables

variable [Field F]

/-- `count` numbers from `cur` on, each `w` times the one before. -/
def fill (w cur : F) : ℕ → List F
  | 0 => []
  | count + 1 => cur :: fill w (cur * w) count

/-- `Plan::new`: the powers below `n / 2`, in chunks with a power of their own at the start. -/
def plan (n : ℕ) (omega : F) : List F :=
  (List.range ((n / 2 + twiddleChunk - 1) / twiddleChunk)).flatMap fun c =>
    fill omega (omega ^ (c * twiddleChunk)) (min twiddleChunk (n / 2 - c * twiddleChunk))

structure Step (F : Type) where
  n : ℕ
  leaf : ℕ
  inv : List F
  fwd : List F
  scaleLeaf : List (V F)
  scaleBlock : List F
  two_le : 2 ≤ leaf

theorem two_le_clamped {n leaf : ℕ} (hn : 8 ≤ n) (hleaf : 2 ≤ leaf) : 2 ≤ min leaf (n / 4) := by
  omega

/-- The scaling inside a leaf block, for the four lanes of each vector. -/
def leafScales (g sizeInv : F) (leaf blocks : ℕ) : List (V F) :=
  let inLeaf := fill (g ^ (4 * blocks)) 1 leaf
  (List.range leaf).map fun r =>
    let s := sizeInv * inLeaf.getD (rev r (trailingZeros leaf)) 0
    lanes4 (s * 1) (s * g ^ 2) (s * g) (s * (g ^ 2 * g))

/-- The scaling of each leaf block. -/
def blockScales (g : F) (blocks : ℕ) : List F :=
  let perBlock := fill (g ^ 4) 1 blocks
  (List.range blocks).map fun b => perBlock.getD (rev b (trailingZeros blocks)) 0

/-- `Step::with_leaf`. -/
def withLeaf (n : ℕ) (omega omegaInv g sizeInv : F) (leaf : ℕ) : Option (Step F) :=
  if hn : isPowerOfTwo n = true ∧ 8 ≤ n then
    if hleaf : isPowerOfTwo leaf = true ∧ 2 ≤ leaf then
      let q := n / 4
      some
        { n := n
          leaf := min leaf q
          inv := plan n omegaInv
          fwd := plan n omega
          scaleLeaf := leafScales g sizeInv (min leaf q) (q / min leaf q)
          scaleBlock := blockScales g (q / min leaf q)
          two_le := two_le_clamped hn.2 hleaf.2 }
    else none
  else none

end Tables

/-! ## Passes -/

/-- `f` with the index of each pair, from `j` on. -/
def butterflies {α : Type} (f : ℕ → α → α → α × α) : ℕ → List α → List α → List α × List α
  | j, a :: as, b :: bs =>
    let (a, b) := f j a b
    let (as, bs) := butterflies f (j + 1) as bs
    (a :: as, b :: bs)
  | _, as, bs => (as, bs)

/-- Chunk after chunk, as the pool is handed them. -/
def inChunks {α : Type} (size : ℕ) (f : ℕ → α → α → α × α) (j : ℕ) (as bs : List α) :
    List α × List α :=
  if _ : size = 0 ∨ as.length ≤ size then butterflies f j as bs
  else
    let (a, b) := butterflies f j (as.take size) (bs.take size)
    let (as, bs) := inChunks size f (j + size) (as.drop size) (bs.drop size)
    (a ++ as, b ++ bs)
termination_by as.length
decreasing_by
  rw [List.length_drop]
  omega

/-- `pass`: with `parallel` it is split, without it is not. -/
def pass {α : Type} (parallel : Option ℕ) (f : ℕ → α → α → α × α) (as bs : List α) :
    List α × List α :=
  match parallel with
  | some chunk => inChunks chunk f 0 as bs
  | none => butterflies f 0 as bs

/-- `chunks_exact_mut`: what is left over stays. -/
def mapBlocks {α : Type} (size : ℕ) (f : List α → List α) (xs : List α) : List α :=
  if _ : size = 0 ∨ xs.length < size then xs
  else f (xs.take size) ++ mapBlocks size f (xs.drop size)
termination_by xs.length
decreasing_by
  rw [List.length_drop]
  omega

/-- Element for element; what the shorter list does not reach stays. -/
def zipMut {α β : Type} (f : α → β → α) : List α → List β → List α
  | a :: as, b :: bs => f a b :: zipMut f as bs
  | as, _ => as

/-- `f` with the position of each chunk. -/
def mapChunks {α β : Type} (size : ℕ) (f : ℕ → List α → List β) (k : ℕ) (xs : List α) : List β :=
  if _ : size = 0 ∨ xs.length ≤ size then f k xs
  else f k (xs.take size) ++ mapChunks size f (k + size) (xs.drop size)
termination_by xs.length
decreasing_by
  rw [List.length_drop]
  omega

section Walk

variable [Field F]

def twiddle (tw : List F) (stride j : ℕ) : Option F :=
  if j ≠ 0 then some (tw.getD (j * stride) 0) else none

/-- One stage of decimation in frequency inside a leaf block. -/
def difStage (step : Step F) (m : ℕ) : List (V F) → List (V F) :=
  mapBlocks (2 * m) fun block =>
    let (a, b) := butterflies (fun j => dif (twiddle step.inv (step.n / (2 * m)) j)) 0
      (block.take m) (block.drop m)
    a ++ b

def ditStage (step : Step F) (m : ℕ) : List (V F) → List (V F) :=
  mapBlocks (2 * m) fun block =>
    let (a, b) := butterflies (fun j => dit (twiddle step.fwd (step.n / (2 * m)) j)) 0
      (block.take m) (block.drop m)
    a ++ b

/-- `while m >= 1 { ..; m /= 2 }` -/
def difStages (step : Step F) (m : ℕ) (buf : List (V F)) : List (V F) :=
  if _ : m = 0 then buf else difStages step (m / 2) (difStage step m buf)
termination_by m
decreasing_by omega

/-- `while m < len { ..; m *= 2 }` -/
def ditStages (step : Step F) (len m : ℕ) (buf : List (V F)) : List (V F) :=
  if _ : m = 0 ∨ len ≤ m then buf else ditStages step len (m * 2) (ditStage step m buf)
termination_by len - m
decreasing_by omega

def leafBlock (step : Step F) (buf : List (V F)) (k0 : ℕ) : List (V F) :=
  let len := buf.length
  let buf := difStages step (len / 2) buf
  let g := splat (step.scaleBlock.getD (k0 / len) 0)
  let buf := zipMut (fun v s => v * s * g) buf step.scaleLeaf
  ditStages step len 1 buf

variable (parallel : Option ℕ)

/-- A block of `len` vectors from `k0` on. -/
def recurse (step : Step F) (len : ℕ) (buf : List (V F)) (k0 : ℕ) : List (V F) :=
  if _ : len ≤ step.leaf then leafBlock step buf k0
  else
    let m := len / 2
    let stride := step.n / (2 * m)
    let (a, b) := pass parallel (fun j => dif (twiddle step.inv stride j)) (buf.take m) (buf.drop m)
    let a := recurse step m a k0
    let b := recurse step (len - m) b (k0 + m)
    let (a, b) := pass parallel (fun j => dit (twiddle step.fwd stride j)) a b
    a ++ b
termination_by len
decreasing_by
  · have := step.two_le
    omega
  · have := step.two_le
    omega

def pack (step : Step F) (x : List F) : List (V F) :=
  let q := step.n / 4
  (List.range q).map fun k =>
    difLanes (lanes4 (x.getD k 0) (x.getD (k + q) 0) (x.getD (k + 2 * q) 0) (x.getD (k + 3 * q) 0))
      step.inv k q

/-- `run` of `unpack`: the vectors from `k` on, back in order. -/
def unpackRun (step : Step F) : ℕ → List (V F) → List (V F)
  | _, [] => []
  | k, v :: vs => ditLanes v step.fwd k (step.n / 4) :: unpackRun step (k + 1) vs

def unpack (step : Step F) (buf : List (V F)) : List F :=
  let vs := match parallel with
    | some chunk => mapChunks chunk (unpackRun step) 0 buf
    | none => unpackRun step 0 buf
  vs.map (fun v => lane v 0) ++ vs.map (fun v => lane v 1) ++ vs.map (fun v => lane v 2) ++
    vs.map (fun v => lane v 3)

/-- `Step::apply`, with the chunk size of the pool where there is one. -/
def apply (step : Step F) (x : List F) : Option (List F) :=
  if x.length = step.n then
    let buf := pack step x
    some (unpack parallel step (recurse parallel step buf.length buf 0))
  else none

end Walk

end Curvy.Prover.SimdFft
