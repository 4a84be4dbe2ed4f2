import Curvy.Prover.SimdFft
import Curvy.Prover.U29x9Mul

/-!
# The fused transform on limb-sliced vectors

The step as the code runs it: a vector is nine words by four lanes, twiddles and factors are in
limbs, the data stay in the Montgomery form of arkworks. An index out of range is a panic, `none`.
-/

namespace Curvy.Prover.SlicedFft

set_option autoImplicit false

open SimdFft (isPowerOfTwo lane rev trailingZeros twiddleChunk two_le_clamped zipMut)
open U29x9 (Kernels Limbs V V128 constFromArk fr rawFromArk rawToArk)

/-- The scalars of arkworks. -/
abbrev Fr : Type := ZMod fr.p

/-! ## Lanes -/

def splat (c : Limbs) : V := fun i => U29x9.splat (c i)

def lanes2 (a b : Limbs) : V := U29x9.pack ![a, b, a, b]

def lanes4 (e : Fin 4 → Limbs) : V := U29x9.pack e

def add4 (a b : V) : V := U29x9.add4 fr a b

def sub4 (a b : V) : V := U29x9.sub4 fr a b

/-- Lanes 0 to 3 are those of the first word, 4 to 7 those of the second. -/
def pick {α : Type} (a b : Fin 4 → α) (i : Fin 8) : α :=
  if h : i.val < 4 then a ⟨i.val, h⟩ else b ⟨i.val - 4, by omega⟩

def i32x4Shuffle (i j k l : Fin 8) (a b : V128) : V128 := ![pick a b i, pick a b j, pick a b k, pick a b l]

/-- The same shuffle of all nine words. -/
def shuffle (i j k l : Fin 8) (a b : V) : V := fun word => i32x4Shuffle i j k l (a word) (b word)

section Lanes
variable (k : Kernels)

/-- The butterfly of a decimation in frequency. -/
def dif (w : Option Limbs) (x y : V) : V × V :=
  (add4 x y, match w with
    | some w => k.mul4 (sub4 x y) (splat w)
    | none => sub4 x y)

/-- The butterfly of a decimation in time. -/
def dit (w : Option Limbs) (x y : V) : V × V :=
  let t := match w with
    | some w => k.mul4 y (splat w)
    | none => y
  (add4 x t, sub4 x t)

/-- The two stages inside a vector, on the way in. -/
def difLanes (v : V) (tw : List Limbs) (i q : ℕ) : Option V := do
  let lo := shuffle 0 1 0 1 v v
  let hi := shuffle 2 3 2 3 v v
  let s := add4 lo hi
  let d := k.mul4 (sub4 lo hi) (lanes2 (← tw[i]?) (← tw[i + q]?))
  let v := shuffle 0 1 6 7 s d
  let lo := shuffle 0 0 2 2 v v
  let hi := shuffle 1 1 3 3 v v
  let s := add4 lo hi
  let d := k.mul4 (sub4 lo hi) (splat (← tw[2 * i]?))
  some (shuffle 0 5 2 7 s d)

/-- And on the way out. -/
def ditLanes (v : V) (tw : List Limbs) (i q : ℕ) : Option V := do
  let lo := shuffle 0 0 2 2 v v
  let hi := shuffle 1 1 3 3 v v
  let t := k.mul4 hi (splat (← tw[2 * i]?))
  let v := shuffle 0 5 2 7 (add4 lo t) (sub4 lo t)
  let lo := shuffle 0 1 0 1 v v
  let hi := shuffle 2 3 2 3 v v
  let t := k.mul4 hi (lanes2 (← tw[i]?) (← tw[i + q]?))
  some (shuffle 0 1 6 7 (add4 lo t) (sub4 lo t))

end Lanes

/-! ## Tables -/

structure Step where
  n : ℕ
  leaf : ℕ
  inv : List Limbs
  fwd : List Limbs
  scaleLeaf : List V
  scaleBlock : List Limbs
  two_le : 2 ≤ leaf

section Tables
variable (k : Kernels)

def fill (w cur : Limbs) : ℕ → List Limbs
  | 0 => []
  | count + 1 => cur :: fill w (k.montMul cur w) count

/-- `Plan::new`. -/
def plan (n : ℕ) (omega : Fr) : Option (List Limbs) :=
  if isPowerOfTwo n = true ∧ 8 ≤ n then
    some ((List.range ((n / 2 + twiddleChunk - 1) / twiddleChunk)).flatMap fun c =>
      fill k (constFromArk k omega) (constFromArk k (omega ^ (c * twiddleChunk)))
        (min twiddleChunk (n / 2 - c * twiddleChunk)))
  else none

/-- The scaling inside a leaf block; the powers are computed in arkworks. -/
def leafScales (g sizeInv : Fr) (leaf blocks : ℕ) : Option (List V) :=
  let inLeaf := SimdFft.fill (g ^ (4 * blocks)) 1 leaf
  (List.range leaf).mapM fun r => do
    let s := sizeInv * (← inLeaf[rev r (trailingZeros leaf)]?)
    some (lanes4 ![constFromArk k (s * 1), constFromArk k (s * g ^ 2), constFromArk k (s * g),
      constFromArk k (s * (g ^ 2 * g))])

def blockScales (g : Fr) (blocks : ℕ) : Option (List Limbs) :=
  let perBlock := SimdFft.fill (g ^ 4) 1 blocks
  (List.range blocks).mapM fun b => do
    some (constFromArk k (← perBlock[rev b (trailingZeros blocks)]?))

theorem two_le_leaf {n leaf : ℕ} (hn : isPowerOfTwo n = true ∧ 8 ≤ n)
    (hleaf : isPowerOfTwo leaf = true ∧ 2 ≤ leaf) : 2 ≤ min leaf (n / 4) :=
  two_le_clamped hn.2 hleaf.2

/-- `Step::with_leaf`. -/
def withLeaf (n : ℕ) (omega omegaInv g sizeInv : Fr) (leaf : ℕ) : Option Step :=
  if hn : isPowerOfTwo n = true ∧ 8 ≤ n then
    if hleaf : isPowerOfTwo leaf = true ∧ 2 ≤ leaf then do
      let q := n / 4
      let inv ← plan k n omegaInv
      let fwd ← plan k n omega
      let scaleLeaf ← leafScales k g sizeInv (min leaf q) (q / min leaf q)
      let scaleBlock ← blockScales k g (q / min leaf q)
      some { n, leaf := min leaf q, inv, fwd, scaleLeaf, scaleBlock, two_le := two_le_leaf hn hleaf }
    else none
  else none

end Tables

/-! ## Passes -/

section Passes
variable {α β : Type}

/-- `f` with the index of each pair, from `j` on. -/
def butterflies (f : ℕ → α → α → Option (α × α)) : ℕ → List α → List α → Option (List α × List α)
  | j, a :: as, b :: bs => do
    let (a, b) ← f j a b
    let (as, bs) ← butterflies f (j + 1) as bs
    some (a :: as, b :: bs)
  | _, as, bs => some (as, bs)

def inChunks (size : ℕ) (f : ℕ → α → α → Option (α × α)) (j : ℕ) (as bs : List α) :
    Option (List α × List α) :=
  if _ : size = 0 ∨ as.length ≤ size then butterflies f j as bs
  else do
    let (a, b) ← butterflies f j (as.take size) (bs.take size)
    let (as, bs) ← inChunks size f (j + size) (as.drop size) (bs.drop size)
    some (a ++ as, b ++ bs)
termination_by as.length
decreasing_by
  rw [List.length_drop]
  omega

/-- `pass`: with `parallel` it is split, without it is not. -/
def pass (parallel : Option ℕ) (f : ℕ → α → α → Option (α × α)) (as bs : List α) :
    Option (List α × List α) :=
  match parallel with
  | some chunk => inChunks chunk f 0 as bs
  | none => butterflies f 0 as bs

/-- `chunks_exact_mut`: what is left over stays. -/
def mapBlocks (size : ℕ) (f : List α → Option (List α)) (xs : List α) : Option (List α) :=
  if _ : size = 0 ∨ xs.length < size then some xs
  else do
    let block ← f (xs.take size)
    let rest ← mapBlocks size f (xs.drop size)
    some (block ++ rest)
termination_by xs.length
decreasing_by
  rw [List.length_drop]
  omega

/-- `f` with the position of each chunk. -/
def mapChunks (size : ℕ) (f : ℕ → List α → Option (List β)) (i : ℕ) (xs : List α) : Option (List β) :=
  if _ : size = 0 ∨ xs.length ≤ size then f i xs
  else do
    let chunk ← f i (xs.take size)
    let rest ← mapChunks size f (i + size) (xs.drop size)
    some (chunk ++ rest)
termination_by xs.length
decreasing_by
  rw [List.length_drop]
  omega

end Passes

section Walk
variable (k : Kernels)

def twiddle (tw : List Limbs) (stride j : ℕ) : Option (Option Limbs) :=
  if j ≠ 0 then (tw[j * stride]?).map some else some none

def difAt (tw : List Limbs) (stride j : ℕ) (x y : V) : Option (V × V) :=
  (twiddle tw stride j).map fun w => dif k w x y

def ditAt (tw : List Limbs) (stride j : ℕ) (x y : V) : Option (V × V) :=
  (twiddle tw stride j).map fun w => dit k w x y

/-- One stage of decimation in frequency inside a leaf block. -/
def difStage (step : Step) (m : ℕ) : List V → Option (List V) :=
  mapBlocks (2 * m) fun block => do
    let (a, b) ← butterflies (difAt k step.inv (step.n / (2 * m))) 0 (block.take m) (block.drop m)
    some (a ++ b)

def ditStage (step : Step) (m : ℕ) : List V → Option (List V) :=
  mapBlocks (2 * m) fun block => do
    let (a, b) ← butterflies (ditAt k step.fwd (step.n / (2 * m))) 0 (block.take m) (block.drop m)
    some (a ++ b)

/-- `while m >= 1 { ..; m /= 2 }` -/
def difStages (step : Step) (m : ℕ) (buf : List V) : Option (List V) :=
  if _ : m = 0 then some buf
  else do
    let buf ← difStage k step m buf
    difStages step (m / 2) buf
termination_by m
decreasing_by omega

/-- `while m < len { ..; m *= 2 }` -/
def ditStages (step : Step) (len m : ℕ) (buf : List V) : Option (List V) :=
  if _ : m = 0 ∨ len ≤ m then some buf
  else do
    let buf ← ditStage k step m buf
    ditStages step len (m * 2) buf
termination_by len - m
decreasing_by omega

def leafBlock (step : Step) (buf : List V) (k0 : ℕ) : Option (List V) := do
  let len := buf.length
  let buf ← difStages k step (len / 2) buf
  let g := splat (← step.scaleBlock[k0 / len]?)
  let buf := zipMut (fun v s => k.mul4 (k.mul4 v s) g) buf step.scaleLeaf
  ditStages k step len 1 buf

variable (parallel : Option ℕ)

/-- A block of `len` vectors from `k0` on. -/
def recurse (step : Step) (len : ℕ) (buf : List V) (k0 : ℕ) : Option (List V) :=
  if _ : len ≤ step.leaf then leafBlock k step buf k0
  else do
    let m := len / 2
    let stride := step.n / (2 * m)
    let (a, b) ← pass parallel (difAt k step.inv stride) (buf.take m) (buf.drop m)
    let a ← recurse step m a k0
    let b ← recurse step (len - m) b (k0 + m)
    let (a, b) ← pass parallel (ditAt k step.fwd stride) a b
    some (a ++ b)
termination_by len
decreasing_by
  · have := step.two_le
    omega
  · have := step.two_le
    omega

def pack (step : Step) (x : List Fr) : Option (List V) :=
  let q := step.n / 4
  (List.range q).mapM fun i => do
    let v := lanes4 ![rawFromArk (← x[i]?), rawFromArk (← x[i + q]?), rawFromArk (← x[i + 2 * q]?),
      rawFromArk (← x[i + 3 * q]?)]
    difLanes k v step.inv i q

/-- The four lanes of a vector in arkworks. -/
def elements (v : V) : Option (SimdFft.V Fr) :=
  match (List.ofFn (U29x9.lane v)).mapM rawToArk with
  | some [a, b, c, d] => some (a, b, c, d)
  | _ => none

/-- `run` of `unpack`: the vectors from `i` on, back in order. -/
def unpackRun (step : Step) : ℕ → List V → Option (List (SimdFft.V Fr))
  | _, [] => some []
  | i, v :: vs => do
    let v ← ditLanes k v step.fwd i (step.n / 4)
    let e ← elements v
    let es ← unpackRun step (i + 1) vs
    some (e :: es)

def unpack (step : Step) (buf : List V) : Option (List Fr) := do
  let vs ← match parallel with
    | some chunk => mapChunks chunk (unpackRun k step) 0 buf
    | none => unpackRun k step 0 buf
  some (vs.map (fun v => lane v 0) ++ vs.map (fun v => lane v 1) ++ vs.map (fun v => lane v 2) ++
    vs.map fun v => lane v 3)

/-- `Step::apply`, with the chunk size of the pool where there is one. -/
def apply (step : Step) (x : List Fr) : Option (List Fr) :=
  if x.length = step.n then do
    let buf ← pack k step x
    let buf ← recurse k parallel step buf.length buf 0
    unpack k parallel step buf
  else none

end Walk

end Curvy.Prover.SlicedFft
