import Curvy.Prover.AffineBuckets
import Curvy.Prover.SignedWindows
import Mathlib.Data.List.FinRange
import Mathlib.Data.Nat.Log
import Mathlib.Logic.Function.Iterate

/-!
# Multiples of points, summed

The scalars are cut into signed windows. Every window folds its points into buckets, plain or
batch-affine, and adds the buckets up from the top; the windows are added up the same way. A wrapper
takes the scalars zero and one apart. `none` is a panic, or a loop that has not ended.
-/

namespace Curvy.Prover.Msm

set_option autoImplicit false

variable {F B V : Type} {n : Nat}

/-- The words of `BigInt<4>`, the lowest first. -/
abbrev BigInt := List (BitVec 64)

inductive Accumulation where
  | xyzz
  | batchAffine
deriving DecidableEq

def batchAffineMinPoints : Nat := 1 <<< 12

/-- The curve library's buckets and points. -/
structure GroupOps (F B V : Type) extends BucketOps F B where
  /-- `-=`. -/
  sub : B → Affine F → B
  /-- `+=` of a bucket. -/
  merge : B → B → B
  into : B → V
  zeroV : V
  doubleInPlace : V → V
  addV : V → V → V

/-! ## The widths of windows -/

/-- `log2` of the curve library, rounded up. -/
def serialWindowBits (points : Nat) : Nat :=
  if points < 32 then 3 else min (Nat.clog 2 points * 69 / 100 + 2) 16

def adaptiveWindowBits (points : Nat) : Nat :=
  if points ≤ 31 then 3
  else if points ≤ 255 then 5
  else if points ≤ 1023 then 7
  else if points ≤ 4095 then 8
  else if points ≤ 16383 then 10
  else if points ≤ 524288 then 12
  else 14

def residentWindowBits (parallel : Bool) (points : Nat) : Nat :=
  if parallel then adaptiveWindowBits points else serialWindowBits points

/-! ## Sums of buckets -/

/-- The running sum and the sum. -/
structure Reduction (B : Type) where
  running : B
  sum : B

def xyzzWindowSum (ops : GroupOps F B V) (buckets : Fin n → B) : V :=
  let r := (List.finRange n).foldr (fun k r =>
    let running := ops.merge r.running (buckets k)
    (⟨running, ops.merge r.sum running⟩ : Reduction B)) ⟨ops.zero, ops.zero⟩
  ops.into r.sum

namespace AffineBuckets

/-- `window_sum`, with its `debug_assert!`. -/
def windowSum (ops : GroupOps F B V) (s : AffineBuckets F B n) : Option V :=
  if s.batch.isEmpty ∧ s.deferred.isEmpty then
    let r := (List.finRange n).foldr (fun k r =>
      let running := ops.add r.running (s.buckets k)
      let running := s.overflow.elim running fun overflow => ops.merge running (overflow k)
      (⟨running, ops.merge r.sum running⟩ : Reduction B)) ⟨ops.zero, ops.zero⟩
    some (ops.into r.sum)
  else none

end AffineBuckets

def reduceMsmWindowSums (ops : GroupOps F B V) (windowSums : List V) (width : Nat) : V :=
  windowSums.foldr (fun sum total => ops.addV (ops.doubleInPlace^[width] total) sum) ops.zeroV

/-! ## Windows -/

section Windows

variable [Field F] (ops : GroupOps F B V)

/-- One step of the loop of `xyzz_buckets`; an index out of range is a panic. -/
def xyzzAdd (buckets : Fin n → B) (digit : Int) (base : Affine F) : Option (Fin n → B) :=
  if digit = 0 then some buckets
  else if h : digit.natAbs - 1 < n then
    let k : Fin n := ⟨digit.natAbs - 1, h⟩
    if 0 < digit then some (Function.update buckets k (ops.add (buckets k) base))
    else some (Function.update buckets k (ops.sub (buckets k) base))
  else none

def xyzzBuckets (entries : List (Int × Affine F)) (width : Nat) :
    Option (Fin (bucketCount width) → B) :=
  entries.foldlM (fun buckets entry => xyzzAdd ops buckets entry.1 entry.2) fun _ => ops.zero

def signedWindowSum (entries : List (Int × Affine F)) (width : Nat) : Option V := do
  let buckets ← xyzzBuckets ops entries width
  return xyzzWindowSum ops buckets

variable [DecidableEq F] (P : SWCurveConfig F)

/-- The window of `batch_affine_msm`. -/
def batchAffineWindowSum (entries : List (Int × Affine F)) (width batch : Nat) : Option V := do
  let buckets ← AffineBuckets.withBatchSize width batch
  let buckets ← entries.foldlM (fun buckets entry => AffineBuckets.addDigit
    (AffineBuckets.applyBatch P) ops.toBucketOps buckets entry.1 entry.2) buckets
  let buckets ← AffineBuckets.finish (AffineBuckets.applyBatch P) ops.toBucketOps buckets
  buckets.windowSum ops

/-- The digits of one window, beside their bases. -/
def windowDigits (bases : List (Affine F)) (scalars : List BigInt) (width window : Nat) :
    List (Int × Affine F) :=
  (bases.zip scalars).map fun e => (signedWindowDigit e.2 width window, e.1)

/-- The sum of one window with either kind of buckets. -/
def accumulatedWindowSum (entries : List (Int × Affine F)) (width : Nat) (batch : Option Nat) :
    Accumulation → Option V
  | .batchAffine => batchAffineWindowSum ops P entries width
      (batch.getD (AffineBuckets.batchSizeOf width))
  | .xyzz => signedWindowSum ops entries width

/-- On the short-Weierstrass groups of BN254; other groups keep plain buckets. -/
def msmBigintWithAccumulation (bases : List (Affine F)) (scalars : List BigInt) (width : Nat)
    (accumulation : Accumulation) (batch : Option Nat) : Option V :=
  if 3 ≤ width ∧ width ≤ 16 then do
    let size := min bases.length scalars.length
    if size = 0 then return ops.zeroV
    let bases := bases.take size
    let scalars := scalars.take size
    let windows := windowCount width
    let windowSums ← (List.range windows).mapM fun window =>
      accumulatedWindowSum ops P (windowDigits bases scalars width window) width batch accumulation
    return reduceMsmWindowSums ops windowSums width
  else none

def msmBigintWithWindow (bases : List (Affine F)) (scalars : List BigInt) (width : Nat) :
    Option V :=
  let size := min bases.length scalars.length
  let accumulation := if size ≥ batchAffineMinPoints then .batchAffine else .xyzz
  msmBigintWithAccumulation ops P bases scalars width accumulation none

def msmBigint (parallel : Bool) (bases : List (Affine F)) (scalars : List BigInt) : Option V :=
  let size := min bases.length scalars.length
  if size = 0 then some ops.zeroV
  else msmBigintWithWindow ops P (bases.take size) (scalars.take size)
    (residentWindowBits parallel size)

/-! ## Trivial scalars -/

def zeroScalar : BigInt := [0, 0, 0, 0]

def oneScalar : BigInt := [1, 0, 0, 0]

def trivial (s : BigInt) : Bool := s = zeroScalar || s = oneScalar

/-- The closure `add`. -/
def addOne (sum : B) (entry : Affine F × BigInt) : B :=
  if entry.2 = oneScalar then ops.add sum entry.1 else sum

/-- How a pool splits a list: pieces, joined in pairs in some order. -/
inductive Grouping (α : Type) where
  | empty
  | piece (items : List α)
  | join (left right : Grouping α)

def Grouping.items {α : Type} : Grouping α → List α
  | .empty => []
  | .piece items => items
  | .join left right => left.items ++ right.items

/-- Each piece is folded and the sums are added up in pairs. -/
def reduceOnes : Grouping (Affine F × BigInt) → B
  | .empty => ops.zero
  | .piece items => items.foldl (addOne ops) ops.zero
  | .join left right => ops.merge (reduceOnes left) (reduceOnes right)

/-- The sum of the bases with the scalar one; a parallel build reduces them. -/
def onesSum (pool : Option (Grouping (Affine F × BigInt))) (bases : List (Affine F))
    (scalars : List BigInt) : V :=
  ops.into (pool.elim ((bases.zip scalars).foldl (addOne ops) ops.zero) (reduceOnes ops))

/-- The closure `rest`. -/
def restSum (parallel : Bool) (restBases : List (Affine F)) (restScalars : List BigInt) :
    Option V :=
  if restScalars.length = 0 then some ops.zeroV
  else msmBigintWithWindow ops P restBases restScalars
    (residentWindowBits parallel restScalars.length)

/-- The outer `none` is a panic, the inner one the answer for few trivial scalars. -/
def splitTrivialScalars (pool : Option (Grouping (Affine F × BigInt)))
    (bases : List (Affine F)) (scalars : List BigInt) : Option (Option V) :=
  let count := (scalars.filter trivial).length
  if count * 8 < scalars.length then some none
  else do
    let kept := (bases.zip scalars).filter fun e => !trivial e.2
    let restBases := kept.map Prod.fst
    let restScalars := kept.map Prod.snd
    let rest ← restSum ops P pool.isSome restBases restScalars
    return some (ops.addV rest (onesSum ops pool bases scalars))

end Windows

end Curvy.Prover.Msm
