import Curvy.Lib.KeyedSum
import Curvy.Prover.AffinePoint

/-!
# Batch-affine buckets

The buckets of one signed window: additions to distinct buckets wait in a batch that shares one
inversion, a second addition to a waiting bucket is deferred, and deferred points that pile up go
to overflow buckets. `none` is a panic, or a loop that has not ended.
-/

namespace Curvy.Prover.Msm

set_option autoImplicit false

/-- `FREE`, `SCHEDULED`, `HOT`. -/
inductive Mark where
  | free
  | scheduled
  | hot
deriving DecidableEq

structure PendingAdd (F : Type) (n : Nat) where
  bucket : Fin n
  step : Step
  /-- `prefix`: the product of the denominators scheduled before this one. -/
  before : F
  point : Affine F

/-- `n` buckets; `overflow` is there once it is allocated, with a cell for every bucket. -/
structure AffineBuckets (F B : Type) (n : Nat) where
  buckets : Fin n → Affine F
  overflow : Option (Fin n → B)
  batch : List (PendingAdd F n)
  deferred : List (Fin n × Affine F)
  state : Fin n → Mark
  batchSize : Nat

/-- The operations of the curve library's `Bucket<P>`: `ZERO` and `+=`. -/
structure BucketOps (F B : Type) where
  zero : B
  add : B → Affine F → B

def minRetryBatch : Nat := 8

/-- The buckets of a window of `width` bits. -/
def bucketCount (width : Nat) : Nat := 1 <<< (width - 1)

namespace AffineBuckets

variable {F B : Type} [Field F] {n : Nat}

/-- `with_batch_size`; the subtraction and the shift are checked. -/
def withBatchSize (width batchSize : Nat) : Option (AffineBuckets F B (bucketCount width)) :=
  if width = 0 ∨ 64 < width then none
  else some ⟨fun _ => Affine.identity, none, [], [], fun _ => .free, max batchSize 1⟩

/-- `batch_size`. -/
def batchSizeOf (width : Nat) : Nat := max 32 (min ((1 <<< (width - 1)) / 4) 1024)

/-- `try_new`, where the memory is there. -/
def tryNew (width : Nat) : Option (AffineBuckets F B (bucketCount width)) :=
  if width = 0 ∨ 64 < width then none
  else some ⟨fun _ => Affine.identity, none, [], [], fun _ => .free, batchSizeOf width⟩

theorem tryNew_eq (width : Nat) :
    (tryNew width : Option (AffineBuckets F B (bucketCount width)))
      = withBatchSize width (batchSizeOf width) := by
  have hpos : max (batchSizeOf width) 1 = batchSizeOf width := by
    unfold batchSizeOf
    omega
  rw [tryNew, withBatchSize, hpos]

/-- `self.overflow[bucket] += &point`. -/
def addOverflow (ops : BucketOps F B) (s : AffineBuckets F B n) (bucket : Fin n)
    (point : Affine F) : Option (AffineBuckets F B n) :=
  s.overflow.map fun overflow =>
    { s with
      overflow := some (Function.update overflow bucket (ops.add (overflow bucket) point)) }

def place (s : AffineBuckets F B n) (bucket : Fin n) (point : Affine F) :
    AffineBuckets F B n :=
  { s with buckets := Function.update s.buckets bucket point }

def schedule (s : AffineBuckets F B n) (bucket : Fin n) (point : Affine F) :
    AffineBuckets F B n :=
  { s with
    state := Function.update s.state bucket .scheduled
    batch := s.batch ++ [⟨bucket, .add, 1, point⟩] }

def keep (s : AffineBuckets F B n) (bucket : Fin n) (point : Affine F) :
    AffineBuckets F B n :=
  { s with deferred := s.deferred ++ [(bucket, point)] }

omit [Field F] in
@[simp]
theorem place_buckets (s : AffineBuckets F B n) (k : Fin n) (p : Affine F) :
    (place s k p).buckets = Function.update s.buckets k p := rfl

@[simp]
theorem schedule_state (s : AffineBuckets F B n) (k : Fin n) (p : Affine F) :
    (schedule s k p).state = Function.update s.state k .scheduled := rfl

@[simp]
theorem schedule_batch (s : AffineBuckets F B n) (k : Fin n) (p : Affine F) :
    (schedule s k p).batch = s.batch ++ [⟨k, .add, 1, p⟩] := rfl

omit [Field F] in
@[simp]
theorem keep_deferred (s : AffineBuckets F B n) (k : Fin n) (p : Affine F) :
    (keep s k p).deferred = s.deferred ++ [(k, p)] := rfl

def spillDeferred (ops : BucketOps F B) (s : AffineBuckets F B n) : AffineBuckets F B n :=
  if s.deferred.isEmpty then s
  else
    { s with
      overflow := some (KeyedSum.takeAll ops.add (s.overflow.getD fun _ => ops.zero) s.deferred)
      state := s.deferred.foldl (fun state e => Function.update state e.1 .hot) s.state
      deferred := [] }

/-- `defer`. -/
def defer (ops : BucketOps F B) (s : AffineBuckets F B n) (bucket : Fin n)
    (point : Affine F) : AffineBuckets F B n :=
  keep (if s.deferred.length = s.batchSize then spillDeferred ops s else s) bucket point

/-- One round of the loop of `retry_deferred`; `deferred` holds the entries kept so far, which
never run ahead of the entry read. -/
def retryOne (ops : BucketOps F B) (s : AffineBuckets F B n) (entry : Fin n × Affine F) :
    Option (AffineBuckets F B n) :=
  match s.state entry.1 with
  | .free =>
    if s.batch.length < s.batchSize then
      if (s.buckets entry.1).infinity then some (place s entry.1 entry.2)
      else some (schedule s entry.1 entry.2)
    else some (keep s entry.1 entry.2)
  | .scheduled => some (keep s entry.1 entry.2)
  | .hot => addOverflow ops s entry.1 entry.2

def retryDeferred (ops : BucketOps F B) (s : AffineBuckets F B n) :
    Option (AffineBuckets F B n) :=
  s.deferred.foldlM (retryOne ops) { s with deferred := [] }

section Apply

variable [DecidableEq F]

/-- The forward pass of `apply_batch`: every addition classified, with the product of the
denominators before it, and the product of them all. -/
def forwardPass (buckets : Fin n → Affine F) :
    F → List (PendingAdd F n) → List (PendingAdd F n) × F
  | product, [] => ([], product)
  | product, pending :: batch =>
    let bucket := buckets pending.bucket
    let step := classify bucket pending.point
    let (batch, last) :=
      forwardPass buckets (product * step.denominator bucket pending.point) batch
    ({ pending with before := product, step := step } :: batch, last)

/-- What the backward pass carries from one addition to the next. -/
structure Peeled (F : Type) (n : Nat) where
  inverse : F
  buckets : Fin n → Affine F
  state : Fin n → Mark

/-- One round of the backward pass. -/
def peel (P : SWCurveConfig F) (pending : PendingAdd F n) (peeled : Peeled F n) : Peeled F n :=
  let state :=
    if peeled.state pending.bucket = .scheduled then
      Function.update peeled.state pending.bucket .free
    else peeled.state
  let bucket := peeled.buckets pending.bucket
  match pending.step with
  | .cancel =>
    ⟨peeled.inverse, Function.update peeled.buckets pending.bucket Affine.identity, state⟩
  | step =>
    let lambda := step.numerator P bucket pending.point * (peeled.inverse * pending.before)
    ⟨peeled.inverse * step.denominator bucket pending.point,
      Function.update peeled.buckets pending.bucket (step.result bucket pending.point lambda), state⟩

def applyBatch (P : SWCurveConfig F) (s : AffineBuckets F B n) : Option (AffineBuckets F B n) :=
  if s.batch.isEmpty then some s
  else
    let (batch, product) := forwardPass s.buckets 1 s.batch
    -- the `expect` on the inverse
    if product = 0 then none
    else
      let peeled := batch.foldr (peel P) ⟨product⁻¹, s.buckets, s.state⟩
      some { s with buckets := peeled.buckets, state := peeled.state, batch := [] }

/-- The targets of a batch are distinct, and no denominator it inverts is zero. -/
def BatchSafe (s : AffineBuckets F B n) : Prop :=
  (s.batch.map fun pending => pending.bucket).Nodup ∧
    ∀ pending ∈ s.batch, (classify (s.buckets pending.bucket) pending.point).denominator
      (s.buckets pending.bucket) pending.point ≠ 0

instance (s : AffineBuckets F B n) : Decidable (BatchSafe s) :=
  inferInstanceAs (Decidable (_ ∧ _))

/-- `apply_batch` behind an assertion that the batch is safe. -/
def applyBatchAsserted (P : SWCurveConfig F) (s : AffineBuckets F B n) :
    Option (AffineBuckets F B n) :=
  if BatchSafe s then applyBatch P s else none

end Apply

/-! The loops, over either way to apply a batch. -/

variable (apply : AffineBuckets F B n → Option (AffineBuckets F B n)) (ops : BucketOps F B)

/-- The loop of `add`. -/
def flushFull : Nat → AffineBuckets F B n → Option (AffineBuckets F B n)
  | 0, _ => none
  | fuel + 1, s =>
    if s.batch.length = s.batchSize then do
      let s ← apply s
      let s ← retryDeferred ops s
      flushFull fuel s
    else some s

/-- `add`; the bucket index is checked where `state` is read. -/
def add (s : AffineBuckets F B n) (bucket : Nat) (point : Affine F) :
    Option (AffineBuckets F B n) :=
  if point.infinity then some s
  else if hbucket : bucket < n then
    match s.state ⟨bucket, hbucket⟩ with
    | .scheduled => some (defer ops s ⟨bucket, hbucket⟩ point)
    | .hot => addOverflow ops s ⟨bucket, hbucket⟩ point
    | .free =>
      if (s.buckets ⟨bucket, hbucket⟩).infinity then some (place s ⟨bucket, hbucket⟩ point)
      else flushFull apply ops (s.deferred.length + 2) (schedule s ⟨bucket, hbucket⟩ point)
  else none

def addDigit (s : AffineBuckets F B n) (digit : Int) (base : Affine F) :
    Option (AffineBuckets F B n) :=
  if 0 < digit then add apply ops s (digit.natAbs - 1) base
  else if digit < 0 then add apply ops s (digit.natAbs - 1) base.neg
  else some s

/-- The loop of `finish`. -/
def finishLoop : Nat → AffineBuckets F B n → Option (AffineBuckets F B n)
  | 0, _ => none
  | fuel + 1, s => do
    let s ← apply s
    if s.deferred.isEmpty then some s
    else
      let s ← retryDeferred ops s
      if s.batch.length < minRetryBatch then do
        let s ← apply s
        some (spillDeferred ops s)
      else finishLoop fuel s

def finish (s : AffineBuckets F B n) : Option (AffineBuckets F B n) :=
  finishLoop apply ops (s.deferred.length + 1) s

/-- `release_scratch`, with its `debug_assert!`. -/
def releaseScratch (s : AffineBuckets F B n) : Option (AffineBuckets F B n) :=
  if s.batch.isEmpty ∧ s.deferred.isEmpty then some { s with batch := [], deferred := [] }
  else none

/-- The digits of one chunk, then `finish` and `release_scratch`. -/
def foldChunk (s : AffineBuckets F B n) (chunk : List (Int × Affine F)) :
    Option (AffineBuckets F B n) := do
  let s ← chunk.foldlM (fun s entry => addDigit apply ops s entry.1 entry.2) s
  let s ← finish apply ops s
  releaseScratch s

def foldChunks (s : AffineBuckets F B n) (chunks : List (List (Int × Affine F))) :
    Option (AffineBuckets F B n) :=
  chunks.foldlM (foldChunk apply ops) s

end AffineBuckets

end Curvy.Prover.Msm
