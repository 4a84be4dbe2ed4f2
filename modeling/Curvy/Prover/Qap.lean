import Curvy.Lib.Scratch
import Curvy.Prover.ZkeyMatrices

/-!
# The witness map

The evaluations of the two matrices and their product are moved to the odd coset of a domain twice
as large. The steps work on three vectors in place. The library of the transforms is a parameter.
-/

namespace Curvy.Prover.Qap

set_option autoImplicit false

open Witness (Fr)
open ZkeyMatrices (CompactMatrix Matrix evaluateChecked)

/-- `SynthesisError`: the variants that the code names, and those of the libraries. -/
inductive SynthesisError where
  | unsatisfiable
  | polynomialDegreeTooLarge
  | library (variant : String)
  deriving DecidableEq, Repr

abbrev Outcome (α : Type) : Type := Except (Stop SynthesisError) α

/-- The evaluation domains and their transforms. -/
structure Transforms where
  Domain : Type
  new : Nat → Option Domain
  size : Domain → Nat
  element : Domain → Nat → Fr
  ifft : Domain → List Fr → List Fr
  /-- `distribute_powers_and_mul_by_const` with the constant one. -/
  distributePowers : Fr → List Fr → List Fr
  fft : Domain → List Fr → List Fr

/-! ## Checked words -/

def checked (value : Nat) : Option Nat := if value < 2 ^ 64 then some value else none

def checkedNextPowerOfTwo (value : Nat) : Option Nat := checked value.nextPowerOfTwo

def okOr {α : Type} (value : Option α) (error : SynthesisError) : Outcome α :=
  value.elim (.error (.error error)) .ok

def witnessDomain (t : Transforms) (numInputs numConstraints : Nat) (assignment : List Fr) :
    Outcome t.Domain := do
  Panic.refuse (numInputs = 0 ∨ numInputs > assignment.length) .unsatisfiable
  let size ← okOr (checked (numConstraints + numInputs)) .polynomialDegreeTooLarge
  let _ ← okOr (checkedNextPowerOfTwo size) .polynomialDegreeTooLarge
  let domain ← okOr (t.new size) .polynomialDegreeTooLarge
  let doubleSize ← okOr (checked (t.size domain * 2)) .polynomialDegreeTooLarge
  let _ ← okOr (checkedNextPowerOfTwo doubleSize) .polynomialDegreeTooLarge
  let double ← okOr (t.new doubleSize) .polynomialDegreeTooLarge
  Panic.refuse (t.size double ≠ doubleSize ∨ t.element double 1 ^ 2 ≠ t.element domain 1)
    .polynomialDegreeTooLarge
  return domain

/-! ## Steps in place -/

/-- The elements of the three vectors. -/
structure Vectors where
  a : List Fr
  b : List Fr
  c : List Fr

namespace Vectors

abbrev Call (α : Type) : Type := Work Vectors SynthesisError α

def setA (a : List Fr) (v : Vectors) : Vectors := { v with a }

def setB (b : List Fr) (v : Vectors) : Vectors := { v with b }

def setC (c : List Fr) (v : Vectors) : Vectors := { v with c }

/-- The same step on each vector. -/
def each (f : List Fr → List Fr) (v : Vectors) : Vectors := ⟨f v.a, f v.b, f v.c⟩

end Vectors

open Vectors (Call setA setB setC each)

/-- A loop over a vector and the elements beside its own; it ends with the shorter of both. -/
def zipWrite {α β : Type} (f : α → β → α) : List α → List β → List α
  | x :: xs, y :: ys => f x y :: zipWrite f xs ys
  | xs, _ => xs

/-- The loop over the rows. -/
def evaluateRows (matrices : Fin 2 → CompactMatrix) (assignment : List Fr) : List Nat → Call Unit
  | [] => pure ()
  | row :: rows => do
    let x ← Work.lift (Panic.expect ((matrices 0).evaluateRow row assignment))
    let v ← Work.get
    Work.modify (setA (v.a.set row x))
    let y ← Work.lift (Panic.expect ((matrices 1).evaluateRow row assignment))
    let v ← Work.get
    Work.modify (setB (v.b.set row y))
    evaluateRows matrices assignment rows

/-- The loop over the first rows of both vectors. -/
def evaluate (matrices : Fin 2 → CompactMatrix) (numConstraints : Nat) (assignment : List Fr) :
    Call Unit := do
  let v ← Work.get
  Work.require (numConstraints ≤ v.a.length)
  Work.require (numConstraints ≤ v.b.length)
  evaluateRows matrices assignment (List.range numConstraints)

/-- `cfg_iter_mut!(c[..n]).zip(a).zip(b)`. -/
def multiply (numConstraints : Nat) (v : Vectors) : List Fr :=
  zipWrite (fun _ ab => ab.1 * ab.2) (v.c.take numConstraints) (v.a.zip v.b) ++
    v.c.drop numConstraints

def finishEvaluations (t : Transforms) (domain : t.Domain) (numConstraints : Nat) : Call Unit := do
  let domainSize := t.size domain
  let v ← Work.get
  Work.refuse (v.a.length ≠ domainSize ∨ v.b.length ≠ domainSize ∨ numConstraints > domainSize)
    .unsatisfiable
  let doubleSize ← Work.lift (okOr ((checked (domainSize * 2)).bind checkedNextPowerOfTwo)
    .polynomialDegreeTooLarge)
  let double ← Work.lift (okOr (t.new doubleSize) .polynomialDegreeTooLarge)
  Work.refuse (t.size double ≠ 2 * domainSize ∨ t.element double 1 ^ 2 ≠ t.element domain 1)
    .polynomialDegreeTooLarge
  let c := Buffer.resize v.c domainSize 0
  let c := c.take numConstraints ++ List.replicate (c.length - numConstraints) 0
  Work.modify (setC c)
  let v ← Work.get
  Work.modify (setC (multiply numConstraints v))
  let rootOfUnity := t.element double 1
  Work.modify (each fun v => t.fft domain (t.distributePowers rootOfUnity (t.ifft domain v)))
  let v ← Work.get
  Work.modify (setA (zipWrite (· * ·) v.a v.b))
  let v ← Work.get
  Work.modify (setA (zipWrite (· - ·) v.a v.c))

def finishWitnessMapInPlace (t : Transforms) (numInputs numConstraints : Nat)
    (assignment : List Fr) : Call Unit := do
  let domain ← Work.lift (witnessDomain t numInputs numConstraints assignment)
  let start := numConstraints
  let stop := start + numInputs
  let v ← Work.get
  Work.require (stop ≤ v.a.length)
  Work.require (numInputs ≤ assignment.length)
  Work.modify (setA (v.a.take start ++ assignment.take numInputs ++ v.a.drop stop))
  finishEvaluations t domain numConstraints

/-! ## The plain path -/

/-- B and C are dropped here; A becomes H. -/
def finishWitnessMap (t : Transforms) (a b : List Fr) (numInputs numConstraints : Nat)
    (assignment : List Fr) : Outcome (List Fr) :=
  let r := finishWitnessMapInPlace t numInputs numConstraints assignment ⟨a, b, []⟩
  r.1.map fun _ => r.2.a

def witnessMapFromCompactMatrices (t : Transforms) (matrices : Fin 2 → CompactMatrix)
    (numInputs numConstraints : Nat) (assignment : List Fr) : Outcome (List Fr) := do
  let domain ← witnessDomain t numInputs numConstraints assignment
  Panic.refuse (∃ i, (matrices i).numRows ≠ numConstraints) .unsatisfiable
  let zeros := List.replicate (t.size domain) 0
  let r := evaluate matrices numConstraints assignment ⟨zeros, zeros, []⟩
  r.1
  finishWitnessMap t r.2.a r.2.b numInputs numConstraints assignment

/-! ## Nested rows -/

/-- The loop over both vectors and the rows of both matrices. -/
def evaluateNested (assignment : List Fr) :
    List Fr → List Fr → Matrix → Matrix → Outcome (List Fr × List Fr)
  | _ :: as, _ :: bs, at_i :: atRows, bt_i :: btRows => do
    let a ← okOr (evaluateChecked at_i assignment) .unsatisfiable
    let b ← okOr (evaluateChecked bt_i assignment) .unsatisfiable
    let (as, bs) ← evaluateNested assignment as bs atRows btRows
    return (a :: as, b :: bs)
  | as, bs, _, _ => return (as, bs)

def witnessMapFromMatrices (t : Transforms) (matrices : List Matrix)
    (numInputs numConstraints : Nat) (fullAssignment : List Fr) : Outcome (List Fr) := do
  let domain ← witnessDomain t numInputs numConstraints fullAssignment
  let domainSize := t.size domain
  Panic.refuse (matrices.length < 2 ∨ ∃ m ∈ matrices.take 2, m.length ≠ numConstraints)
    .unsatisfiable
  let zeros := List.replicate domainSize 0
  Panic.require (numConstraints ≤ domainSize)
  let (a, b) ← evaluateNested fullAssignment (zeros.take numConstraints) (zeros.take numConstraints)
    (matrices.getD 0 []) (matrices.getD 1 [])
  finishWitnessMap t (a ++ zeros.drop numConstraints) (b ++ zeros.drop numConstraints) numInputs
    numConstraints fullAssignment

/-! ## The scalars of the H query -/

/-- `step_by(2)`. -/
def stepByTwo {α : Type} : List α → List α
  | x :: _ :: xs => x :: stepByTwo xs
  | xs => xs

def hQueryScalars (t : Transforms) (maxPower : Nat) (tau _zt deltaInverse : Fr) :
    Outcome (List Fr) := do
  let count ← okOr ((checked (maxPower * 2)).bind fun n => checked (n + 1))
    .polynomialDegreeTooLarge
  let _ ← okOr (checkedNextPowerOfTwo count) .polynomialDegreeTooLarge
  let domain ← okOr (t.new (max count 2)) .polynomialDegreeTooLarge
  let scalars := (List.range count).map fun i => deltaInverse * tau ^ i
  return stepByTwo ((t.ifft domain scalars).drop 1)

end Curvy.Prover.Qap
