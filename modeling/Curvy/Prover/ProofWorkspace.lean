import Curvy.Prover.Qap
import Curvy.Witness.Workspace

/-!
# Proofs with and without kept workspaces

The plain calls allocate every vector. The calls with workspaces borrow the vectors of their
caller through leases, which wipe them on every exit. Two randomizers are drawn in each call; the
group arithmetic of a proof and its verification are parameters.
-/

namespace Curvy.Prover

set_option autoImplicit false

open Witness (Fr SageGraph SerdeJson WitnessError WitnessGraph WitnessVectors WitnessWorkspace)
open ZkeyMatrices (CompactMatrix)
open Qap (SynthesisError Transforms Vectors)

/-- `ProverError`, as these calls return it. -/
inductive ProofError where
  | invalidWitnessGraph (error : WitnessError)
  | assignmentLength (expected actual : Nat)
  | assignmentConstant
  | proofGeneration (error : SynthesisError)
  | verification (error : SynthesisError)
  | selfVerificationFailed

/-- Another error at the same place. -/
def Stop.map {ε ε' : Type} (f : ε → ε') : Stop ε → Stop ε'
  | .panic => .panic
  | .error e => .error (f e)

/-- What is outside the repository: transforms, group arithmetic and verification. -/
structure Libraries where
  transforms : Transforms
  ProvingKey : Type
  Proof : Type
  Bundle : Type
  /-- The sums of `assemble_proof`, for H, the assignment and its private part. -/
  assemble : ProvingKey → Fr → Fr → List Nat → List Nat → List Nat → Qap.Outcome Proof
  verify : ProvingKey → Proof → List Fr → Except SynthesisError Bool
  bundle : Proof → List Fr → Bundle

/-- `size_of::<BigInt<4>>()`. -/
def bigIntBytes : Nat := 32

/-- `into_bigint`. -/
def intoBigint (x : Fr) : Nat := x.val

variable (lib : Libraries)

/-- `Prover`. -/
structure CircuitProver where
  pk : lib.ProvingKey
  matrices : Fin 2 → CompactMatrix
  numInstanceVariables : Nat
  numConstraints : Nat
  assignmentSize : Nat

/-- The randomizers that a call draws. -/
structure Draws where
  r : Fr
  s : Fr

variable {lib}

namespace CircuitProver

variable (p : CircuitProver lib)

/-! ## The plain path -/

def assembleProof (draws : Draws) (h assignment : List Nat) : Qap.Outcome lib.Proof := do
  let start := p.numInstanceVariables - 1
  Panic.require (start ≤ assignment.length)
  lib.assemble p.pk draws.r draws.s h assignment (assignment.drop start)

/-- H and the scalars of `create_proof_from_h`. -/
def scalarsFromH (h fullAssignment : List Fr) : Qap.Outcome (List Nat × List Nat) := do
  let hAssignment := h.map intoBigint
  Panic.require (1 ≤ fullAssignment.length)
  return (hAssignment, (fullAssignment.drop 1).map intoBigint)

/-- H, as both paths start with it. -/
def witnessMap (fullAssignment : List Fr) : Qap.Outcome (List Fr) :=
  Qap.witnessMapFromCompactMatrices lib.transforms p.matrices p.numInstanceVariables
    p.numConstraints fullAssignment

def scalars (fullAssignment : List Fr) : Qap.Outcome (List Nat × List Nat) := do
  let h ← p.witnessMap fullAssignment
  scalarsFromH h fullAssignment

def createProofWithCompactMatrices (draws : Draws) (fullAssignment : List Fr) :
    Qap.Outcome lib.Proof := do
  let (h, assignment) ← p.scalars fullAssignment
  p.assembleProof draws h assignment

def validateAssignment (fullAssignment : List Fr) : Except (Stop ProofError) Unit := do
  Panic.refuse (fullAssignment.length ≠ p.assignmentSize)
    (.assignmentLength p.assignmentSize fullAssignment.length)
  Panic.refuse (fullAssignment.head? ≠ some 1) .assignmentConstant

def prove (draws : Draws) (fullAssignment : List Fr) : Except (Stop ProofError) lib.Proof := do
  p.validateAssignment fullAssignment
  (p.createProofWithCompactMatrices draws fullAssignment).mapError (Stop.map .proofGeneration)

def publicInputs (fullAssignment : List Fr) : Except (Stop ProofError) (List Fr) := do
  p.validateAssignment fullAssignment
  Panic.require (1 ≤ p.numInstanceVariables ∧ p.numInstanceVariables ≤ fullAssignment.length)
  return (fullAssignment.take p.numInstanceVariables).drop 1

/-- The self-verification and the bundle behind a proof. -/
def checkProof (fullAssignment : List Fr) (proof : lib.Proof) :
    Except (Stop ProofError) lib.Bundle := do
  let publics ← p.publicInputs fullAssignment
  let verified ← (lib.verify p.pk proof publics).mapError (Stop.error ∘ .verification)
  Panic.refuse (verified = false) .selfVerificationFailed
  return lib.bundle proof publics

def proveAssignment (draws : Draws) (fullAssignment : List Fr) :
    Except (Stop ProofError) lib.Bundle := do
  let proof ← p.prove draws fullAssignment
  p.checkProof fullAssignment proof

end CircuitProver

/-! ## The workspace of a proof -/

/-- The elements of the vectors of a workspace. -/
structure ProofVectors where
  vectors : Vectors
  h : List Nat
  assignment : List Nat

namespace ProofVectors

abbrev Call (α : Type) : Type := Work ProofVectors SynthesisError α

def empty : ProofVectors := ⟨⟨[], [], []⟩, [], []⟩

def setVectors (vectors : Vectors) (s : ProofVectors) : ProofVectors := { s with vectors }

def setH (h : List Nat) (s : ProofVectors) : ProofVectors := { s with h }

def setAssignment (assignment : List Nat) (s : ProofVectors) : ProofVectors := { s with assignment }

/-- A call on the vectors of the transforms. -/
def onVectors {α : Type} (x : Vectors.Call α) : Call α := Work.zoom vectors setVectors x

end ProofVectors

structure ProofWorkspace where
  a : Buffer Fr
  b : Buffer Fr
  c : Buffer Fr
  h : Buffer Nat
  assignment : Buffer Nat
  limit : Nat

namespace ProofWorkspace

def new (maxRetainedBytes : Nat) : ProofWorkspace :=
  ⟨.new, .new, .new, .new, .new, maxRetainedBytes⟩

def retainedBytes (w : ProofWorkspace) : Nat :=
  (w.a.capacity + w.b.capacity + w.c.capacity) * Witness.frBytes +
    (w.h.capacity + w.assignment.capacity) * bigIntBytes

def clear (w : ProofWorkspace) : ProofWorkspace :=
  let w := { w with
    a := w.a.zeroize
    b := w.b.zeroize
    c := w.c.zeroize
    h := w.h.zeroize
    assignment := w.assignment.zeroize }
  if w.retainedBytes > w.limit then
    { w with a := .new, b := .new, c := .new, h := .new, assignment := .new }
  else w

/-- What the allocations hold behind the elements where a call leaves them. -/
structure Spare where
  a : List Fr
  b : List Fr
  c : List Fr
  h : List Nat
  assignment : List Nat

def elements (w : ProofWorkspace) : ProofVectors :=
  ⟨⟨w.a.live, w.b.live, w.c.live⟩, w.h.live, w.assignment.live⟩

/-- The workspace with the elements that a call has left. -/
def leave (w : ProofWorkspace) (spare : Spare) (s : ProofVectors) : ProofWorkspace :=
  { w with
    a := ⟨s.vectors.a, spare.a⟩
    b := ⟨s.vectors.b, spare.b⟩
    c := ⟨s.vectors.c, spare.c⟩
    h := ⟨s.h, spare.h⟩
    assignment := ⟨s.assignment, spare.assignment⟩ }

end ProofWorkspace

/-! ## The paths with workspaces -/

namespace CircuitProver

open ProofVectors (Call onVectors setH setAssignment setVectors)

variable (p : CircuitProver lib)

def witnessMapWithWorkspace (fullAssignment : List Fr) : Call Unit := do
  let domain ← Work.lift (Qap.witnessDomain lib.transforms p.numInstanceVariables p.numConstraints
    fullAssignment)
  Work.refuse (∃ i, (p.matrices i).numRows ≠ p.numConstraints) .unsatisfiable
  let size := lib.transforms.size domain
  onVectors do
    let v ← Work.get
    Work.modify (Vectors.setA (Buffer.resize v.a size 0))
    Work.modify (Vectors.setB (Buffer.resize v.b size 0))
    Qap.evaluate p.matrices p.numConstraints fullAssignment
    Qap.finishWitnessMapInPlace lib.transforms p.numInstanceVariables p.numConstraints
      fullAssignment

/-- The conversions behind the witness map. -/
def fillScalars (fullAssignment : List Fr) : Call Unit := do
  let s ← Work.get
  Work.modify (setH (Buffer.resize s.h s.vectors.a.length 0))
  Work.require (1 ≤ fullAssignment.length)
  Work.modify (setAssignment (Buffer.resize s.assignment (fullAssignment.length - 1) 0))
  let s ← Work.get
  Work.modify (setH (Qap.zipWrite (fun _ x => intoBigint x) s.h s.vectors.a))
  Work.modify (setAssignment
    (Qap.zipWrite (fun _ x => intoBigint x) s.assignment (fullAssignment.drop 1)))

/-- What `create_proof_with_workspace` does before the group arithmetic. -/
def scalarsWithWorkspace (fullAssignment : List Fr) : Call Unit := do
  p.witnessMapWithWorkspace fullAssignment
  fillScalars fullAssignment

def createProofWithWorkspace (draws : Draws) (fullAssignment : List Fr) : Call lib.Proof := do
  p.scalarsWithWorkspace fullAssignment
  let s ← Work.get
  Work.lift (p.assembleProof draws s.h s.assignment)

def proveWithWorkspace (draws : Draws) (fullAssignment : List Fr) (spare : ProofWorkspace.Spare) :
    Work ProofWorkspace ProofError lib.Proof := fun w =>
  match p.validateAssignment fullAssignment with
  | .error stop => (.error stop, w.clear)
  | .ok () =>
    let r := p.createProofWithWorkspace draws fullAssignment w.elements
    (r.1.mapError (Stop.map .proofGeneration), (w.leave spare r.2).clear)

end CircuitProver

/-! ## Circuits with their witness graph -/

inductive ResidentWitness where
  | graph (graph : WitnessGraph)
  | sage (graph : SageGraph)

namespace ResidentWitness

def calculateJson (g : ResidentWitness) (serde : SerdeJson) (json : String) :
    Except (Stop WitnessError) (List Fr) :=
  match g with
  | .graph source => Witness.stopping (source.calculateJson serde json)
  | .sage program => Witness.stopping (program.calculateJson serde json)

def calculateInPlace (g : ResidentWitness) (serde : SerdeJson) (json : String) :
    WitnessVectors.Evaluation Unit :=
  match g with
  | .graph source => source.calculateInPlace serde json
  | .sage program => program.calculateInPlace serde json

/-- `with_witness_json`: the witness is consumed before the lease ends. -/
def withWitnessJson {σ α : Type} (g : ResidentWitness) (serde : SerdeJson) (json : String)
    (spare : WitnessWorkspace.Spare) (consume : List Fr → Work σ ProofError α) :
    Work (WitnessWorkspace × σ) ProofError α := fun w =>
  let r := w.1.run spare (g.calculateInPlace serde json)
  match r.1 with
  | .error stop => (.error (Stop.map .invalidWitnessGraph stop), r.2.clear, w.2)
  | .ok () =>
    let t := consume r.2.assignment.live w.2
    (t.1, r.2.clear, t.2)

end ResidentWitness

variable (lib) in
structure ResidentProver where
  prover : CircuitProver lib
  witnessGraph : ResidentWitness

/-- What the allocations of both workspaces hold behind the elements when a call leaves them. -/
structure Spares where
  witness : WitnessWorkspace.Spare
  proof : ProofWorkspace.Spare

namespace ResidentProver

variable (p : ResidentProver lib) (serde : SerdeJson)

def proveJson (draws : Draws) (json : String) : Except (Stop ProofError) lib.Bundle := do
  let assignment ← (p.witnessGraph.calculateJson serde json).mapError
    (Stop.map .invalidWitnessGraph)
  p.prover.proveAssignment draws assignment

/-- The closure that consumes the witness. -/
def consume (draws : Draws) (spare : ProofWorkspace.Spare) (assignment : List Fr) :
    Work ProofWorkspace ProofError lib.Bundle := do
  let generated ← p.prover.proveWithWorkspace draws assignment spare
  Work.lift (p.prover.checkProof assignment generated)

def proveJsonWithWorkspace (draws : Draws) (json : String) (spares : Spares) :
    Work (WitnessWorkspace × ProofWorkspace) ProofError lib.Bundle :=
  p.witnessGraph.withWitnessJson serde json spares.witness (p.consume draws spares.proof)

end ResidentProver

end Curvy.Prover
