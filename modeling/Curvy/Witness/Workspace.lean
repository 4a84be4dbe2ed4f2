import Curvy.Lib.Scratch
import Curvy.Witness.Graph
import Curvy.Witness.Sage
import Curvy.Witness.ScalarField

/-!
# Witness evaluation in a kept workspace

Both evaluators fill two vectors of the caller. The plain calls hand them fresh ones, a workspace
hands them its own, and a lease wipes these on every exit.
-/

namespace Curvy.Witness

set_option autoImplicit false

/-- A call that may stop the program, as one that may panic. -/
def stopping {ε α : Type} : Option (Except ε α) → Except (Stop ε) α
  | none => .error .panic
  | some (.error e) => .error (.error e)
  | some (.ok a) => .ok a

/-! ## The vectors -/

/-- The elements of the two vectors of an evaluation. -/
structure WitnessVectors where
  values : List Fr
  assignment : List Fr

namespace WitnessVectors

def empty : WitnessVectors := ⟨[], []⟩

abbrev Evaluation (α : Type) : Type := Work WitnessVectors WitnessError α

def setValues (values : List Fr) (s : WitnessVectors) : WitnessVectors := { s with values }

def setAssignment (assignment : List Fr) (s : WitnessVectors) : WitnessVectors :=
  { s with assignment }

/-- The check at the end of both evaluators. -/
def checkOne : Evaluation Unit := do
  let s ← Work.get
  Work.refuse (s.assignment.head? ≠ some 1) .invalidAssignmentOne

end WitnessVectors

open WitnessVectors (Evaluation setValues setAssignment checkOne)

/-! ## The graph evaluator -/

namespace WitnessGraph

def pushNodes (inputs : List Fr) : List Node → Nat → Evaluation Unit
  | [], _ => pure ()
  | node :: nodes, index => do
    let s ← Work.get
    let value ← Work.lift (stopping (evaluateNode inputs index s.values node))
    Work.modify (setValues (s.values ++ [value]))
    pushNodes inputs nodes (index + 1)

def extendAssignment : List Nat → Evaluation Unit
  | [] => pure ()
  | index :: signals => do
    let s ← Work.get
    let value ← Work.lift (Panic.expect s.values[index]?)
    Work.modify (setAssignment (s.assignment ++ [value]))
    extendAssignment signals

/-- `calculate_json_into`, on the vectors it is handed. -/
def calculateInPlace (g : WitnessGraph) (serde : SerdeJson) (json : String) : Evaluation Unit := do
  let inputs ← Work.lift
    (stopping (buildInputBuffer serde g.inputMapping g.inputBufferLen json g.limits))
  pushNodes inputs g.nodes 0
  extendAssignment g.signals
  checkOne

end WitnessGraph

/-! ## The SAGE evaluator -/

namespace SageGraph

open Sage

/-- A step whose failures are all errors. -/
def checked {α : Type} (x : Except WitnessError α) : Evaluation α := Work.lift (x.mapError .error)

/-- The writes of a node, and the outputs behind them. -/
def writeOutputsInto (index : Nat) (value : Fr) : List OutputWrite → Evaluation (List OutputWrite)
  | [] => pure []
  | output :: outputs =>
    if output.node = index then do
      let s ← Work.get
      let assignment ← checked (setAt s.assignment output.signal value "output signal")
      Work.modify (setAssignment assignment)
      writeOutputsInto index value outputs
    else pure (output :: outputs)

def executeInto (constants inputs : List Fr) :
    List Instruction → Nat → List OutputWrite → Evaluation (List OutputWrite)
  | [], _, pending => pure pending
  | instruction :: instructions, index, pending => do
    let s ← Work.get
    let value ← checked (instructionValue constants inputs index s.values instruction)
    let values ← checked (setAt s.values instruction.destination value "destination")
    Work.modify (setValues values)
    let pending ← writeOutputsInto index value pending
    executeInto constants inputs instructions (index + 1) pending

/-- `calculate_json_into`, on the vectors it is handed. -/
def calculateInPlace (g : SageGraph) (serde : SerdeJson) (json : String) : Evaluation Unit := do
  let inputs ← Work.lift
    (stopping (buildInputBuffer serde g.inputMapping g.inputBufferLen json g.limits))
  let s ← Work.get
  Work.modify (setValues (Buffer.resize s.values g.slots 0))
  Work.modify (setAssignment (Buffer.resize s.assignment g.signalCount 0))
  let pending ← executeInto g.constants inputs g.instructions 0 g.outputs
  Work.refuse (pending ≠ []) (.compiledIndex "output write")
  checkOne

end SageGraph

/-! ## The workspace -/

/-- `size_of::<Fr>()`. -/
def frBytes : Nat := 32

structure WitnessWorkspace where
  values : Buffer Fr
  assignment : Buffer Fr
  limit : Nat

namespace WitnessWorkspace

def new (maxRetainedBytes : Nat) : WitnessWorkspace := ⟨.new, .new, maxRetainedBytes⟩

def retainedBytes (w : WitnessWorkspace) : Nat :=
  (w.values.capacity + w.assignment.capacity) * frBytes

def clear (w : WitnessWorkspace) : WitnessWorkspace :=
  let w := { w with values := w.values.zeroize, assignment := w.assignment.zeroize }
  if w.retainedBytes > w.limit then { w with values := .new, assignment := .new } else w

/-- What the allocations hold behind the elements where a call leaves them. -/
structure Spare where
  values : List Fr
  assignment : List Fr

/-- A call on the two vectors. -/
def run {α : Type} (w : WitnessWorkspace) (spare : Spare) (x : Evaluation α) :
    Except (Stop WitnessError) α × WitnessWorkspace :=
  let r := x ⟨w.values.live, w.assignment.live⟩
  (r.1, { w with
    values := ⟨r.2.values, spare.values⟩
    assignment := ⟨r.2.assignment, spare.assignment⟩ })

/-- Nothing of a witness is left. -/
def Clean (w : WitnessWorkspace) : Prop := w.values.Wiped ∧ w.assignment.Wiped

theorem new_clean (limit : Nat) : (new limit).Clean := ⟨Buffer.new_wiped, Buffer.new_wiped⟩

theorem clear_clean (w : WitnessWorkspace) : w.clear.Clean := by
  unfold clear
  dsimp only
  split
  · exact ⟨Buffer.new_wiped, Buffer.new_wiped⟩
  · exact ⟨Buffer.zeroize_wiped _, Buffer.zeroize_wiped _⟩

theorem clear_limit (w : WitnessWorkspace) : w.clear.limit = w.limit := by
  unfold clear
  dsimp only
  split
  · rfl
  · rfl

theorem clear_retained (w : WitnessWorkspace) : w.clear.retainedBytes ≤ w.limit := by
  unfold clear
  dsimp only
  split
  · exact Nat.zero_le _
  · rename_i h
    exact Nat.le_of_not_lt h

end WitnessWorkspace

end Curvy.Witness
