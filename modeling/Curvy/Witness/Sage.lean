import Curvy.Lib.Loop
import Curvy.Witness.Graph

/-!
# The slot-allocated graph evaluator

The compiler's two passes over the wire bytes and the evaluator over recycled slots.
Stacks keep their top at the head of the list. The outputs still to be written stand for
`output_index`.
-/

namespace Curvy.Witness

set_option autoImplicit false

inductive Kind where
  | input
  | constant
  | inverse
  | operation (operation : Operation)
  deriving DecidableEq, Repr

structure Instruction where
  left : Nat
  right : Nat
  destination : Nat
  kind : Kind
  deriving DecidableEq, Repr

structure OutputWrite where
  node : Nat
  signal : Nat
  deriving DecidableEq, Repr

structure SageGraph where
  limits : Limits
  instructions : List Instruction
  constants : List Fr
  outputs : List OutputWrite
  inputMapping : List InputMapping
  inputBufferLen : Nat
  signalCount : Nat
  slots : Nat
  r1csSha256 : List UInt8
  sourceGraphSha256 : List UInt8
  deriving DecidableEq

namespace Sage

/-! ## Checked accesses -/

def indexU32 (value : Nat) (what : String) : Except WitnessError Nat :=
  if value < 2 ^ 32 then .ok value else .error (.compiledIndex what)

def getAt {α : Type} (values : List α) (index : Nat) (what : String) : Except WitnessError α :=
  match values[index]? with
  | some value => .ok value
  | none => .error (.compiledIndex what)

def setAt {α : Type} (values : List α) (index : Nat) (value : α) (what : String) :
    Except WitnessError (List α) :=
  match values.put index value with
  | some values => .ok values
  | none => .error (.compiledIndex what)

/-! ## Pass one: liveness -/

/-- `index as u32`. -/
def asU32 (index : Nat) : Nat := index % 2 ^ 32

def mark (index reference : Nat) (lastUse : List Nat) : Except WitnessError (List Nat) :=
  setAt lastUse reference (asU32 index) "node liveness"

def markStep (index : Nat) (record : NodeRecord) (s : List Nat × CostMeter) :
    Except WitnessError (List Nat × CostMeter) := do
  let cost ← s.2.chargeRecord record
  match record with
  | .operation _ left right => do
    let lastUse ← mark index left s.1
    let lastUse ← mark index right lastUse
    return (lastUse, cost)
  | .inverse source => do
    let lastUse ← mark index source s.1
    return (lastUse, cost)
  | .input _ | .constant _ => return (s.1, cost)

/-! ## Pass two: slots -/

structure Slots where
  instructions : List Instruction
  constants : List Fr
  nodeSlots : List Nat
  freeSlots : List Nat
  slotOwner : List Nat
  deriving DecidableEq

/-- Operand fields of the instruction, its kind, the constant pool after it, and the nodes
it may release. -/
structure Operands where
  left : Nat
  right : Nat
  kind : Kind
  constants : List Fr
  releases : List Nat
  deriving DecidableEq

def operands (s : Slots) (index : Nat) (record : NodeRecord) : Except WitnessError Operands :=
  match record with
  | .operation operation left right => do
    return {
      left := ← getAt s.nodeSlots left "left operand slot"
      right := ← getAt s.nodeSlots right "right operand slot"
      kind := .operation operation
      constants := s.constants
      releases := if left ≠ right then [left, right] else [left] }
  | .input input => do
    return {
      left := ← indexU32 input "input index", right := 0, kind := .input
      constants := s.constants, releases := [] }
  | .constant encoded => do
    let constantIndex ← indexU32 s.constants.length "constant index"
    let value ← constantFromBytes encoded index
    return {
      left := constantIndex, right := 0, kind := .constant
      constants := s.constants ++ [value], releases := [] }
  | .inverse source => do
    return {
      left := ← getAt s.nodeSlots source "inverse operand slot", right := 0, kind := .inverse
      constants := s.constants, releases := [source] }

def release (lastUse : List Nat) (index : Nat) (s : Slots) (reference : Nat) :
    Except WitnessError Slots := do
  if (← getAt lastUse reference "operand liveness") = index then
    return { s with freeSlots := (← getAt s.nodeSlots reference "released slot") :: s.freeSlots }
  else return s

/-- Takes a released slot, refusing one that a later instruction still reads, or mints one. -/
def chooseDestination (lastUse : List Nat) (index : Nat) (s : Slots) :
    Except WitnessError (Nat × Slots) :=
  match s.freeSlots with
  | slot :: freeSlots => do
    let owner ← getAt s.slotOwner slot "recycled slot owner"
    refuseIf ((← getAt lastUse owner "recycled slot liveness") > index)
      (.invariant "recycled a slot that is still live")
    let slotOwner ← setAt s.slotOwner slot (asU32 index) "recycled slot owner"
    return (slot, { s with freeSlots, slotOwner })
  | [] => do
    let slot ← indexU32 s.slotOwner.length "slot count"
    return (slot, { s with slotOwner := s.slotOwner ++ [asU32 index] })

def assignStep (lastUse : List Nat) (index : Nat) (record : NodeRecord) (s : Slots) :
    Except WitnessError Slots := do
  let ops ← operands s index record
  let s ← ops.releases.foldlM (release lastUse index) { s with constants := ops.constants }
  let (destination, s) ← chooseDestination lastUse index s
  let nodeSlots ← setAt s.nodeSlots index destination "destination slot"
  let instruction : Instruction := { left := ops.left, right := ops.right, destination, kind := ops.kind }
  let unread := (← getAt lastUse index "node liveness") = index
  return { s with
    instructions := s.instructions ++ [instruction]
    nodeSlots
    freeSlots := if unread then destination :: s.freeSlots else s.freeSlots }

/-! ## Compilation -/

def outputWrites : List Nat → Nat → Except WitnessError (List OutputWrite)
  | [], _ => return []
  | node :: signals, signal => do
    let output : OutputWrite := {
      node := ← indexU32 node "output reference", signal := ← indexU32 signal "output signal" }
    return output :: (← outputWrites signals (signal + 1))

/-- The sort key `(node, signal)`. -/
def outputBefore (a b : OutputWrite) : Bool :=
  decide (a.node < b.node ∨ a.node = b.node ∧ a.signal ≤ b.signal)

def compile (signetV2 : Bool) (bytes : List UInt8) (limits : Limits)
    (sourceGraphSha256 : List UInt8) : Except WitnessError SageGraph := do
  let (header, body) ← readHeader signetV2 limits bytes
  preflightBodySize header body.length
  let initial := (List.range header.nodeCount).map asU32
  let ((lastUse, _), rest) ←
    forRecords header markStep header.nodeCount 0 (initial, CostMeter.new limits) body
  let nodeSectionEnd := rest.length
  let (signals, rest) ← readOutputReferences header rest
  let (inputMapping, rest) ← readInputMappings header rest
  refuseIf (rest ≠ []) .trailingBytes
  let outputs ← outputWrites signals 0
  let outputs := outputs.mergeSort outputBefore
  let (_, body) ← readHeader signetV2 limits bytes
  let slots : Slots := {
    instructions := [], constants := [], nodeSlots := List.replicate header.nodeCount 0
    freeSlots := [], slotOwner := [] }
  let (slots, rest) ← forRecords header (assignStep lastUse) header.nodeCount 0 slots body
  refuseIf (rest.length ≠ nodeSectionEnd)
    (.invariant "the two decode passes disagreed on the node section")
  return {
    limits
    instructions := slots.instructions
    constants := slots.constants
    outputs, inputMapping
    inputBufferLen := header.inputBufferLen
    signalCount := header.signalCount
    slots := slots.slotOwner.length
    r1csSha256 := header.r1csSha256
    sourceGraphSha256 }

end Sage

/-! ## Evaluation -/

namespace SageGraph

open Sage

structure Run where
  values : List Fr
  assignment : List Fr
  pending : List OutputWrite

def instructionValue (constants inputs : List Fr) (index : Nat) (values : List Fr)
    (instruction : Instruction) : Except WitnessError Fr :=
  match instruction.kind with
  | .input => getAt inputs instruction.left "input"
  | .constant => getAt constants instruction.left "constant"
  | .inverse => do
    return (Fr.inverse (← getAt values instruction.left "inverse source")).getD 0
  | .operation operation => do
    let left ← getAt values instruction.left "left source"
    let right ← getAt values instruction.right "right source"
    operation.evaluate index left right

/-- Copies a fresh value to every assignment position of its node. -/
def writeOutputs (index : Nat) (value : Fr) :
    List OutputWrite → List Fr → Except WitnessError (List OutputWrite × List Fr)
  | [], assignment => return ([], assignment)
  | output :: outputs, assignment =>
    if output.node = index then do
      let assignment ← setAt assignment output.signal value "output signal"
      writeOutputs index value outputs assignment
    else return (output :: outputs, assignment)

def execute (constants inputs : List Fr) (index : Nat) (s : Run) (instruction : Instruction) :
    Except WitnessError Run := do
  let value ← instructionValue constants inputs index s.values instruction
  let values ← setAt s.values instruction.destination value "destination"
  let (pending, assignment) ← writeOutputs index value s.pending s.assignment
  return { values, assignment, pending }

def executeAll (constants inputs : List Fr) :
    List Instruction → Nat → Run → Except WitnessError Run
  | [], _, s => return s
  | instruction :: instructions, index, s => do
    let s ← execute constants inputs index s instruction
    executeAll constants inputs instructions (index + 1) s

def finish (s : Run) : Except WitnessError (List Fr) :=
  if s.pending ≠ [] then .error (.compiledIndex "output write")
  else if s.assignment.head? ≠ some 1 then .error .invalidAssignmentOne
  else .ok s.assignment

def calculateJson (g : SageGraph) (serde : SerdeJson) (json : String) :
    Option (Except WitnessError (List Fr)) :=
  Outcome.chain (buildInputBuffer serde g.inputMapping g.inputBufferLen json g.limits) fun inputs =>
    let initial : Run := {
      values := List.replicate g.slots 0
      assignment := List.replicate g.signalCount 0
      pending := g.outputs }
    some (do finish (← executeAll g.constants inputs g.instructions 0 initial))

end SageGraph

end Curvy.Witness
