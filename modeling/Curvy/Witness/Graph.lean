import Curvy.Lib.Outcome
import Curvy.Witness.Input

/-!
# The witness graph

The wire decoder shared by both evaluators, `parse_graph`, and the evaluator that keeps
one value per node. `signetV2` says whether the version-2 body encoding is built in.
-/

namespace Curvy.Witness

set_option autoImplicit false

inductive FormatVersion where
  | v1
  | v2
  deriving DecidableEq, Repr

/-- One decoded record; a constant is still encoded. -/
inductive NodeRecord where
  | input (input : Nat)
  | constant (encoded : List UInt8)
  | operation (operation : Operation) (left right : Nat)
  | inverse (source : Nat)
  deriving DecidableEq, Repr

inductive Node where
  | input (input : Nat)
  | constant (value : Fr)
  | operation (operation : Operation) (left right : Nat)
  | inverse (source : Nat)
  deriving DecidableEq

structure Header where
  magic : List UInt8
  version : FormatVersion
  r1csSha256 : List UInt8
  nodeCount : Nat
  signalCount : Nat
  inputMappingCount : Nat
  inputBufferLen : Nat
  deriving DecidableEq, Repr

structure WitnessGraph where
  limits : Limits
  nodes : List Node
  signals : List Nat
  inputMapping : List InputMapping
  inputBufferLen : Nat
  r1csSha256 : List UInt8
  magic : List UInt8
  formatVersion : Nat
  deriving DecidableEq

/-! ## Header -/

def checkedCount (what : String) (actual maximum : Nat) : Except WitnessError Nat := do
  refuseIf (actual > maximum) (.countLimit what actual maximum)
  return actual

def readVersion (signetV2 : Bool) (version : Nat) : Except WitnessError FormatVersion :=
  if version = Wire.formatVersionV1 then .ok .v1
  else if signetV2 ∧ version = Wire.formatVersionV2 then .ok .v2
  else .error (.unsupportedVersion version)

def readHeader (signetV2 : Bool) (limits : Limits) : Reader Header := do
  let magic ← Reader.take 8
  refuseIf (¬ (magic = Wire.legacyMagic ∨ magic = Wire.magic)) .invalidMagic
  let version ← readVersion signetV2 (← Reader.u16)
  let field ← Reader.u16
  refuseIf (field ≠ Wire.fieldBn254Fr) (.unsupportedField field)
  let headerSize ← Reader.u32
  refuseIf (headerSize ≠ Wire.headerSize) (.invalidHeaderSize headerSize)
  let r1csSha256 ← Reader.take 32
  let nodeCount ← checkedCount "node" (← Reader.u32) limits.nodes
  let signalCount ← checkedCount "signal" (← Reader.u32) limits.signals
  let inputMappingCount ← checkedCount "input mapping" (← Reader.u32) limits.inputMappings
  let inputBufferLen ← checkedCount "input value" (← Reader.u32) limits.inputValues
  refuseIf (nodeCount = 0 ∨ signalCount = 0 ∨ inputBufferLen = 0) .emptyGraph
  return {
    magic, version, r1csSha256, nodeCount, signalCount, inputMappingCount, inputBufferLen }

def checkedUsize (value : Nat) : Option Nat := if value < 2 ^ 64 then some value else none

/-- The least body size the declared counts allow. -/
def minimumBodySize (header : Header) : Option Nat := do
  let (node, signal) := match header.version with
    | .v1 => (5, 4)
    | .v2 => (2, 1)
  let size ← checkedUsize (header.nodeCount * node)
  let size ← checkedUsize (size + (← checkedUsize (header.signalCount * signal)))
  checkedUsize (size + (← checkedUsize (header.inputMappingCount * 16)))

def preflightBodySize (header : Header) (available : Nat) : Except WitnessError Unit :=
  match minimumBodySize header with
  | none => .error .truncated
  | some minimum => refuseIf (available < minimum) .truncated

/-! ## Node records -/

def checkedInput (input index length : Nat) : Except WitnessError NodeRecord := do
  refuseIf (input ≥ length) (.inputReference index input length)
  return .input input

def validateReference (index reference : Nat) : Except WitnessError Unit :=
  refuseIf (reference ≥ index) (.forwardReference index reference)

def decodeBackwardReference (index : Nat) : Reader Nat := do
  let distance ← Reader.varU64
  refuseIf (distance = 0 ∨ distance > index) (.invalidBackwardReference index distance)
  return index - distance

def readNodeRecordV1 (index inputBufferLen : Nat) : Reader NodeRecord := do
  let tag ← Reader.u8
  match tag with
  | 0 => checkedInput (← Reader.u32) index inputBufferLen
  | 1 => return .constant (← Reader.take 32)
  | 2 =>
    let operation ← Operation.fromTag (← Reader.u8) index
    let left ← Reader.u32
    let right ← Reader.u32
    validateReference index left
    validateReference index right
    return .operation operation left right
  | 3 =>
    let source ← Reader.u32
    validateReference index source
    return .inverse source
  | _ => throw (.invalidNodeTag index tag)

def readNodeRecordV2 (index inputBufferLen : Nat) : Reader NodeRecord := do
  let tag ← Reader.u8
  if tag = Wire.v2InputTag then
    checkedInput (← Reader.varU32) index inputBufferLen
  else if tag = Wire.v2ConstantTag then
    return .constant (← Reader.take 32)
  else if tag = Wire.v2InverseTag then
    return .inverse (← decodeBackwardReference index)
  else if tag ≤ 0x7f then
    let operation ← Operation.fromTag tag index
    let left ← decodeBackwardReference index
    let right ← decodeBackwardReference index
    return .operation operation left right
  else throw (.invalidNodeTag index tag)

def readNodeRecord (version : FormatVersion) (index inputBufferLen : Nat) : Reader NodeRecord :=
  match version with
  | .v1 => readNodeRecordV1 index inputBufferLen
  | .v2 => readNodeRecordV2 index inputBufferLen

def constantFromBytes (encoded : List UInt8) (index : Nat) : Except WitnessError Fr :=
  match Fr.ofBigint (leNat encoded) with
  | some value => .ok value
  | none => .error (.nonCanonicalConstant index)

/-- `for index in 0..node_count`: decodes a record and hands it to the loop's body. -/
def forRecords {σ : Type} (header : Header) (body : Nat → NodeRecord → σ → Except WitnessError σ) :
    Nat → Nat → σ → Reader σ
  | 0, _, s => return s
  | count + 1, index, s => do
    let record ← readNodeRecord header.version index header.inputBufferLen
    let s ← body index record s
    forRecords header body count (index + 1) s

/-! ## Evaluation cost -/

structure CostMeter where
  spent : Nat
  maximum : Nat
  deriving DecidableEq, Repr

namespace CostMeter

def new (limits : Limits) : CostMeter := ⟨0, limits.evaluationCost⟩

def charge (meter : CostMeter) (cost : Nat) : Except WitnessError CostMeter :=
  let spent := min (meter.spent + cost) (2 ^ 64 - 1)
  if spent > meter.maximum then .error (.evaluationCostLimit meter.maximum)
  else .ok { meter with spent }

def recordCost : NodeRecord → Nat
  | .input _ | .constant _ => loadCost
  | .operation operation _ _ => operation.cost
  | .inverse _ => inverseCost

def chargeRecord (meter : CostMeter) (record : NodeRecord) : Except WitnessError CostMeter :=
  meter.charge (recordCost record)

end CostMeter

/-! ## Outputs and input mappings -/

def readSignalsV1 (nodeCount : Nat) : Nat → Nat → Reader (List Nat)
  | 0, _ => return []
  | count + 1, index => do
    let reference ← Reader.u32
    refuseIf (reference ≥ nodeCount) (.outputReference index reference)
    return reference :: (← readSignalsV1 nodeCount count (index + 1))

def decodeOutputDelta (previous nodeCount index : Nat) : Reader Nat := do
  let encoded ← Reader.varU64
  let magnitude : Int := encoded >>> 1
  let delta := if encoded &&& 1 = 0 then magnitude else -magnitude - 1
  let reference := (previous : Int) + delta
  refuseIf (reference < 0 ∨ reference ≥ nodeCount) (.outputDelta index)
  return reference.toNat

def readSignalsV2 (nodeCount : Nat) : Nat → Nat → Nat → Reader (List Nat)
  | 0, _, _ => return []
  | count + 1, index, previous => do
    let reference ← decodeOutputDelta previous nodeCount index
    return reference :: (← readSignalsV2 nodeCount count (index + 1) reference)

def readOutputReferences (header : Header) : Reader (List Nat) :=
  match header.version with
  | .v1 => readSignalsV1 header.nodeCount header.signalCount 0
  | .v2 => readSignalsV2 header.nodeCount header.signalCount 0 0

/-- The nesting scan over `(index, start, size)` in sorted order; `enclosing` is the stack
of the ends of the ranges around the current one. -/
def scanRanges : List (Nat × Nat × Nat) → List Nat → Except WitnessError Unit
  | [], _ => .ok ()
  | (index, start, size) :: order, enclosing =>
    let enclosing := enclosing.dropWhile (fun outerEnd => outerEnd ≤ start)
    if enclosing.head?.any (fun outerEnd => start + size > outerEnd) then
      .error (.inputMappingOverlap index)
    else scanRanges order ((start + size) :: enclosing)

/-- By start, and the enclosing range first when two start together. -/
def rangeBefore (a b : Nat × Nat × Nat) : Bool :=
  decide (a.2.1 < b.2.1 ∨ a.2.1 = b.2.1 ∧ b.2.2 ≤ a.2.2)

def checkInputRanges (ranges : List (Nat × Nat)) : Except WitnessError Unit :=
  let order := ranges.zipIdx.map fun (range, index) => (index, range)
  scanRanges (order.mergeSort rangeBefore) []

def readMapping (header : Header) (index : Nat) (hashes : List Nat) : Reader InputMapping := do
  let hash ← Reader.u64
  let signalId ← Reader.u32
  let signalSize ← Reader.u32
  refuseIf (hash ∈ hashes) (.duplicateInputHash hash)
  refuseIf (signalId = 0 ∨ signalSize = 0 ∨ signalId + signalSize > header.inputBufferLen)
    (.inputMappingRange index)
  return { hash, signalId, signalSize }

def readMappingsFrom (header : Header) : Nat → Nat → List Nat → Reader (List InputMapping)
  | 0, _, _ => return []
  | count + 1, index, hashes => do
    let mapping ← readMapping header index hashes
    return mapping :: (← readMappingsFrom header count (index + 1) (mapping.hash :: hashes))

def readInputMappings (header : Header) : Reader (List InputMapping) := do
  let mappings ← readMappingsFrom header header.inputMappingCount 0 []
  checkInputRanges (mappings.map fun m => (m.signalId, m.signalSize))
  return mappings

/-! ## Parsing -/

def materialize (index : Nat) : NodeRecord → Except WitnessError Node
  | .input input => .ok (.input input)
  | .constant encoded => do return .constant (← constantFromBytes encoded index)
  | .operation operation left right => .ok (.operation operation left right)
  | .inverse source => .ok (.inverse source)

/-- Body of the parsing loop over the nodes so far and the cost meter. -/
def parseStep (index : Nat) (record : NodeRecord) (s : List Node × CostMeter) :
    Except WitnessError (List Node × CostMeter) := do
  let cost ← s.2.chargeRecord record
  let node ← materialize index record
  return (s.1 ++ [node], cost)

def FormatVersion.number : FormatVersion → Nat
  | .v1 => Wire.formatVersionV1
  | .v2 => Wire.formatVersionV2

def parseGraph (signetV2 : Bool) (bytes : List UInt8) (limits : Limits) :
    Except WitnessError WitnessGraph := do
  let (header, body) ← readHeader signetV2 limits bytes
  preflightBodySize header body.length
  let ((nodes, _), rest) ←
    forRecords header parseStep header.nodeCount 0 ([], CostMeter.new limits) body
  let (signals, rest) ← readOutputReferences header rest
  let (inputMapping, rest) ← readInputMappings header rest
  refuseIf (rest ≠ []) .trailingBytes
  return {
    limits, nodes, signals, inputMapping
    inputBufferLen := header.inputBufferLen
    r1csSha256 := header.r1csSha256
    magic := header.magic
    formatVersion := header.version.number }

/-! ## Evaluation -/

namespace WitnessGraph

open Outcome

def evaluateNode (inputs : List Fr) (index : Nat) (values : List Fr) :
    Node → Option (Except WitnessError Fr)
  | .input input => do some (.ok (← inputs[input]?))
  | .constant value => some (.ok value)
  | .operation operation left right => do
    some (operation.evaluate index (← values[left]?) (← values[right]?))
  | .inverse source => do some (.ok ((Fr.inverse (← values[source]?)).getD 0))

def evaluateNodes (inputs : List Fr) :
    List Node → Nat → List Fr → Option (Except WitnessError (List Fr))
  | [], _, values => some (.ok values)
  | node :: nodes, index, values =>
    chain (evaluateNode inputs index values node) fun value =>
      evaluateNodes inputs nodes (index + 1) (values ++ [value])

def calculateJson (g : WitnessGraph) (serde : SerdeJson) (json : String) :
    Option (Except WitnessError (List Fr)) :=
  chain (buildInputBuffer serde g.inputMapping g.inputBufferLen json g.limits) fun inputs =>
  chain (evaluateNodes inputs g.nodes 0 []) fun values => do
    let assignment ← g.signals.mapM fun index => values[index]?
    if assignment.head? ≠ some 1 then some (.error .invalidAssignmentOne)
    else some (.ok assignment)

end WitnessGraph

end Curvy.Witness
