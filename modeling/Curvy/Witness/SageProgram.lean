import Curvy.Lib.Codec
import Curvy.Witness.Sage

/-!
# Compiled programs

A compiled graph is kept as a program of fixed-width little-endian fields: a header with
the digests and the counts, the instructions, the constant pool, the outputs and the
input mappings. Loading checks every count, tag and index again.
-/

namespace Curvy.Witness.Sage

set_option autoImplicit false

def programMagic : List UInt8 := [0x53, 0x41, 0x47, 0x45, 0x50, 0x43, 0x30, 0x31]
def programVersion : Nat := 1
def programHeaderBytes : Nat := 108
def programInstructionBytes : Nat := 16
def programConstantBytes : Nat := 32
def programOutputBytes : Nat := 8
def programInputMappingBytes : Nat := 16

/-! ## Digests in hexadecimal -/

/-- `is_ascii_hexdigit` with the digit. -/
def hexDigit (byte : UInt8) : Option Nat :=
  if 0x30 ≤ byte.toNat ∧ byte.toNat ≤ 0x39 then some (byte.toNat - 0x30)
  else if 0x41 ≤ byte.toNat ∧ byte.toNat ≤ 0x46 then some (byte.toNat - 0x37)
  else if 0x61 ≤ byte.toNat ∧ byte.toNat ≤ 0x66 then some (byte.toNat - 0x57)
  else none

def hexBytes : List UInt8 → Except WitnessError (List UInt8)
  | high :: low :: rest =>
    match hexDigit high, hexDigit low with
    | some high, some low => do
      let bytes ← hexBytes rest
      return UInt8.ofNat (16 * high + low) :: bytes
    | _, _ => throw .invalidExpectedHash
  | _ => return []

def decodeSha256 (value : String) : Except WitnessError (List UInt8) := do
  let bytes := value.toUTF8.data.toList
  refuseIf (bytes.length ≠ 64 ∨ ¬ bytes.all fun byte => (hexDigit byte).isSome) .invalidExpectedHash
  hexBytes bytes

def hexChar (digit : Nat) : Char := "0123456789abcdef".toList.getD digit '0'

def hex (bytes : List UInt8) : String :=
  String.ofList (bytes.flatMap fun byte => [hexChar (byte.toNat / 16), hexChar (byte.toNat % 16)])

/-! ## Sizes and tags -/

/-- The size of a program, unless it overflows a word. -/
def checkedProgramSize (instructions constants outputs mappings : Nat) : Option Nat := do
  let size ← checkedUsize (instructions * programInstructionBytes)
  let size ← checkedUsize (programHeaderBytes + size)
  let size ← checkedUsize (size + (← checkedUsize (constants * programConstantBytes)))
  let size ← checkedUsize (size + (← checkedUsize (outputs * programOutputBytes)))
  checkedUsize (size + (← checkedUsize (mappings * programInputMappingBytes)))

def programSize (instructions constants outputs mappings : Nat) : Except WitnessError Nat :=
  match checkedProgramSize instructions constants outputs mappings with
  | some size => .ok size
  | none => .error (.invalidSageProgram "size overflow")

def operationTag : Operation → Nat
  | .mul => 0 | .montgomeryMul => 1 | .add => 2 | .sub => 3 | .eq => 4 | .neq => 5 | .lt => 6
  | .gt => 7 | .leq => 8 | .geq => 9 | .logicalOr => 10 | .shl => 11 | .shr => 12
  | .bitAnd => 13 | .neg => 14 | .inv => 15 | .div => 16 | .mod => 17 | .pow => 18
  | .logicalAnd => 19 | .integerDiv => 20 | .bitXor => 21 | .bitOr => 22

def kindTags : Kind → Nat × Nat
  | .input => (0, 0)
  | .constant => (1, 0)
  | .inverse => (2, 0)
  | .operation operation => (3, operationTag operation)

/-! ## Encoding -/

def pushInstruction (instruction : Instruction) : List UInt8 :=
  leBytes 4 instruction.left ++ leBytes 4 instruction.right ++ leBytes 4 instruction.destination ++
    leBytes 1 (kindTags instruction.kind).1 ++ leBytes 1 (kindTags instruction.kind).2 ++
    leBytes 2 0

def pushConstant (constant : Fr) : Except WitnessError (List UInt8) := do
  let encoded := leBytes 32 constant.val
  refuseIf (encoded.length ≠ programConstantBytes)
    (.invariant "BN254 scalar serialization changed width")
  return encoded

def pushOutput (output : OutputWrite) : List UInt8 :=
  leBytes 4 output.node ++ leBytes 4 output.signal

def pushMapping (mapping : InputMapping) : Except WitnessError (List UInt8) := do
  let signalId ← indexU32 mapping.signalId "input signal id"
  let signalSize ← indexU32 mapping.signalSize "input signal size"
  return leBytes 8 mapping.hash ++ leBytes 4 signalId ++ leBytes 4 signalSize

/-- The pieces of a table one after the other. -/
def pushEach {α : Type} (push : α → Except WitnessError (List UInt8)) :
    List α → Except WitnessError (List UInt8)
  | [] => return []
  | a :: values => do
    let bytes ← push a
    let rest ← pushEach push values
    return bytes ++ rest

def encodeProgram (graph : SageGraph) : Except WitnessError (List UInt8) := do
  let instructionCount ← indexU32 graph.instructions.length "instruction count"
  let constantCount ← indexU32 graph.constants.length "constant count"
  let outputCount ← indexU32 graph.outputs.length "output count"
  let mappingCount ← indexU32 graph.inputMapping.length "input mapping count"
  let inputBufferLen ← indexU32 graph.inputBufferLen "input buffer length"
  let signalCount ← indexU32 graph.signalCount "signal count"
  let slots ← indexU32 graph.slots "slot count"
  let size ← programSize graph.instructions.length graph.constants.length graph.outputs.length
    graph.inputMapping.length
  refuseIf (size > graph.limits.sageProgramBytes)
    (.sageProgramTooLarge graph.limits.sageProgramBytes)
  let header := programMagic ++ leBytes 4 programVersion ++ leBytes 4 programHeaderBytes ++
    graph.sourceGraphSha256 ++ graph.r1csSha256 ++
    [instructionCount, constantCount, outputCount, mappingCount, inputBufferLen, signalCount,
      slots].flatMap (leBytes 4)
  let instructions := graph.instructions.flatMap pushInstruction
  let constants ← pushEach pushConstant graph.constants
  let outputs := graph.outputs.flatMap pushOutput
  let mappings ← pushEach pushMapping graph.inputMapping
  let bytes := header ++ instructions ++ constants ++ outputs ++ mappings
  refuseIf (bytes.length ≠ size)
    (.invariant "compiled SAGE size calculation disagreed with encoder")
  return bytes

/-! ## Decoding -/

namespace ProgramReader

def array (length : Nat) : Reader (List UInt8) :=
  Decoder.takeOr (.invalidSageProgram "truncated") length

def uint (length : Nat) : Reader Nat := Decoder.leOr (.invalidSageProgram "truncated") length

def u8 : Reader Nat := uint 1
def u16 : Reader Nat := uint 2
def u32 : Reader Nat := uint 4
def u64 : Reader Nat := uint 8

def isEmpty : Reader Bool := fun remaining => .ok (remaining = [], remaining.drop 1)

end ProgramReader

structure ProgramHeader where
  sourceGraphSha256 : List UInt8
  r1csSha256 : List UInt8
  instructionCount : Nat
  constantCount : Nat
  outputCount : Nat
  inputMappingCount : Nat
  inputBufferLen : Nat
  signalCount : Nat
  slots : Nat
  deriving DecidableEq, Repr

/-- The magic, the version and the length of the header. -/
def decodePreamble : Reader Unit := do
  let magic ← ProgramReader.array 8
  refuseIf (magic ≠ programMagic) (.invalidSageProgram "invalid header")
  let version ← ProgramReader.u32
  refuseIf (version ≠ programVersion) (.invalidSageProgram "unsupported version")
  let headerBytes ← ProgramReader.u32
  refuseIf (headerBytes ≠ programHeaderBytes) (.invalidSageProgram "unsupported version")

def decodeHeader (expectedSourceGraphSha256 : String) : Reader ProgramHeader := do
  let _ ← decodePreamble
  let sourceGraphSha256 ← ProgramReader.array 32
  let expectedSource ← decodeSha256 expectedSourceGraphSha256
  refuseIf (sourceGraphSha256 ≠ expectedSource)
    (.sageSourceHashMismatch (hex expectedSource) (hex sourceGraphSha256))
  let r1csSha256 ← ProgramReader.array 32
  let instructionCount ← ProgramReader.u32
  let constantCount ← ProgramReader.u32
  let outputCount ← ProgramReader.u32
  let inputMappingCount ← ProgramReader.u32
  let inputBufferLen ← ProgramReader.u32
  let signalCount ← ProgramReader.u32
  let slots ← ProgramReader.u32
  return {
    sourceGraphSha256, r1csSha256, instructionCount, constantCount, outputCount
    inputMappingCount, inputBufferLen, signalCount, slots }

def checkCount (what : String) (actual maximum : Nat) : Except WitnessError Unit :=
  refuseIf (actual > maximum) (.countLimit what actual maximum)

def checkDimensions (limits : Limits) (header : ProgramHeader) : Except WitnessError Unit := do
  checkCount "instructions" header.instructionCount limits.nodes
  checkCount "constants" header.constantCount limits.nodes
  checkCount "outputs" header.outputCount limits.signals
  checkCount "input mappings" header.inputMappingCount limits.inputMappings
  checkCount "input buffer" header.inputBufferLen limits.inputValues
  checkCount "signals" header.signalCount limits.signals
  refuseIf (header.instructionCount = 0 ∨ header.inputBufferLen = 0 ∨ header.signalCount = 0 ∨
      header.slots = 0 ∨ header.slots > header.instructionCount ∨
      header.constantCount > header.instructionCount ∨ header.outputCount ≠ header.signalCount)
    (.invalidSageProgram "invalid dimensions")

def checkSize (limits : Limits) (declaredSize : Option Nat) (header : ProgramHeader) :
    Except WitnessError Unit := do
  let expectedSize ← programSize header.instructionCount header.constantCount header.outputCount
    header.inputMappingCount
  refuseIf (expectedSize > limits.sageProgramBytes) (.sageProgramTooLarge limits.sageProgramBytes)
  refuseIf (declaredSize.any fun declared => expectedSize ≠ declared)
    (.invalidSageProgram "size mismatch")

/-- The kind behind the two tag bytes, its operands in bounds. -/
def decodeKind (header : ProgramHeader) (index left right kindTag operationTag : Nat) :
    Except WitnessError Kind :=
  if kindTag = 0 ∧ operationTag = 0 ∧ left < header.inputBufferLen ∧ right = 0 then .ok .input
  else if kindTag = 1 ∧ operationTag = 0 ∧ left < header.constantCount ∧ right = 0 then
    .ok .constant
  else if kindTag = 2 ∧ operationTag = 0 ∧ left < header.slots ∧ right = 0 then .ok .inverse
  else if kindTag = 3 ∧ left < header.slots ∧ right < header.slots then do
    let operation ← Operation.fromTag operationTag index
    return .operation operation
  else .error (.invalidSageProgram "instruction operand is out of bounds")

def Kind.cost : Kind → Nat
  | .input | .constant => loadCost
  | .inverse => inverseCost
  | .operation operation => operation.cost

/-- The slots an instruction reads. -/
def Instruction.operands (instruction : Instruction) : List Nat :=
  match instruction.kind with
  | .input | .constant => []
  | .inverse => [instruction.left]
  | .operation _ => [instruction.left, instruction.right]

/-- The state of the instruction loop. -/
structure ProgramCheck where
  index : Nat
  cost : CostMeter
  definedSlots : List Bool

/-- The operands of a decoded kind index `definedSlots` in range. -/
def decodeInstruction (header : ProgramHeader) (s : ProgramCheck) :
    Reader (Instruction × ProgramCheck) := do
  let left ← ProgramReader.u32
  let right ← ProgramReader.u32
  let destination ← ProgramReader.u32
  let kindTag ← ProgramReader.u8
  let operationTag ← ProgramReader.u8
  let padding ← ProgramReader.u16
  refuseIf (padding ≠ 0 ∨ destination ≥ header.slots)
    (.invalidSageProgram "invalid instruction encoding")
  let kind ← decodeKind header s.index left right kindTag operationTag
  let cost ← s.cost.charge (Kind.cost kind)
  let instruction : Instruction := ⟨left, right, destination, kind⟩
  refuseIf ((Instruction.operands instruction).any fun slot => !s.definedSlots.getD slot false)
    (.invalidSageProgram "instruction reads a slot before it is written")
  return (instruction, ⟨s.index + 1, cost, s.definedSlots.set destination true⟩)

def decodeConstant (index : Nat) : Reader (Fr × Nat) := do
  let encoded ← ProgramReader.array 32
  let constant ← constantFromBytes encoded index
  return (constant, index + 1)

/-- The signals already seen and the previous row of the output table. -/
structure OutputCheck where
  seenSignals : List Bool
  previous : Option (Nat × Nat)

def decodeOutput (header : ProgramHeader) (s : OutputCheck) :
    Reader (OutputWrite × OutputCheck) := do
  let node ← ProgramReader.u32
  let signal ← ProgramReader.u32
  refuseIf (node ≥ header.instructionCount ∨ signal ≥ header.signalCount ∨
      s.seenSignals.getD signal false ∨
      s.previous.any fun previous =>
        previous.1 > node ∨ previous.1 = node ∧ previous.2 > signal)
    (.invalidSageProgram "invalid output table")
  return (⟨node, signal⟩, ⟨s.seenSignals.set signal true, some (node, signal)⟩)

/-- The hashes already taken. -/
structure MappingCheck where
  index : Nat
  hashes : List Nat

def decodeMapping (header : ProgramHeader) (s : MappingCheck) :
    Reader (InputMapping × MappingCheck) := do
  let hash ← ProgramReader.u64
  let signalId ← ProgramReader.u32
  let signalSize ← ProgramReader.u32
  refuseIf (hash ∈ s.hashes) (.duplicateInputHash hash)
  refuseIf (signalId = 0 ∨ signalSize = 0 ∨ signalId + signalSize > header.inputBufferLen)
    (.inputMappingRange s.index)
  return ({ hash, signalId, signalSize }, ⟨s.index + 1, hash :: s.hashes⟩)

def decodeProgram (declaredSize : Option Nat) (expectedSourceGraphSha256 : String)
    (limits : Limits) (source : List UInt8) : Except WitnessError SageGraph := do
  let (header, source) ← decodeHeader expectedSourceGraphSha256 source
  checkDimensions limits header
  checkSize limits declaredSize header
  let ((instructions, _), source) ← Decoder.scan (decodeInstruction header) header.instructionCount
    ⟨0, CostMeter.new limits, List.replicate header.slots false⟩ source
  let ((constants, _), source) ← Decoder.scan decodeConstant header.constantCount 0 source
  let ((outputs, check), source) ← Decoder.scan (decodeOutput header) header.outputCount
    ⟨List.replicate header.signalCount false, none⟩ source
  refuseIf (check.seenSignals.any fun seen => !seen)
    (.invalidSageProgram "output table omits a signal")
  let ((inputMapping, _), source) ←
    Decoder.scan (decodeMapping header) header.inputMappingCount ⟨0, []⟩ source
  checkInputRanges (inputMapping.map fun m => (m.signalId, m.signalSize))
  let (isEmpty, _) ← ProgramReader.isEmpty source
  refuseIf (¬ isEmpty) (.invalidSageProgram "trailing bytes")
  return {
    limits, instructions, constants, outputs, inputMapping
    inputBufferLen := header.inputBufferLen
    signalCount := header.signalCount
    slots := header.slots
    r1csSha256 := header.r1csSha256
    sourceGraphSha256 := header.sourceGraphSha256 }

end Curvy.Witness.Sage
