import Curvy.Lib.Decoder

/-!
# Wire vocabulary of witness graphs

Resource ceilings, errors, operation tags with their evaluation cost, and the byte reader.
Machine integers are naturals; every reader returns a value of its declared width.
-/

namespace Curvy.Witness

set_option autoImplicit false

/-- The ceilings one graph load and its evaluations are held to. -/
structure Limits where
  graphBytes : Nat
  compressedGraphBytes : Nat
  zstdWindowBytes : Nat
  sageProgramBytes : Nat
  inputJsonBytes : Nat
  nodes : Nat
  signals : Nat
  inputMappings : Nat
  inputValues : Nat
  evaluationCost : Nat
  deriving DecidableEq, Repr

def Limits.client : Limits where
  graphBytes := 64 * 1024 * 1024
  compressedGraphBytes := 32 * 1024 * 1024
  zstdWindowBytes := 8 * 1024 * 1024
  sageProgramBytes := 64 * 1024 * 1024
  inputJsonBytes := 16 * 1024 * 1024
  nodes := 2000000
  signals := 2000000
  inputMappings := 4096
  inputValues := 2000000
  evaluationCost := 32000000

/-- A JSON failure: a message raised by the visitor or one of the parser's own. -/
inductive JsonError where
  | custom (message : String)
  | parser (message : String)
  deriving DecidableEq, Repr

inductive WitnessError where
  | invalidExpectedHash
  | inputTooLarge (maximum : Nat)
  | truncated
  | invalidMagic
  | unsupportedVersion (version : Nat)
  | unsupportedField (field : Nat)
  | invalidHeaderSize (size : Nat)
  | countLimit (what : String) (actual maximum : Nat)
  | emptyGraph
  | evaluationCostLimit (maximum : Nat)
  | invalidNodeTag (index tag : Nat)
  | invalidOperation (index tag : Nat)
  | invalidVarint
  | nonCanonicalVarint
  | invalidBackwardReference (index distance : Nat)
  | forwardReference (index reference : Nat)
  | inputReference (index input length : Nat)
  | nonCanonicalConstant (index : Nat)
  | outputReference (index reference : Nat)
  | outputDelta (index : Nat)
  | duplicateInputHash (hash : Nat)
  | inputMappingRange (index : Nat)
  | inputMappingOverlap (index : Nat)
  | trailingBytes
  | invalidInputJson (error : JsonError)
  | unknownInput (name : String)
  | inputLength (name : String) (expected actual : Nat)
  | divisionByZero (index : Nat)
  | invalidShift (index : Nat)
  | invalidAssignmentOne
  | sageProgramTooLarge (maximum : Nat)
  | invalidSageProgram (what : String)
  | sageSourceHashMismatch (expected actual : String)
  | compiledIndex (what : String)
  | invariant (message : String)
  deriving DecidableEq, Repr

/-- The errors that blame the compiler and not the artifact or the input. -/
def WitnessError.internal : WitnessError → Bool
  | .compiledIndex _ => true
  | .invariant _ => true
  | _ => false

/-- A validity check that ends the call with `error`. -/
def refuseIf (bad : Prop) [Decidable bad] (error : WitnessError) : Except WitnessError Unit :=
  if bad then .error error else .ok ()

namespace Wire

def legacyMagic : List UInt8 := [0x43, 0x56, 0x59, 0x57, 0x49, 0x54, 0x30, 0x31]
def magic : List UInt8 := [0x53, 0x49, 0x47, 0x4e, 0x45, 0x54, 0x30, 0x31]
def formatVersionV1 : Nat := 1
def formatVersionV2 : Nat := 2
def fieldBn254Fr : Nat := 1
def headerSize : Nat := 64
def v2InputTag : Nat := 0x80
def v2ConstantTag : Nat := 0x81
def v2InverseTag : Nat := 0x82

end Wire

inductive Operation where
  | mul | montgomeryMul | add | sub | eq | neq | lt | gt | leq | geq | logicalOr | shl | shr
  | bitAnd | neg | inv | div | mod | pow | logicalAnd | integerDiv | bitXor | bitOr
  deriving DecidableEq, Repr

/-- Operations in the order of their tags. -/
def Operation.all : List Operation :=
  [.mul, .montgomeryMul, .add, .sub, .eq, .neq, .lt, .gt, .leq, .geq, .logicalOr, .shl, .shr,
    .bitAnd, .neg, .inv, .div, .mod, .pow, .logicalAnd, .integerDiv, .bitXor, .bitOr]

def Operation.fromTag (tag index : Nat) : Except WitnessError Operation :=
  match Operation.all[tag]? with
  | some operation => .ok operation
  | none => .error (.invalidOperation index tag)

def inverseCost : Nat := 256

def loadCost : Nat := 1

def Operation.cost : Operation → Nat
  | .mul | .montgomeryMul | .add | .sub | .eq | .neq | .logicalOr | .logicalAnd | .neg => 1
  | .lt | .gt | .leq | .geq => 3
  | .shl | .shr | .bitAnd | .bitOr | .bitXor => 24
  | .mod | .integerDiv => 48
  | .inv | .div => inverseCost
  | .pow => 768

/-! ## The reader -/

abbrev Reader (α : Type) := Decoder WitnessError α

namespace Reader

def take (length : Nat) : Reader (List UInt8) := fun remaining =>
  if remaining.length < length then .error .truncated
  else .ok (remaining.take length, remaining.drop length)

def u8 : Reader Nat := leNat <$> take 1
def u16 : Reader Nat := leNat <$> take 2
def u32 : Reader Nat := leNat <$> take 4
def u64 : Reader Nat := leNat <$> take 8

/-- The varint loop from byte `index` on, `rounds` bytes before it gives up. -/
def varU64From : Nat → Nat → Nat → Reader Nat
  | 0, _, _ => throw .invalidVarint
  | rounds + 1, index, value => do
    let byte ← u8
    let payload := byte &&& 0x7f
    refuseIf (index = 9 ∧ byte &&& 0xfe ≠ 0) .invalidVarint
    let value := value ||| payload <<< (index * 7)
    if byte &&& 0x80 = 0 then
      refuseIf (index ≠ 0 ∧ payload = 0) .nonCanonicalVarint
      return value
    else varU64From rounds (index + 1) value

def varU64 : Reader Nat := varU64From 10 0 0

def varU32 : Reader Nat := do
  let value ← varU64
  refuseIf (value ≥ 2 ^ 32) .invalidVarint
  return value

end Reader

end Curvy.Witness
