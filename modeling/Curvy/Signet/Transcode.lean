import Curvy.Lib.Codec
import Curvy.Witness.Graph

/-!
# Transcoding a witness-graph artifact

The body of a raw artifact is decoded and written again in either body version. The
cursor is the transcoder's own; the record and output writers are those of the exporter.
-/

namespace Curvy.Signet

set_option autoImplicit false

open Witness (FormatVersion)

inductive SignetError where
  | tooLarge (what : String)
  | notAPriorNode (what : String) (index : Nat)
  | nonCanonicalConstant (index : Nat)
  | unsupportedBlackBox (name : String) (arity : Nat)
  | notAnArtifact
  | malformedBody (message : String)
  deriving DecidableEq, Repr

def malformed (what : String) : SignetError := .malformedBody what

/-! ## What the header says -/

inductive Envelope where
  | cvywit
  | signet
  deriving DecidableEq, Repr

structure ArtifactHeader where
  envelope : Envelope
  version : Nat
  deriving DecidableEq, Repr

/-- The little-endian integer of `length` bytes at `offset`. -/
def readAt (bytes : List UInt8) (offset length : Nat) : Nat :=
  leNat ((bytes.drop offset).take length)

def envelopeOf (magic : List UInt8) : Option Envelope :=
  if magic = Witness.Wire.legacyMagic then some .cvywit
  else if magic = Witness.Wire.magic then some .signet
  else none

def describe (artifact : List UInt8) : Except SignetError ArtifactHeader :=
  if artifact.length < Witness.Wire.headerSize then .error .notAnArtifact
  else match envelopeOf (artifact.take 8) with
    | none => .error .notAnArtifact
    | some envelope =>
      let version := readAt artifact 8 2
      let field := readAt artifact 10 2
      if field ≠ Witness.Wire.fieldBn254Fr then .error .notAnArtifact
      else if version ≠ Witness.Wire.formatVersionV1 ∧ version ≠ Witness.Wire.formatVersionV2 then
        .error .notAnArtifact
      else .ok { envelope, version }

/-! ## Records -/

inductive Record where
  | input (input : Nat)
  | constant (value : List UInt8)
  | operation (tag left right : Nat)
  | inverse (source : Nat)
  deriving DecidableEq, Repr

def allOperationTags : List Nat := List.range 23

/-! ## The cursor -/

abbrev Body (α : Type) := Decoder SignetError α

namespace Body

def take (count : Nat) : Body (List UInt8) := Decoder.takeOr (malformed "truncated") count

def u8 : Body Nat := Decoder.leOr (malformed "truncated") 1

def u32 : Body Nat := Decoder.leOr (malformed "truncated") 4

def array32 : Body (List UInt8) := take 32

def varU64 : Body Nat :=
  Decoder.varOr u8 (malformed "varint exceeds ten bytes") (malformed "varint exceeds 64 bits")
    (malformed "non-canonical varint") 10 0 0

def operation (tag index : Nat) : Except SignetError Nat :=
  if tag ∈ allOperationTags then .ok tag
  else .error (malformed s!"node {index}: unknown operation tag {tag}")

def prior (reference index : Nat) : Except SignetError Nat :=
  if reference < index then .ok reference
  else .error (malformed s!"node {index}: reference {reference} is not a prior node")

def distance (index : Nat) : Body Nat := do
  let distance ← varU64
  if 1 ≤ distance ∧ distance ≤ index then return index - distance
  else throw (malformed
    s!"node {index}: backward distance {distance} does not reach a prior node")

def recordV1 (tag index : Nat) : Body Record := do
  match tag with
  | 0 => return .input (← u32)
  | 1 => return .constant (← array32)
  | 2 =>
    let tag ← operation (← u8) index
    let left ← prior (← u32) index
    let right ← prior (← u32) index
    return .operation tag left right
  | 3 => return .inverse (← prior (← u32) index)
  | _ => throw (malformed s!"node {index}: unknown node tag {tag}")

def recordV2 (tag index : Nat) : Body Record := do
  if tag = Witness.Wire.v2InputTag then
    let input ← varU64
    if input < 2 ^ 32 then return .input input
    else throw (malformed s!"node {index}: input index exceeds 32 bits")
  else if tag = Witness.Wire.v2ConstantTag then return .constant (← array32)
  else if tag = Witness.Wire.v2InverseTag then return .inverse (← distance index)
  else if tag ≤ 0x7f then
    let tag ← operation tag index
    let left ← distance index
    let right ← distance index
    return .operation tag left right
  else throw (malformed s!"node {index}: unknown node tag {tag}")

def checkInput (record : Record) (index inputBufferLen : Nat) : Except SignetError Unit :=
  match record with
  | .input input =>
    if inputBufferLen ≤ input then
      .error (malformed
        s!"node {index}: input {input} is outside the {inputBufferLen}-value input buffer")
    else .ok ()
  | _ => .ok ()

def recordOf (version : FormatVersion) (tag index : Nat) : Body Record :=
  match version with
  | .v1 => recordV1 tag index
  | .v2 => recordV2 tag index

def record (version : FormatVersion) (index inputBufferLen : Nat) : Body Record := do
  let tag ← u8
  let record ← recordOf version tag index
  checkInput record index inputBufferLen
  return record

/-- The reference an encoded output delta leads to. -/
def signalDelta (previous encoded : Nat) : Int :=
  let magnitude : Int := (encoded >>> 1 : Nat)
  let delta := if encoded &&& 1 = 0 then magnitude else -magnitude - 1
  previous + delta

def reference (version : FormatVersion) (previous : Nat) : Body Int :=
  match version with
  | .v1 => do return Int.ofNat (← u32)
  | .v2 => do return signalDelta previous (← varU64)

def signal (version : FormatVersion) (previous nodeCount index : Nat) : Body Nat := do
  let reference ← reference version previous
  if reference < 0 ∨ nodeCount ≤ reference then
    throw (malformed s!"output {index} does not reference one of the {nodeCount} nodes")
  else return reference.toNat

end Body

/-! ## The writers -/

def checkedU32 (value : Nat) (what : String) : Except SignetError Nat :=
  if value < 2 ^ 32 then .ok value else .error (.tooLarge what)

def backwardDistance (index reference : Nat) (what : String) : Except SignetError Nat :=
  if reference < index then .ok (index - reference) else .error (.notAPriorNode what index)

/-- The loop of the varint writer; a 64-bit value takes at most ten rounds. -/
def pushVarU64From : Nat → List UInt8 → Nat → List UInt8
  | 0, bytes, _ => bytes
  | rounds + 1, bytes, value =>
    if 0x80 ≤ value then
      pushVarU64From rounds (bytes ++ [UInt8.ofNat (value &&& 0x7f ||| 0x80)]) (value >>> 7)
    else bytes ++ [UInt8.ofNat value]

def pushVarU64 (bytes : List UInt8) (value : Nat) : List UInt8 := pushVarU64From 10 bytes value

def pushU32 (bytes : List UInt8) (value : Nat) : List UInt8 := bytes ++ leBytes 4 value

def pushRecord (bytes : List UInt8) (version : FormatVersion) (index : Nat) (record : Record) :
    Except SignetError (List UInt8) := do
  match version, record with
  | .v1, .input input => return pushU32 (bytes ++ [0]) input
  | .v1, .constant value => return bytes ++ [1] ++ value
  | .v1, .operation tag left right =>
    let bytes := bytes ++ [2] ++ [UInt8.ofNat tag]
    let bytes := pushU32 bytes (← checkedU32 left "left reference")
    return pushU32 bytes (← checkedU32 right "right reference")
  | .v1, .inverse source =>
    return pushU32 (bytes ++ [3]) (← checkedU32 source "inverse reference")
  | .v2, .input input => return pushVarU64 (bytes ++ [0x80]) input
  | .v2, .constant value => return bytes ++ [0x81] ++ value
  | .v2, .operation tag left right =>
    let bytes := bytes ++ [UInt8.ofNat tag]
    let bytes := pushVarU64 bytes (← backwardDistance index left "left reference")
    return pushVarU64 bytes (← backwardDistance index right "right reference")
  | .v2, .inverse source =>
    return pushVarU64 (bytes ++ [0x82]) (← backwardDistance index source "inverse reference")

/-- On 64-bit words, as the writer computes it. -/
def zigzag (value : Int) : Nat :=
  let word := BitVec.ofInt 64 value
  ((word <<< 1) ^^^ word.sshiftRight 63).toNat

structure SignalWriter where
  version : FormatVersion
  previous : Int
  deriving DecidableEq, Repr

namespace SignalWriter

def new (version : FormatVersion) : SignalWriter := ⟨version, 0⟩

def push (writer : SignalWriter) (bytes : List UInt8) (signal : Nat) :
    Except SignetError (List UInt8 × SignalWriter) :=
  match writer.version with
  | .v1 => do return (pushU32 bytes (← checkedU32 signal "signal reference"), writer)
  | .v2 =>
    if signal < 2 ^ 63 then
      .ok (pushVarU64 bytes (zigzag (signal - writer.previous)), { writer with previous := signal })
    else .error (.tooLarge "signal reference")

end SignalWriter

/-! ## The transcoder -/

def inputMappingBytes : Nat := 8 + 4 + 4

/-- The node loop from `index` on, over the output so far. -/
def transcodeRecords (source target : FormatVersion) (inputBufferLen : Nat) :
    Nat → Nat → List UInt8 → Body (List UInt8)
  | 0, _, output => return output
  | count + 1, index, output => do
    let record ← Body.record source index inputBufferLen
    let output ← pushRecord output target index record
    transcodeRecords source target inputBufferLen count (index + 1) output

/-- The output loop from `index` on. -/
def transcodeSignals (source : FormatVersion) (nodeCount : Nat) :
    Nat → Nat → Nat → SignalWriter → List UInt8 → Body (List UInt8)
  | 0, _, _, _, output => return output
  | count + 1, index, previous, writer, output => do
    let reference ← Body.signal source previous nodeCount index
    let (output, writer) ← writer.push output reference
    transcodeSignals source nodeCount count (index + 1) reference writer output

def sourceVersion (version : Nat) : Except SignetError FormatVersion :=
  if version = Witness.Wire.formatVersionV1 then .ok .v1
  else if version = Witness.Wire.formatVersionV2 then .ok .v2
  else .error .notAnArtifact

def transcodeBody (source target : FormatVersion) : Body (List UInt8) := do
  let header ← Body.take Witness.Wire.headerSize
  if readAt header 12 4 ≠ Witness.Wire.headerSize then
    throw (malformed "header size is not 64")
  else
    let nodeCount := readAt header 48 4
    let signalCount := readAt header 52 4
    let mappingCount := readAt header 56 4
    let inputBufferLen := readAt header 60 4
    let output := header.take 8 ++ leBytes 2 target.number ++ header.drop 10
    let output ← transcodeRecords source target inputBufferLen nodeCount 0 output
    let output ← transcodeSignals source nodeCount signalCount 0 0 (.new target) output
    if 2 ^ 64 ≤ mappingCount * inputMappingBytes then
      throw (malformed "input table size overflows")
    else
      let table ← Body.take (mappingCount * inputMappingBytes)
      return output ++ table

def transcode (artifact : List UInt8) (target : FormatVersion) :
    Except SignetError (List UInt8) := do
  let described ← describe artifact
  let source ← sourceVersion described.version
  let (output, rest) ← transcodeBody source target artifact
  if rest ≠ [] then throw (malformed "bytes follow the input table") else return output

end Curvy.Signet
