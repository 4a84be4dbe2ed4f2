import Curvy.Signet.Transcode
import Curvy.Witness.Field

/-!
# Encoding an upstream graph

The graph as it is decoded from disk, and the exporter that writes it as an artifact body in
either version.
-/

namespace Curvy.Signet

set_option autoImplicit false

open Witness (FormatVersion)

/-! ## The upstream graph -/

namespace Postcard

inductive Operation where
  | mul | mMul | add | sub | eq | neq | lt | gt | leq | geq | lor | shl | shr | band | bor | bxor
  | neg | inv | div | mod | pow | land | iDiv
  deriving DecidableEq, Repr

/-- Constants are 256-bit integers or field elements; indices are 64-bit words. -/
inductive Node where
  | input (index : UInt64)
  | constant (value : BitVec 256)
  | montConstant (value : Witness.Fr)
  | op (operation : Operation) (left right : UInt64)
  | bbf (name : String) (parameters : List UInt64)

structure InputMapping where
  hash : UInt64
  signalId : UInt64
  signalSize : UInt64

structure Graph where
  nodes : List Node
  signals : List UInt64
  inputMapping : List InputMapping

/-- `saturating_add`. -/
def saturatingAdd (left right : Nat) : Nat := min (left + right) (2 ^ 64 - 1)

/-- One past what an input node reads. -/
def Node.readEnd : Node → Option Nat
  | .input i => some (saturatingAdd i.toNat 1)
  | _ => none

namespace Graph

/-- The mappings that are no placeholder. -/
def namedMappings (graph : Graph) : List InputMapping :=
  graph.inputMapping.filter fun mapping => mapping.hash ≠ 0

def inputBufferLen (graph : Graph) : Nat :=
  let named := graph.namedMappings.map fun mapping =>
    saturatingAdd mapping.signalId.toNat mapping.signalSize.toNat
  let read := graph.nodes.filterMap Node.readEnd
  max ((named ++ read).max?.getD 1) 1

end Graph

end Postcard

/-! ## The exporter -/

def Envelope.magic : Envelope → List UInt8
  | .cvywit => Witness.Wire.legacyMagic
  | .signet => Witness.Wire.magic

def Postcard.Operation.tag : Postcard.Operation → Nat
  | .mul => 0
  | .mMul => 1
  | .add => 2
  | .sub => 3
  | .eq => 4
  | .neq => 5
  | .lt => 6
  | .gt => 7
  | .leq => 8
  | .geq => 9
  | .lor => 10
  | .shl => 11
  | .shr => 12
  | .band => 13
  | .neg => 14
  | .inv => 15
  | .div => 16
  | .mod => 17
  | .pow => 18
  | .land => 19
  | .iDiv => 20
  | .bxor => 21
  | .bor => 22

def stripSuffixNumber (value : List Char) : List Char :=
  let suffix := (value.reverse.takeWhile fun c => c ≠ '_').reverse
  if '_' ∈ value ∧ suffix.all Char.isDigit then value.take (value.length - suffix.length - 1)
  else value

def inverseSource (name : String) (parameters : List UInt64) : Except SignetError Nat :=
  match parameters with
  | [] => .error (.unsupportedBlackBox name 0)
  | source :: _ =>
    if stripSuffixNumber name.toList ≠ "bbf_inv".toList then
      .error (.unsupportedBlackBox name parameters.length)
    else .ok source.toNat

/-- `record`; the little-endian bytes of a constant in canonical form. -/
def Postcard.Node.record (node : Postcard.Node) (index : Nat) : Except SignetError Record :=
  match node with
  | .input i => do return .input (← checkedU32 i.toNat "input index")
  | .constant value =>
    if value.toNat ≥ Witness.frModulus then .error (.nonCanonicalConstant index)
    else .ok (.constant (leBytes 32 value.toNat))
  | .montConstant value => .ok (.constant (leBytes 32 value.val))
  | .op o left right => .ok (.operation o.tag left.toNat right.toNat)
  | .bbf name parameters => do return .inverse (← inverseSource name parameters)

def encodeNodes (version : FormatVersion) :
    Nat → List Postcard.Node → List UInt8 → Except SignetError (List UInt8)
  | _, [], bytes => .ok bytes
  | index, node :: nodes, bytes => do
    let record ← node.record index
    let bytes ← pushRecord bytes version index record
    encodeNodes version (index + 1) nodes bytes

def encodeSignals : SignalWriter → List UInt64 → List UInt8 → Except SignetError (List UInt8)
  | _, [], bytes => .ok bytes
  | writer, signal :: signals, bytes => do
    let (bytes, writer) ← writer.push bytes signal.toNat
    encodeSignals writer signals bytes

def encodeMappings : List Postcard.InputMapping → List UInt8 → Except SignetError (List UInt8)
  | [], bytes => .ok bytes
  | mapping :: mappings, bytes => do
    let bytes := bytes ++ leBytes 8 mapping.hash.toNat
    let bytes := pushU32 bytes (← checkedU32 mapping.signalId.toNat "input signal id")
    let bytes := pushU32 bytes (← checkedU32 mapping.signalSize.toNat "input signal size")
    encodeMappings mappings bytes

def encode (graph : Postcard.Graph) (r1csSha256 : List UInt8) (envelope : Envelope)
    (version : FormatVersion) : Except SignetError (List UInt8) := do
  let inputMapping := graph.namedMappings
  let bytes := envelope.magic ++ leBytes 2 version.number ++ leBytes 2 Witness.Wire.fieldBn254Fr ++
    leBytes 4 Witness.Wire.headerSize ++ r1csSha256
  let bytes := pushU32 bytes (← checkedU32 graph.nodes.length "nodes")
  let bytes := pushU32 bytes (← checkedU32 graph.signals.length "signals")
  let bytes := pushU32 bytes (← checkedU32 inputMapping.length "input mappings")
  let bytes := pushU32 bytes (← checkedU32 graph.inputBufferLen "input buffer")
  let bytes ← encodeNodes version 0 graph.nodes bytes
  let bytes ← encodeSignals (.new version) graph.signals bytes
  encodeMappings inputMapping bytes

end Curvy.Signet
