import Curvy.Lib.Decoder
import Curvy.Lib.Outcome

/-!
# Framing a zkey stream

The proof builder's stream protocol and the framer that cuts a byte stream into its file
header, section headers and section bodies. What a section means is a parameter: `Sections`
opens a processor for a section, feeds it and closes it. Every call returns its result
with the state it leaves behind.
-/

namespace Curvy.Sparrow

set_option autoImplicit false

open Outcome

inductive StreamingError where
  | zkeyHashMismatch (expected actual : String)
  | zkeyChunkHashMismatch (index : Nat) (expected actual : String)
  | invalidZkey (message : String)
  | unexpectedEof
  deriving DecidableEq, Repr

def fileHeaderBytes : Nat := 12
def sectionHeaderBytes : Nat := 12
def zkeySections : Nat := 10

def hexDigit (n : Nat) : Char := "0123456789abcdef".toList.getD n '0'

def hexDigest (value : List UInt8) : String :=
  String.ofList (value.flatMap fun b => [hexDigit (b.toNat / 16), hexDigit (b.toNat % 16)])

/-- The processors of the sections over the builder's data `S`. -/
structure Sections (S P : Type) where
  processorFor : S → (id length : Nat) → Except StreamingError P
  push : P → List UInt8 → Except StreamingError Unit × P
  close : S → (id : Nat) → P → Except StreamingError S

structure ActiveSection (P : Type) where
  id : Nat
  length : Nat
  received : Nat
  processor : P

/-- The stream state of the builder; `data` is what closed sections leave behind. -/
structure StreamingProofBuilder (S P : Type) where
  began : Bool
  seenSections : List Nat
  sectionCount : Nat
  active : Option (ActiveSection P)
  data : S

namespace StreamingProofBuilder

variable {S P : Type} (sections : Sections S P)

def new (data : S) : StreamingProofBuilder S P where
  began := false
  seenSections := []
  sectionCount := 0
  active := none
  data := data

/-- The bytes `zkey`. -/
def zkeyMagic : List UInt8 := [0x7a, 0x6b, 0x65, 0x79]

def beginZkey (header : List UInt8) (s : StreamingProofBuilder S P) :
    Except StreamingError Unit × StreamingProofBuilder S P :=
  if s.began ∨ s.active.isSome ∨ header.length ≠ fileHeaderBytes then
    (.error (.invalidZkey "invalid or duplicate zkey file header"), s)
  else if header.take 4 ≠ zkeyMagic ∨ leNat ((header.drop 4).take 4) ≠ 1 ∨
      leNat (header.drop 8) ≠ zkeySections then
    (.error (.invalidZkey "unsupported zkey file header"), s)
  else (.ok (), { s with began := true })

def beginSection (sectionHeader : List UInt8) (s : StreamingProofBuilder S P) :
    Except StreamingError Unit × StreamingProofBuilder S P :=
  if ¬ s.began ∨ s.active.isSome ∨ sectionHeader.length ≠ sectionHeaderBytes then
    (.error (.invalidZkey "section began in an invalid stream state"), s)
  else
    let id := leNat (sectionHeader.take 4)
    let length := leNat (sectionHeader.drop 4)
    if id = 0 ∨ id > zkeySections ∨ id ∈ s.seenSections then
      (.error (.invalidZkey s!"invalid or duplicate zkey section {id}"), s)
    else
      match sections.processorFor s.data id length with
      | .error e => (.error e, s)
      | .ok processor => (.ok (), { s with active := some ⟨id, length, 0, processor⟩ })

def pushSectionChunk (bytes : List UInt8) (s : StreamingProofBuilder S P) :
    Except StreamingError Unit × StreamingProofBuilder S P :=
  match s.active with
  | none => (.error (.invalidZkey "no active zkey section"), s)
  | some active =>
    let received := active.received + bytes.length
    if received ≥ 2 ^ 64 then (.error (.invalidZkey "section byte count overflow"), s)
    else if received > active.length then
      (.error (.invalidZkey s!"zkey section {active.id} exceeded its declared size"), s)
    else
      match sections.push active.processor bytes with
      | (.error e, processor) => (.error e, { s with active := some { active with processor } })
      | (.ok (), processor) =>
        (.ok (), { s with active := some { active with processor, received } })

def endSection (s : StreamingProofBuilder S P) :
    Except StreamingError Unit × StreamingProofBuilder S P :=
  match s.active with
  | none => (.error (.invalidZkey "no active zkey section"), s)
  | some active =>
    if active.received ≠ active.length then
      (.error (.invalidZkey "zkey section ended before its declared size"), s)
    else
      match sections.close s.data active.id active.processor with
      | .error e => (.error e, { s with active := none })
      | .ok data =>
        (.ok (), { s with
          active := none, data
          seenSections := active.id :: s.seenSections
          sectionCount := s.sectionCount + 1 })

end StreamingProofBuilder

/-! ## The framer -/

inductive FrameState where
  | fileHeader
  | sectionHeader
  | sectionBody (remaining : Nat)
  | done
  deriving DecidableEq, Repr

structure ZkeyFramer (S P : Type) where
  builder : StreamingProofBuilder S P
  state : FrameState
  header : List UInt8
  sections : Nat

namespace ZkeyFramer

variable {S P : Type} (ops : Sections S P)

def new (builder : StreamingProofBuilder S P) : ZkeyFramer S P := ⟨builder, .fileHeader, [], 0⟩

/-- Runs a builder call inside the framer. -/
def withBuilder (f : ZkeyFramer S P)
    (call : StreamingProofBuilder S P → Except StreamingError Unit × StreamingProofBuilder S P) :
    Except StreamingError Unit × ZkeyFramer S P :=
  ((call f.builder).1, { f with builder := (call f.builder).2 })

def endSection (f : ZkeyFramer S P) : Except StreamingError Unit × ZkeyFramer S P :=
  next (f.withBuilder (StreamingProofBuilder.endSection ops)) fun _ f =>
    let sections := f.sections + 1
    (.ok (), { f with
      sections, state := if sections = zkeySections then .done else .sectionHeader })

/-- A complete header in the header state `state`. -/
def takeHeader (state : FrameState) (header : List UInt8) (f : ZkeyFramer S P) :
    Except StreamingError Unit × ZkeyFramer S P :=
  match state with
  | .fileHeader =>
    next (f.withBuilder (StreamingProofBuilder.beginZkey header)) fun _ f =>
      (.ok (), { f with state := .sectionHeader })
  | .sectionHeader =>
    let length := leNat (header.drop 4)
    next (f.withBuilder (StreamingProofBuilder.beginSection ops header)) fun _ f =>
      if length = 0 then endSection ops f
      else (.ok (), { f with state := .sectionBody length })
  | _ => (.error (.invalidZkey "header completed in an invalid stream state"), f)

/-- One round of the push loop on non-empty bytes; also returns the bytes left. -/
def round (bytes : List UInt8) (f : ZkeyFramer S P) :
    Except StreamingError (List UInt8) × ZkeyFramer S P :=
  match f.state with
  | .sectionBody remaining =>
    let take := min remaining bytes.length
    next (f.withBuilder (StreamingProofBuilder.pushSectionChunk ops (bytes.take take))) fun _ f =>
      if remaining - take = 0 then next (endSection ops f) fun _ f => (.ok (bytes.drop take), f)
      else (.ok (bytes.drop take), { f with state := .sectionBody (remaining - take) })
  | .done => (.error (.invalidZkey "trailing bytes after zkey sections"), f)
  | state =>
    let take := min (sectionHeaderBytes - f.header.length) bytes.length
    let header := f.header ++ bytes.take take
    if header.length ≠ sectionHeaderBytes then (.ok (bytes.drop take), { f with header })
    else
      next (takeHeader ops state header { f with header := [] }) fun _ f =>
        (.ok (bytes.drop take), f)

/-- Every round but one that refuses consumes a byte, so `bytes.length` rounds suffice. -/
def pushRounds : Nat → List UInt8 → ZkeyFramer S P → Except StreamingError Unit × ZkeyFramer S P
  | 0, _, f => (.ok (), f)
  | rounds + 1, bytes, f =>
    if bytes = [] then (.ok (), f)
    else next (round ops bytes f) fun bytes f => pushRounds rounds bytes f

def push (bytes : List UInt8) (f : ZkeyFramer S P) : Except StreamingError Unit × ZkeyFramer S P :=
  pushRounds ops bytes.length bytes f

def finish (f : ZkeyFramer S P) : Except StreamingError (StreamingProofBuilder S P) :=
  if f.state ≠ .done ∨ f.header ≠ [] then .error (.invalidZkey "incomplete framed zkey stream")
  else .ok f.builder

end ZkeyFramer

end Curvy.Sparrow
