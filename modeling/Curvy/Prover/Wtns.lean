import Curvy.Lib.Codec
import Curvy.Witness.ScalarField

/-!
# The strict witness reader

`read_wtns` walks the section table of a `.wtns` file with a cursor, remembers where the data
section stands and reads it last. Every read is checked against the end of the bytes.
-/

namespace Curvy.Prover.Wtns

set_option autoImplicit false

open Witness (Fr frModulus)

inductive WtnsError where
  | io
  | invalidMagic
  | unsupportedVersion (version : Nat)
  | invalidHeader
  | missingData
  | duplicateSection (id : Nat)
  | sectionOutOfBounds
  | wrongField
  | nonCanonicalField (index : Nat)
  deriving DecidableEq, Repr

def wtnsVersion : Nat := 2
def bn254FieldBytes : Nat := 32

/-- `wtns`. -/
def magic : List UInt8 := [0x77, 0x74, 0x6e, 0x73]

/-! ## The cursor -/

section Cursor

variable (bytes : List UInt8)

/-- The next `count` bytes and the position behind them. -/
def readExact (count position : Nat) : Except WtnsError (List UInt8 × Nat) :=
  if position + count ≤ bytes.length then
    .ok ((bytes.drop position).take count, position + count)
  else .error .io

def readU32 (position : Nat) : Except WtnsError (Nat × Nat) := do
  let read ← readExact bytes 4 position
  return (leNat read.1, read.2)

def readU64 (position : Nat) : Except WtnsError (Nat × Nat) := do
  let read ← readExact bytes 8 position
  return (leNat read.1, read.2)

/-- The integer of four words, the least significant first. -/
def readBigInteger (position : Nat) : Except WtnsError (Nat × Nat) := do
  let w0 ← readU64 bytes position
  let w1 ← readU64 bytes w0.2
  let w2 ← readU64 bytes w1.2
  let w3 ← readU64 bytes w2.2
  return (w0.1 + 2 ^ 64 * (w1.1 + 2 ^ 64 * (w2.1 + 2 ^ 64 * w3.1)), w3.2)

end Cursor

/-- An addition of sixty-four-bit integers. -/
def checkedAdd (a b : Nat) : Option Nat := if a + b < 2 ^ 64 then some (a + b) else none

/-- A multiplication of sixty-four-bit integers. -/
def checkedMul (a b : Nat) : Option Nat := if a * b < 2 ^ 64 then some (a * b) else none

def okOr {α : Type} (value : Option α) (error : WtnsError) : Except WtnsError α :=
  value.elim (.error error) .ok

/-! ## Sections -/

/-- What the loop over the sections remembers. -/
structure Scan where
  fieldBytes : Option Nat
  witnessCount : Option Nat
  dataSection : Option (Nat × Nat)

def Scan.new : Scan := ⟨none, none, none⟩

/-- `Fr::from_bigint`. -/
def fromBigint (value : Nat) : Option Fr := if value < frModulus then some (value : Fr) else none

/-- The branch of section 1. -/
def readHeader (bytes : List UInt8) (scan : Scan) (sectionSize position : Nat) :
    Except WtnsError Scan := do
  if scan.fieldBytes.isSome then .error (.duplicateSection 1) else do
    let n8 ← readU32 bytes position
    if n8.1 ≠ bn254FieldBytes then .error .wrongField else do
      let expectedHeaderSize ← okOr (checkedAdd 8 n8.1) .invalidHeader
      if sectionSize ≠ expectedHeaderSize then .error .invalidHeader else do
        let modulus ← readBigInteger bytes n8.2
        if modulus.1 ≠ frModulus then .error .wrongField else do
          let count ← readU32 bytes modulus.2
          if count.1 = 0 then .error .invalidHeader
          else .ok { scan with fieldBytes := some n8.1, witnessCount := some count.1 }

/-- The branches on the kind of a section that starts at `position`. -/
def readBody (bytes : List UInt8) (scan : Scan) (sectionId sectionSize position : Nat) :
    Except WtnsError Scan :=
  if sectionId = 1 then readHeader bytes scan sectionSize position
  else if sectionId = 2 then
    if scan.dataSection.isSome then .error (.duplicateSection sectionId)
    else .ok { scan with dataSection := some (position, sectionSize) }
  else .ok scan

/-- One round of the loop, with the position the cursor is set to. -/
def readSection (bytes : List UInt8) (scan : Scan) (position : Nat) :
    Except WtnsError (Scan × Nat) := do
  let sectionId ← readU32 bytes position
  let sectionSize ← readU64 bytes sectionId.2
  let sectionEnd ← okOr ((checkedAdd sectionSize.2 sectionSize.1).filter (· ≤ bytes.length))
    .sectionOutOfBounds
  let scan ← readBody bytes scan sectionId.1 sectionSize.1 sectionSize.2
  return (scan, sectionEnd)

def readSections (bytes : List UInt8) : Nat → Scan → Nat → Except WtnsError (Scan × Nat)
  | 0, scan, position => .ok (scan, position)
  | rounds + 1, scan, position => do
    let next ← readSection bytes scan position
    readSections bytes rounds next.1 next.2

/-! ## Elements -/

/-- The loop over the elements from `index` on. -/
def readElements (bytes : List UInt8) : Nat → Nat → Nat → Except WtnsError (List Fr)
  | 0, _, _ => .ok []
  | rounds + 1, index, position => do
    let value ← readBigInteger bytes position
    let element ← okOr (fromBigint value.1) (.nonCanonicalField index)
    let rest ← readElements bytes rounds (index + 1) value.2
    return element :: rest

/-- The checks behind the loop, and the elements. -/
def readData (bytes : List UInt8) (scan : Scan) : Except WtnsError (List Fr) := do
  let n8 ← okOr scan.fieldBytes .invalidHeader
  let count ← okOr scan.witnessCount .invalidHeader
  let data ← okOr scan.dataSection .missingData
  let expectedSize ← okOr (checkedMul count n8) .sectionOutOfBounds
  if data.2 ≠ expectedSize then .error .sectionOutOfBounds
  else readElements bytes count 0 data.1

def readWtns (bytes : List UInt8) : Except WtnsError (List Fr) := do
  let start ← readExact bytes 4 0
  if start.1 ≠ magic then .error .invalidMagic else do
    let version ← readU32 bytes start.2
    if version.1 ≠ wtnsVersion then .error (.unsupportedVersion version.1) else do
      let sectionCount ← readU32 bytes version.2
      let scanned ← readSections bytes sectionCount.1 .new sectionCount.2
      readData bytes scanned.1

end Curvy.Prover.Wtns
