import Curvy.Lib.Panic
import Curvy.Witness.ScalarField

/-!
# The witness reader of the artifact validation

`read` keeps the last header and the last data section it meets and reduces every element into
the field. Its offsets are sixty-four-bit integers; an overflow of an unchecked sum is a panic.
-/

namespace Curvy.Signet.Wtns

set_option autoImplicit false

open Witness (Fr)
open Panic (word)

/-- `SignetError::InvalidWtns`. -/
structure InvalidWtns where
  message : String
  deriving DecidableEq, Repr

abbrev Outcome (α : Type) : Type := Except (Stop InvalidWtns) α

def invalid {α : Type} (message : String) : Outcome α := .error (.error ⟨message⟩)

def okOr {α : Type} (value : Option α) (message : String) : Outcome α :=
  value.elim (invalid message) .ok

def checkedAdd (a b : Nat) : Option Nat := if a + b < 2 ^ 64 then some (a + b) else none

section Reads

variable (bytes : List UInt8)

/-- `bytes.get(start..stop)`. -/
def get (start stop : Nat) : Option (List UInt8) :=
  if start ≤ stop ∧ stop ≤ bytes.length then some ((bytes.drop start).take (stop - start)) else none

/-- `Reader::array`, with the position it leaves. -/
def array (count position : Nat) : Outcome (List UInt8 × Nat) := do
  let stop ← okOr (checkedAdd position count) "offset overflow"
  let value ← okOr (get bytes position stop) "truncated file"
  return (value, stop)

def u32 (position : Nat) : Outcome (Nat × Nat) := do
  let value ← array bytes 4 position
  return (leNat value.1, value.2)

def u64 (position : Nat) : Outcome (Nat × Nat) := do
  let value ← array bytes 8 position
  return (leNat value.1, value.2)

end Reads

/-- What the loop over the sections has seen last. -/
structure Seen where
  declared : Option Nat
  data : Option (Nat × Nat)

/-- The branches on the kind of a section that starts at `start`. -/
def readBody (bytes : List UInt8) (seen : Seen) (id size start : Nat) : Outcome Seen :=
  if id = 1 then do
    let width ← u32 bytes start
    if width.1 ≠ 32 then invalid "unexpected field width" else do
      let modulus ← array bytes 32 width.2
      let declared ← u32 bytes modulus.2
      return { seen with declared := some declared.1 }
  else if id = 2 then .ok { seen with data := some (start, size) }
  else .ok seen

def readSection (bytes : List UInt8) (seen : Seen) (position : Nat) : Outcome (Seen × Nat) := do
  let id ← u32 bytes position
  let size ← u64 bytes id.2
  let seen ← readBody bytes seen id.1 size.1 size.2
  let stop ← okOr (checkedAdd size.2 size.1) "section overruns the file"
  return (seen, stop)

def readSections (bytes : List UInt8) : Nat → Seen → Nat → Outcome (Seen × Nat)
  | 0, seen, position => .ok (seen, position)
  | rounds + 1, seen, position => do
    let next ← readSection bytes seen position
    readSections bytes rounds next.1 next.2

/-- `Fr::from_le_bytes_mod_order`. -/
def fromLeBytesModOrder (bytes : List UInt8) : Fr := (leNat bytes : Fr)

/-- The loop over the elements from `index` on. -/
def readElements (bytes : List UInt8) (start : Nat) : Nat → Nat → Outcome (List Fr)
  | 0, _ => .ok []
  | rounds + 1, index => do
    let skipped ← word (index * 32)
    let offset ← word (start + skipped)
    let stop ← word (offset + 32)
    let encoded ← okOr (get bytes offset stop) "truncated witness data"
    let rest ← readElements bytes start rounds (index + 1)
    return fromLeBytesModOrder encoded :: rest

/-- The checks behind the loop, and the elements. -/
def readData (bytes : List UInt8) (seen : Seen) : Outcome (List Fr) := do
  let declared ← okOr seen.declared "missing header section"
  let data ← okOr seen.data "missing data section"
  let expected ← word (declared * 32)
  if data.2 ≠ expected then invalid "data size disagrees with the header"
  else readElements bytes data.1 declared 0

def read (bytes : List UInt8) : Outcome (List Fr) := do
  let magic ← array bytes 4 0
  if magic.1 ≠ [0x77, 0x74, 0x6e, 0x73] then invalid "not a wtns file" else do
    let version ← u32 bytes magic.2
    if version.1 ≠ 2 then invalid "unsupported wtns version" else do
      let sections ← u32 bytes version.2
      let seen ← readSections bytes sections.1 ⟨none, none⟩ sections.2
      readData bytes seen.1

end Curvy.Signet.Wtns
