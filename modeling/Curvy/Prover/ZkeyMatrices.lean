import Curvy.Lib.Panic
import Curvy.Prover.AuthenticatedReader
import Curvy.Witness.Field
import Mathlib.Data.Fin.VecNotation

/-!
# The constraint matrices of a zkey

Section 4 of a zkey lists the coefficients of two matrices. One parser appends them to the
rows of nested lists as they come. The other sweeps over the section twice: it counts the
coefficients of each row, then puts every coefficient at its row's cursor. The reader of a
sweep delivers some bytes and then fails; two sweeps need not deliver the same.
-/

namespace Curvy.Prover.ZkeyMatrices

set_option autoImplicit false

open Decoder
open Witness (Fr frModulus)

/-- `SerializationError`, as these parsers return it. -/
inductive Error where
  | invalidData
  | ioError (error : IoError)
  deriving DecidableEq, Repr

abbrev Call (α : Type) := Except (Stop Error) α

abbrev Parser (α : Type) := Decoder (Stop Error) α

def invalid {α : Type} : Call α := .error (.error .invalidData)

/-- `ok_or(SerializationError::InvalidData)?`. -/
def someOr {α : Type} : Option α → Call α
  | some a => .ok a
  | none => invalid

abbrev refuse (bad : Prop) [Decidable bad] : Call Unit := Panic.refuse bad .invalidData

/-- `checked_add` and `checked_mul` of a type with `size` values. -/
def checked (size value : Nat) : Option Nat := if value < size then some value else none

def checkedSub (a b : Nat) : Option Nat := if b ≤ a then some (a - b) else none

/-- What a reader makes of a seek and the reads after it: the failure of the seek, the bytes it
delivers, and the failure of the read that wants more. -/
structure Sweep where
  seek : Option IoError
  bytes : List UInt8
  ending : IoError

def fieldBytes : Nat := 32
def coefficientBytes : Nat := 3 * 4 + fieldBytes

structure HeaderGroth where
  nVars : Nat
  nPublic : Nat
  domainSize : Nat

/-- A matrix, row and column. -/
structure Entry where
  matrix : Fin 2
  constraint : Nat
  signal : Nat
  deriving DecidableEq

/-- Rows of coefficients with their signals. -/
abbrev Matrix := List (List (Fr × Nat))

structure Matrices (M : Type) where
  numInstanceVariables : Nat
  numConstraints : Nat
  matrices : List M

def Matrices.both {α : Type} (f : Fin 2 → α) : List α := [f 0, f 1]

/-! ## Reading -/

/-- `Fr::new_unchecked` of a Montgomery representative. -/
def frNewUnchecked (bigint : Nat) : Fr := (bigint : Fr) * (((2 ^ 256 : ℕ) : Fr))⁻¹

def checkEntry (header : HeaderGroth) (matrix constraint signal : Nat) : Call Entry :=
  if h : matrix > 1 ∨ constraint ≥ header.domainSize ∨ signal ≥ header.nVars then invalid
  else return ⟨⟨matrix, by omega⟩, constraint, signal⟩

section Reading
variable (ending : IoError) (header : HeaderGroth)

def readExact (count : Nat) : Parser (List UInt8) := takeOr (.error (.ioError ending)) count

def readU32 : Parser Nat := leNat <$> readExact ending 4

/-- The field element whose representative's representative is stored. -/
def deserializeFieldFr : Parser Fr := do
  let bytes ← readExact ending fieldBytes
  let bigint := leNat bytes
  refuse (bigint ≥ frModulus)
  return frNewUnchecked (frNewUnchecked bigint).val

def readEntry : Parser Entry := do
  let matrix ← readU32 ending
  let constraint ← readU32 ending
  let signal ← readU32 ending
  checkEntry header matrix constraint signal

end Reading

/-- `max_constraint_index` with one more constraint. -/
def maxIndex (current : Option Nat) (constraint : Nat) : Option Nat :=
  some (current.elim constraint fun current => max current constraint)

def constraintCount (header : HeaderGroth) (maxConstraintIndex : Option Nat) : Call Nat := do
  let index ← someOr maxConstraintIndex
  someOr (checkedSub index (header.nPublic % 2 ^ 32))

/-! ## Nested rows -/

structure Rows where
  matrices : Fin 2 → Matrix
  maxConstraintIndex : Option Nat

def Rows.push (s : Rows) (entry : Entry) (value : Fr) : Call Rows := do
  let matrix := s.matrices entry.matrix
  let row ← Panic.expect matrix[entry.constraint]?
  return {
    matrices := Function.update s.matrices entry.matrix
      (matrix.set entry.constraint (row ++ [(value, entry.signal)]))
    maxConstraintIndex := maxIndex s.maxConstraintIndex entry.constraint }

def readRow (ending : IoError) (header : HeaderGroth) (s : Rows) : Parser Rows := do
  let entry ← readEntry ending header
  let value ← deserializeFieldFr ending
  s.push entry value

/-- `usize` is the number of values of a machine word. -/
def parseMatrices (usize : Nat) (ending : IoError) (header : HeaderGroth) (sectionSize : Nat) :
    Parser (Matrices Matrix) := do
  let numCoeffs ← readU32 ending
  refuse ((checked usize (numCoeffs * 44)).bind (fun bytes => checked usize (bytes + 4)) ≠
    some sectionSize)
  let s ← iterate (readRow ending header) numCoeffs
    ⟨fun _ => List.replicate header.domainSize [], none⟩
  let numConstraints ← constraintCount header s.maxConstraintIndex
  return {
    numInstanceVariables := header.nPublic + 1
    numConstraints
    matrices := [(s.matrices 0).take numConstraints, (s.matrices 1).take numConstraints, []] }

/-- `evaluate_checked`; `none` is the unsatisfiable error. -/
def evaluateChecked (row : List (Fr × Nat)) (assignment : List Fr) : Option Fr :=
  row.foldlM (fun sum (coefficient, signal) =>
    assignment[signal]?.map fun value => sum + coefficient * value) 0

/-! ## Compact matrices -/

structure CompactMatrix where
  rowOffsets : List Nat
  coefficients : List Fr
  signals : List Nat
  deriving DecidableEq

namespace CompactMatrix

/-- The assertions are those of a debug build. -/
def fromParts (rowOffsets : List Nat) (coefficients : List Fr) (signals : List Nat) :
    Call CompactMatrix := do
  Panic.require (coefficients.length = signals.length)
  Panic.require (rowOffsets.getLast?.getD 0 = coefficients.length)
  return { rowOffsets, coefficients, signals }

def numRows (m : CompactMatrix) : Nat := m.rowOffsets.length - 1

/-- The coefficients and signals of a row; `none` is a panic. -/
def slices (m : CompactMatrix) (row : Nat) : Option (List (Fr × Nat)) := do
  let start ← m.rowOffsets[row]?
  let stop ← m.rowOffsets[row + 1]?
  if start ≤ stop ∧ stop ≤ m.coefficients.length ∧ stop ≤ m.signals.length then
    return ((m.coefficients.drop start).take (stop - start)).zip
      ((m.signals.drop start).take (stop - start))
  else none

/-- `none` is a panic. -/
def evaluateRow (m : CompactMatrix) (row : Nat) (assignment : List Fr) : Option Fr := do
  (← m.slices row).foldlM (fun acc (coefficient, signal) => do
    return acc + coefficient * (← assignment[signal]?)) 0

/-- `none` is a panic. -/
def toArkworks (m : CompactMatrix) : Option Matrix := (List.range m.numRows).mapM m.slices

end CompactMatrix

/-! ## The first sweep -/

structure Counts where
  rowOffsets : Fin 2 → List Nat
  maxConstraintIndex : Option Nat

def Counts.count (s : Counts) (entry : Entry) : Call Counts := do
  let counts := s.rowOffsets entry.matrix
  let count ← Panic.expect counts[entry.constraint]?
  let count ← someOr (checked (2 ^ 32) (count + 1))
  return {
    rowOffsets := Function.update s.rowOffsets entry.matrix (counts.set entry.constraint count)
    maxConstraintIndex := maxIndex s.maxConstraintIndex entry.constraint }

def readCount (ending : IoError) (header : HeaderGroth) (s : Counts) : Parser Counts := do
  let entry ← readEntry ending header
  let _ ← readExact ending fieldBytes
  s.count entry

/-- The count of coefficients and those of the rows. -/
def countSweep (usize : Nat) (ending : IoError) (header : HeaderGroth) (sectionSize : Nat) :
    Parser (Nat × Counts) := do
  let numCoeffs ← readU32 ending
  let bytes ← someOr (checked usize (numCoeffs * coefficientBytes))
  let expectedSize ← someOr (checked usize (4 + bytes))
  refuse (sectionSize ≠ expectedSize)
  let s ← iterate (readCount ending header) numCoeffs
    ⟨fun _ => List.replicate header.domainSize 0, none⟩
  return (numCoeffs, s)

/-- The loop that turns counts into offsets, `total` coefficients behind it. -/
def turnOffsets : Nat → List Nat → Call (List Nat × Nat)
  | total, [] => .ok ([], total)
  | total, rowCount :: counts => do
    let next ← someOr (checked (2 ^ 32) (total + rowCount))
    let (offsets, last) ← turnOffsets next counts
    return (total :: offsets, last)

structure Filling where
  rowOffsets : Fin 2 → List Nat
  coefficients : Fin 2 → List Fr
  signals : Fin 2 → List Nat

/-- The tables that the second sweep fills, every cursor at the start of its row. -/
def planOffsets (numConstraints : Nat) (s : Counts) : Call Filling := do
  let (aOffsets, aTotal) ← turnOffsets 0 ((s.rowOffsets 0).take numConstraints)
  let (bOffsets, bTotal) ← turnOffsets 0 ((s.rowOffsets 1).take numConstraints)
  return {
    rowOffsets := ![aOffsets ++ [aTotal], bOffsets ++ [bTotal]]
    coefficients := ![List.replicate aTotal 0, List.replicate bTotal 0]
    signals := ![List.replicate aTotal 0, List.replicate bTotal 0] }

/-! ## The second sweep -/

def Filling.put (numConstraints : Nat) (rowEnds : Fin 2 → List Nat) (s : Filling) (entry : Entry)
    (value : Fr) : Call Filling :=
  if entry.constraint ≥ numConstraints then return s
  else do
    let matrix := entry.matrix
    let row := entry.constraint
    let position ← Panic.expect (s.rowOffsets matrix)[row]?
    let rowEnd ← Panic.expect (rowEnds matrix)[row]?
    refuse (position ≥ rowEnd)
    Panic.require (position < (s.coefficients matrix).length)
    Panic.require (position < (s.signals matrix).length)
    let next ← someOr (checked (2 ^ 32) (position + 1))
    return {
      rowOffsets := Function.update s.rowOffsets matrix ((s.rowOffsets matrix).set row next)
      coefficients :=
        Function.update s.coefficients matrix ((s.coefficients matrix).set position value)
      signals :=
        Function.update s.signals matrix ((s.signals matrix).set position entry.signal) }

def readFill (ending : IoError) (header : HeaderGroth) (numConstraints : Nat)
    (rowEnds : Fin 2 → List Nat) (s : Filling) : Parser Filling := do
  let entry ← readEntry ending header
  let value ← deserializeFieldFr ending
  s.put numConstraints rowEnds entry value

def fillSweep (ending : IoError) (header : HeaderGroth) (numCoeffs numConstraints : Nat)
    (rowEnds : Fin 2 → List Nat) (s : Filling) : Parser Filling := do
  let count ← readU32 ending
  refuse (count ≠ numCoeffs)
  iterate (readFill ending header numConstraints rowEnds) numCoeffs s

/-- The cursors, all at the ends of their rows, moved back to the starts. -/
def restoreOffsets (offsets ends : List Nat) : Call (List Nat) := do
  Panic.require (0 < offsets.length)
  let rows := offsets.length - 1
  refuse (offsets.take rows ≠ ends)
  return (offsets.take 1 ++ offsets.take rows).set 0 0

def finish (header : HeaderGroth) (numConstraints : Nat) (rowEnds : Fin 2 → List Nat)
    (s : Filling) : Call (Matrices CompactMatrix) := do
  let aOffsets ← restoreOffsets (s.rowOffsets 0) (rowEnds 0)
  let bOffsets ← restoreOffsets (s.rowOffsets 1) (rowEnds 1)
  let a ← CompactMatrix.fromParts aOffsets (s.coefficients 0) (s.signals 0)
  let b ← CompactMatrix.fromParts bOffsets (s.coefficients 1) (s.signals 1)
  return {
    numInstanceVariables := header.nPublic + 1
    numConstraints
    matrices := [a, b] }

def seek (sweep : Sweep) : Call Unit :=
  match sweep.seek with
  | some error => .error (.error (.ioError error))
  | none => .ok ()

def parseCompactMatrices (usize : Nat) (header : HeaderGroth) (sectionSize : Nat)
    (first second : Sweep) : Call (Matrices CompactMatrix) := do
  seek first
  let ((numCoeffs, counts), _) ← countSweep usize first.ending header sectionSize first.bytes
  let numConstraints ← constraintCount header counts.maxConstraintIndex
  let planned ← planOffsets numConstraints counts
  let rowEnds := fun matrix => (planned.rowOffsets matrix).drop 1
  seek second
  let (s, _) ← fillSweep second.ending header numCoeffs numConstraints rowEnds planned second.bytes
  finish header numConstraints rowEnds s

end Curvy.Prover.ZkeyMatrices
