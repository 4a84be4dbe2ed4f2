import Curvy.Lib.PartialRounds
import Mathlib.Algebra.Field.Basic
import Mathlib.Logic.Equiv.Basic

/-!
# Poseidon

The direct schedule, the optimized one, and the generator of its tables, over any field. The width
`t` is `w + 1`. An index out of range is no result.
-/

namespace Curvy.Poseidon

set_option autoImplicit false

open PartialRounds (first)

variable {F : Type} {n w : ℕ}

abbrev State (F : Type) (n : ℕ) := Vector F n

/-- A matrix by rows, what `assert_square` lets through. -/
abbrev Square (F : Type) (n : ℕ) := Vector (Vector F n) n

def nRoundsF : ℕ := 8

/-- The array both schedules keep the state in. -/
def stateStorage : ℕ := 17

/-- `constants::Params`. -/
structure Params (F : Type) (w : ℕ) where
  nRoundsP : ℕ
  c : List F
  m : Square F (w + 1)

/-- `optimized_constants::Params`. -/
structure OptimizedParams (F : Type) (w : ℕ) where
  nRoundsP : ℕ
  c : List F
  m : Square F (w + 1)
  p : Square F (w + 1)
  s : List F

section Schedules

variable [Zero F] [Add F] [Mul F]

def pow5 (v : F) : F :=
  let v2 := v * v
  v * v2 * v2

/-- `xs[start..start + n]`. -/
def slice (xs : List F) (start n : ℕ) : Option (Vector F n) :=
  if start + n ≤ xs.length then some (Vector.ofFn fun i => xs.getD (start + i) 0) else none

/-- An accumulator from zero over `0..n`. -/
def total (f : Fin n → F) : F := (List.finRange n).foldl (fun acc i => acc + f i) 0

def mixInto (state : State F n) (m : Square F n) : State F n :=
  Vector.ofFn fun x => total fun y => (m.get x).get y * state.get y

/-- The inputs behind a zero, as far as the width and the inputs go. -/
def initialState (inputs : List F) : Option (State F (w + 1)) :=
  if w + 1 ≤ stateStorage then some (Vector.ofFn (Fin.cases 0 fun i => inputs.getD i 0))
  else none

def isFull (nRoundsP x : ℕ) : Bool :=
  decide (x < nRoundsF / 2) || decide (nRoundsF / 2 + nRoundsP ≤ x)

def referenceRound (p : Params F w) (state : State F (w + 1)) (x : ℕ) :
    Option (State F (w + 1)) := do
  let c ← slice p.c (x * (w + 1)) (w + 1)
  let state := Vector.ofFn fun y =>
    let sy := state.get y + c.get y
    if isFull p.nRoundsP x ∨ y = first w then pow5 sy else sy
  some (mixInto state p.m)

def poseidonReference (inputs : List F) (p : Params F w) : Option F := do
  let state ← initialState inputs
  let state ← (List.range (nRoundsF + p.nRoundsP)).foldlM (referenceRound p) state
  some (state.get (first w))

def mixRowVectorInto (state : State F n) (matrix : Square F n) : State F n :=
  Vector.ofFn fun column => total fun row => state.get row * (matrix.get row).get column

/-- A full round of the optimized schedule: its constants come behind the S-box. -/
def denseRound (c : List F) (matrix : Square F (w + 1)) (state : State F (w + 1)) (start : ℕ) :
    Option (State F (w + 1)) := do
  let c ← slice c start (w + 1)
  some (mixRowVectorInto (Vector.ofFn fun i => pow5 (state.get i) + c.get i) matrix)

def partialRound (p : OptimizedParams F w) (state : State F (w + 1)) (round : ℕ) :
    Option (State F (w + 1)) := do
  let constant ← p.c[(nRoundsF / 2 + 1) * (w + 1) + round]?
  let nonlinear := pow5 (state.get (first w)) + constant
  let state : State F (w + 1) := Vector.ofFn (Fin.cases nonlinear fun i => state.get i.succ)
  let sparse ← slice p.s (round * (2 * (w + 1) - 1)) (w + 1 + w)
  let newFirst := total fun i : Fin (w + 1) => state.get i * sparse.get (Fin.castAdd w i)
  some (Vector.ofFn (Fin.cases newFirst fun i =>
    state.get i.succ + nonlinear * sparse.get (Fin.natAdd (w + 1) i)))

def poseidonOptimized (inputs : List F) (p : OptimizedParams F w) : Option F := do
  let state ← initialState inputs
  let c ← slice p.c 0 (w + 1)
  let state := Vector.ofFn fun i => state.get i + c.get i
  let state ← (List.range (nRoundsF / 2 - 1)).foldlM
    (fun state round => denseRound p.c p.m state ((round + 1) * (w + 1))) state
  let state ← denseRound p.c p.p state (nRoundsF / 2 * (w + 1))
  let state ← (List.range p.nRoundsP).foldlM (partialRound p) state
  let trailingConstants := (nRoundsF / 2 + 1) * (w + 1) + p.nRoundsP
  let state ← (List.range (nRoundsF / 2 - 1)).foldlM
    (fun state round => denseRound p.c p.m state (trailingConstants + round * (w + 1))) state
  some ((mixRowVectorInto (state.map pow5) p.m).get (first w))

end Schedules

/-! ## The generator -/

section Generator

variable [Field F] [DecidableEq F]

/-- The matrix beside the unit matrix. -/
def augment (matrix : Square F n) : Vector (Vector F (n + n)) n :=
  Vector.ofFn fun row => Vector.ofFn
    (Fin.addCases (matrix.get row).get fun column => if column = row then 1 else 0)

/-- The pivot swapped into its row and scaled, then taken from the other rows. -/
def eliminate (augmented : Vector (Vector F (n + n)) n) (column pivot : Fin n) :
    Vector (Vector F (n + n)) n :=
  let swapped := Vector.ofFn fun row => augmented.get (Equiv.swap column pivot row)
  let scale := ((swapped.get column).get (Fin.castAdd n column))⁻¹
  let pivotRow := (swapped.get column).map fun value => value * scale
  Vector.ofFn fun row =>
    if row = column then pivotRow
    else
      let factor := (swapped.get row).get (Fin.castAdd n column)
      Vector.ofFn fun index => (swapped.get row).get index - factor * pivotRow.get index

/-- One turn of the loop over the columns. -/
def reduceColumn (augmented : Vector (Vector F (n + n)) n) (column : Fin n) :
    Option (Vector (Vector F (n + n)) n) := do
  let pivot ← (List.finRange n).find? fun row =>
    decide (column ≤ row) && decide ((augmented.get row).get (Fin.castAdd n column) ≠ 0)
  some (eliminate augmented column pivot)

def rightHalf (augmented : Vector (Vector F (n + n)) n) : Square F n :=
  augmented.map fun row => Vector.ofFn fun column => row.get (Fin.natAdd n column)

def inverse (matrix : Square F n) : Option (Square F n) :=
  if n = 0 then none
  else do
    let augmented ← (List.finRange n).foldlM reduceColumn (augment matrix)
    some (rightHalf augmented)

def transpose (matrix : Square F n) : Square F n :=
  Vector.ofFn fun row => Vector.ofFn fun column => (matrix.get column).get row

def rowVectorTimesMatrix (vector : State F n) (matrix : Square F n) : State F n :=
  Vector.ofFn fun column => total fun row => vector.get row * (matrix.get row).get column

def matrixTimesVector (matrix : Square F n) (vector : State F n) : State F n :=
  Vector.ofFn fun row => total fun column => (matrix.get row).get column * vector.get column

def matrixProduct (left right : Square F n) : Square F n :=
  Vector.ofFn fun row => Vector.ofFn fun column =>
    total fun inner => (left.get row).get inner * (right.get inner).get column

/-- What the loop over the partial rounds keeps. -/
structure Folding (F : Type) (w : ℕ) where
  accumulator : State F (w + 1)
  partialConstants : List F

def foldRound (c : List F) (inverse : Square F (w + 1)) (st : Folding F w) (round : ℕ) :
    Option (Folding F w) := do
  let moved := rowVectorTimesMatrix st.accumulator inverse
  let kept := moved.get (first w)
  let moved : State F (w + 1) := Vector.ofFn (Fin.cases 0 fun i => moved.get i.succ)
  let own ← slice c (round * (w + 1)) (w + 1)
  some ⟨Vector.ofFn fun column => moved.get column + own.get column,
    st.partialConstants ++ [kept]⟩

/-- The constants of one full round, behind its S-box. -/
def foldFull (c : List F) (inverse : Square F (w + 1)) (round : ℕ) : Option (List F) := do
  let own ← slice c ((round + 1) * (w + 1)) (w + 1)
  some (rowVectorTimesMatrix own inverse).toList

def foldRoundConstants (partialRounds : ℕ) (c : List F) (m : Square F (w + 1)) :
    Option (List F) := do
  let inverse ← inverse m
  let initial ← slice c 0 (w + 1)
  let leading ← (List.range 3).mapM (foldFull c inverse)
  let accumulator ← slice c ((4 + partialRounds) * (w + 1)) (w + 1)
  let folding ← (List.range' 4 partialRounds).reverse.foldlM (foldRound c inverse) ⟨accumulator, []⟩
  let trailing ← (List.range' (4 + partialRounds) 3).mapM (foldFull c inverse)
  let folded := initial.toList ++ leading.flatten ++
    (rowVectorTimesMatrix folding.accumulator inverse).toList ++
    folding.partialConstants.reverse ++ trailing.flatten
  if folded.length = 8 * (w + 1) + partialRounds then some folded else none

/-- The entries right of the first column and below the first row. -/
def lowerRight (matrix : Square F (w + 1)) : Square F w :=
  Vector.ofFn fun row => Vector.ofFn fun column => (matrix.get row.succ).get column.succ

/-- The matrix without its first row and column, and one in the corner. -/
def factorOf (matrix : Square F (w + 1)) : Square F (w + 1) :=
  Vector.ofFn (Fin.cases (Vector.ofFn (Fin.cases 1 fun _ => 0)) fun row =>
    Vector.ofFn (Fin.cases 0 ((lowerRight matrix).get row).get))

def factorSparse (matrix : Square F (w + 1)) : Option (Square F (w + 1) × List F) := do
  let firstColumn : State F w := Vector.ofFn fun row => (matrix.get row.succ).get (first w)
  let inverse ← inverse (lowerRight matrix)
  let adjustedColumn := matrixTimesVector inverse firstColumn
  let firstRow : State F w := Vector.ofFn fun column => (matrix.get (first w)).get column.succ
  some (factorOf matrix, [(matrix.get (first w)).get (first w)] ++ adjustedColumn.toList ++ firstRow.toList)

def sparseRound (m : Square F (w + 1)) (st : Square F (w + 1) × List (List F)) (_ : ℕ) :
    Option (Square F (w + 1) × List (List F)) := do
  let (factor, sparse) ← factorSparse st.1
  some (matrixProduct m factor, st.2 ++ [sparse])

def deriveSparseMatrices (partialRounds : ℕ) (m : Square F (w + 1)) :
    Option (Square F (w + 1) × List F) := do
  let (dense, sparseRounds) ← (List.range partialRounds).foldlM (sparseRound m) (m, [])
  some (dense, sparseRounds.reverse.flatten)

def optimize (source : Params F w) : Option (OptimizedParams F w) :=
  if source.c.length = (8 + source.nRoundsP) * (w + 1) then do
    let m := transpose source.m
    let foldedC ← foldRoundConstants source.nRoundsP source.c m
    let (p, s) ← deriveSparseMatrices source.nRoundsP m
    some { nRoundsP := source.nRoundsP, c := foldedC, m := m, p := p, s := s }
  else none

end Generator

end Curvy.Poseidon
