import Mathlib.Algebra.BigOperators.Fin
import Mathlib.Data.Matrix.Mul
import Mathlib.Tactic.Ring

/-!
# Rounds that are nonlinear in one coordinate

A round adds constants, maps the first coordinate and multiplies by a matrix. Constants of the other
coordinates move back through the matrix, and a matrix that fixes the first coordinate moves on
through the map: what is left for each round are one constant and a sparse matrix.
-/

namespace PartialRounds

set_option autoImplicit false

open Matrix

variable {F : Type} {w : ℕ}

abbrev State (F : Type) (w : ℕ) := Fin (w + 1) → F

/-- The first coordinate, of states that have one. -/
abbrev first (w : ℕ) : Fin (w + 1) :=
  @OfNat.ofNat (Fin (w + 1)) 0 (@Fin.instOfNat (w + 1) Nat.instNeZeroSucc 0)

/-! ### Maps of the first coordinate -/

def onFirst (f : F → F) (x : State F w) : State F w :=
  Function.update x (first w) (f (x (first w)))

@[simp] theorem onFirst_zero (f : F → F) (x : State F w) : onFirst f x 0 = f (x 0) :=
  Function.update_self ..

@[simp] theorem onFirst_succ (f : F → F) (x : State F w) (i : Fin w) :
    onFirst f x i.succ = x i.succ :=
  Function.update_of_ne (Fin.succ_ne_zero i) ..

variable [CommRing F]

/-- The coordinates behind the first. -/
def dropFirst (x : State F w) : State F w := Function.update x (first w) 0

@[simp] theorem dropFirst_zero (x : State F w) : dropFirst x 0 = 0 := Function.update_self ..

@[simp] theorem dropFirst_succ (x : State F w) (i : Fin w) : dropFirst x i.succ = x i.succ :=
  Function.update_of_ne (Fin.succ_ne_zero i) ..

theorem single_succ (a : F) (i : Fin w) : (Pi.single 0 a : State F w) i.succ = 0 :=
  Pi.single_eq_of_ne (Fin.succ_ne_zero i) a

theorem dropFirst_add_single (x : State F w) : dropFirst x + Pi.single 0 (x 0) = x := by
  ext i
  cases i using Fin.cases with
  | zero => rw [Pi.add_apply, dropFirst_zero, Pi.single_eq_same, zero_add]
  | succ i => rw [Pi.add_apply, dropFirst_succ, single_succ, add_zero]

theorem onFirst_add (f : F → F) (x y : State F w) :
    onFirst f (x + dropFirst y) = onFirst f x + dropFirst y := by
  ext i
  cases i using Fin.cases with
  | zero => simp only [onFirst_zero, Pi.add_apply, dropFirst_zero, add_zero]
  | succ i => simp only [onFirst_succ, Pi.add_apply]

/-! ### Matrices that fix the first coordinate -/

/-- One in the corner, and a matrix on the other coordinates. -/
def block (L : Matrix (Fin w) (Fin w) F) : Matrix (Fin (w + 1)) (Fin (w + 1)) F :=
  Fin.cons (Fin.cons 1 0) fun i => Fin.cons 0 (L i)

/-- A first row, a first column and ones. -/
def sparse (corner : F) (column row : Fin w → F) : Matrix (Fin (w + 1)) (Fin (w + 1)) F :=
  Fin.cons (Fin.cons corner row) fun i => Fin.cons (column i) ((1 : Matrix (Fin w) (Fin w) F) i)

def lowerRight (D : Matrix (Fin (w + 1)) (Fin (w + 1)) F) : Matrix (Fin w) (Fin w) F :=
  fun i j => D i.succ j.succ

theorem vecMul_block_zero (x : State F w) (L : Matrix (Fin w) (Fin w) F) :
    (x ᵥ* block L) 0 = x 0 := by
  simp only [vecMul, dotProduct, Fin.sum_univ_succ, block, Fin.cons_zero, Fin.cons_succ, mul_one,
    mul_zero, Finset.sum_const_zero, add_zero]

theorem vecMul_block_succ (x : State F w) (L : Matrix (Fin w) (Fin w) F) (j : Fin w) :
    (x ᵥ* block L) j.succ = ∑ i, x i.succ * L i j := by
  simp only [vecMul, dotProduct, Fin.sum_univ_succ, block, Fin.cons_zero, Fin.cons_succ,
    Pi.zero_apply, mul_zero, zero_add]

theorem onFirst_vecMul_block (f : F → F) (x : State F w) (L : Matrix (Fin w) (Fin w) F) :
    onFirst f (x ᵥ* block L) = onFirst f x ᵥ* block L := by
  ext j
  cases j using Fin.cases with
  | zero => rw [onFirst_zero, vecMul_block_zero, vecMul_block_zero, onFirst_zero]
  | succ j => simp only [onFirst_succ, vecMul_block_succ]

theorem single_vecMul_block (a : F) (L : Matrix (Fin w) (Fin w) F) :
    (Pi.single 0 a : State F w) ᵥ* block L = Pi.single 0 a := by
  ext j
  cases j using Fin.cases with
  | zero => rw [vecMul_block_zero]
  | succ j => simp only [vecMul_block_succ, single_succ, zero_mul, Finset.sum_const_zero]

theorem block_mul_zero (L : Matrix (Fin w) (Fin w) F) (S : Matrix (Fin (w + 1)) (Fin (w + 1)) F)
    (j : Fin (w + 1)) : (block L * S) 0 j = S 0 j := by
  rw [Matrix.mul_apply, Fin.sum_univ_succ]
  simp only [block, Fin.cons_zero, Fin.cons_succ, Pi.zero_apply, one_mul, zero_mul,
    Finset.sum_const_zero, add_zero]

theorem block_mul_succ (L : Matrix (Fin w) (Fin w) F) (S : Matrix (Fin (w + 1)) (Fin (w + 1)) F)
    (i : Fin w) (j : Fin (w + 1)) : (block L * S) i.succ j = ∑ l, L i l * S l.succ j := by
  rw [Matrix.mul_apply, Fin.sum_univ_succ]
  simp only [block, Fin.cons_zero, Fin.cons_succ, zero_mul, zero_add]

/-- A matrix whose first column is a combination of the others, below the corner, splits into a
block and a sparse matrix. -/
theorem block_mul_sparse (D : Matrix (Fin (w + 1)) (Fin (w + 1)) F) {column : Fin w → F}
    (h : lowerRight D *ᵥ column = fun i => D i.succ 0) :
    block (lowerRight D) * sparse (D 0 0) column (fun j => D 0 j.succ) = D := by
  ext i j
  cases i using Fin.cases with
  | zero =>
    rw [block_mul_zero]
    cases j using Fin.cases with
    | zero => rfl
    | succ j => rfl
  | succ i =>
    rw [block_mul_succ]
    cases j using Fin.cases with
    | zero => exact congrFun h i
    | succ j =>
      have hone : (lowerRight D * (1 : Matrix (Fin w) (Fin w) F)) i j = lowerRight D i j := by
        rw [Matrix.mul_one]
      rw [Matrix.mul_apply] at hone
      exact hone

theorem vecMul_sparse_zero (x : State F w) (corner : F) (column row : Fin w → F) :
    (x ᵥ* sparse corner column row) 0 = x 0 * corner + ∑ i, x i.succ * column i := by
  rw [vecMul, dotProduct, Fin.sum_univ_succ]
  rfl

theorem vecMul_sparse_succ (x : State F w) (corner : F) (column row : Fin w → F) (j : Fin w) :
    (x ᵥ* sparse corner column row) j.succ = x 0 * row j + x j.succ := by
  have hone : ((fun i => x (Fin.succ i)) ᵥ* (1 : Matrix (Fin w) (Fin w) F)) j = x j.succ := by
    rw [vecMul_one]
  rw [vecMul, dotProduct, Fin.sum_univ_succ, ← hone]
  rfl

/-! ### The schedules, by the number of rounds that remain -/

section Schedules

variable (f : F → F) (A B : Matrix (Fin (w + 1)) (Fin (w + 1)) F) (d : ℕ → State F w)

/-- The plain rounds, and the constants of the round behind them. -/
def plainFrom : ℕ → State F w → State F w
  | 0, y => y + d 0
  | i + 1, y => plainFrom i (onFirst f (y + d (i + 1)) ᵥ* A)

/-- The constants in front of the last `i` rounds, with what was moved back. -/
def carried : ℕ → State F w
  | 0 => d 0
  | i + 1 => d (i + 1) + dropFirst (carried i ᵥ* B)

/-- The constant that stays in the round. -/
def kept (i : ℕ) : F := (carried B d i ᵥ* B) (first w)

/-- The rounds with one constant and one matrix each. -/
def optimizedFrom (k : ℕ → F) (S : ℕ → Matrix (Fin (w + 1)) (Fin (w + 1)) F) :
    ℕ → State F w → State F w
  | 0, x => x
  | i + 1, x => optimizedFrom k S i ((onFirst f x + Pi.single (first w) (k i)) ᵥ* S i)

/-- Moving constants back through one round. -/
theorem fold_step (hBA : B * A = 1) (y c next : State F w) :
    (onFirst f (y + (c + dropFirst (next ᵥ* B))) + Pi.single 0 ((next ᵥ* B) 0)) ᵥ* A =
      onFirst f (y + c) ᵥ* A + next := by
  rw [← add_assoc y, onFirst_add, add_assoc, dropFirst_add_single, add_vecMul, vecMul_vecMul, hBA,
    vecMul_one]

/-- A block on the state and the sparse matrix of the round make up a dense one. -/
theorem sparse_step {L : Matrix (Fin w) (Fin w) F} {S D : Matrix (Fin (w + 1)) (Fin (w + 1)) F}
    (h : block L * S = D) (x : State F w) (k : F) :
    (onFirst f (x ᵥ* block L) + Pi.single 0 k) ᵥ* S =
      (onFirst f x + Pi.single 0 k) ᵥ* D := by
  have hsingle := single_vecMul_block k L
  rw [onFirst_vecMul_block]
  calc (onFirst f x ᵥ* block L + Pi.single 0 k) ᵥ* S
      = (onFirst f x ᵥ* block L + Pi.single 0 k ᵥ* block L) ᵥ* S := by rw [hsingle]
    _ = (onFirst f x + Pi.single 0 k) ᵥ* D := by rw [← add_vecMul, vecMul_vecMul, h]

/-- The change of coordinates in front of the last `i` rounds. -/
def basis (L : ℕ → Matrix (Fin w) (Fin w) F) : ℕ → Matrix (Fin (w + 1)) (Fin (w + 1)) F
  | 0 => 1
  | i + 1 => block (L i)

/-- The optimized rounds end where the plain ones do. -/
theorem optimizedFrom_eq (hBA : B * A = 1) {L : ℕ → Matrix (Fin w) (Fin w) F}
    {S : ℕ → Matrix (Fin (w + 1)) (Fin (w + 1)) F} {n : ℕ}
    (hfactor : ∀ i, i < n → block (L i) * S i = A * basis L i) {i : ℕ} (hi : i ≤ n)
    (y : State F w) :
    optimizedFrom f (kept B d) S i ((y + carried B d i) ᵥ* basis L i) = plainFrom f A d i y := by
  induction i generalizing y with
  | zero => rw [optimizedFrom, plainFrom, basis, vecMul_one, carried]
  | succ i ih =>
    have hstep := sparse_step f (hfactor i hi) (y + carried B d (i + 1)) (kept B d i)
    have hfold := fold_step f A B hBA y (d (i + 1)) (carried B d i)
    rw [optimizedFrom, plainFrom, basis, hstep, ← vecMul_vecMul, ← ih (Nat.le_of_succ_le hi)]
    rw [carried, kept, hfold]

end Schedules

/-- The matrices that are factored, from the last round on. -/
def dense (A : Matrix (Fin (w + 1)) (Fin (w + 1)) F) : ℕ → Matrix (Fin (w + 1)) (Fin (w + 1)) F
  | 0 => A
  | i + 1 => A * block (lowerRight (dense A i))

theorem dense_eq (A : Matrix (Fin (w + 1)) (Fin (w + 1)) F) (i : ℕ) :
    dense A i = A * basis (fun j => lowerRight (dense A j)) i := by
  cases i with
  | zero => rw [dense, basis, mul_one]
  | succ i => rw [dense, basis]

end PartialRounds
