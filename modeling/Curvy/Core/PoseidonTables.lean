import Curvy.Core.Poseidon
import Curvy.Lib.Loop
import Curvy.Lib.PartialRounds
import Curvy.Lib.RowReduction
import Mathlib.Algebra.Module.Submodule.EqLocus
import Mathlib.LinearAlgebra.Matrix.ToLin
import Mathlib.LinearAlgebra.Matrix.NonsingularInverse

/-!
# What the generator computes

Its matrices are matrices: inverses by row reduction, products, and the factors of the sparse
rounds.
-/

namespace Curvy.Poseidon

set_option autoImplicit false

open Matrix

variable {F : Type} {n w : ℕ}

theorem get_ofFn {α : Type} (f : Fin n → α) (i : Fin n) : (Vector.ofFn f).get i = f i := by
  simp only [Vector.get, Vector.toArray_ofFn, Array.getElem_ofFn]
  rfl

theorem get_map {α β : Type} (f : α → β) (v : Vector α n) (i : Fin n) :
    (v.map f).get i = f (v.get i) := by
  simp [Vector.get]

theorem ofFn_get {α : Type} (v : Vector α n) : Vector.ofFn v.get = v := by
  apply Vector.ext
  intro i hi
  rw [Vector.getElem_ofFn]
  rfl

def toMatrix (m : Square F n) : Matrix (Fin n) (Fin n) F := fun i j => (m.get i).get j

theorem toMatrix_transpose (m : Square F n) : toMatrix (transpose m) = (toMatrix m)ᵀ := by
  ext i j
  rw [toMatrix, transpose, get_ofFn, get_ofFn]
  rfl

theorem toMatrix_lowerRight (m : Square F (w + 1)) :
    toMatrix (lowerRight m) = PartialRounds.lowerRight (toMatrix m) := by
  ext i j
  rw [toMatrix, lowerRight, get_ofFn, get_ofFn]
  rfl

section Sums

variable [Field F]

theorem total_eq (f : Fin n → F) : total f = ∑ i, f i := by
  have hfold : ∀ (l : List (Fin n)) (a : F),
      l.foldl (fun acc i => acc + f i) a = a + (l.map f).sum := by
    intro l
    induction l with
    | nil => intro a; rw [List.foldl_nil, List.map_nil, List.sum_nil, add_zero]
    | cons x l ih => intro a; rw [List.foldl_cons, ih, List.map_cons, List.sum_cons, add_assoc]
  rw [total, hfold, zero_add, Fin.sum_univ_def]

theorem get_mixInto (state : State F n) (m : Square F n) :
    (mixInto state m).get = toMatrix m *ᵥ state.get := by
  funext x
  rw [mixInto, get_ofFn, total_eq]
  rfl

theorem get_mixRowVectorInto (state : State F n) (m : Square F n) :
    (mixRowVectorInto state m).get = state.get ᵥ* toMatrix m := by
  funext x
  rw [mixRowVectorInto, get_ofFn, total_eq]
  rfl

theorem get_rowVectorTimesMatrix (vector : State F n) (m : Square F n) :
    (rowVectorTimesMatrix vector m).get = vector.get ᵥ* toMatrix m := by
  funext x
  rw [rowVectorTimesMatrix, get_ofFn, total_eq]
  rfl

theorem get_matrixTimesVector (m : Square F n) (vector : State F n) :
    (matrixTimesVector m vector).get = toMatrix m *ᵥ vector.get := by
  funext x
  rw [matrixTimesVector, get_ofFn, total_eq]
  rfl

theorem toMatrix_matrixProduct (left right : Square F n) :
    toMatrix (matrixProduct left right) = toMatrix left * toMatrix right := by
  ext i j
  rw [toMatrix, matrixProduct, get_ofFn, get_ofFn, total_eq]
  rfl

end Sums

/-! ### Inverses -/

section Inverse

open RowReduction

variable [Field F]

/-- The rows of an augmented matrix. -/
def rows (augmented : Vector (Vector F (n + n)) n) : Fin n → Fin (n + n) → F :=
  fun i => (augmented.get i).get

def coordinate (column : Fin n) : (Fin (n + n) → F) →ₗ[F] F := LinearMap.proj (Fin.castAdd n column)

theorem rows_eliminate (augmented : Vector (Vector F (n + n)) n) (column p : Fin n) :
    rows (eliminate augmented column p) =
      pivoted (coordinate column) (rows augmented) column p := by
  funext i j
  rw [rows, eliminate, get_ofFn]
  by_cases hi : i = column
  · rw [if_pos hi, get_map, get_ofFn, Equiv.swap_apply_left, hi, pivoted_self]
    exact mul_comm _ _
  · rw [if_neg hi, get_ofFn, get_map, get_ofFn, get_ofFn, Equiv.swap_apply_left, pivoted_ne hi]
    rw [mul_comm ((augmented.get p).get j)]
    rfl

theorem rows_augment_left (m : Square F n) (i j : Fin n) :
    rows (augment m) i (Fin.castAdd n j) = toMatrix m i j := by
  rw [rows, augment, get_ofFn, get_ofFn, Fin.addCases_left]
  rfl

theorem rows_augment_right (m : Square F n) (i j : Fin n) :
    rows (augment m) i (Fin.natAdd n j) = if j = i then 1 else 0 := by
  rw [rows, augment, get_ofFn, get_ofFn, Fin.addCases_right]

/-- The relation between the halves of a row that reduction keeps. -/
def halves (M : Matrix (Fin n) (Fin n) F) : Submodule F (Fin (n + n) → F) :=
  LinearMap.eqLocus (LinearMap.funLeft F F (Fin.castAdd n))
    (M.vecMulLinear.comp (LinearMap.funLeft F F (Fin.natAdd n)))

theorem mem_halves {M : Matrix (Fin n) (Fin n) F} {row : Fin (n + n) → F} :
    row ∈ halves M ↔
      (fun j => row (Fin.castAdd n j)) = (fun j => row (Fin.natAdd n j)) ᵥ* M :=
  LinearMap.mem_eqLocus

theorem rows_augment_mem (m : Square F n) (i : Fin n) : rows (augment m) i ∈ halves (toMatrix m) := by
  rw [mem_halves]
  funext j
  simp only [rows_augment_left, rows_augment_right]
  rw [vecMul, dotProduct]
  simp only [ite_mul, one_mul, zero_mul, Finset.sum_ite_eq', Finset.mem_univ, if_true]

theorem augment_free {m : Square F n} (hm : IsUnit (toMatrix m)) (a : Fin n → F)
    (h : ∀ i, (∑ j, a j • coordinate j) (rows (augment m) i) = 0) : a = 0 := by
  have hzero : toMatrix m *ᵥ a = 0 := by
    funext i
    have hi := h i
    rw [LinearMap.sum_apply] at hi
    rw [mulVec, dotProduct, Pi.zero_apply, ← hi]
    apply Finset.sum_congr rfl
    intro j _
    rw [LinearMap.smul_apply, smul_eq_mul, mul_comm]
    congr 1
    exact (rows_augment_left m i j).symm
  obtain ⟨u, hu⟩ := hm
  calc a = (1 : Matrix (Fin n) (Fin n) F) *ᵥ a := (one_mulVec a).symm
    _ = (↑u⁻¹ * toMatrix m) *ᵥ a := by rw [← hu, Units.inv_mul]
    _ = 0 := by rw [← mulVec_mulVec, hzero, mulVec_zero]

variable [DecidableEq F]

theorem reduceColumn_spec {augmented : Vector (Vector F (n + n)) n} {column : Fin n}
    (h : ∃ p, column ≤ p ∧ coordinate column (rows augmented p) ≠ 0) :
    ∃ p, reduceColumn augmented column = some (eliminate augmented column p) ∧ column ≤ p ∧
      coordinate column (rows augmented p) ≠ 0 := by
  have hsome : ((List.finRange n).find? fun row =>
      decide (column ≤ row) &&
        decide ((augmented.get row).get (Fin.castAdd n column) ≠ 0)).isSome := by
    rw [List.find?_isSome]
    obtain ⟨p, hp, hne⟩ := h
    refine ⟨p, List.mem_finRange p, ?_⟩
    rw [Bool.and_eq_true, decide_eq_true_eq, decide_eq_true_eq]
    exact ⟨hp, hne⟩
  obtain ⟨p, hfind⟩ := Option.isSome_iff_exists.mp hsome
  have hp := List.find?_some hfind
  rw [Bool.and_eq_true, decide_eq_true_eq, decide_eq_true_eq] at hp
  refine ⟨p, ?_, hp.1, hp.2⟩
  rw [reduceColumn, hfind, Option.bind_eq_bind, Option.bind_some]

/-- The loop over all columns of an invertible matrix. -/
theorem reduceColumns_spec {m : Square F n} (hm : IsUnit (toMatrix m)) :
    ∃ reduced, (List.finRange n).foldlM reduceColumn (augment m) = some reduced ∧
      Reduced coordinate (rows (augment m)) (rows reduced) n := by
  have hrun := Loop.foldlM_prefix (m := Option) (f := reduceColumn) (s := augment m)
    (l := List.finRange n)
    (P := fun done a => Reduced coordinate (rows (augment m)) (rows a) done.length)
    Reduced.refl (by
      intro done column rest hsplit a ha
      have hcolumn : (column : ℕ) = done.length := by
        have hget : (List.finRange n)[done.length]? = some column := by
          rw [hsplit, List.getElem?_append_right (le_refl _), Nat.sub_self]
          rfl
        obtain ⟨hlt, heq⟩ := List.getElem?_eq_some_iff.mp hget
        rw [← heq, List.getElem_finRange]
        rfl
      rw [← hcolumn] at ha
      obtain ⟨p, hstep, hp, hne⟩ := reduceColumn_spec (ha.exists_pivot (augment_free hm))
      refine ⟨_, hstep, ?_⟩
      rw [List.length_append, List.length_singleton, ← hcolumn, rows_eliminate]
      exact ha.step hp hne)
  obtain ⟨reduced, hfold, hreduced⟩ := hrun
  rw [List.length_finRange] at hreduced
  exact ⟨reduced, hfold, hreduced⟩

/-- The generator inverts what can be inverted. -/
theorem inverse_spec {m : Square F n} (hn : n ≠ 0) (hm : IsUnit (toMatrix m)) :
    ∃ b, inverse m = some b ∧ toMatrix b * toMatrix m = 1 := by
  obtain ⟨reduced, hfold, hreduced⟩ := reduceColumns_spec hm
  refine ⟨rightHalf reduced, ?_, ?_⟩
  · rw [inverse, if_neg hn, hfold, Option.bind_eq_bind, Option.bind_some]
  funext i
  have hmem := mem_halves.mp (hreduced.mem _ (rows_augment_mem m) i)
  have hright : toMatrix (rightHalf reduced) i = fun j => rows reduced i (Fin.natAdd n j) := by
    funext j
    rw [toMatrix, rightHalf, get_map, get_ofFn, rows]
  rw [mul_apply_eq_vecMul, hright, ← hmem]
  funext j
  have hunit := hreduced.unit j j.isLt i
  rw [coordinate, LinearMap.proj_apply] at hunit
  rw [hunit, Matrix.one_apply]

end Inverse

/-! ### Round constants -/

section Constants

variable [Field F]

theorem slice_of_le {xs : List F} {start n : ℕ} (h : start + n ≤ xs.length) :
    slice xs start n = some (Vector.ofFn fun i => xs.getD (start + i) 0) :=
  if_pos h

theorem slice_behind (before xs : List F) (start k : ℕ) :
    slice (before ++ xs) (before.length + start) k = slice xs start k := by
  have hle : before.length + start + k ≤ (before ++ xs).length ↔ start + k ≤ xs.length := by
    rw [List.length_append]
    omega
  have hentry : ∀ i : Fin k,
      (before ++ xs).getD (before.length + start + i) 0 = xs.getD (start + i) 0 := by
    intro i
    rw [List.getD_eq_getElem?_getD, List.getElem?_append_right (by omega), Nat.add_assoc,
      Nat.add_sub_cancel_left, ← List.getD_eq_getElem?_getD]
  simp only [slice, hle, hentry]

theorem slice_front (v : Vector F n) (after : List F) : slice (v.toList ++ after) 0 n = some v := by
  have hlength : 0 + n ≤ (v.toList ++ after).length := by
    rw [List.length_append, Vector.length_toList]
    omega
  rw [slice_of_le hlength, Option.some_inj, ← ofFn_get v]
  congr 1
  funext i
  have hv : (i : ℕ) < v.toList.length := by
    rw [Vector.length_toList]
    exact i.isLt
  rw [ofFn_get, Nat.zero_add, List.getD_eq_getElem?_getD, List.getElem?_append_left hv,
    List.getElem?_eq_getElem hv, Option.getD_some]
  rfl

/-- Vectors that were written one behind the other. -/
theorem slice_flatMap {vs : List (Vector F n)} {v : Vector F n} {k : ℕ} (h : vs[k]? = some v)
    (after : List F) : slice (vs.flatMap Vector.toList ++ after) (k * n) n = some v := by
  induction vs generalizing k with
  | nil => rw [List.getElem?_nil] at h; cases h
  | cons u vs ih =>
    rw [List.flatMap_cons, List.append_assoc]
    cases k with
    | zero =>
      rw [List.getElem?_cons_zero, Option.some_inj] at h
      rw [Nat.zero_mul, h, slice_front]
    | succ k =>
      rw [List.getElem?_cons_succ] at h
      have hbehind := slice_behind u.toList (vs.flatMap Vector.toList ++ after) (k * n) n
      rw [Vector.length_toList] at hbehind
      rw [Nat.succ_mul, Nat.add_comm, hbehind, ih h]

/-- Each round reads its own entries, the last one's first. -/
theorem slice_reversed (L : ℕ → Vector F n) {partialRounds round : ℕ} (h : round < partialRounds) :
    slice ((List.range partialRounds).map fun k => (L k).toList).reverse.flatten (round * n) n =
      some (L (partialRounds - 1 - round)) := by
  have hflat : ((List.range partialRounds).map fun k => (L k).toList).reverse.flatten =
      ((List.range partialRounds).map L).reverse.flatMap Vector.toList ++ [] := by
    rw [List.append_nil, List.flatMap_def, List.map_reverse, List.map_map]
    rfl
  rw [hflat]
  apply slice_flatMap
  rw [List.getElem?_reverse (by rw [List.length_map, List.length_range]; exact h), List.length_map,
    List.length_range, List.getElem?_map, List.getElem?_range (by omega), Option.map_some]

/-- The constants of a round. -/
def roundConstants (c : List F) (x : ℕ) : Fin (w + 1) → F := fun y => c.getD (x * (w + 1) + y) 0

theorem slice_round {c : List F} {rounds x : ℕ} (hlength : c.length = rounds * (w + 1))
    (hx : x < rounds) :
    slice c (x * (w + 1)) (w + 1) = some (Vector.ofFn (roundConstants c x)) := by
  apply slice_of_le
  calc x * (w + 1) + (w + 1) = (x + 1) * (w + 1) := (Nat.succ_mul x (w + 1)).symm
    _ ≤ rounds * (w + 1) := Nat.mul_le_mul_right _ hx
    _ = c.length := hlength.symm

/-- The constants by the number of partial rounds that remain. -/
def remainingConstants (c : List F) (partialRounds i : ℕ) : Fin (w + 1) → F :=
  roundConstants c (4 + partialRounds - i)

theorem foldRound_spec {c : List F} {partialRounds i : ℕ} {inverse : Square F (w + 1)}
    {st : Folding F w} (hlength : c.length = (8 + partialRounds) * (w + 1)) (hi : i < partialRounds)
    (hacc : st.accumulator.get =
      PartialRounds.carried (toMatrix inverse) (remainingConstants c partialRounds) i)
    (hkeys : st.partialConstants =
      (List.range i).map
        (PartialRounds.kept (toMatrix inverse) (remainingConstants c partialRounds))) :
    ∃ st', foldRound c inverse st (4 + partialRounds - 1 - i) = some st' ∧
      st'.accumulator.get =
        PartialRounds.carried (toMatrix inverse) (remainingConstants c partialRounds) (i + 1) ∧
      st'.partialConstants =
        (List.range (i + 1)).map
          (PartialRounds.kept (toMatrix inverse) (remainingConstants c partialRounds)) := by
  have hslice := slice_round hlength (x := 4 + partialRounds - 1 - i) (by omega)
  have hround : 4 + partialRounds - 1 - i = 4 + partialRounds - (i + 1) := by omega
  rw [foldRound, hslice, Option.bind_eq_bind, Option.bind_some]
  refine ⟨_, rfl, ?_, ?_⟩
  · funext column
    rw [get_ofFn, get_ofFn, get_ofFn, get_rowVectorTimesMatrix, hacc, hround, add_comm]
    rw [PartialRounds.carried, Pi.add_apply, remainingConstants]
    cases column using Fin.cases with
    | zero => rw [Fin.cases_zero, PartialRounds.dropFirst_zero]
    | succ j => rw [Fin.cases_succ, PartialRounds.dropFirst_succ]
  · rw [List.range_succ, List.map_append, hkeys, get_rowVectorTimesMatrix, hacc]
    rfl

theorem foldRounds_spec {c : List F} {partialRounds : ℕ} (inverse : Square F (w + 1))
    (hlength : c.length = (8 + partialRounds) * (w + 1)) :
    ∃ st, (List.range' 4 partialRounds).reverse.foldlM (foldRound c inverse)
        ⟨Vector.ofFn (roundConstants c (4 + partialRounds)), []⟩ = some st ∧
      st.accumulator.get = PartialRounds.carried (toMatrix inverse)
        (remainingConstants c partialRounds) partialRounds ∧
      st.partialConstants = (List.range partialRounds).map
        (PartialRounds.kept (toMatrix inverse) (remainingConstants c partialRounds)) := by
  rw [List.reverse_range', List.foldlM_map]
  apply Loop.foldlM_range (P := fun i (st : Folding F w) =>
    st.accumulator.get = PartialRounds.carried (toMatrix inverse)
        (remainingConstants c partialRounds) i ∧
      st.partialConstants = (List.range i).map
        (PartialRounds.kept (toMatrix inverse) (remainingConstants c partialRounds)))
  · constructor
    · funext column
      rw [get_ofFn, PartialRounds.carried, remainingConstants, Nat.sub_zero]
    · rfl
  · intro i hi st hst
    exact foldRound_spec hlength hi hst.1 hst.2

/-- The constants of a round behind the inverse. -/
def movedConstants (B : Matrix (Fin (w + 1)) (Fin (w + 1)) F) (c : List F) (x : ℕ) :
    Vector F (w + 1) := Vector.ofFn (roundConstants c x ᵥ* B)

theorem rowVector_ofFn (f : Fin n → F) (m : Square F n) :
    rowVectorTimesMatrix (Vector.ofFn f) m = Vector.ofFn (f ᵥ* toMatrix m) := by
  have hf : (Vector.ofFn f).get = f := funext (get_ofFn f)
  rw [← ofFn_get (rowVectorTimesMatrix _ _), get_rowVectorTimesMatrix, hf]

theorem foldFull_spec {c : List F} {rounds x : ℕ} (inverse : Square F (w + 1))
    (hlength : c.length = rounds * (w + 1)) (hx : x + 1 < rounds) :
    foldFull c inverse x = some (movedConstants (toMatrix inverse) c (x + 1)).toList := by
  rw [foldFull, slice_round hlength hx, Option.bind_eq_bind, Option.bind_some, rowVector_ofFn]
  rfl

variable [DecidableEq F]

/-- What the generator writes in front of the partial constants. -/
def frontConstants (B : Matrix (Fin (w + 1)) (Fin (w + 1)) F) (c : List F) (partialRounds : ℕ) :
    List (Vector F (w + 1)) :=
  [Vector.ofFn (roundConstants c 0), movedConstants B c 1, movedConstants B c 2,
    movedConstants B c 3,
    Vector.ofFn
      (PartialRounds.carried B (remainingConstants c partialRounds) partialRounds ᵥ* B)]

/-- And behind them. -/
def backConstants (B : Matrix (Fin (w + 1)) (Fin (w + 1)) F) (c : List F) (partialRounds : ℕ) :
    List (Vector F (w + 1)) :=
  [movedConstants B c (4 + partialRounds + 1), movedConstants B c (4 + partialRounds + 2),
    movedConstants B c (4 + partialRounds + 3)]

def partialKeys (B : Matrix (Fin (w + 1)) (Fin (w + 1)) F) (c : List F) (partialRounds : ℕ) :
    List F :=
  ((List.range partialRounds).map
    (PartialRounds.kept B (remainingConstants c partialRounds))).reverse

theorem foldRoundConstants_spec {c : List F} {partialRounds : ℕ} {m b : Square F (w + 1)}
    (hlength : c.length = (8 + partialRounds) * (w + 1)) (hinverse : inverse m = some b) :
    foldRoundConstants partialRounds c m = some
      ((frontConstants (toMatrix b) c partialRounds).flatMap Vector.toList ++
        partialKeys (toMatrix b) c partialRounds ++
        (backConstants (toMatrix b) c partialRounds).flatMap Vector.toList) := by
  obtain ⟨st, hfold, hacc, hkeys⟩ := foldRounds_spec b hlength
  have hfirst : slice c 0 (w + 1) = some (Vector.ofFn (roundConstants c 0)) := by
    have := slice_round (x := 0) hlength (by omega)
    rw [Nat.zero_mul] at this
    exact this
  have hlast := slice_round (x := 4 + partialRounds) hlength (by omega)
  have hleading : (List.range 3).mapM (foldFull c b) =
      some [(movedConstants (toMatrix b) c 1).toList, (movedConstants (toMatrix b) c 2).toList,
        (movedConstants (toMatrix b) c 3).toList] := by
    rw [show List.range 3 = [0, 1, 2] from rfl]
    simp only [List.mapM_cons, List.mapM_nil]
    rw [foldFull_spec b hlength (x := 0) (by omega), foldFull_spec b hlength (x := 1) (by omega),
      foldFull_spec b hlength (x := 2) (by omega)]
    rfl
  have htrailing : (List.range' (4 + partialRounds) 3).mapM (foldFull c b) =
      some ((backConstants (toMatrix b) c partialRounds).map Vector.toList) := by
    rw [show List.range' (4 + partialRounds) 3 =
      [4 + partialRounds, 4 + partialRounds + 1, 4 + partialRounds + 2] from rfl]
    simp only [List.mapM_cons, List.mapM_nil]
    rw [foldFull_spec b hlength (x := 4 + partialRounds) (by omega),
      foldFull_spec b hlength (x := 4 + partialRounds + 1) (by omega),
      foldFull_spec b hlength (x := 4 + partialRounds + 2) (by omega)]
    rfl
  have haccumulator : rowVectorTimesMatrix st.accumulator b = Vector.ofFn
      (PartialRounds.carried (toMatrix b) (remainingConstants c partialRounds) partialRounds ᵥ*
        toMatrix b) := by
    rw [← ofFn_get (rowVectorTimesMatrix _ _), get_rowVectorTimesMatrix, hacc]
  rw [foldRoundConstants]
  simp only [Option.bind_eq_bind]
  rw [hinverse, Option.bind_some, hfirst, Option.bind_some, hleading, Option.bind_some, hlast,
    Option.bind_some, hfold, Option.bind_some, htrailing, Option.bind_some]
  rw [haccumulator, hkeys, if_pos, Option.some_inj]
  · simp only [frontConstants, backConstants, partialKeys, List.flatMap_cons, List.flatMap_nil,
      List.map_cons, List.map_nil, List.flatten_cons, List.flatten_nil, List.append_nil,
      List.append_assoc]
  · simp only [backConstants, List.map_cons, List.map_nil, List.flatten_cons, List.flatten_nil,
      List.append_nil, List.length_append, Vector.length_toList, List.length_reverse,
      List.length_map, List.length_range]
    omega

end Constants

/-! ### Sparse matrices -/

section Sparse

open PartialRounds (first block basis dense)

variable [Field F]

/-- The numbers a sparse round reads. -/
noncomputable def sparseEntries (D : Matrix (Fin (w + 1)) (Fin (w + 1)) F) : Vector F (w + 1 + w) :=
  Vector.ofFn (Fin.append
    (Fin.cons (D (first w) (first w))
      ((PartialRounds.lowerRight D)⁻¹ *ᵥ fun i => D i.succ (first w) : Fin w → F) : Fin (w + 1) → F)
    fun j => D (first w) j.succ)

theorem toMatrix_factorOf (m : Square F (w + 1)) :
    toMatrix (factorOf m) = block (PartialRounds.lowerRight (toMatrix m)) := by
  ext i j
  rw [toMatrix, factorOf, get_ofFn, ← toMatrix_lowerRight]
  cases i using Fin.cases with
  | zero =>
    rw [Fin.cases_zero, get_ofFn]
    cases j using Fin.cases with
    | zero => rfl
    | succ j => rfl
  | succ i =>
    rw [Fin.cases_succ, get_ofFn]
    cases j using Fin.cases with
    | zero => rfl
    | succ j => rfl

variable [DecidableEq F]

theorem inverse_eq {m : Square F n} (hn : n ≠ 0) (hm : IsUnit (toMatrix m)) :
    ∃ b, inverse m = some b ∧ toMatrix b = (toMatrix m)⁻¹ := by
  obtain ⟨b, hb, hmul⟩ := inverse_spec hn hm
  exact ⟨b, hb, (Matrix.inv_eq_left_inv hmul).symm⟩

theorem toList_ofFn {α : Type} (v : Vector α n) : v.toList = List.ofFn v.get := by
  rw [← Vector.toList_ofFn, ofFn_get]

theorem factorSparse_spec {m : Square F (w + 1)} (hw : w ≠ 0)
    (h : IsUnit (PartialRounds.lowerRight (toMatrix m))) :
    factorSparse m = some (factorOf m, (sparseEntries (toMatrix m)).toList) := by
  rw [← toMatrix_lowerRight] at h
  obtain ⟨b, hb, hinverse⟩ := inverse_eq hw h
  have hcolumn : (matrixTimesVector b (Vector.ofFn fun row => (m.get row.succ).get 0)).get =
      (PartialRounds.lowerRight (toMatrix m))⁻¹ *ᵥ fun i => toMatrix m i.succ 0 := by
    have hfirst : (Vector.ofFn fun row : Fin w => (m.get row.succ).get 0).get =
        fun i => toMatrix m i.succ 0 := funext (get_ofFn _)
    rw [get_matrixTimesVector, hinverse, hfirst, toMatrix_lowerRight]
  rw [factorSparse]
  simp only [Option.bind_eq_bind]
  rw [hb, Option.bind_some, toList_ofFn (matrixTimesVector _ _), hcolumn, Vector.toList_ofFn]
  rw [sparseEntries, Vector.toList_ofFn, List.ofFn_fin_append, List.ofFn_cons]
  rfl

theorem sparseRound_spec {A : Matrix (Fin (w + 1)) (Fin (w + 1)) F} {m : Square F (w + 1)}
    {st : Square F (w + 1) × List (List F)} {i : ℕ} (hw : w ≠ 0) (hm : toMatrix m = A)
    (h : IsUnit (PartialRounds.lowerRight (dense A i))) (hdense : toMatrix st.1 = dense A i)
    (hlist : st.2 = (List.range i).map fun k => (sparseEntries (dense A k)).toList) :
    ∃ st', sparseRound m st i = some st' ∧ toMatrix st'.1 = dense A (i + 1) ∧
      st'.2 = (List.range (i + 1)).map fun k => (sparseEntries (dense A k)).toList := by
  rw [← hdense] at h
  rw [sparseRound, factorSparse_spec hw h]
  refine ⟨_, rfl, ?_, ?_⟩
  · rw [toMatrix_matrixProduct, toMatrix_factorOf, hm, hdense, dense]
  · rw [List.range_succ, List.map_append, ← hlist, hdense]
    rfl

theorem deriveSparseMatrices_spec {A : Matrix (Fin (w + 1)) (Fin (w + 1)) F}
    {m : Square F (w + 1)} {partialRounds : ℕ} (hw : w ≠ 0) (hm : toMatrix m = A)
    (h : ∀ i, i < partialRounds → IsUnit (PartialRounds.lowerRight (dense A i))) :
    ∃ p, deriveSparseMatrices partialRounds m =
        some (p, ((List.range partialRounds).map fun k =>
          (sparseEntries (dense A k)).toList).reverse.flatten) ∧
      toMatrix p = dense A partialRounds := by
  have hrun := Loop.foldlM_range (m := Option) (f := sparseRound m) (s := (m, []))
    (n := partialRounds)
    (P := fun i st => toMatrix st.1 = dense A i ∧
      st.2 = (List.range i).map fun k => (sparseEntries (dense A k)).toList)
    ⟨hm, rfl⟩ fun i hi st hst => sparseRound_spec hw hm (h i hi) hst.1 hst.2
  obtain ⟨st, hfold, hdense, hlist⟩ := hrun
  refine ⟨st.1, ?_, hdense⟩
  rw [deriveSparseMatrices]
  simp only [Option.bind_eq_bind]
  rw [hfold, Option.pure_def, Option.bind_some, hlist]

end Sparse

end Curvy.Poseidon
