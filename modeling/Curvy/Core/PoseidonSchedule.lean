import Curvy.Core.PoseidonTables
import Curvy.Witness.ScalarField

/-!
# The optimized schedule is the direct one

Full rounds agree up to the constants in front of the next round, partial rounds up to a change of
coordinates.
-/

namespace Curvy.Poseidon

set_option autoImplicit false

open Matrix
open PartialRounds (first onFirst carried kept sparse basis dense plainFrom optimizedFrom)

variable {F : Type} {n w : ℕ}

/-! ### Rounds as functions -/

/-- A loop whose rounds do not fail. -/
theorem foldlM_total {f : State F n → ℕ → Option (State F n)}
    {g : ℕ → (Fin n → F) → Fin n → F} {l : List ℕ}
    (h : ∀ x ∈ l, ∀ s, f s x = some (Vector.ofFn (g x s.get))) (s : State F n) :
    l.foldlM f s = some (Vector.ofFn (l.foldl (fun y x => g x y) s.get)) := by
  induction l generalizing s with
  | nil => rw [List.foldlM_nil, List.foldl_nil, ofFn_get]; rfl
  | cons x l ih =>
    have hget : (Vector.ofFn (g x s.get)).get = g x s.get := funext (get_ofFn _)
    rw [List.foldlM_cons, h x List.mem_cons_self, Option.bind_eq_bind, Option.bind_some,
      ih fun y hy => h y (List.mem_cons_of_mem _ hy), hget, List.foldl_cons]

variable [Field F]

def referenceStep (A : Matrix (Fin (w + 1)) (Fin (w + 1)) F) (c : List F) (nRoundsP x : ℕ)
    (y : Fin (w + 1) → F) : Fin (w + 1) → F :=
  (if isFull nRoundsP x then pow5 ∘ (y + roundConstants c x)
    else onFirst pow5 (y + roundConstants c x)) ᵥ* A

theorem referenceRound_spec {p : Params F w} {x : ℕ}
    (hlength : p.c.length = (8 + p.nRoundsP) * (w + 1)) (hx : x < 8 + p.nRoundsP)
    (state : State F (w + 1)) :
    referenceRound p state x =
      some (Vector.ofFn (referenceStep (toMatrix p.m)ᵀ p.c p.nRoundsP x state.get)) := by
  rw [referenceRound, slice_round hlength hx, Option.bind_eq_bind, Option.bind_some,
    Option.some_inj, ← ofFn_get (mixInto _ _), get_mixInto, referenceStep, vecMul_transpose]
  congr 2
  funext y
  rw [get_ofFn, get_ofFn]
  by_cases hfull : isFull p.nRoundsP x = true
  · rw [if_pos (Or.inl hfull), if_pos hfull]
    rfl
  · rw [if_neg hfull]
    cases y using Fin.cases with
    | zero =>
      rw [if_pos (Or.inr rfl), PartialRounds.onFirst_zero]
      rfl
    | succ j =>
      have hne : ¬ (isFull p.nRoundsP x = true ∨ j.succ = 0) := by
        rintro (h | h)
        · exact hfull h
        · exact Fin.succ_ne_zero j h
      rw [if_neg hne, PartialRounds.onFirst_succ]
      rfl

def denseStep (M : Matrix (Fin (w + 1)) (Fin (w + 1)) F) (c y : Fin (w + 1) → F) :
    Fin (w + 1) → F := (pow5 ∘ y + c) ᵥ* M

theorem denseRound_spec {c : List F} {start : ℕ} {v : Vector F (w + 1)}
    (h : slice c start (w + 1) = some v) (m : Square F (w + 1)) (state : State F (w + 1)) :
    denseRound c m state start = some (Vector.ofFn (denseStep (toMatrix m) v.get state.get)) := by
  rw [denseRound, h, Option.bind_eq_bind, Option.bind_some, Option.some_inj,
    ← ofFn_get (mixRowVectorInto _ _), get_mixRowVectorInto, denseStep]
  congr 2
  funext i
  rw [get_ofFn]
  rfl

def partialStep (key : F) (S : Matrix (Fin (w + 1)) (Fin (w + 1)) F) (y : Fin (w + 1) → F) :
    Fin (w + 1) → F := (onFirst pow5 y + Pi.single (first w) key) ᵥ* S

theorem partialRound_spec {p : OptimizedParams F w} {round : ℕ} {key corner : F}
    {column row : Fin w → F} {v : Vector F (w + 1 + w)}
    (hkey : p.c[5 * (w + 1) + round]? = some key)
    (hslice : slice p.s (round * (w + 1 + w)) (w + 1 + w) = some v)
    (hv : v.get = Fin.append (Fin.cons corner column : Fin (w + 1) → F) row)
    (state : State F (w + 1)) :
    partialRound p state round =
      some (Vector.ofFn (partialStep key (sparse corner column row) state.get)) := by
  have hwidth : 2 * (w + 1) - 1 = w + 1 + w := by omega
  rw [partialRound, show (nRoundsF / 2 + 1) * (w + 1) + round = 5 * (w + 1) + round from rfl]
  simp only [Option.bind_eq_bind]
  rw [hkey, Option.bind_some, hwidth, hslice, Option.bind_some, Option.some_inj]
  congr 1
  funext i
  cases i using Fin.cases with
  | zero =>
    rw [Fin.cases_zero, total_eq, partialStep, PartialRounds.vecMul_sparse_zero, Fin.sum_univ_succ]
    simp only [get_ofFn, Fin.cases_zero, Fin.cases_succ, hv, Fin.append_left, Fin.cons_zero,
      Fin.cons_succ, Pi.add_apply, PartialRounds.onFirst_zero, PartialRounds.onFirst_succ,
      Pi.single_eq_same, PartialRounds.single_succ, add_zero]
  | succ j =>
    rw [Fin.cases_succ, get_ofFn, Fin.cases_succ, hv, Fin.append_right, partialStep,
      PartialRounds.vecMul_sparse_succ]
    simp only [Pi.add_apply, PartialRounds.onFirst_zero, PartialRounds.onFirst_succ,
      Pi.single_eq_same, PartialRounds.single_succ, add_zero]
    exact add_comm _ _

/-! ### The two schedules, round for round -/

section Runs

variable {A B : Matrix (Fin (w + 1)) (Fin (w + 1)) F} {c : List F} {nRoundsP : ℕ}

/-- The inverse in a table undoes the mixing behind it. -/
theorem denseStep_moved (hBA : B * A = 1) (next y : Fin (w + 1) → F) :
    denseStep A (next ᵥ* B) y = (pow5 ∘ y) ᵥ* A + next := by
  rw [denseStep, add_vecMul, vecMul_vecMul, hBA, vecMul_one]

theorem referenceStep_full {x : ℕ} (h : isFull nRoundsP x = true) (y : Fin (w + 1) → F) :
    referenceStep A c nRoundsP x y = (pow5 ∘ (y + roundConstants c x)) ᵥ* A := by
  rw [referenceStep, if_pos h]

theorem isFull_front {x : ℕ} (h : x < 4) : isFull nRoundsP x = true := by
  rw [isFull, decide_eq_true (show x < nRoundsF / 2 from h), Bool.true_or]

theorem isFull_back {x : ℕ} (h : 4 + nRoundsP ≤ x) : isFull nRoundsP x = true := by
  rw [isFull, decide_eq_true (show nRoundsF / 2 + nRoundsP ≤ x from h), Bool.or_true]

theorem not_isFull {x : ℕ} (h : 4 ≤ x) (hx : x < 4 + nRoundsP) : ¬ isFull nRoundsP x = true := by
  intro hfull
  rw [isFull, Bool.or_eq_true, decide_eq_true_eq, decide_eq_true_eq] at hfull
  rcases hfull with hlt | hle
  · exact absurd hlt (Nat.not_lt.mpr h)
  · exact absurd hle (Nat.not_le.mpr hx)

/-- A full round in front of `next`, in both schedules. -/
theorem denseStep_full {x : ℕ} (hBA : B * A = 1) (h : isFull nRoundsP x = true)
    (next y : Fin (w + 1) → F) :
    denseStep A (next ᵥ* B) (y + roundConstants c x) =
      referenceStep A c nRoundsP x y + next := by
  rw [denseStep_moved hBA, referenceStep_full h]

/-- The partial rounds of the direct schedule, counted down. -/
theorem referencePartial {i : ℕ} (hi : i ≤ nRoundsP) (y : Fin (w + 1) → F) :
    plainFrom pow5 A (remainingConstants c nRoundsP) i y =
      (List.range' (4 + nRoundsP - i) i).foldl (fun y x => referenceStep A c nRoundsP x y) y +
        roundConstants c (4 + nRoundsP) := by
  induction i generalizing y with
  | zero => rw [plainFrom, remainingConstants, Nat.sub_zero, List.range'_zero, List.foldl_nil]
  | succ i ih =>
    have hstep : referenceStep A c nRoundsP (4 + nRoundsP - (i + 1)) y =
        onFirst pow5 (y + remainingConstants c nRoundsP (i + 1)) ᵥ* A := by
      rw [referenceStep, if_neg (not_isFull (by omega) (by omega)), remainingConstants]
    rw [plainFrom, ih (by omega), List.range'_succ, List.foldl_cons, hstep]
    rw [show 4 + nRoundsP - (i + 1) + 1 = 4 + nRoundsP - i by omega]

/-- And of the optimized one. -/
theorem optimizedPartial (k : ℕ → F) (S : ℕ → Matrix (Fin (w + 1)) (Fin (w + 1)) F) {i : ℕ}
    (hi : i ≤ nRoundsP) (y : Fin (w + 1) → F) :
    (List.range' (nRoundsP - i) i).foldl
        (fun y r => partialStep (k (nRoundsP - 1 - r)) (S (nRoundsP - 1 - r)) y) y =
      optimizedFrom pow5 k S i y := by
  induction i generalizing y with
  | zero => rw [optimizedFrom, List.range'_zero, List.foldl_nil]
  | succ i ih =>
    rw [List.range'_succ, List.foldl_cons, optimizedFrom]
    rw [show nRoundsP - (i + 1) + 1 = nRoundsP - i by omega,
      show nRoundsP - 1 - (nRoundsP - (i + 1)) = i by omega, ih (by omega), partialStep]

theorem front_agrees (hBA : B * A = 1) (nRoundsP : ℕ) (y : Fin (w + 1) → F) :
    (List.range 3).foldl (fun y r => denseStep A (roundConstants c (r + 1) ᵥ* B) y)
        (y + roundConstants c 0) =
      (List.range 3).foldl (fun y x => referenceStep A c nRoundsP x y) y + roundConstants c 3 := by
  rw [show List.range 3 = [0, 1, 2] from rfl]
  simp only [List.foldl_cons, List.foldl_nil]
  rw [denseStep_full hBA (isFull_front (by omega)), denseStep_full hBA (isFull_front (by omega)),
    denseStep_full hBA (isFull_front (by omega))]

/-- The last full round in front of the partial ones moves into their coordinates. -/
theorem transition (hBA : B * A = 1) (i : ℕ) (next y : Fin (w + 1) → F) :
    denseStep (dense A i) (next ᵥ* B) (y + roundConstants c 3) =
      (referenceStep A c nRoundsP 3 y + next) ᵥ*
        basis (fun i => PartialRounds.lowerRight (dense A i)) i := by
  have hfront : isFull nRoundsP 3 = true := isFull_front (by omega)
  have hfull := denseStep_full (c := c) hBA hfront next y
  rw [← hfull, denseStep, denseStep, vecMul_vecMul, ← PartialRounds.dense_eq]

theorem back_agrees (hBA : B * A = 1) (y : Fin (w + 1) → F) :
    (List.range 3).foldl
        (fun y r => denseStep A (roundConstants c (4 + nRoundsP + (r + 1)) ᵥ* B) y)
        (y + roundConstants c (4 + nRoundsP)) =
      (List.range' (4 + nRoundsP) 3).foldl (fun y x => referenceStep A c nRoundsP x y) y +
        roundConstants c (4 + nRoundsP + 3) := by
  rw [show List.range 3 = [0, 1, 2] from rfl,
    show List.range' (4 + nRoundsP) 3 = [4 + nRoundsP, 4 + nRoundsP + 1, 4 + nRoundsP + 2] from rfl]
  simp only [List.foldl_cons, List.foldl_nil]
  have h0 : isFull nRoundsP (4 + nRoundsP) = true := isFull_back (le_refl _)
  have h1 : isFull nRoundsP (4 + nRoundsP + (0 + 1)) = true := isFull_back (by omega)
  have h2 : isFull nRoundsP (4 + nRoundsP + (1 + 1)) = true := isFull_back (by omega)
  rw [denseStep_full hBA h0, denseStep_full hBA h1, denseStep_full hBA h2]

/-- The sparse matrix of a round. -/
noncomputable def sparseOf (D : Matrix (Fin (w + 1)) (Fin (w + 1)) F) :
    Matrix (Fin (w + 1)) (Fin (w + 1)) F :=
  sparse (D (first w) (first w))
    ((PartialRounds.lowerRight D)⁻¹ *ᵥ fun i => D i.succ (first w)) fun j => D (first w) j.succ

theorem block_mul_sparseOf {D : Matrix (Fin (w + 1)) (Fin (w + 1)) F}
    (h : IsUnit (PartialRounds.lowerRight D)) :
    PartialRounds.block (PartialRounds.lowerRight D) * sparseOf D = D := by
  apply PartialRounds.block_mul_sparse
  rw [mulVec_mulVec, Matrix.mul_nonsing_inv _ ((Matrix.isUnit_iff_isUnit_det _).mp h), one_mulVec]

/-- All partial rounds, with the change of coordinates in front of them. -/
theorem partial_agrees (hBA : B * A = 1)
    (hdense : ∀ i, i < nRoundsP → IsUnit (PartialRounds.lowerRight (dense A i)))
    (y : Fin (w + 1) → F) :
    (List.range nRoundsP).foldl
        (fun y r => partialStep (kept B (remainingConstants c nRoundsP) (nRoundsP - 1 - r))
          (sparseOf (dense A (nRoundsP - 1 - r))) y)
        ((y + carried B (remainingConstants c nRoundsP) nRoundsP) ᵥ*
          basis (fun i => PartialRounds.lowerRight (dense A i)) nRoundsP) =
      (List.range' 4 nRoundsP).foldl (fun y x => referenceStep A c nRoundsP x y) y +
        roundConstants c (4 + nRoundsP) := by
  have hfactor : ∀ i, i < nRoundsP →
      PartialRounds.block (PartialRounds.lowerRight (dense A i)) * sparseOf (dense A i) =
        A * basis (fun i => PartialRounds.lowerRight (dense A i)) i := by
    intro i hi
    rw [block_mul_sparseOf (hdense i hi), ← PartialRounds.dense_eq]
  have hoptimized := optimizedPartial (kept B (remainingConstants c nRoundsP))
    (fun i => sparseOf (dense A i)) (le_refl nRoundsP)
    ((y + carried B (remainingConstants c nRoundsP) nRoundsP) ᵥ*
      basis (fun i => PartialRounds.lowerRight (dense A i)) nRoundsP)
  have hreference := referencePartial (A := A) (c := c) (le_refl nRoundsP) y
  rw [Nat.sub_self, ← List.range_eq_range'] at hoptimized
  rw [Nat.add_sub_cancel] at hreference
  rw [hoptimized, ← hreference]
  exact PartialRounds.optimizedFrom_eq pow5 A B _ hBA hfactor (le_refl nRoundsP) y

end Runs

/-! ### Reading the tables -/

section Tables

variable (B : Matrix (Fin (w + 1)) (Fin (w + 1)) F) (c : List F) (nRoundsP : ℕ)

/-- The constants the generator writes. -/
def tables : List F :=
  (frontConstants B c nRoundsP).flatMap Vector.toList ++ partialKeys B c nRoundsP ++
    (backConstants B c nRoundsP).flatMap Vector.toList

theorem slice_front_tables {k : ℕ} {v : Vector F (w + 1)}
    (h : (frontConstants B c nRoundsP)[k]? = some v) :
    slice (tables B c nRoundsP) (k * (w + 1)) (w + 1) = some v := by
  rw [tables, List.append_assoc]
  exact slice_flatMap h _

theorem length_front : ((frontConstants B c nRoundsP).flatMap Vector.toList).length =
    5 * (w + 1) := by
  simp only [frontConstants, List.flatMap_cons, List.flatMap_nil, List.append_nil,
    List.length_append, Vector.length_toList]
  ring

theorem slice_back_tables {k : ℕ} {v : Vector F (w + 1)}
    (h : (backConstants B c nRoundsP)[k]? = some v) :
    slice (tables B c nRoundsP) (5 * (w + 1) + nRoundsP + k * (w + 1)) (w + 1) = some v := by
  have hlength : ((frontConstants B c nRoundsP).flatMap Vector.toList ++
      partialKeys B c nRoundsP).length = 5 * (w + 1) + nRoundsP := by
    rw [List.length_append, length_front, partialKeys, List.length_reverse, List.length_map,
      List.length_range]
  have hread := slice_flatMap h []
  rw [List.append_nil] at hread
  rw [tables, ← hlength, slice_behind, hread]

theorem key_tables {r : ℕ} (h : r < nRoundsP) :
    (tables B c nRoundsP)[5 * (w + 1) + r]? =
      some (kept B (remainingConstants c nRoundsP) (nRoundsP - 1 - r)) := by
  have hlength : r < (partialKeys B c nRoundsP).length := by
    rw [partialKeys, List.length_reverse, List.length_map, List.length_range]
    exact h
  rw [tables, ← length_front B c nRoundsP, List.append_assoc,
    List.getElem?_append_right (Nat.le_add_right _ _), Nat.add_sub_cancel_left,
    List.getElem?_append_left hlength, partialKeys]
  rw [List.getElem?_reverse (by rw [List.length_map, List.length_range]; exact h), List.length_map,
    List.length_range, List.getElem?_map, List.getElem?_range (by omega), Option.map_some]

end Tables

/-! ### The whole schedules -/

theorem poseidonReference_spec {p : Params F w} {inputs : List F} {state : State F (w + 1)}
    (hlength : p.c.length = (8 + p.nRoundsP) * (w + 1)) (hstate : initialState inputs = some state) :
    poseidonReference inputs p = some ((List.range (8 + p.nRoundsP)).foldl
      (fun y x => referenceStep (toMatrix p.m)ᵀ p.c p.nRoundsP x y) state.get 0) := by
  have hrun : (List.range (8 + p.nRoundsP)).foldlM (referenceRound p) state =
      some (Vector.ofFn ((List.range (8 + p.nRoundsP)).foldl
        (fun y x => referenceStep (toMatrix p.m)ᵀ p.c p.nRoundsP x y) state.get)) :=
    foldlM_total (fun x hx s => referenceRound_spec hlength (List.mem_range.mp hx) s) state
  rw [poseidonReference, hstate]
  simp only [Option.bind_eq_bind]
  rw [Option.bind_some, show nRoundsF + p.nRoundsP = 8 + p.nRoundsP from rfl, hrun,
    Option.bind_some, get_ofFn]

/-- The rounds of the direct schedule by their kinds. -/
theorem range_rounds (nRoundsP : ℕ) :
    List.range (8 + nRoundsP) = List.range 3 ++ [3] ++ List.range' 4 nRoundsP ++
      List.range' (4 + nRoundsP) 3 ++ [4 + nRoundsP + 3] := by
  rw [List.range_eq_range', show 8 + nRoundsP = 4 + (nRoundsP + 4) by omega, ← List.range'_append_1,
    ← List.range'_append_1]
  simp [List.range_eq_range', List.range'_succ]

theorem get_sparseEntries (D : Matrix (Fin (w + 1)) (Fin (w + 1)) F) :
    (sparseEntries D).get = Fin.append
      (Fin.cons (D 0 0)
        ((PartialRounds.lowerRight D)⁻¹ *ᵥ fun i => D i.succ 0 : Fin w → F) : Fin (w + 1) → F)
      fun j => D 0 j.succ := funext (get_ofFn _)

section Optimized

variable {A B : Matrix (Fin (w + 1)) (Fin (w + 1)) F} {c : List F} {q : OptimizedParams F w}
  (hc : q.c = tables B c q.nRoundsP) (hq : toMatrix q.m = A)
  (hp : toMatrix q.p = dense A q.nRoundsP)
  (hs : q.s = ((List.range q.nRoundsP).map fun k =>
    (sparseEntries (dense A k)).toList).reverse.flatten)

include hc hq

theorem leading_spec (state : State F (w + 1)) :
    (List.range 3).foldlM
        (fun state round => denseRound q.c q.m state ((round + 1) * (w + 1))) state =
      some (Vector.ofFn ((List.range 3).foldl
        (fun y r => denseStep A (roundConstants c (r + 1) ᵥ* B) y) state.get)) := by
  apply foldlM_total
  intro r hr s
  have hr : r = 0 ∨ r = 1 ∨ r = 2 := by
    rw [List.mem_range] at hr
    omega
  have hread : (frontConstants B c q.nRoundsP)[r + 1]? = some (movedConstants B c (r + 1)) := by
    rcases hr with rfl | rfl | rfl
    · rfl
    · rfl
    · rfl
  have hslice := slice_front_tables B c q.nRoundsP hread
  rw [← hc] at hslice
  rw [denseRound_spec hslice, hq, movedConstants, funext (get_ofFn _)]

theorem trailing_spec (state : State F (w + 1)) :
    (List.range 3).foldlM
        (fun state round =>
          denseRound q.c q.m state (5 * (w + 1) + q.nRoundsP + round * (w + 1))) state =
      some (Vector.ofFn ((List.range 3).foldl
        (fun y r => denseStep A (roundConstants c (4 + q.nRoundsP + (r + 1)) ᵥ* B) y)
        state.get)) := by
  apply foldlM_total
  intro r hr s
  have hr : r = 0 ∨ r = 1 ∨ r = 2 := by
    rw [List.mem_range] at hr
    omega
  have hread : (backConstants B c q.nRoundsP)[r]? =
      some (movedConstants B c (4 + q.nRoundsP + (r + 1))) := by
    rcases hr with rfl | rfl | rfl
    · rfl
    · rfl
    · rfl
  have hslice := slice_back_tables B c q.nRoundsP hread
  rw [← hc] at hslice
  rw [denseRound_spec hslice, hq, movedConstants, funext (get_ofFn _)]

omit hq

include hs

theorem partial_spec (state : State F (w + 1)) :
    (List.range q.nRoundsP).foldlM (partialRound q) state =
      some (Vector.ofFn ((List.range q.nRoundsP).foldl
        (fun y r => partialStep
          (kept B (remainingConstants c q.nRoundsP) (q.nRoundsP - 1 - r))
          (sparseOf (dense A (q.nRoundsP - 1 - r))) y) state.get)) := by
  apply foldlM_total
  intro r hr s
  rw [List.mem_range] at hr
  have hkey := key_tables B c q.nRoundsP hr
  rw [← hc] at hkey
  have hslice := slice_reversed (fun k => sparseEntries (dense A k)) hr
  rw [← hs] at hslice
  rw [partialRound_spec hkey hslice (get_sparseEntries _), sparseOf]

include hq hp

/-- What the optimized schedule computes with the tables of the generator. -/
theorem poseidonOptimized_spec (hBA : B * A = 1)
    (hdense : ∀ i, i < q.nRoundsP → IsUnit (PartialRounds.lowerRight (dense A i)))
    {inputs : List F} {state : State F (w + 1)} (hstate : initialState inputs = some state) :
    poseidonOptimized inputs q = some ((List.range (8 + q.nRoundsP)).foldl
      (fun y x => referenceStep A c q.nRoundsP x y) state.get 0) := by
  have hget : ∀ f : Fin (w + 1) → F, (Vector.ofFn f).get = f := fun f => funext (get_ofFn f)
  have hread0 := slice_front_tables B c q.nRoundsP (k := 0) rfl
  have hread4 := slice_front_tables B c q.nRoundsP (k := 4) rfl
  rw [← hc] at hread0 hread4
  rw [Nat.zero_mul] at hread0
  have hadd : (Vector.ofFn fun i => state.get i + (Vector.ofFn (roundConstants c 0)).get i) =
      Vector.ofFn (state.get + roundConstants c 0) := by
    rw [hget]
    rfl
  have hleading := leading_spec hc hq (Vector.ofFn (state.get + roundConstants c 0))
  rw [hget, front_agrees hBA q.nRoundsP] at hleading
  have htransition := denseRound_spec hread4 q.p
    (Vector.ofFn ((List.range 3).foldl (fun y x => referenceStep A c q.nRoundsP x y) state.get +
      roundConstants c 3))
  rw [hget, hget, hp, transition hBA] at htransition
  have hpartial := partial_spec hc hs (Vector.ofFn
    ((referenceStep A c q.nRoundsP 3
        ((List.range 3).foldl (fun y x => referenceStep A c q.nRoundsP x y) state.get) +
      carried B (remainingConstants c q.nRoundsP) q.nRoundsP) ᵥ*
        basis (fun i => PartialRounds.lowerRight (dense A i)) q.nRoundsP))
  rw [hget, partial_agrees hBA hdense] at hpartial
  have htrailing := trailing_spec hc hq (Vector.ofFn
    ((List.range' 4 q.nRoundsP).foldl (fun y x => referenceStep A c q.nRoundsP x y)
      (referenceStep A c q.nRoundsP 3
        ((List.range 3).foldl (fun y x => referenceStep A c q.nRoundsP x y) state.get)) +
      roundConstants c (4 + q.nRoundsP)))
  rw [hget, back_agrees hBA] at htrailing
  rw [poseidonOptimized, hstate, show nRoundsF / 2 = 4 from rfl, show 4 - 1 = 3 from rfl,
    show 4 + 1 = 5 from rfl]
  simp only [Option.bind_eq_bind]
  rw [Option.bind_some, hread0, Option.bind_some, hadd, hleading, Option.bind_some, htransition,
    Option.bind_some, hpartial, Option.bind_some, htrailing, Option.bind_some]
  rw [range_rounds, List.foldl_append, List.foldl_append, List.foldl_append, List.foldl_append]
  rw [get_mixRowVectorInto, hq, Option.some_inj]
  simp only [List.foldl_cons, List.foldl_nil]
  rw [referenceStep_full (isFull_back (Nat.le_add_right _ 3))]
  congr 2
  funext i
  rw [get_map, get_ofFn]
  rfl

end Optimized

/-- What the generator makes of an inverse and the last dense matrix. -/
noncomputable def generated (source : Params F w) (B : Matrix (Fin (w + 1)) (Fin (w + 1)) F)
    (p : Square F (w + 1)) : OptimizedParams F w where
  nRoundsP := source.nRoundsP
  c := tables B source.c source.nRoundsP
  m := transpose source.m
  p := p
  s := ((List.range source.nRoundsP).map fun k =>
    (sparseEntries (dense (toMatrix source.m)ᵀ k)).toList).reverse.flatten

variable [DecidableEq F]

/-- What the generator makes of parameters whose inverses exist. -/
theorem optimize_spec {source : Params F w} (hw : 0 < w)
    (hlength : source.c.length = (8 + source.nRoundsP) * (w + 1)) (hm : IsUnit (toMatrix source.m))
    (hdense : ∀ i, i < source.nRoundsP →
      IsUnit (PartialRounds.lowerRight (dense (toMatrix source.m)ᵀ i))) :
    ∃ B p, B * (toMatrix source.m)ᵀ = 1 ∧
      toMatrix p = dense (toMatrix source.m)ᵀ source.nRoundsP ∧
      optimize source = some (generated source B p) := by
  have htranspose := toMatrix_transpose source.m
  have hunit : IsUnit (toMatrix (transpose source.m)) := by
    rw [htranspose, Matrix.isUnit_transpose]
    exact hm
  obtain ⟨b, hb, hmul⟩ := inverse_spec (Nat.succ_ne_zero w) hunit
  obtain ⟨p, hp, hdenseP⟩ := deriveSparseMatrices_spec hw.ne' htranspose hdense
  refine ⟨toMatrix b, p, ?_, hdenseP, ?_⟩
  · rw [← htranspose]
    exact hmul
  rw [optimize, if_pos hlength]
  simp only [Option.bind_eq_bind]
  rw [foldRoundConstants_spec hlength hb, Option.bind_some, hp, Option.bind_some]
  rfl

/-- Where the inverses exist the generator has tables, and the optimized schedule computes with them
what the direct one does with the parameters, up to the width the state has room for. -/
theorem optimized_is_direct {source : Params F w} (hw : 0 < w)
    (hlength : source.c.length = (8 + source.nRoundsP) * (w + 1)) (hm : IsUnit (toMatrix source.m))
    (hdense : ∀ i, i < source.nRoundsP →
      IsUnit (PartialRounds.lowerRight (dense (toMatrix source.m)ᵀ i))) :
    ∃ q, optimize source = some q ∧ ∀ inputs : List F,
      poseidonOptimized inputs q = poseidonReference inputs source ∧
      ((poseidonReference inputs source).isSome = true ↔ w + 1 ≤ stateStorage) := by
  obtain ⟨B, p, hBA, hp, hoptimize⟩ := optimize_spec hw hlength hm hdense
  refine ⟨_, hoptimize, ?_⟩
  intro inputs
  by_cases hwidth : w + 1 ≤ stateStorage
  · obtain ⟨state, hstate⟩ : ∃ state : State F (w + 1), initialState inputs = some state :=
      ⟨_, if_pos hwidth⟩
    have hreference := poseidonReference_spec hlength hstate
    have hoptimized := poseidonOptimized_spec (q := generated source B p) rfl
      (toMatrix_transpose source.m) hp rfl hBA hdense hstate
    constructor
    · rw [hoptimized, hreference]
      rfl
    · rw [hreference]
      exact iff_of_true rfl hwidth
  · have hstate : (initialState inputs : Option (State F (w + 1))) = none := if_neg hwidth
    have hreference : poseidonReference inputs source = none := by
      rw [poseidonReference, hstate]
      rfl
    constructor
    · rw [hreference, poseidonOptimized, hstate]
      rfl
    · rw [hreference]
      exact iff_of_false Bool.false_ne_true hwidth

/-- One input and one partial round. -/
def exampleParams : Params Witness.Fr 1 where
  nRoundsP := 1
  c := (List.range 18).map fun i => (i : Witness.Fr)
  m := #v[#v[1 + 1, 1], #v[1, 1]]

theorem isUnit_example : IsUnit (toMatrix exampleParams.m) := by
  rw [Matrix.isUnit_iff_isUnit_det, Matrix.det_fin_two]
  have hdet : toMatrix exampleParams.m 0 0 * toMatrix exampleParams.m 1 1 -
      toMatrix exampleParams.m 0 1 * toMatrix exampleParams.m 1 0 = 1 := by
    rw [show toMatrix exampleParams.m 0 0 = 1 + 1 from rfl,
      show toMatrix exampleParams.m 1 1 = 1 from rfl, show toMatrix exampleParams.m 0 1 = 1 from rfl,
      show toMatrix exampleParams.m 1 0 = 1 from rfl]
    ring
  rw [hdet]
  exact isUnit_one

theorem isUnit_lowerRight_example :
    IsUnit (PartialRounds.lowerRight (dense (toMatrix exampleParams.m)ᵀ 0)) := by
  rw [Matrix.isUnit_iff_isUnit_det, Matrix.det_unique]
  have hentry : PartialRounds.lowerRight (dense (toMatrix exampleParams.m)ᵀ 0) default default =
      1 := rfl
  rw [hentry]
  exact isUnit_one

theorem optimized_is_direct_example :
    ∃ q, optimize exampleParams = some q ∧ ∀ inputs : List Witness.Fr,
      poseidonOptimized inputs q = poseidonReference inputs exampleParams ∧
      ((poseidonReference inputs exampleParams).isSome = true ↔ 1 + 1 ≤ stateStorage) :=
  optimized_is_direct Nat.one_pos rfl isUnit_example fun i hi => by
    rw [Nat.lt_one_iff.mp hi]
    exact isUnit_lowerRight_example

end Curvy.Poseidon
