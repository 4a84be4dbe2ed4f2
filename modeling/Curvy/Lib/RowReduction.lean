import Mathlib.Algebra.Module.Submodule.Basic
import Mathlib.Algebra.Field.Basic
import Mathlib.GroupTheory.GroupAction.Ring
import Mathlib.LinearAlgebra.Pi

/-!
# Row reduction

Rows of any module, with one coordinate for each row. A step makes one coordinate a unit: it swaps a
pivot into its place, scales it and takes it from the other rows. Relations between the rows hold
before a step and behind it, so nothing has to be said about matrices of row operations.
-/

namespace RowReduction

set_option autoImplicit false

variable {F V : Type} [Field F] [AddCommGroup V] [Module F V] {n : ℕ}

/-- The pivot of row `p` in place `k`, and zero for the coordinate everywhere else. -/
def pivoted (c : V →ₗ[F] F) (rows : Fin n → V) (k p : Fin n) : Fin n → V := fun i =>
  if i = k then (c (rows p))⁻¹ • rows p
  else rows (Equiv.swap k p i) - c (rows (Equiv.swap k p i)) • (c (rows p))⁻¹ • rows p

variable {c : V →ₗ[F] F} {rows : Fin n → V} {k p : Fin n}

theorem pivoted_self : pivoted c rows k p k = (c (rows p))⁻¹ • rows p := if_pos rfl

theorem pivoted_ne {i : Fin n} (h : i ≠ k) :
    pivoted c rows k p i =
      rows (Equiv.swap k p i) - c (rows (Equiv.swap k p i)) • (c (rows p))⁻¹ • rows p :=
  if_neg h

theorem pivoted_mem {S : Submodule F V} (h : ∀ i, rows i ∈ S) (i : Fin n) :
    pivoted c rows k p i ∈ S := by
  have hpivot : (c (rows p))⁻¹ • rows p ∈ S := S.smul_mem _ (h p)
  by_cases hi : i = k
  · rw [hi, pivoted_self]
    exact hpivot
  · rw [pivoted_ne hi]
    exact S.sub_mem (h _) (S.smul_mem _ hpivot)

theorem reflects_pivoted (hp : c (rows p) ≠ 0) {φ : V →ₗ[F] F}
    (h : ∀ i, φ (pivoted c rows k p i) = 0) (i : Fin n) : φ (rows i) = 0 := by
  have hpivot : φ (rows p) = 0 := by
    have hk := h k
    rw [pivoted_self, map_smul, smul_eq_mul] at hk
    exact (mul_eq_zero.mp hk).resolve_left (inv_ne_zero hp)
  by_cases hi : Equiv.swap k p i = k
  · have hip : i = p := by
      rw [Equiv.swap_apply_eq_iff, Equiv.swap_apply_left] at hi
      exact hi
    rw [hip]
    exact hpivot
  · have hrow := h (Equiv.swap k p i)
    rw [pivoted_ne hi, Equiv.swap_apply_self, map_sub, map_smul, map_smul, hpivot, smul_zero,
      smul_zero, sub_zero] at hrow
    exact hrow

theorem coordinate_pivoted (hp : c (rows p) ≠ 0) (i : Fin n) :
    c (pivoted c rows k p i) = if i = k then 1 else 0 := by
  have hpivot : c ((c (rows p))⁻¹ • rows p) = 1 := by
    rw [map_smul, smul_eq_mul, inv_mul_cancel₀ hp]
  by_cases hi : i = k
  · rw [if_pos hi, hi, pivoted_self, hpivot]
  · rw [if_neg hi, pivoted_ne hi, map_sub, map_smul, hpivot, smul_eq_mul, mul_one, sub_self]

/-- A coordinate that is already a unit stays one. -/
theorem unit_pivoted {d : V →ₗ[F] F} {j : Fin n} (hk : j ≠ k) (hp : j ≠ p)
    (hunit : ∀ i, d (rows i) = if i = j then 1 else 0) (i : Fin n) :
    d (pivoted c rows k p i) = if i = j then 1 else 0 := by
  have hpivot : d ((c (rows p))⁻¹ • rows p) = 0 := by
    rw [map_smul, hunit, if_neg hp.symm, smul_zero]
  by_cases hi : i = k
  · rw [hi, pivoted_self, hpivot, if_neg hk.symm]
  · rw [pivoted_ne hi, map_sub, map_smul, hpivot, smul_zero, sub_zero, hunit]
    have hswap : Equiv.swap k p i = j ↔ i = j := by
      rw [Equiv.swap_apply_eq_iff, Equiv.swap_apply_of_ne_of_ne hk hp]
    simp only [hswap]

/-! ### A whole reduction -/

/-- What holds of rows that come from others, with the first `k` coordinates reduced. -/
structure Reduced (coordinate : Fin n → V →ₗ[F] F) (start rows : Fin n → V) (k : ℕ) : Prop where
  mem : ∀ S : Submodule F V, (∀ i, start i ∈ S) → ∀ i, rows i ∈ S
  reflects : ∀ φ : V →ₗ[F] F, (∀ i, φ (rows i) = 0) → ∀ i, φ (start i) = 0
  unit : ∀ j : Fin n, j < k → ∀ i, coordinate j (rows i) = if i = j then 1 else 0

variable {coordinate : Fin n → V →ₗ[F] F} {start : Fin n → V}

theorem Reduced.refl : Reduced coordinate start start 0 where
  mem _ h := h
  reflects _ h := h
  unit _ hj := absurd hj (Nat.not_lt_zero _)

theorem Reduced.step {rows : Fin n → V} {k p : Fin n} (h : Reduced coordinate start rows k)
    (hkp : k ≤ p) (hp : coordinate k (rows p) ≠ 0) :
    Reduced coordinate start (pivoted (coordinate k) rows k p) (k + 1) where
  mem S hS := pivoted_mem (h.mem S hS)
  reflects φ hφ := h.reflects φ (reflects_pivoted hp hφ)
  unit j hj := by
    rcases Nat.lt_succ_iff_lt_or_eq.mp hj with hlt | heq
    · have hjk : j < k := hlt
      exact unit_pivoted hjk.ne (hjk.trans_le hkp).ne (h.unit j hlt)
    · rw [Fin.ext heq]
      exact coordinate_pivoted hp

/-- Where no relation sees the coordinates, a pivot is left. -/
theorem Reduced.exists_pivot {rows : Fin n → V} {k : Fin n} (h : Reduced coordinate start rows k)
    (hfree : ∀ a : Fin n → F, (∀ i, (∑ j, a j • coordinate j) (start i) = 0) → a = 0) :
    ∃ p, k ≤ p ∧ coordinate k (rows p) ≠ 0 := by
  by_contra hnone
  have hzero : ∀ p, k ≤ p → coordinate k (rows p) = 0 := by
    intro p hp
    by_contra hne
    exact hnone ⟨p, hp, hne⟩
  -- the coordinate is a combination of those that are reduced
  let a : Fin n → F := fun j =>
    if j < k then coordinate k (rows j) else if j = k then -1 else 0
  have hterm : ∀ i j, a j • coordinate j (rows i) =
      (if j = i then (if i < k then coordinate k (rows i) else 0) else 0) +
        (if j = k then -coordinate k (rows i) else 0) := by
    intro i j
    rcases lt_trichotomy j k with hlt | heq | hgt
    · have hj : a j = coordinate k (rows j) := if_pos hlt
      rw [hj, h.unit j hlt, if_neg hlt.ne, add_zero]
      by_cases hij : j = i
      · rw [if_pos hij, if_pos hij.symm, ← hij, if_pos hlt, smul_eq_mul, mul_one]
      · rw [if_neg hij, if_neg (Ne.symm hij), smul_zero]
    · have hj : a j = -1 := by simp only [a, heq, lt_irrefl, if_false, if_true]
      rw [hj, heq, if_pos rfl, neg_smul, one_smul]
      by_cases hik : k = i
      · rw [if_pos hik, ← hik, if_neg (lt_irrefl k), zero_add]
      · rw [if_neg hik, zero_add]
    · have hj : a j = 0 := by simp only [a, hgt.not_gt, hgt.ne', if_false]
      rw [hj, zero_smul, if_neg hgt.ne', add_zero]
      by_cases hij : j = i
      · rw [if_pos hij, ← hij, if_neg hgt.not_gt]
      · rw [if_neg hij]
  have hrows : ∀ i, (∑ j, a j • coordinate j) (rows i) = 0 := by
    intro i
    rw [LinearMap.sum_apply]
    simp only [LinearMap.smul_apply, hterm, Finset.sum_add_distrib, Finset.sum_ite_eq',
      Finset.mem_univ, if_true]
    by_cases hik : i < k
    · rw [if_pos hik, add_neg_cancel]
    · rw [if_neg hik, hzero i (not_lt.mp hik), neg_zero, add_zero]
  have ha := congrFun (hfree a (h.reflects _ hrows)) k
  have hk : a k = -1 := by simp only [a, lt_irrefl, if_false, if_true]
  rw [hk] at ha
  exact neg_ne_zero.mpr one_ne_zero ha

end RowReduction
