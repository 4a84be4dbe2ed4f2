import Curvy.Lib.FusedTransform
import Mathlib.RingTheory.Polynomial.Cyclotomic.Basic

/-!
# Values of a polynomial on a domain and on its coset

A polynomial with fewer coefficients than the domain has points is known from its values there: one
transform finds the coefficients, a scaling and a transform back the values on a coset. The values
on a domain twice as large meet the powers of a point in the value at that point.
-/

namespace CosetExtension

set_option autoImplicit false

open Finset Polynomial
open FusedTransform (transform fused)

variable {F : Type} [Field F] {n : ℕ} {w : F}

theorem eval_eq_transform {P : F[X]} (hP : P.natDegree < n) (g w : F) (j : ℕ) :
    P.eval (g * w ^ j) = transform n w (fun i => P.coeff i * g ^ i) j := by
  rw [eval_eq_sum_range' hP, transform]
  apply sum_congr rfl
  intro i _
  rw [mul_pow, ← pow_mul, mul_assoc]

/-! ### Inversion -/

theorem sum_pow_of_ne {z : F} (hone : z ^ n = 1) (hne : z ≠ 1) : ∑ t ∈ range n, z ^ t = 0 := by
  have hproduct := geom_sum_mul z n
  rw [hone, sub_self] at hproduct
  exact (mul_eq_zero.mp hproduct).resolve_right (sub_ne_zero.mpr hne)

section Primitive

variable (hw : IsPrimitiveRoot w n)

include hw

theorem sum_orthogonal {i k : ℕ} (hi : i < n) (hk : k < n) :
    ∑ t ∈ range n, w ^ (t * k) * w⁻¹ ^ (i * t) = if k = i then (n : F) else 0 := by
  have hzero : w ≠ 0 := hw.ne_zero (by omega)
  have hpower : ∀ t, w ^ (t * k) * w⁻¹ ^ (i * t) = (w ^ k * w⁻¹ ^ i) ^ t := by
    intro t
    rw [mul_pow, ← pow_mul, ← pow_mul, Nat.mul_comm k t]
  simp only [hpower]
  split
  · rename_i heq
    subst heq
    rw [inv_pow, mul_inv_cancel₀ (pow_ne_zero k hzero)]
    simp only [one_pow, sum_const, card_range, nsmul_one]
  · rename_i hne
    apply sum_pow_of_ne
    · rw [mul_pow, ← pow_mul, ← pow_mul, Nat.mul_comm, pow_mul, hw.pow_eq_one, one_pow, one_mul,
        Nat.mul_comm, pow_mul, inv_pow, hw.pow_eq_one, inv_one, one_pow]
    · intro hone
      rw [inv_pow, mul_inv_eq_one₀ (pow_ne_zero i hzero)] at hone
      exact hne (hw.pow_inj hk hi hone)

theorem inverse_transform (c : ℕ → F) {i : ℕ} (hi : i < n) :
    transform n w⁻¹ (transform n w c) i = (n : F) * c i := by
  have hswap : transform n w⁻¹ (transform n w c) i =
      ∑ k ∈ range n, c k * ∑ t ∈ range n, w ^ (t * k) * w⁻¹ ^ (i * t) := by
    simp only [transform, sum_mul, mul_sum]
    rw [sum_comm]
    apply sum_congr rfl
    intro k _
    apply sum_congr rfl
    intro t _
    rw [mul_assoc]
  rw [hswap, sum_eq_single i]
  · rw [sum_orthogonal hw hi hi, if_pos rfl, mul_comm]
  · intro k hk hne
    rw [sum_orthogonal hw hi (mem_range.mp hk), if_neg hne, mul_zero]
  · exact fun hnot => absurd (mem_range.mpr hi) hnot

theorem size_ne_zero (hn : 0 < n) : (n : F) ≠ 0 := by
  have : NeZero n := ⟨hn.ne'⟩
  exact hw.neZero'.out

/-- The coefficients, from the values on the domain. -/
theorem coeff_of_values {P : F[X]} (hP : P.natDegree < n) {x : ℕ → F}
    (hx : ∀ t, t < n → x t = P.eval (w ^ t)) {i : ℕ} (hi : i < n) :
    (n : F)⁻¹ * transform n w⁻¹ x i = P.coeff i := by
  have hvalues : transform n w⁻¹ x i = transform n w⁻¹ (transform n w P.coeff) i := by
    apply FusedTransform.transform_congr
    intro t ht
    have heval := eval_eq_transform hP 1 w t
    simp only [one_mul, one_pow, mul_one] at heval
    rw [hx t ht, heval]
  rw [hvalues, inverse_transform hw _ hi, inv_mul_cancel_left₀ (size_ne_zero hw (by omega))]

/-- The values on a coset, from those on the domain. -/
theorem coset_values {P : F[X]} (hP : P.natDegree < n) {x : ℕ → F}
    (hx : ∀ t, t < n → x t = P.eval (w ^ t)) (g : F) (j : ℕ) :
    fused n w w⁻¹ (fun i => (n : F)⁻¹ * g ^ i) x j = P.eval (g * w ^ j) := by
  rw [eval_eq_transform hP, fused]
  apply FusedTransform.transform_congr
  intro i hi
  rw [← coeff_of_values hw hP hx hi]
  ring

/-- The values on the domain meet the transform of some scalars where the coefficients meet the
scalars. -/
theorem sum_values_mul {P : F[X]} (hP : P.natDegree < n) (s : ℕ → F) :
    ∑ j ∈ range n, P.eval (w ^ j) * ((n : F)⁻¹ * transform n w⁻¹ s j) =
      ∑ k ∈ range n, P.coeff k * s k := by
  have hswap : ∑ j ∈ range n, P.eval (w ^ j) * ((n : F)⁻¹ * transform n w⁻¹ s j) =
      ∑ k ∈ range n, (n : F)⁻¹ * transform n w⁻¹ (fun j => P.eval (w ^ j)) k * s k := by
    simp only [transform, mul_sum, sum_mul]
    rw [sum_comm]
    apply sum_congr rfl
    intro k _
    apply sum_congr rfl
    intro j _
    rw [Nat.mul_comm k j]
    ring
  rw [hswap]
  apply sum_congr rfl
  intro k hk
  rw [coeff_of_values hw hP (fun _ _ => rfl) (mem_range.mp hk)]

/-- A polynomial without a value on the domain is a multiple of the domain's own. -/
theorem vanishing_dvd (hn : 0 < n) {P : F[X]} (hP : ∀ i, i < n → P.eval (w ^ i) = 0) :
    (X ^ n - 1 : F[X]) ∣ P := by
  rw [X_pow_sub_one_eq_prod hn hw]
  apply Finset.prod_dvd_of_coprime
  · intro a _ b _ hab
    exact pairwise_coprime_X_sub_C Function.injective_id hab
  · intro a ha
    have : NeZero n := ⟨hn.ne'⟩
    obtain ⟨i, hi, hroot⟩ := hw.eq_pow_of_pow_eq_one ((mem_nthRootsFinset hn 1).mp ha)
    rw [dvd_iff_isRoot, IsRoot.def, ← hroot]
    exact hP i hi

end Primitive

/-- On a domain twice as large, a polynomial that vanishes on the small one meets the powers of a
point at the odd points only. -/
theorem sum_odd_values {r : F} (hr : IsPrimitiveRoot r (2 * n)) {P : F[X]}
    (hP : P.natDegree + 1 < 2 * n) (hvanish : ∀ i, i < n → P.eval ((r ^ 2) ^ i) = 0) (d t : F) :
    ∑ i ∈ range n, P.eval (r * (r ^ 2) ^ i) * (((2 * n : ℕ) : F)⁻¹ *
        transform (2 * n) r⁻¹ (fun k => if k < 2 * n - 1 then d * t ^ k else 0) (2 * i + 1)) =
      d * P.eval t := by
  have hall := sum_values_mul hr (show P.natDegree < 2 * n by omega)
    (fun k => if k < 2 * n - 1 then d * t ^ k else 0)
  have hright : ∑ k ∈ range (2 * n), P.coeff k * (if k < 2 * n - 1 then d * t ^ k else 0) =
      d * P.eval t := by
    rw [eval_eq_sum_range' (show P.natDegree < 2 * n by omega), mul_sum]
    apply sum_congr rfl
    intro k _
    split
    · ring
    · rw [coeff_eq_zero_of_natDegree_lt (show P.natDegree < k by omega)]
      ring
  rw [FusedTransform.sum_range_double, hright] at hall
  have heven : ∀ f : ℕ → F, ∑ i ∈ range n, P.eval (r ^ (2 * i)) * f i = 0 := by
    intro f
    apply sum_eq_zero
    intro i hi
    rw [pow_mul, hvanish i (mem_range.mp hi), zero_mul]
  rw [heven, zero_add] at hall
  rw [← hall]
  apply sum_congr rfl
  intro i _
  rw [← pow_mul, ← pow_succ']

end CosetExtension
