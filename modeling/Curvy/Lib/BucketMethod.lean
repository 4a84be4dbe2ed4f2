import Mathlib.Algebra.BigOperators.Intervals
import Mathlib.Algebra.Module.BigOperators

/-!
# The bucket method

Multiples of points by signed digits, from the sums of the points that share a digit, and multiples
by scalars, from the digits of the scalars in windows.
-/

namespace BucketMethod

set_option autoImplicit false

open Finset

variable {G : Type} [AddCommGroup G]

/-! ### The running sum -/

/-- Every element, one time more than those before it. -/
def weighted : List G → G
  | [] => 0
  | g :: gs => weighted gs + (gs.sum + g)

theorem sum_eq_range (gs : List G) : gs.sum = ∑ k ∈ range gs.length, gs.getD k 0 := by
  induction gs with
  | nil => rfl
  | cons g gs ih =>
    rw [List.sum_cons, ih, List.length_cons, sum_range_succ', List.getD_cons_zero, add_comm]
    rfl

theorem weighted_eq (gs : List G) :
    weighted gs = ∑ k ∈ range gs.length, (k + 1) • gs.getD k 0 := by
  induction gs with
  | nil => rfl
  | cons g gs ih =>
    have hshift : ∀ k, (k + 1 + 1) • (g :: gs).getD (k + 1) 0 =
        (k + 1) • gs.getD k 0 + gs.getD k 0 := by
      intro k
      rw [List.getD_cons_succ, succ_nsmul]
    rw [weighted, ih, sum_eq_range gs, List.length_cons, sum_range_succ', sum_congr rfl fun k _ =>
      hshift k, sum_add_distrib, List.getD_cons_zero, Nat.zero_add, one_nsmul, add_assoc]

/-! ### Digits -/

/-- The points with the digit `k + 1`, and those with its opposite taken away. -/
def byDigit (entries : List (ℤ × G)) (k : ℕ) : G :=
  (entries.map fun e =>
    if e.1 = (k : ℤ) + 1 then e.2 else if e.1 = -((k : ℤ) + 1) then -e.2 else 0).sum

theorem byDigit_cons (e : ℤ × G) (entries : List (ℤ × G)) (k : ℕ) :
    byDigit (e :: entries) k =
      (if e.1 = (k : ℤ) + 1 then e.2 else if e.1 = -((k : ℤ) + 1) then -e.2 else 0) +
        byDigit entries k := by
  rw [byDigit, List.map_cons, List.sum_cons]
  rfl

/-- One point goes to the bucket of its digit. -/
theorem sum_one {n : ℕ} (d : ℤ) (g : G) (hd : d.natAbs ≤ n) :
    ∑ k ∈ range n, (k + 1) •
      (if d = (k : ℤ) + 1 then g else if d = -((k : ℤ) + 1) then -g else 0) = d • g := by
  rcases lt_trichotomy d 0 with hneg | hzero | hpos
  · have hcoe : d = -((d.natAbs : ℕ) : ℤ) := by omega
    rw [sum_eq_single (d.natAbs - 1)]
    · rw [if_neg (by omega), if_pos (by omega), show d.natAbs - 1 + 1 = d.natAbs by omega,
        neg_nsmul]
      nth_rewrite 2 [hcoe]
      rw [neg_zsmul, natCast_zsmul]
    · intro k _ hk
      rw [if_neg (by omega), if_neg (by omega), nsmul_zero]
    · intro hmem
      exact absurd (mem_range.mpr (by omega)) hmem
  · rw [hzero, zero_zsmul]
    apply sum_eq_zero
    intro k _
    rw [if_neg (by omega), if_neg (by omega), nsmul_zero]
  · have hcoe : d = ((d.natAbs : ℕ) : ℤ) := by omega
    rw [sum_eq_single (d.natAbs - 1)]
    · rw [if_pos (by omega), show d.natAbs - 1 + 1 = d.natAbs by omega]
      nth_rewrite 2 [hcoe]
      rw [natCast_zsmul]
    · intro k _ hk
      rw [if_neg (by omega), if_neg (by omega), nsmul_zero]
    · intro hmem
      exact absurd (mem_range.mpr (by omega)) hmem

/-- The buckets, weighted, hold the multiples by the digits. -/
theorem sum_byDigit {n : ℕ} {entries : List (ℤ × G)} (h : ∀ e ∈ entries, e.1.natAbs ≤ n) :
    ∑ k ∈ range n, (k + 1) • byDigit entries k = (entries.map fun e => e.1 • e.2).sum := by
  induction entries with
  | nil =>
    apply sum_eq_zero
    intro k _
    exact nsmul_zero _
  | cons e entries ih =>
    obtain ⟨he, hentries⟩ := List.forall_mem_cons.mp h
    simp only [byDigit_cons, nsmul_add, sum_add_distrib]
    rw [sum_one e.1 e.2 he, ih hentries, List.map_cons, List.sum_cons]

/-! ### Windows -/

/-- The windows from the highest down, the total multiplied before each. -/
def horner (c : ℕ) : List G → G
  | [] => 0
  | g :: gs => c • horner c gs + g

theorem horner_eq (c : ℕ) (gs : List G) :
    horner c gs = ∑ i ∈ range gs.length, c ^ i • gs.getD i 0 := by
  induction gs with
  | nil => rfl
  | cons g gs ih =>
    have hshift : ∀ i, c ^ (i + 1) • (g :: gs).getD (i + 1) 0 = c • c ^ i • gs.getD i 0 := by
      intro i
      rw [List.getD_cons_succ, pow_succ', mul_nsmul']
    rw [horner, ih, List.length_cons, sum_range_succ', sum_congr rfl fun i _ => hshift i,
      ← sum_nsmul, List.getD_cons_zero, pow_zero, one_nsmul]

/-- Windows whose digits make up the scalars. -/
theorem sum_windows {ι : Type} (c W : ℕ) (entries : List (ι × G)) (digit : ι → ℕ → ℤ)
    (scalar : ι → ℕ)
    (h : ∀ e ∈ entries, ∑ i ∈ range W, digit e.1 i * (c : ℤ) ^ i = (scalar e.1 : ℤ)) :
    ∑ i ∈ range W, c ^ i • (entries.map fun e => digit e.1 i • e.2).sum =
      (entries.map fun e => scalar e.1 • e.2).sum := by
  induction entries with
  | nil =>
    apply sum_eq_zero
    intro i _
    exact nsmul_zero _
  | cons e entries ih =>
    obtain ⟨he, hentries⟩ := List.forall_mem_cons.mp h
    have hone : ∑ i ∈ range W, c ^ i • digit e.1 i • e.2 = scalar e.1 • e.2 := by
      have hterm : ∀ i, c ^ i • digit e.1 i • e.2 = (digit e.1 i * (c : ℤ) ^ i) • e.2 := by
        intro i
        rw [← natCast_zsmul, smul_smul, Nat.cast_pow, mul_comm]
      rw [sum_congr rfl fun i _ => hterm i, ← sum_smul, he, natCast_zsmul]
    simp only [List.map_cons, List.sum_cons, nsmul_add, sum_add_distrib]
    rw [hone, ih hentries]

end BucketMethod
