import Mathlib.Algebra.BigOperators.Intervals
import Mathlib.Algebra.BigOperators.Ring.Finset
import Mathlib.Tactic.Ring

/-!
# A transform, a scaling and a transform back

The sums of a discrete Fourier transform halve: even and odd outputs are transforms of butterflies
of the inputs, and a transform is a butterfly of the transforms of even and odd inputs. So does the
composition of one way, a factor for each coefficient, and the other way.
-/

namespace FusedTransform

set_option autoImplicit false

open Finset

variable {R : Type} [CommRing R]

def transform (n : ℕ) (w : R) (x : ℕ → R) (i : ℕ) : R := ∑ t ∈ range n, x t * w ^ (i * t)

/-- Coefficient `i` is scaled by `s i` between the two directions. -/
def fused (n : ℕ) (w v : R) (s x : ℕ → R) : ℕ → R :=
  transform n w fun i => s i * transform n v x i

theorem transform_congr {n : ℕ} {w : R} {x y : ℕ → R} (h : ∀ t, t < n → x t = y t) (i : ℕ) :
    transform n w x i = transform n w y i :=
  Finset.sum_congr rfl fun t ht => by rw [h t (mem_range.mp ht)]

theorem fused_congr {n : ℕ} {w v : R} {s r x y : ℕ → R} (hs : ∀ t, t < n → s t = r t)
    (hx : ∀ t, t < n → x t = y t) (i : ℕ) : fused n w v s x i = fused n w v r y i := by
  apply transform_congr
  intro t ht
  rw [hs t ht, transform_congr hx]

theorem sum_range_double (f : ℕ → R) (m : ℕ) :
    ∑ i ∈ range (2 * m), f i = ∑ i ∈ range m, f (2 * i) + ∑ i ∈ range m, f (2 * i + 1) := by
  induction m with
  | zero => rw [Nat.mul_zero, sum_range_zero, sum_range_zero, sum_range_zero, add_zero]
  | succ m ih =>
    rw [show 2 * (m + 1) = 2 * m + 1 + 1 by ring, sum_range_succ, sum_range_succ, ih,
      sum_range_succ, sum_range_succ]
    ring

theorem transform_low (m : ℕ) (w : R) (y : ℕ → R) (j : ℕ) :
    transform (2 * m) w y j = transform m (w ^ 2) (fun i => y (2 * i)) j +
      w ^ j * transform m (w ^ 2) (fun i => y (2 * i + 1)) j := by
  rw [transform, sum_range_double, transform, transform, mul_sum]
  congr 1
  · apply sum_congr rfl
    intro i _
    rw [← pow_mul, show j * (2 * i) = 2 * (j * i) by ring]
  · apply sum_congr rfl
    intro i _
    rw [← pow_mul, show j * (2 * i + 1) = j + 2 * (j * i) by ring, pow_add]
    ring

section Halves

variable {m : ℕ} {w : R} (hw : w ^ m = -1)

include hw

theorem pow_half_even (i : ℕ) : w ^ (2 * i * m) = 1 := by
  rw [show 2 * i * m = m * (2 * i) by ring, pow_mul, hw, pow_mul, neg_one_sq, one_pow]

theorem transform_even (x : ℕ → R) (i : ℕ) :
    transform (2 * m) w x (2 * i) = transform m (w ^ 2) (fun t => x t + x (t + m)) i := by
  rw [transform, two_mul, sum_range_add, transform, ← sum_add_distrib]
  apply sum_congr rfl
  intro t _
  have hhigh : w ^ (2 * i * (m + t)) = (w ^ 2) ^ (i * t) := by
    rw [Nat.mul_add, pow_add, pow_half_even hw, one_mul, ← pow_mul, Nat.mul_assoc]
  rw [hhigh, show 2 * i * t = 2 * (i * t) by ring, pow_mul, Nat.add_comm m t]
  ring

theorem transform_odd (x : ℕ → R) (i : ℕ) :
    transform (2 * m) w x (2 * i + 1) =
      transform m (w ^ 2) (fun t => (x t - x (t + m)) * w ^ t) i := by
  rw [transform, two_mul, sum_range_add, transform, ← sum_add_distrib]
  apply sum_congr rfl
  intro t _
  have hlow : w ^ ((2 * i + 1) * t) = (w ^ 2) ^ (i * t) * w ^ t := by
    rw [← pow_mul, ← pow_add]
    congr 1
    ring
  have hhigh : w ^ ((2 * i + 1) * (m + t)) = -((w ^ 2) ^ (i * t) * w ^ t) := by
    rw [Nat.mul_add, pow_add, hlow, show (2 * i + 1) * m = 2 * i * m + m by ring, pow_add,
      pow_half_even hw, hw]
    ring
  rw [hlow, hhigh, Nat.add_comm m t]
  ring

theorem transform_high (y : ℕ → R) (j : ℕ) :
    transform (2 * m) w y (j + m) = transform m (w ^ 2) (fun i => y (2 * i)) j -
      w ^ j * transform m (w ^ 2) (fun i => y (2 * i + 1)) j := by
  have hsquare : (w ^ 2) ^ m = 1 := by rw [← pow_mul, Nat.mul_comm, pow_mul, hw, neg_one_sq]
  have hshift : ∀ z : ℕ → R, transform m (w ^ 2) z (j + m) = transform m (w ^ 2) z j := by
    intro z
    apply sum_congr rfl
    intro i _
    rw [Nat.add_mul, pow_add, pow_mul (w ^ 2) m i, hsquare, one_pow, mul_one]
  rw [transform_low m w, hshift, hshift, pow_add, hw]
  ring

variable {v : R} (hv : v ^ m = -1) (s x : ℕ → R) (j : ℕ)

include hv

omit hw in
theorem fused_low :
    fused (2 * m) w v s x j =
      fused m (w ^ 2) (v ^ 2) (fun i => s (2 * i)) (fun t => x t + x (t + m)) j +
        w ^ j * fused m (w ^ 2) (v ^ 2) (fun i => s (2 * i + 1))
          (fun t => (x t - x (t + m)) * v ^ t) j := by
  rw [fused, transform_low m w]
  simp only [transform_even hv, transform_odd hv]
  rfl

theorem fused_high :
    fused (2 * m) w v s x (j + m) =
      fused m (w ^ 2) (v ^ 2) (fun i => s (2 * i)) (fun t => x t + x (t + m)) j -
        w ^ j * fused m (w ^ 2) (v ^ 2) (fun i => s (2 * i + 1))
          (fun t => (x t - x (t + m)) * v ^ t) j := by
  rw [fused, transform_high hw]
  simp only [transform_even hv, transform_odd hv]
  rfl

end Halves

/-! ### Two halvings at once -/

def evens (m : ℕ) (x : ℕ → R) (t : ℕ) : R := x t + x (t + m)

def odds (m : ℕ) (v : R) (x : ℕ → R) (t : ℕ) : R := (x t - x (t + m)) * v ^ t

/-- The inputs of four transforms of a quarter. -/
def quarter (q : ℕ) (v : R) (x : ℕ → R) : ℕ → ℕ → R
  | 0 => evens q (evens (2 * q) x)
  | 1 => odds q (v ^ 2) (evens (2 * q) x)
  | 2 => evens q (odds (2 * q) v x)
  | _ => odds q (v ^ 2) (odds (2 * q) v x)

/-- The coefficients each of them has, modulo four. -/
def residue : ℕ → ℕ
  | 0 => 0
  | 1 => 2
  | 2 => 1
  | _ => 3

def quarterFused (q : ℕ) (w v : R) (s x : ℕ → R) (l : ℕ) : ℕ → R :=
  fused q ((w ^ 2) ^ 2) ((v ^ 2) ^ 2) (fun i => s (4 * i + residue l)) (quarter q v x l)

section Quarters

variable {q : ℕ} {w v : R} (hw : w ^ (2 * q) = -1) (hv : v ^ (2 * q) = -1) (s x : ℕ → R) (k : ℕ)

include hw hv

theorem fused_quarters :
    fused (2 * (2 * q)) w v s x k =
        quarterFused q w v s x 0 k + (w ^ 2) ^ k * quarterFused q w v s x 1 k +
          w ^ k * (quarterFused q w v s x 2 k + (w ^ 2) ^ k * quarterFused q w v s x 3 k) ∧
      fused (2 * (2 * q)) w v s x (k + q) =
        quarterFused q w v s x 0 k - (w ^ 2) ^ k * quarterFused q w v s x 1 k +
          w ^ (k + q) * (quarterFused q w v s x 2 k - (w ^ 2) ^ k * quarterFused q w v s x 3 k) ∧
      fused (2 * (2 * q)) w v s x (k + 2 * q) =
        quarterFused q w v s x 0 k + (w ^ 2) ^ k * quarterFused q w v s x 1 k -
          w ^ k * (quarterFused q w v s x 2 k + (w ^ 2) ^ k * quarterFused q w v s x 3 k) ∧
      fused (2 * (2 * q)) w v s x (k + q + 2 * q) =
        quarterFused q w v s x 0 k - (w ^ 2) ^ k * quarterFused q w v s x 1 k -
          w ^ (k + q) *
            (quarterFused q w v s x 2 k - (w ^ 2) ^ k * quarterFused q w v s x 3 k) := by
  have hw2 : (w ^ 2) ^ q = -1 := by rw [← pow_mul, hw]
  have hv2 : (v ^ 2) ^ q = -1 := by rw [← pow_mul, hv]
  have h0 : ∀ i, 2 * (2 * i) = 4 * i + 0 := fun i => by ring
  have h1 : ∀ i, 2 * (2 * i + 1) = 4 * i + 2 := fun i => by ring
  have h3 : ∀ i, 4 * i + 2 + 1 = 4 * i + 3 := fun i => by ring
  refine ⟨?_, ?_, ?_, ?_⟩
  · rw [fused_low hv, fused_low hv2, fused_low hv2]
    simp only [h0, h1, h3, Nat.add_zero]
    rfl
  · rw [fused_low hv, fused_high hw2 hv2, fused_high hw2 hv2]
    simp only [h0, h1, h3, Nat.add_zero]
    rfl
  · rw [fused_high hw hv, fused_low hv2, fused_low hv2]
    simp only [h0, h1, h3, Nat.add_zero]
    rfl
  · rw [fused_high hw hv, fused_high hw2 hv2, fused_high hw2 hv2]
    simp only [h0, h1, h3, Nat.add_zero]
    rfl

end Quarters

theorem fused_one (w v : R) (s x : ℕ → R) : fused 1 w v s x 0 = s 0 * x 0 := by
  simp only [fused, transform, range_one, sum_singleton, Nat.zero_mul, pow_zero, mul_one]

theorem map_transform {S : Type} [CommRing S] (φ : R →+* S) (n : ℕ) (w : R) (x : ℕ → R) (i : ℕ) :
    φ (transform n w x i) = transform n (φ w) (fun t => φ (x t)) i := by
  rw [transform, map_sum, transform]
  apply sum_congr rfl
  intro t _
  rw [map_mul, map_pow]

theorem map_fused {S : Type} [CommRing S] (φ : R →+* S) (n : ℕ) (w v : R) (s x : ℕ → R) (j : ℕ) :
    φ (fused n w v s x j) = fused n (φ w) (φ v) (fun i => φ (s i)) (fun t => φ (x t)) j := by
  rw [fused, map_transform]
  simp only [map_mul, map_transform]
  rfl

end FusedTransform
