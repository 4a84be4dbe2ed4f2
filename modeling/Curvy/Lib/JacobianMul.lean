import Mathlib.AlgebraicGeometry.EllipticCurve.Affine.Point
import Mathlib.Algebra.Field.ZMod
import Mathlib.Tactic.FieldSimp
import Mathlib.Tactic.LinearCombination

/-!
# Multiples of a point by computation

Doubling and mixed addition on Jacobian coordinates with integers, and what they compute on a
curve `y² = x³ + b` over a prime field: double-and-add gives multiples in the group.
-/

set_option autoImplicit false

namespace JacobianMul

/-- The point `(X / Z², Y / Z³)`. -/
structure Jacobian (R : Type) where
  X : R
  Y : R
  Z : R

section Formulas

variable {R S : Type} [CommRing R] [CommRing S]

def double (p : Jacobian R) : Jacobian R :=
  let square := p.Y * p.Y
  let s := (p.X + p.X) * (square + square)
  let m := p.X * p.X + p.X * p.X + p.X * p.X
  let x := m * m - (s + s)
  let fourth := (square + square) * (square + square)
  ⟨x, m * (s - x) - (fourth + fourth), (p.Y + p.Y) * p.Z⟩

/-- The sum with the affine point `(x, y)`. -/
def addAffine (p : Jacobian R) (x y : R) : Jacobian R :=
  let square := p.Z * p.Z
  let h := x * square - p.X
  let r := y * square * p.Z - p.Y
  let hh := h * h
  let x' := r * r - h * hh - (p.X + p.X) * hh
  ⟨x', r * (p.X * hh - x') - p.Y * h * hh, p.Z * h⟩

def map (f : R →+* S) (p : Jacobian R) : Jacobian S := ⟨f p.X, f p.Y, f p.Z⟩

theorem map_double (f : R →+* S) (p : Jacobian R) : map f (double p) = double (map f p) := by
  simp only [map, double, map_sub, map_mul, map_add]

theorem map_addAffine (f : R →+* S) (p : Jacobian R) (x y : R) :
    map f (addAffine p x y) = addAffine (map f p) (f x) (f y) := by
  simp only [map, addAffine, map_sub, map_mul, map_add]

end Formulas

/-! ### Points of a curve -/

section Points

variable {F : Type} [Field F] [DecidableEq F]

/-- `y² = x³ + b`. -/
def curve (b : F) : WeierstrassCurve.Affine F := ⟨0, 0, 0, 0, b⟩

variable {b : F}

omit [DecidableEq F] in
theorem curve_negY (x y : F) : (curve b).negY x y = -y := by
  simp [WeierstrassCurve.Affine.negY, curve]

omit [DecidableEq F] in
theorem nonsingular_of_equation (hb : 432 * b ^ 2 ≠ 0) {x y : F} (h : y ^ 2 = x ^ 3 + b) :
    (curve b).Nonsingular x y := by
  have hdiscriminant : (curve b).Δ = -(432 * b ^ 2) := by
    simp only [WeierstrassCurve.Δ, WeierstrassCurve.b₂, WeierstrassCurve.b₄, WeierstrassCurve.b₆,
      WeierstrassCurve.b₈, curve]
    ring
  have hsmooth : (curve b).Δ ≠ 0 := by
    rw [hdiscriminant]
    exact neg_ne_zero.mpr hb
  apply (WeierstrassCurve.Affine.equation_iff_nonsingular_of_Δ_ne_zero hsmooth).mp
  rw [WeierstrassCurve.Affine.equation_iff]
  simp only [curve]
  linear_combination h

/-- The coordinates stand for a finite point of the curve. -/
def Represents (p : Jacobian F) (P : (curve b).Point) : Prop :=
  p.Z ≠ 0 ∧ ∃ (x y : F) (h : (curve b).Nonsingular x y),
    P = .some x y h ∧ p.X = x * p.Z ^ 2 ∧ p.Y = y * p.Z ^ 3

omit [DecidableEq F] in
theorem Represents.ne_zero {p : Jacobian F} {P : (curve b).Point} (h : Represents p P) :
    P ≠ 0 := by
  obtain ⟨-, x, y, hxy, rfl, -⟩ := h
  exact WeierstrassCurve.Affine.Point.some_ne_zero hxy

theorem double_represents {p : Jacobian F} {P : (curve b).Point} (h : Represents p P)
    (hne : (double p).Z ≠ 0) : Represents (double p) (P + P) := by
  obtain ⟨hz, x, y, hxy, rfl, hx, hy⟩ := h
  have hprod : 2 * p.Y * p.Z ≠ 0 := by
    rw [two_mul]
    exact hne
  have htwo : (2 : F) ≠ 0 := left_ne_zero_of_mul (left_ne_zero_of_mul hprod)
  have hy0 : y ≠ 0 := by
    intro hzero
    apply right_ne_zero_of_mul (left_ne_zero_of_mul hprod)
    rw [hy, hzero, zero_mul]
  have hslope : 2 * y ≠ 0 := mul_ne_zero htwo hy0
  have htangent : y ≠ (curve b).negY x y := by
    rw [curve_negY]
    intro heq
    apply hslope
    linear_combination heq
  obtain ⟨l, hl, hline⟩ : ∃ l, (curve b).slope x x y y = l ∧ l * (2 * y) = 3 * x ^ 2 := by
    refine ⟨_, rfl, ?_⟩
    rw [WeierstrassCurve.Affine.slope_of_Y_ne rfl htangent, curve_negY]
    have hdenominator : y - -y = 2 * y := by ring
    rw [hdenominator, div_mul_cancel₀ _ hslope]
    simp only [curve]
    ring
  refine ⟨hne, _, _, _, WeierstrassCurve.Affine.Point.add_self_of_Y_ne htangent, ?_, ?_⟩
  · rw [hl]
    simp only [WeierstrassCurve.Affine.addX, curve, double, hx, hy]
    linear_combination (-(p.Z ^ 8) * (3 * x ^ 2 + 2 * y * l)) * hline
  · rw [hl]
    simp only [WeierstrassCurve.Affine.addY, WeierstrassCurve.Affine.negAddY,
      WeierstrassCurve.Affine.addX, WeierstrassCurve.Affine.negY, curve, double, hx, hy]
    linear_combination (p.Z ^ 12 * ((2 * y * l) ^ 2 + 2 * y * l * (3 * x ^ 2) + (3 * x ^ 2) ^ 2
      - 12 * x * y ^ 2)) * hline

theorem addAffine_represents {p : Jacobian F} {P : (curve b).Point} (h : Represents p P)
    {x y : F} (hxy : (curve b).Nonsingular x y) (hne : (addAffine p x y).Z ≠ 0) :
    Represents (addAffine p x y) (P + .some x y hxy) := by
  obtain ⟨hz, x', y', hxy', rfl, hx', hy'⟩ := h
  have hprod : p.Z * (x * (p.Z * p.Z) - p.X) ≠ 0 := hne
  have hdistinct : x' ≠ x := by
    intro heq
    apply right_ne_zero_of_mul hprod
    rw [hx', heq]
    ring
  have hsub : x' - x ≠ 0 := sub_ne_zero.mpr hdistinct
  refine ⟨hne, _, _, _, WeierstrassCurve.Affine.Point.add_of_X_ne hdistinct, ?_, ?_⟩
  · rw [WeierstrassCurve.Affine.slope_of_X_ne hdistinct]
    simp only [WeierstrassCurve.Affine.addX, curve, addAffine, hx', hy']
    field_simp
    ring
  · rw [WeierstrassCurve.Affine.slope_of_X_ne hdistinct]
    simp only [WeierstrassCurve.Affine.addY, WeierstrassCurve.Affine.negAddY,
      WeierstrassCurve.Affine.addX, WeierstrassCurve.Affine.negY, curve, addAffine, hx', hy']
    field_simp
    ring

end Points

/-! ### Double and add -/

section Multiples

def reduce (p : ℕ) (j : Jacobian ℤ) : Jacobian ℤ := ⟨j.X % p, j.Y % p, j.Z % p⟩

/-- The multiple of `(x, y)` by a number whose highest bit is bit `bits`. -/
def multiple (p : ℕ) (x y : ℤ) : ℕ → ℕ → Jacobian ℤ
  | 0, _ => ⟨x, y, 1⟩
  | bits + 1, n =>
    let twice := reduce p (double (multiple p x y bits (n / 2)))
    if n % 2 = 1 then reduce p (addAffine twice x y) else twice

variable {p : ℕ}

/-- The residues of integer coordinates. -/
def residues (p : ℕ) (j : Jacobian ℤ) : Jacobian (ZMod p) := map (Int.castRingHom (ZMod p)) j

theorem residues_reduce (j : Jacobian ℤ) : residues p (reduce p j) = residues p j := by
  simp only [residues, map, reduce, Int.coe_castRingHom, ZMod.intCast_mod]

variable [Fact p.Prime] {b : ZMod p} {x y : ℤ}

/-- Double-and-add computes the multiple, unless it has run into a zero denominator. -/
theorem multiple_represents (hxy : (curve b).Nonsingular (x : ZMod p) (y : ZMod p)) {bits n : ℕ}
    (hlow : 2 ^ bits ≤ n) (hhigh : n < 2 ^ (bits + 1))
    (hne : (residues p (multiple p x y bits n)).Z ≠ 0) :
    Represents (residues p (multiple p x y bits n)) (n • .some _ _ hxy) := by
  induction bits generalizing n with
  | zero =>
      obtain rfl : n = 1 := by omega
      rw [one_smul]
      refine ⟨hne, _, _, hxy, rfl, ?_, ?_⟩
      · simp [residues, map, multiple]
      · simp [residues, map, multiple]
  | succ bits ih =>
      have hhalf : 2 ^ bits ≤ n / 2 ∧ n / 2 < 2 ^ (bits + 1) := by
        rw [pow_succ] at hlow hhigh
        omega
      have htwice : residues p (reduce p (double (multiple p x y bits (n / 2))))
          = double (residues p (multiple p x y bits (n / 2))) := by
        rw [residues_reduce, residues, map_double]
        rfl
      -- a zero denominator would have stayed zero
      have hdouble : (double (residues p (multiple p x y bits (n / 2)))).Z ≠ 0 →
          Represents (double (residues p (multiple p x y bits (n / 2))))
            ((n / 2 + n / 2) • .some _ _ hxy) := by
        intro hz
        have hz' : (residues p (multiple p x y bits (n / 2))).Z ≠ 0 :=
          right_ne_zero_of_mul (show (_ + _) * _ ≠ (0 : ZMod p) from hz)
        rw [add_smul]
        exact double_represents (ih hhalf.1 hhalf.2 hz') hz
      rw [multiple] at hne ⊢
      split at hne
      · case isTrue hodd =>
          have hadd : residues p (reduce p (addAffine
              (reduce p (double (multiple p x y bits (n / 2)))) x y))
                = addAffine (double (residues p (multiple p x y bits (n / 2)))) x y := by
            rw [residues_reduce, residues, map_addAffine, ← residues, htwice]
            rfl
          have hsucc : n / 2 + n / 2 + 1 = n := by omega
          simp only [if_pos hodd]
          rw [hadd] at hne ⊢
          rw [← hsucc, add_smul, one_smul, hsucc]
          exact addAffine_represents (hdouble (left_ne_zero_of_mul hne)) hxy hne
      · case isFalse heven =>
          have hsame : n / 2 + n / 2 = n := by omega
          simp only [if_neg heven]
          rw [htwice] at hne ⊢
          have hrep := hdouble hne
          rw [hsame] at hrep
          exact hrep

theorem residue_ne_zero {z : ℤ} (h : z % p ≠ 0) : (z : ZMod p) ≠ 0 := by
  intro hz
  exact h (Int.emod_eq_zero_of_dvd ((ZMod.intCast_zmod_eq_zero_iff_dvd z p).mp hz))

/-- A computed multiple with a nonzero denominator is no identity. -/
theorem multiple_ne_zero (hxy : (curve b).Nonsingular (x : ZMod p) (y : ZMod p)) (bits n : ℕ)
    (hlow : 2 ^ bits ≤ n) (hhigh : n < 2 ^ (bits + 1))
    (hz : (multiple p x y bits n).Z % p ≠ 0) :
    n • WeierstrassCurve.Affine.Point.some _ _ hxy ≠ 0 :=
  (multiple_represents hxy hlow hhigh (residue_ne_zero hz)).ne_zero

/-- The coordinates of a computed multiple, from a guess. -/
theorem multiple_eq (hxy : (curve b).Nonsingular (x : ZMod p) (y : ZMod p)) (bits n : ℕ)
    (x' y' : ℤ) (hlow : 2 ^ bits ≤ n) (hhigh : n < 2 ^ (bits + 1))
    (hz : (multiple p x y bits n).Z % p ≠ 0)
    (hx : (multiple p x y bits n).X % p = x' * (multiple p x y bits n).Z ^ 2 % p)
    (hy : (multiple p x y bits n).Y % p = y' * (multiple p x y bits n).Z ^ 3 % p) :
    ∃ h : (curve b).Nonsingular (x' : ZMod p) (y' : ZMod p),
      n • WeierstrassCurve.Affine.Point.some _ _ hxy = .some _ _ h := by
  obtain ⟨hne, u, v, huv, heq, hu, hv⟩ :=
    multiple_represents hxy hlow hhigh (residue_ne_zero hz)
  have hx' := (ZMod.intCast_eq_intCast_iff' _ _ p).mpr hx
  have hy' := (ZMod.intCast_eq_intCast_iff' _ _ p).mpr hy
  push_cast at hx' hy'
  have hux : u = x' := mul_right_cancel₀ (pow_ne_zero 2 hne) (hu.symm.trans hx')
  have hvy : v = y' := mul_right_cancel₀ (pow_ne_zero 3 hne) (hv.symm.trans hy')
  subst hux hvy
  exact ⟨huv, heq⟩

end Multiples

end JacobianMul
