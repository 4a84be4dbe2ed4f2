import Curvy.Lib.DoubleAndAdd
import Mathlib.Algebra.Field.ZMod
import Mathlib.Tactic.FieldSimp
import Mathlib.Tactic.LinearCombination
import Mathlib.Tactic.Ring

/-!
# Complete twisted Edwards curves

The points of `a x² + y² = 1 + d x² y²` with `a` a square and `d` none. No denominator of the
addition formulas is zero there, so the points are a group. The projective formulas compute in
it without division.
-/

set_option autoImplicit false

namespace TwistedEdwards

variable {F : Type} [Field F] {a d : F}

structure Complete (a d : F) : Prop where
  characteristic : (1 : F) + 1 ≠ 0
  square : IsSquare a
  nonsquare : ¬ IsSquare d

def OnCurve (a d x y : F) : Prop := a * x ^ 2 + y ^ 2 = 1 + d * x ^ 2 * y ^ 2

/-- The term that the denominators add to one and take from it. -/
def twist (d x₁ y₁ x₂ y₂ : F) : F := d * (x₁ * x₂ * y₁ * y₂)

/-! ### Completeness -/

theorem eq_zero_of_square (h : ¬ IsSquare d) {u v : F} (huv : u ^ 2 = d * v ^ 2) : v = 0 := by
  by_contra hv
  apply h
  refine ⟨u / v, ?_⟩
  field_simp
  exact huv.symm

section Coordinates

variable {x₁ y₁ x₂ y₂ x₃ y₃ : F}

/-- Were the square one, both `s x₂ + y₂` and `s x₂ - y₂` would vanish for the root `s` of `a`,
each because a nonsquare times its square is a square. -/
theorem twist_sq_ne_one (h : Complete a d) (h₁ : OnCurve a d x₁ y₁) (h₂ : OnCurve a d x₂ y₂) :
    twist d x₁ y₁ x₂ y₂ ^ 2 ≠ 1 := by
  intro hone
  obtain ⟨s, hs⟩ := h.square
  unfold OnCurve at h₁ h₂
  unfold twist at hone
  rw [hs] at h₁ h₂
  have hplus : (s * x₁ + d * (x₁ * x₂ * y₁ * y₂) * y₁) ^ 2 =
      d * (x₁ * y₁ * (s * x₂ + y₂)) ^ 2 := by
    linear_combination h₁ + (y₁ ^ 2 - 1) * hone - d * x₁ ^ 2 * y₁ ^ 2 * h₂
  have hminus : (s * x₁ - d * (x₁ * x₂ * y₁ * y₂) * y₁) ^ 2 =
      d * (x₁ * y₁ * (s * x₂ - y₂)) ^ 2 := by
    linear_combination h₁ + (y₁ ^ 2 - 1) * hone - d * x₁ ^ 2 * y₁ ^ 2 * h₂
  have hne : d * (x₁ * x₂ * y₁ * y₂) ≠ 0 := by
    intro hzero
    rw [hzero, zero_pow two_ne_zero] at hone
    exact zero_ne_one hone
  have hx₁ : x₁ * y₁ ≠ 0 := by
    intro hzero
    apply hne
    linear_combination d * x₂ * y₂ * hzero
  have hsum := (mul_eq_zero.mp (eq_zero_of_square h.nonsquare hplus)).resolve_left hx₁
  have hdiff := (mul_eq_zero.mp (eq_zero_of_square h.nonsquare hminus)).resolve_left hx₁
  have hy₂ : y₂ = 0 := by
    have htwice : (1 + 1) * y₂ = 0 := by linear_combination hsum - hdiff
    exact (mul_eq_zero.mp htwice).resolve_left h.characteristic
  apply hne
  rw [hy₂, mul_zero, mul_zero]

theorem one_add_twist_ne (h : Complete a d) (h₁ : OnCurve a d x₁ y₁) (h₂ : OnCurve a d x₂ y₂) :
    1 + twist d x₁ y₁ x₂ y₂ ≠ 0 := by
  intro hzero
  apply twist_sq_ne_one h h₁ h₂
  linear_combination (twist d x₁ y₁ x₂ y₂ - 1) * hzero

theorem one_sub_twist_ne (h : Complete a d) (h₁ : OnCurve a d x₁ y₁) (h₂ : OnCurve a d x₂ y₂) :
    1 - twist d x₁ y₁ x₂ y₂ ≠ 0 := by
  intro hzero
  apply twist_sq_ne_one h h₁ h₂
  linear_combination (-twist d x₁ y₁ x₂ y₂ - 1) * hzero

/-! ### The sum -/

def sumX (d x₁ y₁ x₂ y₂ : F) : F := (x₁ * y₂ + y₁ * x₂) / (1 + twist d x₁ y₁ x₂ y₂)

def sumY (a d x₁ y₁ x₂ y₂ : F) : F := (y₁ * y₂ - a * x₁ * x₂) / (1 - twist d x₁ y₁ x₂ y₂)

theorem sum_onCurve (h : Complete a d) (h₁ : OnCurve a d x₁ y₁) (h₂ : OnCurve a d x₂ y₂) :
    OnCurve a d (sumX d x₁ y₁ x₂ y₂) (sumY a d x₁ y₁ x₂ y₂) := by
  have hplus := one_add_twist_ne h h₁ h₂
  have hminus := one_sub_twist_ne h h₁ h₂
  unfold OnCurve sumX sumY
  unfold OnCurve at h₁ h₂
  rw [div_pow, div_pow]
  field_simp
  unfold twist
  grind

/-- Both coordinates of a sum of three over the denominators of the inner sum. -/
theorem sumX_sum {e A B : F} (hplus : 1 + e ≠ 0) (hminus : 1 - e ≠ 0) :
    sumX d (A / (1 + e)) (B / (1 - e)) x₃ y₃ =
      (A * (1 - e) * y₃ + B * (1 + e) * x₃) / ((1 - e) * (1 + e) + d * A * B * x₃ * y₃) := by
  unfold sumX twist
  field_simp

theorem sumY_sum {e A B : F} (hplus : 1 + e ≠ 0) (hminus : 1 - e ≠ 0) :
    sumY a d (A / (1 + e)) (B / (1 - e)) x₃ y₃ =
      (B * (1 + e) * y₃ - a * A * (1 - e) * x₃) / ((1 - e) * (1 + e) - d * A * B * x₃ * y₃) := by
  unfold sumY twist
  field_simp

theorem add_twist_sum_ne {e A B : F} (hplus : 1 + e ≠ 0) (hminus : 1 - e ≠ 0)
    (h : 1 + twist d (A / (1 + e)) (B / (1 - e)) x₃ y₃ ≠ 0) :
    (1 - e) * (1 + e) + d * A * B * x₃ * y₃ ≠ 0 := by
  have hproduct : (1 - e) * (1 + e) + d * A * B * x₃ * y₃ =
      (1 - e) * (1 + e) * (1 + twist d (A / (1 + e)) (B / (1 - e)) x₃ y₃) := by
    unfold twist
    field_simp
  rw [hproduct]
  exact mul_ne_zero (mul_ne_zero hminus hplus) h

theorem sub_twist_sum_ne {e A B : F} (hplus : 1 + e ≠ 0) (hminus : 1 - e ≠ 0)
    (h : 1 - twist d (A / (1 + e)) (B / (1 - e)) x₃ y₃ ≠ 0) :
    (1 - e) * (1 + e) - d * A * B * x₃ * y₃ ≠ 0 := by
  have hproduct : (1 - e) * (1 + e) - d * A * B * x₃ * y₃ =
      (1 - e) * (1 + e) * (1 - twist d (A / (1 + e)) (B / (1 - e)) x₃ y₃) := by
    unfold twist
    field_simp
  rw [hproduct]
  exact mul_ne_zero (mul_ne_zero hminus hplus) h

theorem twist_comm (x₁ y₁ x₂ y₂ : F) : twist d x₁ y₁ x₂ y₂ = twist d x₂ y₂ x₁ y₁ := by
  unfold twist
  ring

theorem sumX_comm (x₁ y₁ x₂ y₂ : F) : sumX d x₁ y₁ x₂ y₂ = sumX d x₂ y₂ x₁ y₁ := by
  unfold sumX
  rw [twist_comm, add_comm, mul_comm y₁, mul_comm x₁]

theorem sumY_comm (x₁ y₁ x₂ y₂ : F) : sumY a d x₁ y₁ x₂ y₂ = sumY a d x₂ y₂ x₁ y₁ := by
  unfold sumY
  rw [twist_comm, mul_comm y₁, mul_right_comm]

/-! The fractions of a sum of three, cross-multiplied, differ by a combination of the three curve
equations. -/

theorem sumX_assoc_cross (h₁ : OnCurve a d x₁ y₁) (h₂ : OnCurve a d x₂ y₂)
    (h₃ : OnCurve a d x₃ y₃) {e e' A A' B B' : F} (he : e = d * (x₁ * x₂ * y₁ * y₂))
    (he' : e' = d * (x₂ * x₃ * y₂ * y₃)) (hA : A = x₁ * y₂ + y₁ * x₂)
    (hA' : A' = x₂ * y₃ + y₂ * x₃) (hB : B = y₁ * y₂ - a * x₁ * x₂)
    (hB' : B' = y₂ * y₃ - a * x₂ * x₃) :
    (A * (1 - e) * y₃ + B * (1 + e) * x₃) * ((1 - e') * (1 + e') + d * A' * B' * x₁ * y₁) =
      (A' * (1 - e') * y₁ + B' * (1 + e') * x₁) * ((1 - e) * (1 + e) + d * A * B * x₃ * y₃) := by
  unfold OnCurve at h₁ h₂ h₃
  subst he he' hA hA' hB hB'
  grind

theorem sumY_assoc_cross (h₁ : OnCurve a d x₁ y₁) (h₂ : OnCurve a d x₂ y₂)
    (h₃ : OnCurve a d x₃ y₃) {e e' A A' B B' : F} (he : e = d * (x₁ * x₂ * y₁ * y₂))
    (he' : e' = d * (x₂ * x₃ * y₂ * y₃)) (hA : A = x₁ * y₂ + y₁ * x₂)
    (hA' : A' = x₂ * y₃ + y₂ * x₃) (hB : B = y₁ * y₂ - a * x₁ * x₂)
    (hB' : B' = y₂ * y₃ - a * x₂ * x₃) :
    (B * (1 + e) * y₃ - a * A * (1 - e) * x₃) * ((1 - e') * (1 + e') - d * A' * B' * x₁ * y₁) =
      (B' * (1 + e') * y₁ - a * A' * (1 - e') * x₁) *
        ((1 - e) * (1 + e) - d * A * B * x₃ * y₃) := by
  unfold OnCurve at h₁ h₂ h₃
  subst he he' hA hA' hB hB'
  grind

theorem sumX_assoc (h : Complete a d) (h₁ : OnCurve a d x₁ y₁) (h₂ : OnCurve a d x₂ y₂)
    (h₃ : OnCurve a d x₃ y₃) :
    sumX d (sumX d x₁ y₁ x₂ y₂) (sumY a d x₁ y₁ x₂ y₂) x₃ y₃ =
      sumX d x₁ y₁ (sumX d x₂ y₂ x₃ y₃) (sumY a d x₂ y₂ x₃ y₃) := by
  have hplus₁₂ := one_add_twist_ne h h₁ h₂
  have hminus₁₂ := one_sub_twist_ne h h₁ h₂
  have hplus₂₃ := one_add_twist_ne h h₂ h₃
  have hminus₂₃ := one_sub_twist_ne h h₂ h₃
  have hleft := add_twist_sum_ne hplus₁₂ hminus₁₂ (one_add_twist_ne h (sum_onCurve h h₁ h₂) h₃)
  have hright := add_twist_sum_ne hplus₂₃ hminus₂₃ (one_add_twist_ne h (sum_onCurve h h₂ h₃) h₁)
  rw [sumX_comm x₁ y₁ (sumX d x₂ y₂ x₃ y₃)]
  refine (sumX_sum hplus₁₂ hminus₁₂).trans (Eq.trans ?_ (sumX_sum hplus₂₃ hminus₂₃).symm)
  exact (div_eq_div_iff hleft hright).mpr (sumX_assoc_cross h₁ h₂ h₃ rfl rfl rfl rfl rfl rfl)

theorem sumY_assoc (h : Complete a d) (h₁ : OnCurve a d x₁ y₁) (h₂ : OnCurve a d x₂ y₂)
    (h₃ : OnCurve a d x₃ y₃) :
    sumY a d (sumX d x₁ y₁ x₂ y₂) (sumY a d x₁ y₁ x₂ y₂) x₃ y₃ =
      sumY a d x₁ y₁ (sumX d x₂ y₂ x₃ y₃) (sumY a d x₂ y₂ x₃ y₃) := by
  have hplus₁₂ := one_add_twist_ne h h₁ h₂
  have hminus₁₂ := one_sub_twist_ne h h₁ h₂
  have hplus₂₃ := one_add_twist_ne h h₂ h₃
  have hminus₂₃ := one_sub_twist_ne h h₂ h₃
  have hleft := sub_twist_sum_ne hplus₁₂ hminus₁₂ (one_sub_twist_ne h (sum_onCurve h h₁ h₂) h₃)
  have hright := sub_twist_sum_ne hplus₂₃ hminus₂₃ (one_sub_twist_ne h (sum_onCurve h h₂ h₃) h₁)
  rw [sumY_comm x₁ y₁ (sumX d x₂ y₂ x₃ y₃)]
  refine (sumY_sum hplus₁₂ hminus₁₂).trans (Eq.trans ?_ (sumY_sum hplus₂₃ hminus₂₃).symm)
  exact (div_eq_div_iff hleft hright).mpr (sumY_assoc_cross h₁ h₂ h₃ rfl rfl rfl rfl rfl rfl)

end Coordinates

/-! ### The group -/

/-- A point of the curve. -/
@[ext]
structure Point (a d : F) where
  x : F
  y : F
  onCurve : OnCurve a d x y

namespace Point

instance : Zero (Point a d) where
  zero := ⟨0, 1, by unfold OnCurve; ring⟩

instance : Neg (Point a d) where
  neg p := ⟨-p.x, p.y, by
    have h := p.onCurve
    unfold OnCurve at h ⊢
    linear_combination h⟩

variable [Fact (Complete a d)]

instance : Add (Point a d) where
  add p q := ⟨sumX d p.x p.y q.x q.y, sumY a d p.x p.y q.x q.y,
    sum_onCurve Fact.out p.onCurve q.onCurve⟩

omit [Fact (Complete a d)] in
@[simp] theorem zero_x : (0 : Point a d).x = 0 := rfl

omit [Fact (Complete a d)] in
@[simp] theorem zero_y : (0 : Point a d).y = 1 := rfl

omit [Fact (Complete a d)] in
@[simp] theorem neg_x (p : Point a d) : (-p).x = -p.x := rfl

omit [Fact (Complete a d)] in
@[simp] theorem neg_y (p : Point a d) : (-p).y = p.y := rfl

@[simp] theorem add_x (p q : Point a d) : (p + q).x = sumX d p.x p.y q.x q.y := rfl

@[simp] theorem add_y (p q : Point a d) : (p + q).y = sumY a d p.x p.y q.x q.y := rfl

protected theorem zero_add (p : Point a d) : 0 + p = p := by
  ext
  · simp [sumX, twist]
  · simp [sumY, twist]

protected theorem add_comm (p q : Point a d) : p + q = q + p := by
  ext
  · exact sumX_comm _ _ _ _
  · exact sumY_comm _ _ _ _

protected theorem add_assoc (p q r : Point a d) : p + q + r = p + (q + r) := by
  ext
  · exact sumX_assoc Fact.out p.onCurve q.onCurve r.onCurve
  · exact sumY_assoc Fact.out p.onCurve q.onCurve r.onCurve

protected theorem neg_add_cancel (p : Point a d) : -p + p = 0 := by
  have hminus := one_sub_twist_ne Fact.out (-p).onCurve p.onCurve
  have hcurve := p.onCurve
  unfold OnCurve at hcurve
  ext
  · have hnumerator : -p.x * p.y + p.y * p.x = 0 := by ring
    rw [add_x, sumX, neg_x, neg_y, hnumerator, zero_div, zero_x]
  · rw [add_y, zero_y, sumY, div_eq_one_iff_eq hminus, neg_x, neg_y, twist]
    linear_combination hcurve

instance : AddCommGroup (Point a d) where
  add_assoc := Point.add_assoc
  zero_add := Point.zero_add
  add_zero p := by rw [Point.add_comm, Point.zero_add]
  nsmul := nsmulRec
  zsmul := zsmulRec
  neg_add_cancel := Point.neg_add_cancel
  add_comm := Point.add_comm

end Point

/-! ### Projective coordinates -/

@[ext]
structure Projective (R : Type) where
  x : R
  y : R
  z : R
  deriving DecidableEq

namespace Projective

section Formulas

variable {R S : Type} [CommRing R] [CommRing S]

def add (a d : R) (p q : Projective R) : Projective R :=
  let z := p.z * q.z
  let zz := z * z
  let xx := p.x * q.x
  let yy := p.y * q.y
  let e := d * xx * yy
  let f := zz - e
  let g := zz + e
  ⟨z * f * ((p.x + p.y) * (q.x + q.y) - xx - yy), z * g * (yy - a * xx), f * g⟩

def map (f : R →+* S) (p : Projective R) : Projective S := ⟨f p.x, f p.y, f p.z⟩

theorem map_add (f : R →+* S) (a d : R) (p q : Projective R) :
    map f (add a d p q) = add (f a) (f d) (map f p) (map f q) := by
  simp only [map, add, map_sub, map_mul, RingHom.map_add]

end Formulas

/-- The coordinates stand for a point of the curve. -/
structure Represents (p : Projective F) (P : Point a d) : Prop where
  z : p.z ≠ 0
  x : p.x = P.x * p.z
  y : p.y = P.y * p.z

theorem Represents.unique {p : Projective F} {P Q : Point a d} (hP : p.Represents P)
    (hQ : p.Represents Q) : P = Q := by
  ext
  · exact mul_right_cancel₀ hP.z (hP.x.symm.trans hQ.x)
  · exact mul_right_cancel₀ hP.z (hP.y.symm.trans hQ.y)

theorem represents_affine (P : Point a d) : Represents ⟨P.x, P.y, 1⟩ P :=
  ⟨one_ne_zero, (mul_one _).symm, (mul_one _).symm⟩

/-- The denominator stays nonzero, also where a point is added to itself. -/
theorem add_represents [Fact (Complete a d)] {p q : Projective F} {P Q : Point a d}
    (hp : p.Represents P) (hq : q.Represents Q) : (add a d p q).Represents (P + Q) := by
  have hplus := one_add_twist_ne Fact.out P.onCurve Q.onCurve
  have hminus := one_sub_twist_ne Fact.out P.onCurve Q.onCurve
  obtain ⟨hpz, hpx, hpy⟩ := hp
  obtain ⟨hqz, hqx, hqy⟩ := hq
  have hz : (add a d p q).z = (p.z * q.z) ^ 4 *
      ((1 - twist d P.x P.y Q.x Q.y) * (1 + twist d P.x P.y Q.x Q.y)) := by
    simp only [add, twist, hpx, hpy, hqx, hqy]
    ring
  refine ⟨?_, ?_, ?_⟩
  · rw [hz]
    exact mul_ne_zero (pow_ne_zero 4 (mul_ne_zero hpz hqz)) (mul_ne_zero hminus hplus)
  · rw [hz, Point.add_x, sumX]
    have hcancel : (P.x * Q.y + P.y * Q.x) / (1 + twist d P.x P.y Q.x Q.y) *
        ((p.z * q.z) ^ 4 * ((1 - twist d P.x P.y Q.x Q.y) * (1 + twist d P.x P.y Q.x Q.y))) =
          (P.x * Q.y + P.y * Q.x) * ((p.z * q.z) ^ 4 * (1 - twist d P.x P.y Q.x Q.y)) := by
      field_simp
    rw [hcancel]
    simp only [add, twist, hpx, hpy, hqx, hqy]
    ring
  · rw [hz, Point.add_y, sumY]
    have hcancel : (P.y * Q.y - a * P.x * Q.x) / (1 - twist d P.x P.y Q.x Q.y) *
        ((p.z * q.z) ^ 4 * ((1 - twist d P.x P.y Q.x Q.y) * (1 + twist d P.x P.y Q.x Q.y))) =
          (P.y * Q.y - a * P.x * Q.x) * ((p.z * q.z) ^ 4 * (1 + twist d P.x P.y Q.x Q.y)) := by
      field_simp
    rw [hcancel]
    simp only [add, twist, hpx, hpy, hqx, hqy]
    ring

/-! ### Computed multiples -/

def reduce (p : ℕ) (q : Projective ℤ) : Projective ℤ := ⟨q.x % p, q.y % p, q.z % p⟩

/-- The residues of integer coordinates. -/
def residues (p : ℕ) (q : Projective ℤ) : Projective (ZMod p) := map (Int.castRingHom (ZMod p)) q

/-- The multiple by the lowest `bits` bits of `n`, in integers. -/
def multiple (p : ℕ) (a d : ℤ) (base : Projective ℤ) (n bits : ℕ) : Projective ℤ :=
  DoubleAndAdd.highFirst (fun q r => reduce p (add a d q r)) base n bits ⟨0, 1, 1⟩

theorem residues_add (p : ℕ) (a d : ℤ) (q r : Projective ℤ) :
    residues p (reduce p (add a d q r)) =
      add (a : ZMod p) (d : ZMod p) (residues p q) (residues p r) := by
  have hreduce : residues p (reduce p (add a d q r)) = residues p (add a d q r) := by
    simp only [residues, map, reduce, Int.coe_castRingHom, ZMod.intCast_mod]
  rw [hreduce, residues, map_add]
  rfl

variable {p : ℕ} [Fact p.Prime] {a d : ZMod p} [Fact (Complete a d)] {a' d' : ℤ}
variable {base : Projective ℤ} {B : Point a d}

theorem multiple_represents (ha : (a' : ZMod p) = a) (hd : (d' : ZMod p) = d)
    (hbase : (residues p base).Represents B) (n bits : ℕ) :
    (residues p (multiple p a' d' base n bits)).Represents ((n % 2 ^ bits) • B) := by
  have hadd : ∀ {q r : Projective ℤ} {Q R : Point a d}, (residues p q).Represents Q →
      (residues p r).Represents R → (residues p (reduce p (add a' d' q r))).Represents (Q + R) := by
    intro q r Q R hq hr
    rw [residues_add, ha, hd]
    exact add_represents hq hr
  have hzero : (residues p ⟨0, 1, 1⟩).Represents (0 : Point a d) := by
    have hone : residues p ⟨0, 1, 1⟩ = ⟨0, 1, 1⟩ := by simp [residues, map]
    rw [hone]
    exact represents_affine 0
  have hrun := @DoubleAndAdd.highFirst_represents _ _ _ (fun q Q => (residues p q).Represents Q) _
    hadd _ _ _ _ hbase hzero n bits
  rwa [nsmul_zero, zero_add] at hrun

/-- The identity is recognised by its coordinates. -/
theorem multiple_eq_zero (ha : (a' : ZMod p) = a) (hd : (d' : ZMod p) = d)
    (hbase : (residues p base).Represents B) {n bits : ℕ} (hn : n < 2 ^ bits)
    (hx : (multiple p a' d' base n bits).x % p = 0)
    (hy : (multiple p a' d' base n bits).y % p = (multiple p a' d' base n bits).z % p) :
    n • B = 0 := by
  have hrun := multiple_represents ha hd hbase n bits
  rw [Nat.mod_eq_of_lt hn] at hrun
  have hx' := (ZMod.intCast_eq_intCast_iff' _ 0 p).mpr hx
  have hy' := (ZMod.intCast_eq_intCast_iff' _ _ p).mpr hy
  rw [Int.cast_zero] at hx'
  refine hrun.unique ⟨hrun.z, ?_, ?_⟩
  · exact hx'.trans (zero_mul _).symm
  · exact hy'.trans (one_mul _).symm

end Projective

end TwistedEdwards
