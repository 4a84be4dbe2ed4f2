import Mathlib.AlgebraicGeometry.EllipticCurve.Affine.Point
import Mathlib.Tactic.LinearCombination

/-!
# Affine addition by slope

The three ways an addition of two affine points resolves, the slope as one numerator over one
denominator, and the sum in the group of the curve.
-/

namespace Curvy.Prover.Msm

set_option autoImplicit false

/-- The coefficients of `y² = x³ + a x + b`. -/
structure SWCurveConfig (F : Type) where
  coeffA : F
  coeffB : F

structure Affine (F : Type) where
  x : F
  y : F
  infinity : Bool

/-- How a scheduled addition resolves once both operands are known. -/
inductive Step where
  | add
  | double
  | cancel

variable {F : Type} [Field F]

namespace Affine

def identity : Affine F := ⟨0, 0, true⟩

def newUnchecked (x y : F) : Affine F := ⟨x, y, false⟩

/-- `-*base`. -/
def neg (p : Affine F) : Affine F := { p with y := -p.y }

end Affine

section Slope

variable [DecidableEq F]

/-- The branch of the forward pass of `apply_batch` for one pending addition. -/
def classify (bucket point : Affine F) : Step :=
  if bucket.x ≠ point.x then .add
  else if bucket.y = point.y ∧ bucket.y ≠ 0 then .double
  else .cancel

/-- What the running product takes; a cancellation leaves the product alone. -/
def Step.denominator (bucket point : Affine F) : Step → F
  | .add => point.x - bucket.x
  | .double => bucket.y + bucket.y
  | .cancel => 1

def Step.numerator (P : SWCurveConfig F) (bucket point : Affine F) : Step → F
  | .add => point.y - bucket.y
  | .double =>
    let square := bucket.x ^ 2
    let numerator := square + square + square
    if P.coeffA ≠ 0 then numerator + P.coeffA else numerator
  | .cancel => 0

/-- What `apply_batch` leaves in the bucket, `lambda` being the slope. -/
def Step.result (bucket point : Affine F) (lambda : F) : Step → Affine F
  | .cancel => Affine.identity
  | _ =>
    let x := lambda ^ 2 - bucket.x - point.x
    Affine.newUnchecked x (lambda * (bucket.x - x) - bucket.y)

/-- One addition on its own, with its own inverse. -/
def addAffine (P : SWCurveConfig F) (bucket point : Affine F) : Affine F :=
  let step := classify bucket point
  step.result bucket point (step.numerator P bucket point / step.denominator bucket point)

/-- No denominator is zero, whatever the two points are: the field has odd characteristic. -/
theorem denominator_ne_zero (hodd : (2 : F) ≠ 0) (bucket point : Affine F) :
    (classify bucket point).denominator bucket point ≠ 0 := by
  unfold classify
  split
  · case isTrue h => exact sub_ne_zero.mpr (Ne.symm h)
  · split
    · case isTrue h =>
        rw [Step.denominator, ← two_mul]
        exact mul_ne_zero hodd h.2
    · exact one_ne_zero

end Slope

/-! ### The group of the curve -/

/-- The curve of a configuration. -/
def SWCurveConfig.curve (P : SWCurveConfig F) : WeierstrassCurve.Affine F :=
  ⟨0, 0, 0, P.coeffA, P.coeffB⟩

variable {P : SWCurveConfig F}

/-- The identity, or a nonsingular point of the curve. -/
def OnCurve (P : SWCurveConfig F) (p : Affine F) : Prop :=
  p.infinity = true ∨ P.curve.Nonsingular p.x p.y

open Classical in
/-- The group element an affine point stands for. -/
noncomputable def groupPoint (P : SWCurveConfig F) (p : Affine F) : P.curve.Point :=
  if h : p.infinity = false ∧ P.curve.Nonsingular p.x p.y then .some _ _ h.2 else 0

theorem groupPoint_infinity {p : Affine F} (h : p.infinity = true) : groupPoint P p = 0 := by
  apply dif_neg
  rintro ⟨hfinite, -⟩
  rw [h] at hfinite
  cases hfinite

theorem groupPoint_finite {p : Affine F} (hfinite : p.infinity = false)
    (hp : P.curve.Nonsingular p.x p.y) : groupPoint P p = .some _ _ hp :=
  dif_pos ⟨hfinite, hp⟩

theorem groupPoint_identity : groupPoint P (Affine.identity : Affine F) = 0 :=
  groupPoint_infinity rfl

theorem onCurve_identity : OnCurve P (Affine.identity : Affine F) := Or.inl rfl

theorem OnCurve.nonsingular {p : Affine F} (h : OnCurve P p) (hfinite : p.infinity = false) :
    P.curve.Nonsingular p.x p.y := by
  rcases h with h | h
  · rw [h] at hfinite
    cases hfinite
  · exact h

/-- On a curve without singular points it is enough to satisfy the equation. -/
theorem onCurve_of_equation {p : Affine F} (hsmooth : P.curve.Δ ≠ 0)
    (h : p.y ^ 2 = p.x ^ 3 + P.coeffA * p.x + P.coeffB) : OnCurve P p := by
  apply Or.inr
  apply (WeierstrassCurve.Affine.equation_iff_nonsingular_of_Δ_ne_zero hsmooth).mp
  rw [WeierstrassCurve.Affine.equation_iff]
  simp only [SWCurveConfig.curve]
  linear_combination h

@[simp]
theorem curve_negY (x y : F) : P.curve.negY x y = -y := by
  simp [WeierstrassCurve.Affine.negY, SWCurveConfig.curve]

theorem onCurve_neg {p : Affine F} (h : OnCurve P p) : OnCurve P p.neg := by
  rcases h with h | h
  · exact Or.inl h
  · apply Or.inr
    rw [← WeierstrassCurve.Affine.nonsingular_neg, curve_negY] at h
    exact h

theorem groupPoint_neg {p : Affine F} (h : OnCurve P p) :
    groupPoint P p.neg = -groupPoint P p := by
  cases hinf : p.infinity with
  | true =>
      rw [groupPoint_infinity hinf, WeierstrassCurve.Affine.Point.neg_zero]
      exact groupPoint_infinity (p := p.neg) hinf
  | false =>
      have hp := h.nonsingular hinf
      have hneg : P.curve.Nonsingular p.neg.x p.neg.y := (onCurve_neg h).nonsingular hinf
      rw [groupPoint_finite hinf hp, groupPoint_finite (p := p.neg) hinf hneg,
        WeierstrassCurve.Affine.Point.neg_some]
      congr 1
      rw [curve_negY]
      rfl

section Sum

variable [DecidableEq F] {bucket point : Affine F}

/-- The slope the code divides out is the slope of the line through the two points. -/
theorem slope_eq (hstep : bucket.x ≠ point.x ∨ bucket.y = point.y ∧ bucket.y ≠ 0)
    (hodd : (2 : F) ≠ 0) :
    (classify bucket point).numerator P bucket point
        / (classify bucket point).denominator bucket point
      = P.curve.slope bucket.x point.x bucket.y point.y := by
  by_cases hx : bucket.x = point.x
  · obtain ⟨hy, hne⟩ := hstep.resolve_left (fun h => h hx)
    have hdouble : classify bucket point = .double := by
      rw [classify, if_neg (fun h => h hx), if_pos ⟨hy, hne⟩]
    have hsum : bucket.y + bucket.y ≠ 0 := by
      rw [← two_mul]
      exact mul_ne_zero hodd hne
    have htangent : bucket.y ≠ P.curve.negY point.x point.y := by
      rw [curve_negY, ← hy]
      intro h
      apply hsum
      linear_combination h
    rw [hdouble, WeierstrassCurve.Affine.slope_of_Y_ne hx htangent, curve_negY]
    have hcoeff : (if P.coeffA ≠ 0 then bucket.x ^ 2 + bucket.x ^ 2 + bucket.x ^ 2 + P.coeffA
        else bucket.x ^ 2 + bucket.x ^ 2 + bucket.x ^ 2)
          = bucket.x ^ 2 + bucket.x ^ 2 + bucket.x ^ 2 + P.coeffA := by
      split
      · rfl
      · case isFalse h =>
          rw [not_ne_iff.mp h, add_zero]
    simp only [Step.numerator, Step.denominator, hcoeff, SWCurveConfig.curve]
    congr 1
    · ring
    · ring
  · have hadd : classify bucket point = .add := by rw [classify, if_pos hx]
    rw [hadd, WeierstrassCurve.Affine.slope_of_X_ne hx]
    simp only [Step.numerator, Step.denominator]
    rw [← neg_div_neg_eq, neg_sub, neg_sub]

/-- Away from the cancelling case the result is the chord or tangent point. -/
theorem addAffine_line (hstep : bucket.x ≠ point.x ∨ bucket.y = point.y ∧ bucket.y ≠ 0)
    (hodd : (2 : F) ≠ 0) :
    addAffine P bucket point = Affine.newUnchecked
      (P.curve.addX bucket.x point.x (P.curve.slope bucket.x point.x bucket.y point.y))
      (P.curve.addY bucket.x point.x bucket.y
        (P.curve.slope bucket.x point.x bucket.y point.y)) := by
  have hresult : ∀ slope : F, (classify bucket point).result bucket point slope =
      Affine.newUnchecked (P.curve.addX bucket.x point.x slope)
        (P.curve.addY bucket.x point.x bucket.y slope) := by
    intro slope
    have hx : P.curve.addX bucket.x point.x slope = slope ^ 2 - bucket.x - point.x := by
      simp [WeierstrassCurve.Affine.addX, SWCurveConfig.curve]
    have hy : P.curve.addY bucket.x point.x bucket.y slope
        = slope * (bucket.x - (slope ^ 2 - bucket.x - point.x)) - bucket.y := by
      rw [WeierstrassCurve.Affine.addY, curve_negY, WeierstrassCurve.Affine.negAddY, hx]
      ring
    rw [hx, hy]
    unfold classify
    split
    · rfl
    · case isFalse h =>
        rw [if_pos (hstep.resolve_left h)]
        rfl
  rw [addAffine, slope_eq hstep hodd, hresult]

theorem addAffine_cancel (hx : bucket.x = point.x) (hy : ¬ (bucket.y = point.y ∧ bucket.y ≠ 0)) :
    addAffine P bucket point = Affine.identity := by
  rw [addAffine, classify, if_neg (fun h => h hx), if_neg hy]
  rfl

/-- Adding affine points adds group elements. -/
theorem addAffine_sum (hodd : (2 : F) ≠ 0) (hbucket : OnCurve P bucket)
    (hfinite : bucket.infinity = false) (hpoint : OnCurve P point)
    (hfinite' : point.infinity = false) :
    OnCurve P (addAffine P bucket point) ∧
      groupPoint P (addAffine P bucket point) = groupPoint P bucket + groupPoint P point := by
  have hb := hbucket.nonsingular hfinite
  have hp := hpoint.nonsingular hfinite'
  rw [groupPoint_finite hfinite hb, groupPoint_finite hfinite' hp]
  by_cases hstep : bucket.x ≠ point.x ∨ bucket.y = point.y ∧ bucket.y ≠ 0
  · have hxy : ¬ (bucket.x = point.x ∧ bucket.y = P.curve.negY point.x point.y) := by
      rintro ⟨hx, hy⟩
      obtain ⟨hsame, hne⟩ := hstep.resolve_left (fun h => h hx)
      rw [curve_negY, ← hsame] at hy
      apply mul_ne_zero hodd hne
      linear_combination hy
    have hsum := WeierstrassCurve.Affine.nonsingular_add hb hp hxy
    rw [addAffine_line hstep hodd, WeierstrassCurve.Affine.Point.add_some hxy]
    exact ⟨Or.inr hsum, groupPoint_finite (p := Affine.newUnchecked _ _) rfl hsum⟩
  · have hx : bucket.x = point.x := not_ne_iff.mp fun h => hstep (Or.inl h)
    have hy : ¬ (bucket.y = point.y ∧ bucket.y ≠ 0) := fun h => hstep (Or.inr h)
    -- the two points agree in `y` up to sign, and agreeing outright leaves `y = 0`
    have hneg : bucket.y = P.curve.negY point.x point.y := by
      rcases WeierstrassCurve.Affine.Y_eq_of_X_eq hb.1 hp.1 hx with h | h
      · have hzero : bucket.y = 0 := not_ne_iff.mp fun hne => hy ⟨h, hne⟩
        rw [curve_negY, ← h, hzero, neg_zero]
      · exact h
    rw [addAffine_cancel hx hy, WeierstrassCurve.Affine.Point.add_of_Y_eq hx hneg,
      groupPoint_identity]
    exact ⟨onCurve_identity, rfl⟩

end Sum

end Curvy.Prover.Msm
