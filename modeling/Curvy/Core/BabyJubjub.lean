import Curvy.Lib.TwistedEdwards
import Curvy.Witness.ScalarField
import Mathlib.Data.Nat.Size
import Mathlib.NumberTheory.LegendreSymbol.Basic

/-!
# BabyJubjub

The curve and its two public operations, addition and scalar multiplication. An inverse that
does not exist stops the program (`none`).
-/

namespace Curvy.BabyJubjub

set_option autoImplicit false

open Witness (Fr frModulus)

abbrev Point := Fr × Fr

def coeffAU64 : Nat := 168700
def coeffDU64 : Nat := 168696

def coeffA : Fr := (coeffAU64 : Nat)
def coeffD : Fr := (coeffDU64 : Nat)

/-- The coordinates of `BASE8`, as they are written. -/
def base8X : Nat := 5299619240641551281634865583518297030282874472190772894086521144482721001553
def base8Y : Nat := 16950150798460657717958625567821834550301663161624707787222815936182638968203

def base8 : Point := ((base8X : Nat), (base8Y : Nat))

def subOrder : Nat :=
  2736030358979909402780800718157159386076813972158567259200215660948447373041

def identity : Point := (0, 1)

def isOnCurve (point : Point) : Bool :=
  let x2 := point.1 * point.1
  let y2 := point.2 * point.2
  decide (coeffA * x2 + y2 = 1 + coeffD * x2 * y2)

def addPoint (p1 p2 : Point) : Option Point := do
  let beta := p1.1 * p2.2
  let gamma := p1.2 * p2.1
  let delta := (p1.2 - coeffA * p1.1) * (p2.1 + p2.2)
  let dtau := coeffD * (beta * gamma)
  let x3 := (beta + gamma) * (← Witness.Fr.inverse (1 + dtau))
  let y3 := (delta + coeffA * beta - gamma) * (← Witness.Fr.inverse (1 - dtau))
  return (x3, y3)

/-- The loop from bit `i` on. -/
def mulRounds (e : Nat) : Nat → Nat → Point → Point → Option Point
  | 0, _, res, _ => some res
  | rounds + 1, i, res, exp => do
    let res ← (if e.testBit i then addPoint res exp else some res : Option Point)
    let exp ← addPoint exp exp
    mulRounds e rounds (i + 1) res exp

def mulPointEscalar (base : Point) (e : Nat) : Option Point := mulRounds e e.size 0 identity base

def isInSubgroup (point : Point) : Option Bool :=
  if isOnCurve point then do
    return decide ((← mulPointEscalar point subOrder) = identity)
  else some false

/-! ### The group of points -/

def subOrderSmallPrimes : List ℕ :=
  [2, 3, 5, 7, 11, 13, 17, 19, 23, 29, 37, 47, 53, 59, 61, 97, 109, 139, 257, 349, 521, 709, 967]

def subOrderCertificate : List Pratt.Step :=
  [⟨2069, 2, [2, 2, 11, 47]⟩,
    ⟨4139, 2, [2, 2069]⟩,
    ⟨2837, 2, [2, 2, 709]⟩,
    ⟨295049, 3, [2, 2, 2, 13, 2837]⟩,
    ⟨43189, 2, [2, 2, 3, 59, 61]⟩,
    ⟨25485742523, 2, [2, 43189, 295049]⟩,
    ⟨202795150404015601, 7, [2, 2, 2, 2, 3, 5, 5, 19, 349, 25485742523]⟩,
    ⟨431548080059745198929, 3, [2, 2, 2, 2, 7, 19, 202795150404015601]⟩,
    ⟨32151195060611136810608359, 3, [2, 3, 3, 4139, 431548080059745198929]⟩,
    ⟨6323, 2, [2, 29, 109]⟩,
    ⟨33409, 7, [2, 2, 2, 2, 2, 2, 2, 3, 3, 29]⟩,
    ⟨1061, 2, [2, 2, 5, 53]⟩,
    ⟨10206821, 2, [2, 2, 5, 13, 37, 1061]⟩,
    ⟨81654569, 3, [2, 2, 2, 10206821]⟩,
    ⟨128437, 5, [2, 2, 3, 7, 11, 139]⟩,
    ⟨513749, 2, [2, 2, 128437]⟩,
    ⟨27743, 5, [2, 11, 13, 97]⟩,
    ⟨27892051421815855583579, 2, [2, 23, 521, 27743, 513749, 81654569]⟩,
    ⟨1863691091902891838383581623, 5, [2, 33409, 27892051421815855583579]⟩,
    ⟨336157, 2, [2, 2, 3, 109, 257]⟩,
    ⟨178259130663561045147472537592047227885001, 14,
      [2, 2, 2, 3, 3, 5, 5, 5, 5, 6323, 336157, 1863691091902891838383581623]⟩,
    ⟨subOrder, 31,
      [2, 2, 2, 2, 3, 5, 11, 11, 17, 967, 32151195060611136810608359,
        178259130663561045147472537592047227885001]⟩]

theorem subOrderSmallPrimes_prime : ∀ q ∈ subOrderSmallPrimes, q.Prime := by
  simp only [subOrderSmallPrimes, List.forall_mem_cons]
  norm_num

theorem subOrder_prime : subOrder.Prime := by
  have hpasses : Pratt.passes 256 subOrderSmallPrimes subOrderCertificate = true := by
    decide +kernel
  have hlast : subOrderCertificate.getLast? = some ⟨subOrder, 31, _⟩ := rfl
  exact Pratt.sound subOrderSmallPrimes_prime hpasses _ (List.mem_of_getLast? hlast)

/-- Euler's criterion on a small coefficient. -/
theorem isSquare_iff {n : Nat} (hlow : 0 < n) (hhigh : n < frModulus) :
    IsSquare (n : Fr) ↔ Pratt.powMod frModulus 256 n (frModulus / 2) 1 = 1 := by
  have hne : (n : Fr) ≠ 0 := by
    intro h
    have hdvd := (ZMod.natCast_eq_zero_iff n frModulus).mp h
    exact absurd (Nat.le_of_dvd hlow hdvd) (Nat.not_le.mpr hhigh)
  rw [ZMod.euler_criterion frModulus hne]
  exact Pratt.pow_eq_one_iff (by decide) (by decide)

instance : Fact subOrder.Prime := ⟨subOrder_prime⟩

theorem coeff_computed : (1 : Fr) + 1 ≠ 0 ∧
    Pratt.powMod frModulus 256 coeffAU64 (frModulus / 2) 1 = 1 ∧
    Pratt.powMod frModulus 256 coeffDU64 (frModulus / 2) 1 ≠ 1 := by decide +kernel

theorem coeff_complete : TwistedEdwards.Complete coeffA coeffD where
  characteristic := coeff_computed.1
  square := (isSquare_iff (by decide) (by decide)).mpr coeff_computed.2.1
  nonsquare := by
    intro h
    exact coeff_computed.2.2 ((isSquare_iff (by decide) (by decide)).mp h)

instance : Fact (TwistedEdwards.Complete coeffA coeffD) := ⟨coeff_complete⟩

/-- The points of the curve, as a group. -/
abbrev CurvePoint := TwistedEdwards.Point coeffA coeffD

/-- The coordinates of a point of the curve. -/
def coordinates (P : CurvePoint) : Point := (P.x, P.y)

theorem coordinates_injective {P Q : CurvePoint} (h : coordinates P = coordinates Q) : P = Q := by
  ext
  · exact congrArg Prod.fst h
  · exact congrArg Prod.snd h

theorem isOnCurve_iff {point : Point} : isOnCurve point = true ↔ ∃ P, point = coordinates P := by
  obtain ⟨x, y⟩ := point
  have hcurve : isOnCurve (x, y) = true ↔ TwistedEdwards.OnCurve coeffA coeffD x y := by
    simp only [isOnCurve, TwistedEdwards.OnCurve, decide_eq_true_eq, pow_two]
  rw [hcurve]
  constructor
  · exact fun h => ⟨⟨x, y, h⟩, rfl⟩
  · rintro ⟨P, h⟩
    obtain ⟨rfl, rfl⟩ := Prod.mk.inj h
    exact P.onCurve

/-! ### The operations compute in it -/

theorem inverse_of_ne {x : Fr} (h : x ≠ 0) : Witness.Fr.inverse x = some x⁻¹ := if_neg h

theorem addPoint_coordinates (P Q : CurvePoint) :
    addPoint (coordinates P) (coordinates Q) = some (coordinates (P + Q)) := by
  have hplus := TwistedEdwards.one_add_twist_ne coeff_complete P.onCurve Q.onCurve
  have hminus := TwistedEdwards.one_sub_twist_ne coeff_complete P.onCurve Q.onCurve
  have htwist : coeffD * (P.x * Q.y * (P.y * Q.x)) =
      TwistedEdwards.twist coeffD P.x P.y Q.x Q.y := by
    unfold TwistedEdwards.twist
    ring
  simp only [addPoint, coordinates, htwist, inverse_of_ne hplus, inverse_of_ne hminus,
    Option.bind_eq_bind, Option.bind_some, Option.pure_def, Option.some.injEq, Prod.mk.injEq,
    TwistedEdwards.Point.add_x, TwistedEdwards.Point.add_y, TwistedEdwards.sumX,
    TwistedEdwards.sumY, div_eq_mul_inv, true_and]
  ring

theorem mulRounds_eq (e rounds i : Nat) (res exp : Point) :
    mulRounds e rounds i res exp = DoubleAndAdd.lowFirst addPoint e rounds i res exp := by
  induction rounds generalizing i res exp with
  | zero => rfl
  | succ rounds ih => simp only [mulRounds, DoubleAndAdd.lowFirst, ih]

/-- Scalar multiplication is the multiple in the group, whatever the size of the scalar. -/
theorem mulPointEscalar_coordinates (P : CurvePoint) (e : Nat) :
    mulPointEscalar (coordinates P) e = some (coordinates (e • P)) := by
  have hadd : ∀ {p q : Point} {P Q : CurvePoint}, p = coordinates P → q = coordinates Q →
      ∃ s, addPoint p q = some s ∧ s = coordinates (P + Q) := by
    rintro _ _ P Q rfl rfl
    exact ⟨_, addPoint_coordinates P Q, rfl⟩
  have hstart : identity = coordinates ((e % 2 ^ 0) • P) := by
    rw [pow_zero, Nat.mod_one, zero_nsmul]
    rfl
  have hbase : coordinates P = coordinates (2 ^ 0 • P) := by rw [pow_zero, one_nsmul]
  obtain ⟨s, hs, rfl⟩ := @DoubleAndAdd.lowFirst_represents _ _ _
    (fun p (P : CurvePoint) => p = coordinates P) _ hadd _ _ _ _ _ hstart hbase e.size
  rw [mulPointEscalar, mulRounds_eq, hs, Nat.zero_add, Nat.mod_eq_of_lt (Nat.lt_size_self e)]

/-! ### The subgroup of the base point -/

/-- The multiple of `BASE8` by the order, over the integers. -/
def base8Multiple : TwistedEdwards.Projective ℤ :=
  TwistedEdwards.Projective.multiple frModulus 168700 168696 ⟨base8X, base8Y, 1⟩ subOrder 251

theorem base8_computed :
    coeffA * base8.1 ^ 2 + base8.2 ^ 2 = 1 + coeffD * base8.1 ^ 2 * base8.2 ^ 2 ∧ base8.1 ≠ 0 ∧
      base8Multiple.x % frModulus = 0 ∧
      base8Multiple.y % frModulus = base8Multiple.z % frModulus := by decide +kernel

theorem base8_onCurve : TwistedEdwards.OnCurve coeffA coeffD base8.1 base8.2 := base8_computed.1

/-- `BASE8` in the group. -/
def basePoint : CurvePoint := ⟨base8.1, base8.2, base8_onCurve⟩

/-- Computed over the integers, the multiple by the order has the coordinates of the identity. -/
theorem subOrder_smul : subOrder • basePoint = 0 := by
  have hA : ((168700 : ℤ) : Fr) = coeffA := Int.cast_natCast 168700
  have hD : ((168696 : ℤ) : Fr) = coeffD := Int.cast_natCast 168696
  have hbase : (TwistedEdwards.Projective.residues frModulus ⟨base8X, base8Y, 1⟩).Represents
      basePoint := by
    have haffine : TwistedEdwards.Projective.residues frModulus ⟨base8X, base8Y, 1⟩ =
        ⟨base8.1, base8.2, 1⟩ := by
      simp [TwistedEdwards.Projective.residues, TwistedEdwards.Projective.map, base8]
    rw [haffine]
    exact TwistedEdwards.Projective.represents_affine basePoint
  have hbits : subOrder < 2 ^ 251 := by decide
  exact TwistedEdwards.Projective.multiple_eq_zero hA hD hbase hbits base8_computed.2.2.1
    base8_computed.2.2.2

theorem basePoint_ne_zero : basePoint ≠ 0 := by
  intro h
  have hx : basePoint.x = 0 := by rw [h]; rfl
  exact base8_computed.2.1 hx

/-- The base point has prime order, so only multiples of the order vanish. -/
theorem addOrderOf_basePoint : addOrderOf basePoint = subOrder :=
  addOrderOf_eq_prime subOrder_smul basePoint_ne_zero

end Curvy.BabyJubjub
