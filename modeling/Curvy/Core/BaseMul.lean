import Curvy.Core.SecretArithmetic

/-!
# Secret scalar multiplication is exact

The fixed ladder over projective coordinates computes the multiple of the base point that the
public multiplication computes, for every scalar of 256 bits, and meets no zero denominator.
-/

namespace Curvy

set_option autoImplicit false

open Witness (Fr frModulus)
open BabyJubjub

/-! ### What the library operators denote -/

namespace Element

@[simp] theorem intoArk_one : one.intoArk = 1 := by rw [one, intoArk_new, Nat.cast_one]

@[simp] theorem intoArk_plus (left right : Element) :
    (plus left right).intoArk = left.intoArk + right.intoArk := by
  rw [plus, intoArk_ofResidue, intoArk, intoArk, add_mul]

@[simp] theorem intoArk_sub (left right : Element) :
    (sub left right).intoArk = left.intoArk - right.intoArk := by
  rw [sub, intoArk_ofResidue, intoArk, intoArk, sub_mul]

@[simp] theorem intoArk_square (x : Element) : (square x).intoArk = x.intoArk * x.intoArk :=
  intoArk_mul x x

theorem invert_of_ne {x : Element} (h : x.intoArk ≠ 0) :
    ∃ y, x.invert = some y ∧ y.intoArk = x.intoArk⁻¹ := by
  refine ⟨ofResidue (x.intoArk⁻¹ * radix), ?_, ?_⟩
  · rw [invert, if_neg h]
  · rw [intoArk_ofResidue, mul_inv_cancel_right₀ radix_ne_zero]

/-- The canonical bytes of an element lead back to it. -/
theorem new_retrieve (x : Element) : (new (leNat (leBytes 32 x.retrieve))).intoArk = x.intoArk := by
  have hlt : x.intoArk.val < frModulus := ZMod.val_lt _
  have hmodulus : frModulus < 256 ^ 32 := by decide
  rw [intoArk_new, retrieve, leNat_leBytes (by omega), ZMod.natCast_zmod_val]

end Element

namespace SecretArithmetic

open Element

@[simp] theorem intoArk_field (x : Fr) : (field x).intoArk = x := by
  have hlt : x.val < frModulus := ZMod.val_lt x
  have hmodulus : frModulus < 256 ^ 32 := by decide
  rw [field, intoArk_new, leNat_leBytes (by omega), ZMod.natCast_zmod_val]

/-! ### The ladder -/

namespace Projective

def denote (p : Projective) : TwistedEdwards.Projective Fr := ⟨p.x.intoArk, p.y.intoArk, p.z.intoArk⟩

def Represents (p : Projective) (P : CurvePoint) : Prop := p.denote.Represents P

theorem denote_add (p q : Projective) : (p.add q).denote =
    TwistedEdwards.Projective.add coeffA coeffD p.denote q.denote := by
  simp only [denote, add, TwistedEdwards.Projective.add, intoArk_mul, intoArk_square, intoArk_sub,
    intoArk_plus, intoArk_new]
  rfl

theorem add_represents {p q : Projective} {P Q : CurvePoint} (hp : p.Represents P)
    (hq : q.Represents Q) : (p.add q).Represents (P + Q) := by
  unfold Represents
  rw [denote_add]
  exact TwistedEdwards.Projective.add_represents hp hq

theorem identity_represents : identity.Represents 0 := by
  have haffine : identity.denote = ⟨0, 1, 1⟩ := by simp [denote, identity]
  unfold Represents
  rw [haffine]
  exact TwistedEdwards.Projective.represents_affine 0

theorem base_represents : base.Represents basePoint := by
  have haffine : base.denote = ⟨base8.1, base8.2, 1⟩ := by simp [denote, base]
  unfold Represents
  rw [haffine]
  exact TwistedEdwards.Projective.represents_affine basePoint

theorem select_eq (p q : Projective) (bit : Bool) : p.select q bit = if bit then q else p := by
  cases bit <;> rfl

end Projective

theorem foldl_reverse_range (scalar bits : Nat) (point : Projective) :
    (List.range bits).reverse.foldl (baseMulStep scalar) point =
      DoubleAndAdd.highFirst Projective.add base scalar bits point := by
  induction bits generalizing point with
  | zero => rfl
  | succ bit ih =>
    rw [List.range_succ, List.reverse_append, List.reverse_singleton, List.singleton_append,
      List.foldl_cons, ih, DoubleAndAdd.highFirst, baseMulStep, Projective.select_eq]

theorem ladder_represents (scalar : Nat) :
    (ladder scalar).Represents ((scalar % 2 ^ 256) • basePoint) := by
  rw [ladder, foldl_reverse_range]
  have hrun := @DoubleAndAdd.highFirst_represents Projective CurvePoint _ Projective.Represents
    Projective.add Projective.add_represents base Projective.identity basePoint 0
    Projective.base_represents Projective.identity_represents scalar 256
  rwa [nsmul_zero, zero_add] at hrun

/-- Whatever the bits so far were, the ladder stands at a point of the curve. -/
theorem rounds_represent (scalar : Nat) (bits : List Nat) :
    ∃ P, (bits.foldl (baseMulStep scalar) Projective.identity).Represents P := by
  have hstep : ∀ (point : Projective) (bit : Nat), (∃ P, point.Represents P) →
      ∃ P, (baseMulStep scalar point bit).Represents P := by
    rintro point bit ⟨P, hP⟩
    have hdoubled := Projective.add_represents hP hP
    rw [baseMulStep, Projective.select_eq]
    split
    · exact ⟨_, Projective.add_represents hdoubled Projective.base_represents⟩
    · exact ⟨_, hdoubled⟩
  have hrun : ∀ point : Projective, (∃ P, point.Represents P) →
      ∃ P, (bits.foldl (baseMulStep scalar) point).Represents P := by
    induction bits with
    | nil => exact fun _ h => h
    | cons bit bits ih => exact fun point h => ih _ (hstep point bit h)
  exact hrun _ ⟨0, Projective.identity_represents⟩

theorem affine_of_represents {point : Projective} {P : CurvePoint} (h : point.Represents P)
    {inverse : Element} (hinverse : inverse.intoArk = point.z.intoArk⁻¹) :
    point.affine inverse = coordinates P := by
  have hx : (point.x.mul inverse).intoArk = P.x := by
    rw [intoArk_mul, hinverse]
    exact ((eq_mul_inv_iff_mul_eq₀ h.z).mpr h.x.symm).symm
  have hy : (point.y.mul inverse).intoArk = P.y := by
    rw [intoArk_mul, hinverse]
    exact ((eq_mul_inv_iff_mul_eq₀ h.z).mpr h.y.symm).symm
  have hlength := leBytes_length 32 (point.x.mul inverse).retrieve
  unfold Projective.affine
  dsimp only
  rw [List.take_left' hlength, List.drop_left' hlength, new_retrieve, new_retrieve, hx, hy]
  rfl

theorem baseMul_eq {bytes : List UInt8} (hlength : bytes.length = 32) :
    baseMul bytes = some (coordinates (leNat bytes • basePoint)) := by
  have hlt := leNat_lt bytes
  rw [hlength] at hlt
  have hladder := ladder_represents (leNat bytes)
  rw [Nat.mod_eq_of_lt (by omega)] at hladder
  obtain ⟨inverse, hinverse, hvalue⟩ := invert_of_ne hladder.z
  unfold baseMul
  dsimp only
  rw [hinverse, Option.map_some, affine_of_represents hladder hvalue]

/-- The ladder returns the multiple of the base point, as the public multiplication does, and
every denominator on the way is nonzero. -/
theorem base_mul_exact {bytes : List UInt8} (hlength : bytes.length = 32) :
    baseMul bytes = some (coordinates (leNat bytes • basePoint)) ∧
      mulPointEscalar base8 (leNat bytes) = some (coordinates (leNat bytes • basePoint)) ∧
      ∀ rounds, ∃ point : Projective,
        ((List.range 256).reverse.take rounds).foldl (baseMulStep (leNat bytes))
          Projective.identity = point ∧
        point.z.intoArk ≠ 0 ∧ (point.add point).z.intoArk ≠ 0 ∧
          ((point.add point).add base).z.intoArk ≠ 0 := by
  have hbase : coordinates basePoint = base8 := rfl
  have hpublic := mulPointEscalar_coordinates basePoint (leNat bytes)
  rw [hbase] at hpublic
  have hladder := baseMul_eq hlength
  refine ⟨hladder, hpublic, ?_⟩
  intro rounds
  obtain ⟨P, hP⟩ := rounds_represent (leNat bytes) ((List.range 256).reverse.take rounds)
  have hdoubled := Projective.add_represents hP hP
  exact ⟨_, rfl, hP.z, hdoubled.z, (Projective.add_represents hdoubled Projective.base_represents).z⟩

/-- A scalar above the order of the group. -/
theorem base_mul_exact_example :
    baseMul (List.replicate 32 255) =
        some (coordinates (leNat (List.replicate 32 255) • basePoint)) ∧
      mulPointEscalar base8 (leNat (List.replicate 32 255)) =
        some (coordinates (leNat (List.replicate 32 255) • basePoint)) ∧
      ∀ rounds, ∃ point : Projective,
        ((List.range 256).reverse.take rounds).foldl
          (baseMulStep (leNat (List.replicate 32 255))) Projective.identity = point ∧
        point.z.intoArk ≠ 0 ∧ (point.add point).z.intoArk ≠ 0 ∧
          ((point.add point).add base).z.intoArk ≠ 0 :=
  base_mul_exact List.length_replicate

end SecretArithmetic

end Curvy
