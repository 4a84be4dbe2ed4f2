import Curvy.Lib.Codec
import Curvy.Prover.BaseField

/-!
# The points of a zkey

snarkjs stores a coordinate as the Montgomery representative of the field element and the
point at infinity as zeros. Curve membership is not checked here.
-/

namespace Curvy.Prover

set_option autoImplicit false

open Decoder

inductive SerializationError where
  | invalidData
  | unexpectedEof
  deriving DecidableEq, Repr

/-- An affine point; `none` is the point at infinity. -/
abbrev Affine (F : Type) := Option (F × F)

/-- `R` of the Montgomery form of four limbs. -/
def montgomeryR : Fq := (2 ^ 256 : ℕ)

/-- `Fq::new_unchecked`. -/
def newUnchecked (limbs : Nat) : Fq := limbs * montgomeryR⁻¹

/-- The internal limbs of an element, as one number. -/
def limbs (x : Fq) : Nat := (x * montgomeryR).val

abbrev ZkeyReader (α : Type) := Decoder SerializationError α

def deserializeField : ZkeyReader Fq := do
  let bigint ← leOr .unexpectedEof 32
  if bigint ≥ fqModulus then throw .invalidData else return newUnchecked bigint

def deserializeField2 : ZkeyReader Fq2 := do
  let c0 ← deserializeField
  let c1 ← deserializeField
  return ⟨c0, c1⟩

section Point
variable {F : Type} [DecidableEq F] [Zero F]

def deserializePoint (field : ZkeyReader F) : ZkeyReader (Affine F) := do
  let x ← field
  let y ← field
  if x = 0 ∧ y = 0 then return none else return some (x, y)

end Point

def deserializeG1 : ZkeyReader (Affine Fq) := deserializePoint deserializeField

def deserializeG2 : ZkeyReader (Affine Fq2) := deserializePoint deserializeField2

/-! ### The stored form -/

/-- `write_limbs`. -/
def writeLimbs (x : Fq) : List UInt8 := leBytes 32 (limbs x)

def writeLimbs2 (x : Fq2) : List UInt8 := writeLimbs x.re ++ writeLimbs x.im

theorem montgomeryR_ne_zero : montgomeryR ≠ 0 := by
  rw [montgomeryR, Nat.cast_pow, Nat.cast_ofNat]
  exact pow_ne_zero 256 two_ne_zero

theorem limbs_lt (x : Fq) : limbs x < fqModulus := ZMod.val_lt _

theorem newUnchecked_limbs (x : Fq) : newUnchecked (limbs x) = x := by
  rw [newUnchecked, limbs, ZMod.natCast_zmod_val, mul_assoc, mul_inv_cancel₀ montgomeryR_ne_zero,
    mul_one]

theorem limbs_newUnchecked {n : Nat} (h : n < fqModulus) : limbs (newUnchecked n) = n := by
  rw [limbs, newUnchecked, mul_assoc, inv_mul_cancel₀ montgomeryR_ne_zero, mul_one,
    ZMod.val_cast_of_lt h]

theorem writeLimbs_zero : writeLimbs 0 = List.replicate 32 0 := by
  rw [writeLimbs, limbs, zero_mul, ZMod.val_zero]
  rfl

theorem writeLimbs_length (x : Fq) : (writeLimbs x).length = 32 := leBytes_length _ _

theorem writeLimbs2_length (x : Fq2) : (writeLimbs2 x).length = 64 := by
  rw [writeLimbs2, List.length_append, writeLimbs_length, writeLimbs_length]

theorem deserializeField_exact : Exact deserializeField (fun _ => True) writeLimbs := by
  have hword : fqModulus < 256 ^ 32 := by decide
  intro bytes x rest
  rw [deserializeField, (leOr_exact _ 32).bind_ok]
  constructor
  · rintro ⟨n, u, _, rfl, h⟩
    split at h
    · exact absurd h throw_ok
    · rename_i hlt
      obtain ⟨rfl, rfl⟩ := pure_ok.mp h
      rw [writeLimbs, limbs_newUnchecked (Nat.not_le.mp hlt)]
      exact ⟨trivial, rfl⟩
  · rintro ⟨_, rfl⟩
    have hlt := limbs_lt x
    refine ⟨limbs x, rest, by omega, rfl, ?_⟩
    rw [if_neg (Nat.not_le.mpr hlt), newUnchecked_limbs]
    rfl

theorem deserializeField2_exact : Exact deserializeField2 (fun _ => True) writeLimbs2 := by
  intro bytes x rest
  rw [deserializeField2, deserializeField_exact.bind_ok]
  constructor
  · rintro ⟨c0, u, _, rfl, h⟩
    obtain ⟨c1, v, _, rfl, h₁⟩ := deserializeField_exact.bind_ok.mp h
    obtain ⟨rfl, rfl⟩ := pure_ok.mp h₁
    exact ⟨trivial, by rw [writeLimbs2, List.append_assoc]⟩
  · rintro ⟨_, rfl⟩
    refine ⟨x.re, _, trivial, List.append_assoc _ _ _, ?_⟩
    exact deserializeField_exact.bind_ok.mpr ⟨x.im, rest, trivial, rfl, rfl⟩

/-- A point as snarkjs stores it. -/
def storedPoint {F : Type} [Zero F] (write : F → List UInt8) : Affine F → List UInt8
  | some (x, y) => write x ++ write y
  | none => write 0 ++ write 0

theorem deserializePoint_exact {F : Type} [DecidableEq F] [Zero F] {field : ZkeyReader F}
    {write : F → List UInt8} (hfield : Exact field (fun _ => True) write) :
    Exact (deserializePoint field) (fun point => point ≠ some (0, 0)) (storedPoint write) := by
  intro bytes point rest
  rw [deserializePoint, hfield.bind_ok]
  constructor
  · rintro ⟨x, u, _, rfl, h⟩
    obtain ⟨y, v, _, rfl, h₁⟩ := hfield.bind_ok.mp h
    split at h₁
    · rename_i hzero
      obtain ⟨rfl, rfl⟩ := hzero
      obtain ⟨rfl, rfl⟩ := pure_ok.mp h₁
      exact ⟨fun h => (by cases h), by rw [storedPoint, List.append_assoc]⟩
    · rename_i hzero
      obtain ⟨rfl, rfl⟩ := pure_ok.mp h₁
      refine ⟨fun h => hzero ?_, by rw [storedPoint, List.append_assoc]⟩
      rw [Option.some.injEq, Prod.mk.injEq] at h
      exact h
  · rintro ⟨hne, rfl⟩
    cases point with
    | none =>
      refine ⟨0, _, trivial, List.append_assoc _ _ _, ?_⟩
      refine hfield.bind_ok.mpr ⟨0, rest, trivial, rfl, ?_⟩
      rw [if_pos ⟨rfl, rfl⟩]
      rfl
    | some point =>
      obtain ⟨x, y⟩ := point
      refine ⟨x, _, trivial, List.append_assoc _ _ _, ?_⟩
      refine hfield.bind_ok.mpr ⟨y, rest, trivial, rfl, ?_⟩
      rw [if_neg (by rintro ⟨rfl, rfl⟩; exact hne rfl)]
      rfl

theorem deserializeG1_exact : Exact deserializeG1 (fun point => point ≠ some (0, 0))
    (storedPoint writeLimbs) := deserializePoint_exact deserializeField_exact

theorem deserializeG2_exact : Exact deserializeG2 (fun point => point ≠ some (0, 0))
    (storedPoint writeLimbs2) := deserializePoint_exact deserializeField2_exact

end Curvy.Prover
