import Curvy.Prover.U29x9Lanes
import Curvy.Prover.U29x9Words

/-!
# Around the Montgomery multiplication

The unrolled kernels are a parameter, of which their correctness on weakly reduced values is
assumed. The conversions from and to arkworks and the quadratic extension are built on them.
-/

namespace Curvy.Prover.U29x9

set_option autoImplicit false

open Radix (value value_injective)

/-- The kernels of `gen_u29.rs`. -/
structure Kernels where
  montMul : Limbs → Limbs → Limbs
  montSqr : Limbs → Limbs
  mul4 : V → V → V
  sqr4 : V → V

/-- The kernels multiply weakly reduced values, in every lane as alone. -/
structure Kernels.Correct (k : Kernels) (m : Modulus) : Prop where
  montMul : ∀ a b : WeaklyReduced m, ∃ r : WeaklyReduced m,
    k.montMul a.limbs b.limbs = r.limbs ∧
      toField m r.limbs = toField m a.limbs * toField m b.limbs
  montSqr : ∀ a : WeaklyReduced m, ∃ r : WeaklyReduced m,
    k.montSqr a.limbs = r.limbs ∧ toField m r.limbs = toField m a.limbs ^ 2
  mul4 : ∀ (a b : Fin 4 → WeaklyReduced m) (l : Fin 4),
    lane (k.mul4 (pack fun l => (a l).limbs) (pack fun l => (b l).limbs)) l =
      k.montMul (a l).limbs (b l).limbs
  sqr4 : ∀ (a : Fin 4 → WeaklyReduced m) (l : Fin 4),
    lane (k.sqr4 (pack fun l => (a l).limbs)) l = k.montSqr (a l).limbs

/-! ## Constants -/

def one : Limbs :=
  ![0x157ccc21, 0x141c2758, 0x185230d3, 0x014c0419, 0x0aa36fb9, 0x1d4240ce, 0x11d54c07, 0x052ac7a8,
    0x000dc836]

/-- `TO` of the base field. -/
def TO : Limbs :=
  ![0x13349ca1, 0x1a5d84a8, 0x0a3e5cac, 0x100249e0, 0x12b951e8, 0x0e92d304, 0x14cb95b3, 0x041b9d3d,
    0x00058003]

def FROM : Limbs :=
  ![0x058f0d9d, 0x1aea1c6e, 0x11c2cf74, 0x11d651eb, 0x1462c0a7, 0x11b7bc3c, 0x1cbd99ba, 0x183340fb,
    0x000e0a77]

/-- `TO` of the scalar field. -/
def frTO : Limbs :=
  ![0x0fffead7, 0x1d5444f4, 0x04438aa5, 0x03b4d096, 0x134c84da, 0x0e92d304, 0x14cb95b3, 0x041b9d3d,
    0x00058003]

/-! ## Elements of the two representations -/

section Ark

variable (k : Kernels)

def mul (a b : Limbs) : Limbs := k.montMul a b

def square (a : Limbs) : Limbs := k.montSqr a

def fromArk (x : ZMod fq.p) : Limbs := k.montMul (fromU64x4 (arkMontLimbs x)) TO

def toArk (a : Limbs) : Option (ZMod fq.p) := do
  let mont ← canonical fq (k.montMul a FROM)
  arkFromMontLimbs (toU64x4 mont)

/-- `const_from_ark` of the scalar field. -/
def constFromArk (x : ZMod fr.p) : Limbs := k.montMul (rawFromArk x) frTO

end Ark

theorem toField_power {m : Modulus} {limbs : Limbs} {e : Nat} (h : value 29 limbs = 2 ^ e % m.p) :
    toField m limbs = 2 ^ e * (2 ^ 261)⁻¹ := by
  rw [toField_def, h, ZMod.natCast_mod, Nat.cast_pow]
  rfl

theorem value_eq_toField {m : Modulus} (a : Limbs) :
    (value 29 a : ZMod m.p) = toField m a * 2 ^ 261 := by
  rw [toField_def, inv_mul_cancel_right₀ (radix_ne_zero m 261)]

theorem toField_rawFromArk {m : Modulus} (x : ZMod m.p) :
    toField m (rawFromArk x) = x * 2 ^ 256 * (2 ^ 261)⁻¹ := by
  rw [toField_def, value_rawFromArk, ZMod.natCast_zmod_val]

theorem constants_computed : value 29 one = 2 ^ 261 % fq.p ∧ value 29 TO = 2 ^ 266 % fq.p ∧
    value 29 frTO = 2 ^ 266 % fr.p := by decide +kernel

theorem toField_one : toField fq one = 1 := by
  rw [toField_power constants_computed.1, mul_inv_cancel₀ (radix_ne_zero fq 261)]

/-- A multiplication by `2 ^ 266` leads from the one Montgomery form to the other. -/
theorem montMul_to {m : Modulus} {k : Kernels} (hk : k.Correct m) (x : ZMod m.p)
    (c : WeaklyReduced m) (hc : value 29 c.limbs = 2 ^ 266 % m.p) :
    ∃ r : WeaklyReduced m, k.montMul (rawFromArk x) c.limbs = r.limbs ∧ toField m r.limbs = x := by
  obtain ⟨r, hr, hfield⟩ := hk.montMul (WeaklyReduced.ofArk x) c
  have hpow : (2 : ZMod m.p) ^ 256 * 2 ^ 266 = 2 ^ 261 * 2 ^ 261 := by
    rw [← pow_add, ← pow_add]
  have hark : toField m (WeaklyReduced.ofArk x).limbs = x * 2 ^ 256 * (2 ^ 261)⁻¹ :=
    toField_rawFromArk x
  have hgather : ∀ u v w : ZMod m.p, x * u * w * (v * w) = x * (u * v) * w * w := by
    intro u v w
    ring
  refine ⟨r, hr, ?_⟩
  calc toField m r.limbs
      = x * 2 ^ 256 * (2 ^ 261)⁻¹ * (2 ^ 266 * (2 ^ 261)⁻¹) := by
        rw [hfield, hark, toField_power hc]
    _ = x * (2 ^ 256 * 2 ^ 266) * (2 ^ 261)⁻¹ * (2 ^ 261)⁻¹ := by
        exact hgather _ _ _
    _ = x := by
        rw [hpow, ← mul_assoc x, mul_inv_cancel_right₀ (radix_ne_zero m 261),
          mul_inv_cancel_right₀ (radix_ne_zero m 261)]

variable {k : Kernels}

theorem fromArk_spec (hk : k.Correct fq) (x : ZMod fq.p) :
    ∃ r : WeaklyReduced fq, fromArk k x = r.limbs ∧ toField fq r.limbs = x :=
  montMul_to hk x ⟨TO, by decide, by decide⟩ constants_computed.2.1

theorem constFromArk_spec (hk : k.Correct fr) (x : ZMod fr.p) :
    ∃ r : WeaklyReduced fr, constFromArk k x = r.limbs ∧ toField fr r.limbs = x :=
  montMul_to hk x ⟨frTO, by decide, by decide⟩ constants_computed.2.2

theorem toArk_spec (hk : k.Correct fq) (a : WeaklyReduced fq) :
    toArk k a.limbs = some (toField fq a.limbs) := by
  have hFROM : value 29 FROM = 2 ^ 256 % fq.p := by decide
  obtain ⟨r, hr, hfield⟩ := hk.montMul a ⟨FROM, by decide, by decide⟩
  dsimp only at hr hfield
  have hark : toArk k a.limbs = rawToArk r.limbs := by
    rw [← hr]
    rfl
  rw [hark, rawToArk_eq, value_eq_toField, hfield, toField_power hFROM, mul_assoc, mul_assoc,
    mul_assoc, inv_mul_cancel_left₀ (radix_ne_zero fq 261), mul_inv_cancel₀ (radix_ne_zero fq 256),
    mul_one]

/-! ## The quadratic extension -/

structure Fq2Simd where
  c0 : Limbs
  c1 : Limbs

structure Fq2x4 where
  c0 : V
  c1 : V

namespace Fq2Simd

def add (x y : Fq2Simd) : Option Fq2Simd := do
  let c0 ← U29x9.add fq x.c0 y.c0
  let c1 ← U29x9.add fq x.c1 y.c1
  return ⟨c0, c1⟩

def sub (x y : Fq2Simd) : Option Fq2Simd := do
  let c0 ← U29x9.sub fq x.c0 y.c0
  let c1 ← U29x9.sub fq x.c1 y.c1
  return ⟨c0, c1⟩

def mul (k : Kernels) (x y : Fq2Simd) : Option Fq2Simd := do
  let sx ← U29x9.add fq x.c0 x.c1
  let sy ← U29x9.add fq y.c0 y.c1
  let v := unpack (k.mul4 (pack ![x.c0, x.c1, sx, zero]) (pack ![y.c0, y.c1, sy, zero]))
  let c0 ← U29x9.sub fq (v 0) (v 1)
  let t ← U29x9.sub fq (v 2) (v 0)
  let c1 ← U29x9.sub fq t (v 1)
  return ⟨c0, c1⟩

def square (k : Kernels) (x : Fq2Simd) : Option Fq2Simd := do
  let s ← U29x9.add fq x.c0 x.c1
  let t ← double fq x.c0
  let d ← U29x9.sub fq x.c0 x.c1
  let v := unpack (k.mul4 (pack ![s, t, zero, zero]) (pack ![d, x.c1, zero, zero]))
  return ⟨v 0, v 1⟩

def isZero (x : Fq2Simd) : Option Bool := do
  let z0 ← U29x9.isZero fq x.c0
  let z1 ← U29x9.isZero fq x.c1
  return z0 && z1

end Fq2Simd

namespace Fq2x4

def add4 (a b : Fq2x4) : Fq2x4 := ⟨U29x9.add4 fq a.c0 b.c0, U29x9.add4 fq a.c1 b.c1⟩

def sub4 (a b : Fq2x4) : Fq2x4 := ⟨U29x9.sub4 fq a.c0 b.c0, U29x9.sub4 fq a.c1 b.c1⟩

/-- Three products for four elements. -/
def mul4 (k : Kernels) (a b : Fq2x4) : Fq2x4 :=
  let v0 := k.mul4 a.c0 b.c0
  let v1 := k.mul4 a.c1 b.c1
  let sa := U29x9.add4 fq a.c0 a.c1
  let sb := U29x9.add4 fq b.c0 b.c1
  let v2 := k.mul4 sa sb
  ⟨U29x9.sub4 fq v0 v1, U29x9.sub4 fq (U29x9.sub4 fq v2 v0) v1⟩

def sqr4 (k : Kernels) (a : Fq2x4) : Fq2x4 :=
  let s := U29x9.add4 fq a.c0 a.c1
  let d := U29x9.sub4 fq a.c0 a.c1
  let t := U29x9.add4 fq a.c0 a.c0
  ⟨k.mul4 s d, k.mul4 t a.c1⟩

def zeroLanes (v : Fq2x4) : V128 := v128And (zeroLanesBase fq v.c0) (zeroLanesBase fq v.c1)

def select (a b : Fq2x4) (mask : V128) : Fq2x4 :=
  ⟨selectBase a.c0 b.c0 mask, selectBase a.c1 b.c1 mask⟩

def pack (e : Fin 4 → Fq2Simd) : Fq2x4 :=
  ⟨U29x9.pack fun l => (e l).c0, U29x9.pack fun l => (e l).c1⟩

def unpack (v : Fq2x4) : Fin 4 → Fq2Simd := fun l => ⟨lane v.c0 l, lane v.c1 l⟩

end Fq2x4

end Curvy.Prover.U29x9
