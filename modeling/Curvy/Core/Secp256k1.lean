import Curvy.Lib.JacobianMul
import Curvy.Lib.Pratt
import Mathlib.Tactic.NormNum.Prime

/-!
# The curve secp256k1

Its base field, its generator and the order of the generator.
-/

namespace Curvy.Stealth

set_option autoImplicit false

/-- Order of the base field, `2 ^ 256 - 2 ^ 32 - 977`. -/
def secpModulus : ℕ :=
  115792089237316195423570985008687907853269984665640564039457584007908834671663

/-- Order of the group. -/
def secpOrder : ℕ :=
  115792089237316195423570985008687907852837564279074904382605163141518161494337

/-- Primes below 1000 that divide a predecessor in the certificate. -/
def secpSmallPrimes : List ℕ :=
  [2, 3, 5, 7, 11, 13, 29, 31, 53, 67, 83, 101, 103, 131, 239, 271, 419, 443, 887, 971]

def secpCertificate : List Pratt.Step :=
  [⟨13441, 11, [2, 2, 2, 2, 2, 2, 2, 3, 5, 7]⟩,
    ⟨7723, 3, [2, 3, 3, 3, 11, 13]⟩,
    ⟨5323, 5, [2, 3, 887]⟩,
    ⟨2621, 2, [2, 2, 5, 131]⟩,
    ⟨24809, 6, [2, 2, 2, 7, 443]⟩,
    ⟨1373, 2, [2, 2, 7, 7, 7]⟩,
    ⟨13331831, 13, [2, 5, 971, 1373]⟩,
    ⟨173378833005251801, 6, [2, 2, 2, 5, 5, 2621, 24809, 13331831]⟩,
    ⟨22149492674086928081353, 5, [2, 2, 2, 3, 5323, 173378833005251801]⟩,
    ⟨132896956044521568488119, 6, [2, 3, 22149492674086928081353]⟩,
    ⟨1627, 3, [2, 3, 271]⟩,
    ⟨2657, 3, [2, 2, 2, 2, 2, 83]⟩,
    ⟨4423, 3, [2, 3, 11, 67]⟩,
    ⟨41201, 3, [2, 2, 2, 2, 5, 5, 103]⟩,
    ⟨96557, 2, [2, 2, 101, 239]⟩,
    ⟨20113, 10, [2, 2, 2, 2, 3, 419]⟩,
    ⟨1206781, 10, [2, 2, 3, 5, 20113]⟩,
    ⟨7240687, 3, [2, 3, 1206781]⟩,
    ⟨107590001, 3, [2, 2, 2, 2, 5, 5, 5, 5, 7, 29, 53]⟩,
    ⟨255515944373312847190720520512484175977, 3,
      [2, 2, 2, 7, 7, 11, 1627, 2657, 4423, 41201, 96557, 7240687, 107590001]⟩,
    ⟨205115282021455665897114700593932402728804164701536103180137503955397371, 10,
      [2, 3, 5, 29, 29, 31, 7723, 132896956044521568488119,
        255515944373312847190720520512484175977]⟩,
    ⟨secpModulus, 3,
      [2, 3, 7, 13441,
        205115282021455665897114700593932402728804164701536103180137503955397371]⟩]

theorem secpSmallPrimes_prime : ∀ q ∈ secpSmallPrimes, q.Prime := by
  simp only [secpSmallPrimes, List.forall_mem_cons]
  norm_num

theorem secpModulus_prime : secpModulus.Prime := by
  have hpasses : Pratt.passes 256 secpSmallPrimes secpCertificate = true := by decide +kernel
  have hlast : secpCertificate.getLast? = some ⟨secpModulus, 3, _⟩ := rfl
  exact Pratt.sound secpSmallPrimes_prime hpasses _ (List.mem_of_getLast? hlast)

instance : Fact secpModulus.Prime := ⟨secpModulus_prime⟩

/-- `SecpFq`. -/
abbrev SecpFq := ZMod secpModulus

/-- `SecpFr`. -/
abbrev SecpFr := ZMod secpOrder

/-- The points of `y² = x³ + 7`. -/
abbrev SecpPoint := (JacobianMul.curve ((7 : ℕ) : SecpFq)).Point

def secpX : ℤ := 55066263022277343669578718895168534326250603453777594175500187360389116729240

def secpY : ℤ := 32670510020758816978083085130507043184471273380659243275938904335757337482424

theorem secp_smooth : 432 * ((7 : ℕ) : SecpFq) ^ 2 ≠ 0 := by
  have hcast : ((21168 : ℕ) : SecpFq) ≠ 0 := by
    rw [Ne, ZMod.natCast_eq_zero_iff]
    decide
  have hvalue : 432 * ((7 : ℕ) : SecpFq) ^ 2 = ((21168 : ℕ) : SecpFq) := by
    push_cast
    ring
  rw [hvalue]
  exact hcast

theorem secpGenerator_nonsingular :
    (JacobianMul.curve ((7 : ℕ) : SecpFq)).Nonsingular (secpX : SecpFq) (secpY : SecpFq) := by
  apply JacobianMul.nonsingular_of_equation secp_smooth
  have hequation : secpY ^ 2 % secpModulus = (secpX ^ 3 + 7) % secpModulus := by decide
  have hcast := (ZMod.intCast_eq_intCast_iff' _ _ secpModulus).mpr hequation
  push_cast at hcast ⊢
  exact hcast

/-- `SecpG1::generator()`. -/
def secpGenerator : SecpPoint := .some _ _ secpGenerator_nonsingular

/-- One less than the order takes the generator to its negative. -/
theorem secpGenerator_negative : (secpOrder - 1) • secpGenerator = -secpGenerator := by
  obtain ⟨h, heq⟩ := JacobianMul.multiple_eq secpGenerator_nonsingular 255 (secpOrder - 1)
    secpX (-secpY) (by decide +kernel) (by decide +kernel) (by decide +kernel) (by decide +kernel)
    (by decide +kernel)
  rw [secpGenerator, heq, WeierstrassCurve.Affine.Point.neg_some]
  congr 1

theorem secpOrder_smul_generator : secpOrder • secpGenerator = 0 := by
  have hsucc : secpOrder = secpOrder - 1 + 1 := by decide
  rw [hsucc, add_smul, one_smul, secpGenerator_negative, neg_add_cancel]

end Curvy.Stealth
