import Curvy.Lib.Pratt
import Curvy.Witness.Field
import Mathlib.Algebra.Field.ZMod
import Mathlib.Data.ZMod.ValMinAbs
import Mathlib.Tactic.NormNum.Prime

/-!
# The scalar field of BN254

Its order is prime, so every element but zero has an inverse.
-/

namespace Curvy.Witness

set_option autoImplicit false

/-- Primes below 1000 that divide a predecessor in the certificate. -/
def frSmallPrimes : List ℕ :=
  [2, 3, 5, 7, 11, 13, 17, 19, 29, 31, 41, 47, 83, 107, 223, 229, 379, 409, 449, 661, 823, 853, 983]

def frCertificate : List Pratt.Step :=
  [⟨20963, 2, [2, 47, 223]⟩,
    ⟨41927, 5, [2, 20963]⟩,
    ⟨1593227, 2, [2, 19, 41927]⟩,
    ⟨1637, 2, [2, 2, 409]⟩,
    ⟨639533339, 2, [2, 229, 853, 1637]⟩,
    ⟨65865678001877903, 5, [2, 83, 379, 1637, 639533339]⟩,
    ⟨13818364434197438864469338081, 3, [2, 2, 2, 2, 2, 5, 823, 1593227, 65865678001877903]⟩,
    ⟨237073, 15, [2, 2, 2, 2, 3, 11, 449]⟩,
    ⟨93001, 14, [2, 2, 2, 3, 5, 5, 5, 31]⟩,
    ⟨12048837557, 2, [2, 2, 7, 7, 661, 93001]⟩,
    ⟨5156902474397, 2, [2, 2, 107, 12048837557]⟩,
    ⟨1670836401704629, 2, [2, 2, 3, 3, 3, 3, 5156902474397]⟩,
    ⟨5501, 2, [2, 2, 5, 5, 5, 11]⟩,
    ⟨11003, 2, [2, 5501]⟩,
    ⟨3691, 2, [2, 3, 3, 5, 41]⟩,
    ⟨4999, 3, [2, 3, 7, 7, 17]⟩,
    ⟨405928799, 22, [2, 11, 3691, 4999]⟩,
    ⟨frModulus, 5,
      [2, 2, 2, 2, 2, 2, 2, 2, 2, 2, 2, 2, 2, 2, 2, 2, 2, 2, 2, 2, 2, 2, 2, 2, 2, 2, 2, 2, 3, 3, 13, 29,
        983, 11003, 237073, 405928799, 1670836401704629, 13818364434197438864469338081]⟩]

theorem frSmallPrimes_prime : ∀ q ∈ frSmallPrimes, q.Prime := by
  simp only [frSmallPrimes, List.forall_mem_cons]
  norm_num

theorem frModulus_prime : frModulus.Prime := by
  have hpasses : Pratt.passes 256 frSmallPrimes frCertificate = true := by decide +kernel
  have hlast : frCertificate.getLast? = some ⟨frModulus, 5, _⟩ := rfl
  exact Pratt.sound frSmallPrimes_prime hpasses _ (List.mem_of_getLast? hlast)

instance : Fact frModulus.Prime := ⟨frModulus_prime⟩

end Curvy.Witness
