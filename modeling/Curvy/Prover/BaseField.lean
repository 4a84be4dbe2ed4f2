import Curvy.Lib.Pratt
import Mathlib.Algebra.Field.ZMod
import Mathlib.Algebra.QuadraticAlgebra.Basic
import Mathlib.NumberTheory.LegendreSymbol.QuadraticReciprocity
import Mathlib.Tactic.NormNum.Prime

/-!
# The base field of BN254 and its quadratic extension

`Fq2` is `Fq` with a root of -1 adjoined. An element of `Fq` is stored as the four limbs of its
Montgomery representative.
-/

namespace Curvy.Prover

set_option autoImplicit false

/-- Order of the BN254 base field. -/
def fqModulus : ℕ :=
  21888242871839275222246405745257275088696311157297823662689037894645226208583

/-- Primes below 1000 that divide a predecessor in the certificate. -/
def smallPrimes : List ℕ :=
  [2, 3, 5, 7, 11, 13, 17, 19, 29, 37, 41, 67, 73, 89, 109, 127, 229, 233, 271, 311, 911, 983]

def fqCertificate : List Pratt.Step :=
  [⟨1231, 3, [2, 3, 5, 41]⟩,
    ⟨2221, 2, [2, 2, 3, 5, 37]⟩,
    ⟨3557, 2, [2, 2, 7, 127]⟩,
    ⟨3691, 2, [2, 3, 3, 5, 41]⟩,
    ⟨4999, 3, [2, 3, 7, 7, 17]⟩,
    ⟨5501, 2, [2, 2, 5, 5, 5, 11]⟩,
    ⟨11003, 2, [2, 5501]⟩,
    ⟨13327, 3, [2, 3, 2221]⟩,
    ⟨327599, 19, [2, 19, 37, 233]⟩,
    ⟨1853641, 17, [2, 2, 2, 3, 3, 5, 19, 271]⟩,
    ⟨4562087, 5, [2, 17, 109, 1231]⟩,
    ⟨173171039, 13, [2, 73, 89, 13327]⟩,
    ⟨405928799, 22, [2, 11, 3691, 4999]⟩,
    ⟨11465965001, 3, [2, 2, 2, 5, 5, 5, 5, 7, 327599]⟩,
    ⟨1263766531, 10, [2, 3, 5, 13, 911, 3557]⟩,
    ⟨35385462869, 2, [2, 2, 7, 1263766531]⟩,
    ⟨2480874801745591, 6, [2, 3, 3, 5, 19, 41, 35385462869]⟩,
    ⟨13427688667394608761327070753331941386769, 17,
      [2, 2, 2, 2, 3, 7, 11, 1853641, 4562087, 173171039, 2480874801745591]⟩,
    ⟨fqModulus, 3,
      [2, 3, 3, 13, 29, 67, 229, 311, 983, 11003, 405928799, 11465965001,
        13427688667394608761327070753331941386769]⟩]

theorem smallPrimes_prime : ∀ q ∈ smallPrimes, q.Prime := by
  simp only [smallPrimes, List.forall_mem_cons]
  norm_num

theorem fqModulus_prime : fqModulus.Prime := by
  have hpasses : Pratt.passes 256 smallPrimes fqCertificate = true := by decide +kernel
  have hlast : fqCertificate.getLast? = some ⟨fqModulus, 3, _⟩ := rfl
  exact Pratt.sound smallPrimes_prime hpasses _ (List.mem_of_getLast? hlast)

abbrev Fq := ZMod fqModulus

instance : Fact fqModulus.Prime := ⟨fqModulus_prime⟩

abbrev Fq2 := QuadraticAlgebra Fq (-1) 0

/-! ### Residues -/

theorem fqModulus_mod_four : fqModulus % 4 = 3 := by decide

theorem two_ne_zero : (2 : Fq) ≠ 0 := by
  intro h
  have hdvd : fqModulus ∣ 2 := (ZMod.natCast_eq_zero_iff 2 fqModulus).mp (by exact_mod_cast h)
  exact absurd (Nat.le_of_dvd (by decide) hdvd) (by decide)

/-- -1 has no root, so the extension is a field. -/
theorem neg_one_nonresidue (x : Fq) : x ^ 2 ≠ -1 + 0 * x := by
  intro h
  have hsquare : IsSquare (-1 : Fq) := ⟨x, by rw [← pow_two, h]; ring⟩
  exact ZMod.exists_sq_eq_neg_one_iff.mp hsquare fqModulus_mod_four

instance : Fact (∀ x : Fq, x ^ 2 ≠ -1 + 0 * x) := ⟨neg_one_nonresidue⟩

/-- Euler's criterion, as the roots use it. -/
theorem pow_half {a : Fq} (ha : a ≠ 0) :
    IsSquare a ∧ a ^ (fqModulus / 2) = 1 ∨ ¬ IsSquare a ∧ a ^ (fqModulus / 2) = -1 := by
  by_cases hsquare : IsSquare a
  · exact .inl ⟨hsquare, (ZMod.euler_criterion fqModulus ha).mp hsquare⟩
  · refine .inr ⟨hsquare, ?_⟩
    rcases ZMod.pow_div_two_eq_neg_one_or_one fqModulus ha with h | h
    · exact absurd ((ZMod.euler_criterion fqModulus ha).mpr h) hsquare
    · exact h

end Curvy.Prover
