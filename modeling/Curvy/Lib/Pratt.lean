import Mathlib.Data.Nat.Prime.Basic
import Mathlib.NumberTheory.LucasPrimality
import Mathlib.Tactic.Common

/-!
# Primality certificates

A certificate is a list of steps. Each names a number, a primitive root of it and the prime
factors of its predecessor, which are small or certified by an earlier step.
-/

set_option autoImplicit false

namespace Pratt

/-- `acc * base ^ exponent` modulo `modulus`, by squaring, for an exponent of `bits` bits. -/
def powMod (modulus : ℕ) : ℕ → ℕ → ℕ → ℕ → ℕ
  | 0, _, _, acc => acc % modulus
  | bits + 1, base, exponent, acc =>
    powMod modulus bits (base * base % modulus) (exponent / 2)
      (if exponent % 2 = 1 then acc * base % modulus else acc)

theorem powMod_cast (modulus bits base exponent acc : ℕ) (h : exponent < 2 ^ bits) :
    (powMod modulus bits base exponent acc : ZMod modulus) = acc * (base : ZMod modulus) ^ exponent := by
  induction bits generalizing base exponent acc with
  | zero =>
    obtain rfl : exponent = 0 := by simpa using h
    rw [powMod, ZMod.natCast_mod, pow_zero, mul_one]
  | succ bits ih =>
    have hsquare : ((base * base % modulus : ℕ) : ZMod modulus) ^ (exponent / 2) =
        (base : ZMod modulus) ^ (2 * (exponent / 2)) := by
      rw [ZMod.natCast_mod, Nat.cast_mul, pow_mul, pow_two]
    have hhalf : exponent / 2 < 2 ^ bits := by
      rw [pow_succ] at h
      omega
    rw [powMod, ih _ _ _ hhalf, hsquare]
    split
    · rename_i hodd
      have hexponent : 2 * (exponent / 2) + 1 = exponent := by omega
      rw [ZMod.natCast_mod, Nat.cast_mul, mul_assoc, ← pow_succ', hexponent]
    · rename_i heven
      have hexponent : 2 * (exponent / 2) = exponent := by omega
      rw [hexponent]

theorem powMod_lt {modulus : ℕ} (hmodulus : 0 < modulus) (bits base exponent acc : ℕ) :
    powMod modulus bits base exponent acc < modulus := by
  induction bits generalizing base exponent acc with
  | zero => exact Nat.mod_lt _ hmodulus
  | succ bits ih => exact ih _ _ _

/-- Whether a power is one is decided by `powMod`. -/
theorem pow_eq_one_iff {modulus bits base exponent : ℕ} (hmodulus : 1 < modulus)
    (h : exponent < 2 ^ bits) : (base : ZMod modulus) ^ exponent = 1 ↔
      powMod modulus bits base exponent 1 = 1 := by
  have hcast := powMod_cast modulus bits base exponent 1 h
  rw [Nat.cast_one, one_mul] at hcast
  have hone : ((1 : ℕ) : ZMod modulus) = 1 := Nat.cast_one
  rw [← hcast, ← hone, ZMod.natCast_eq_natCast_iff', Nat.mod_eq_of_lt (powMod_lt (by omega) _ _ _ _),
    Nat.mod_eq_of_lt hmodulus]

structure Step where
  prime : ℕ
  root : ℕ
  factors : List ℕ

/-- Lucas's test, for numbers of `bits` bits. -/
def Step.passes (bits : ℕ) (known : List ℕ) (s : Step) : Bool :=
  decide (1 < s.prime) && decide (s.prime < 2 ^ bits) && decide (s.factors.prod = s.prime - 1) &&
    decide (∀ q ∈ s.factors, q ∈ known) &&
    decide (powMod s.prime bits s.root (s.prime - 1) 1 = 1) &&
    decide (∀ q ∈ s.factors, powMod s.prime bits s.root ((s.prime - 1) / q) 1 ≠ 1)

theorem Step.sound {bits : ℕ} {known : List ℕ} {s : Step} (hknown : ∀ q ∈ known, q.Prime)
    (h : s.passes bits known = true) : s.prime.Prime := by
  simp only [passes, Bool.and_eq_true, decide_eq_true_eq] at h
  obtain ⟨⟨⟨⟨⟨hone, hbits⟩, hprod⟩, hfactors⟩, hfull⟩, hpart⟩ := h
  apply lucas_primality s.prime (s.root : ZMod s.prime)
  · exact (pow_eq_one_iff hone (by omega)).mpr hfull
  intro q hq hdvd
  have hexponent : (s.prime - 1) / q < 2 ^ bits := by
    have := Nat.div_le_self (s.prime - 1) q
    omega
  -- a prime divisor of the product is one of the factors
  obtain ⟨factor, hmem, hdvd'⟩ := (Prime.dvd_prod_iff hq.prime).mp (hprod.symm ▸ hdvd)
  obtain rfl := (Nat.prime_dvd_prime_iff_eq hq (hknown factor (hfactors factor hmem))).mp hdvd'
  exact fun h => hpart q hmem ((pow_eq_one_iff hone hexponent).mp h)

def passes (bits : ℕ) : List ℕ → List Step → Bool
  | _, [] => true
  | known, s :: steps => s.passes bits known && passes bits (s.prime :: known) steps

/-- Every number of a certificate that passes is prime. -/
theorem sound {bits : ℕ} {known : List ℕ} {steps : List Step} (hknown : ∀ q ∈ known, q.Prime)
    (h : passes bits known steps = true) : ∀ s ∈ steps, s.prime.Prime := by
  induction steps generalizing known with
  | nil => exact fun _ hs => absurd hs List.not_mem_nil
  | cons s steps ih =>
    obtain ⟨hs, hsteps⟩ := (Bool.and_eq_true _ _).mp h
    have hprime := Step.sound hknown hs
    exact List.forall_mem_cons.mpr ⟨hprime, ih (List.forall_mem_cons.mpr ⟨hprime, hknown⟩) hsteps⟩

end Pratt
