import Mathlib.Algebra.Group.Basic
import Mathlib.Data.Nat.Bitwise

/-!
# Double and add

Multiples by the bits of a scalar, for values that represent elements of a commutative monoid and
an operation that represents its addition.
-/

set_option autoImplicit false

namespace DoubleAndAdd

variable {α G : Type} [AddCommMonoid G]

/-- Over the lowest `bits` bits of the scalar, the highest of them first. -/
def highFirst (add : α → α → α) (base : α) (n : ℕ) : ℕ → α → α
  | 0, acc => acc
  | bit + 1, acc =>
    let doubled := add acc acc
    let added := add doubled base
    highFirst add base n bit (if n.testBit bit then added else doubled)

/-- Over `rounds` bits of the scalar from bit `bit` on, the lowest first. -/
def lowFirst (add : α → α → Option α) (n : ℕ) : ℕ → ℕ → α → α → Option α
  | 0, _, result, _ => some result
  | rounds + 1, bit, result, power => do
    let result ← (if n.testBit bit then add result power else some result : Option α)
    let power ← add power power
    lowFirst add n rounds (bit + 1) result power

theorem mod_two_pow_succ (n bit : ℕ) :
    n % 2 ^ (bit + 1) = n % 2 ^ bit + (n.testBit bit).toNat * 2 ^ bit := by
  rw [Nat.mod_pow_succ, Nat.toNat_testBit, Nat.mul_comm]

variable {represents : α → G → Prop}

/-- One bit doubles what the bits above it gave and adds the base where it is set. -/
theorem highFirst_represents {add : α → α → α}
    (hadd : ∀ {p q : α} {P Q : G}, represents p P → represents q Q → represents (add p q) (P + Q))
    {base acc : α} {B P : G} (hbase : represents base B) (hacc : represents acc P) (n bits : ℕ) :
    represents (highFirst add base n bits acc) (2 ^ bits • P + (n % 2 ^ bits) • B) := by
  induction bits generalizing acc P with
  | zero =>
    rw [pow_zero, Nat.mod_one, one_nsmul, zero_nsmul, add_zero]
    exact hacc
  | succ bit ih =>
    rw [highFirst]
    have hdoubled := hadd hacc hacc
    cases hbit : n.testBit bit with
    | false =>
      have hsum : 2 ^ (bit + 1) • P + (n % 2 ^ (bit + 1)) • B =
          2 ^ bit • (P + P) + (n % 2 ^ bit) • B := by
        rw [mod_two_pow_succ, hbit, Bool.toNat_false, Nat.zero_mul, add_zero, pow_succ, mul_nsmul',
          two_nsmul]
      rw [hsum]
      exact ih hdoubled
    | true =>
      have hsum : 2 ^ (bit + 1) • P + (n % 2 ^ (bit + 1)) • B =
          2 ^ bit • (P + P + B) + (n % 2 ^ bit) • B := by
        rw [mod_two_pow_succ, hbit, Bool.toNat_true, Nat.one_mul, pow_succ, mul_nsmul', two_nsmul,
          nsmul_add (P + P) B, add_nsmul, add_assoc, add_comm (2 ^ bit • B)]
      rw [hsum]
      exact ih (hadd hdoubled hbase)

/-- After `bit` rounds the result is the multiple by the bits so far and the power is the multiple
by the next power of two. -/
theorem lowFirst_represents {add : α → α → Option α}
    (hadd : ∀ {p q : α} {P Q : G}, represents p P → represents q Q →
      ∃ s, add p q = some s ∧ represents s (P + Q))
    {B : G} {n : ℕ} {result power : α} {bit : ℕ} (hresult : represents result ((n % 2 ^ bit) • B))
    (hpower : represents power (2 ^ bit • B)) (rounds : ℕ) :
    ∃ s, lowFirst add n rounds bit result power = some s ∧
      represents s ((n % 2 ^ (bit + rounds)) • B) := by
  induction rounds generalizing bit result power with
  | zero => exact ⟨result, rfl, hresult⟩
  | succ rounds ih =>
    obtain ⟨next, hnext, hsum⟩ : ∃ next,
        (if n.testBit bit then add result power else some result) = some next ∧
          represents next ((n % 2 ^ (bit + 1)) • B) := by
      cases hbit : n.testBit bit with
      | false =>
        refine ⟨result, rfl, ?_⟩
        rw [mod_two_pow_succ, hbit, Bool.toNat_false, Nat.zero_mul, Nat.add_zero]
        exact hresult
      | true =>
        rw [mod_two_pow_succ, hbit, Bool.toNat_true, Nat.one_mul, add_nsmul]
        exact hadd hresult hpower
    obtain ⟨double, hdouble, hdoubled⟩ := hadd hpower hpower
    rw [← two_nsmul, ← mul_nsmul', ← pow_succ'] at hdoubled
    rw [lowFirst, hnext, Option.bind_eq_bind, Option.bind_some, hdouble, Option.bind_some,
      ← Nat.add_assoc, Nat.add_right_comm]
    exact ih hsum hdoubled

end DoubleAndAdd
