import Mathlib.Data.ZMod.Basic
import Mathlib.Tactic.Ring

/-!
# Fixed-width integers in Montgomery form

A form keeps the product of an integer with the radix `2 ^ bits`, reduced by the modulus. Here is
what its operations denote.
-/

set_option autoImplicit false

structure MontyForm (bits modulus : ℕ) where
  residue : ZMod modulus

namespace MontyForm

variable {bits modulus : ℕ}

def radix (bits modulus : ℕ) : ZMod modulus := ((2 ^ bits : ℕ) : ZMod modulus)

/-- The form of an integer of `bits` bits. -/
def new (n : ℕ) : MontyForm bits modulus := ⟨n * radix bits modulus⟩

def add (x y : MontyForm bits modulus) : MontyForm bits modulus := ⟨x.residue + y.residue⟩

def mul (x y : MontyForm bits modulus) : MontyForm bits modulus :=
  ⟨x.residue * y.residue * (radix bits modulus)⁻¹⟩

/-- The element that the form stands for. -/
def value (x : MontyForm bits modulus) : ZMod modulus := x.residue * (radix bits modulus)⁻¹

/-- The integer below the modulus. -/
def retrieve (x : MontyForm bits modulus) : ℕ := x.value.val

theorem value_new (h : Nat.Coprime (2 ^ bits) modulus) (n : ℕ) :
    (new n : MontyForm bits modulus).value = n := by
  rw [value, new, mul_assoc, radix, ZMod.coe_mul_inv_eq_one _ h, mul_one]

theorem value_add (x y : MontyForm bits modulus) : (add x y).value = x.value + y.value := by
  rw [value, add, add_mul]
  rfl

theorem value_mul (x y : MontyForm bits modulus) : (mul x y).value = x.value * y.value := by
  rw [value, mul, value, value]
  ring

theorem retrieve_new (h : Nat.Coprime (2 ^ bits) modulus) (n : ℕ) :
    (new n : MontyForm bits modulus).retrieve = n % modulus := by
  rw [retrieve, value_new h, ZMod.val_natCast]

end MontyForm
