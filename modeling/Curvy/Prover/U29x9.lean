import Curvy.Lib.Radix
import Curvy.Prover.BaseField
import Curvy.Witness.ScalarField

/-!
# Field elements in nine limbs of 29 bits

The scalar code of `u29x9.rs` and `fr29.rs` over a modulus that stands for either field. An
expression that leaves its machine type has no value; a cast between the signed and the unsigned
word reinterprets its bits.
-/

namespace Curvy.Prover.U29x9

set_option autoImplicit false

open Radix (Words low value Reduced)

abbrev Limbs : Type := Words 32 9

abbrev U64x4 : Type := Words 64 4

def W : Nat := 29

/-- `(1 << W) - 1`. -/
def MASK : BitVec 32 := 0x1fffffff

def MASK64 : BitVec 64 := 0x1fffffff

/-- The limbs of a prime and of its double. -/
structure Modulus where
  p : Nat
  prime : p.Prime
  P : Limbs
  P2 : Limbs
  reduced_P : Reduced 29 P
  reduced_P2 : Reduced 29 P2
  value_P : value 29 P = p
  value_P2 : value 29 P2 = 2 * p
  two_lt : 2 < p
  lt_pow : p < 2 ^ 254

instance (m : Modulus) : Fact m.p.Prime := ⟨m.prime⟩

def fq : Modulus where
  p := fqModulus
  prime := fqModulus_prime
  P := ![0x187cfd47, 0x010460b6, 0x1c72a34f, 0x02d522d0, 0x1585d978, 0x02db40c0, 0x00a6e141,
    0x0e5c2634, 0x0030644e]
  P2 := ![0x10f9fa8e, 0x0208c16d, 0x18e5469e, 0x05aa45a1, 0x0b0bb2f0, 0x05b68181, 0x014dc282,
    0x1cb84c68, 0x0060c89c]
  reduced_P := by decide
  reduced_P2 := by decide
  value_P := by decide
  value_P2 := by decide
  two_lt := by decide
  lt_pow := by decide

def fr : Modulus where
  p := Witness.frModulus
  prime := Witness.frModulus_prime
  P := ![0x10000001, 0x1f0fac9f, 0x0e5c2450, 0x07d090f3, 0x1585d283, 0x02db40c0, 0x00a6e141,
    0x0e5c2634, 0x0030644e]
  P2 := ![0x00000002, 0x1e1f593f, 0x1cb848a1, 0x0fa121e6, 0x0b0ba506, 0x05b68181, 0x014dc282,
    0x1cb84c68, 0x0060c89c]
  reduced_P := by decide
  reduced_P2 := by decide
  value_P := by decide
  value_P2 := by decide
  two_lt := by decide
  lt_pow := by decide

/-! ## Loops over the limbs -/

/-- An `i32` expression. -/
def i32 (v : Int) : Option Int := if -2 ^ 31 ≤ v ∧ v < 2 ^ 31 then some v else none

/-- A `u32` expression. -/
def u32 (v : Nat) : Option Nat := if v < 2 ^ 32 then some v else none

/-- The loop of the subtractions, with the borrow it ends with. -/
def subBorrow : {n : Nat} → Words 32 n → Words 32 n → Int → Option (Words 32 n × Int)
  | 0, a, _, borrow => some (a, borrow)
  | _ + 1, a, b, borrow => do
    let difference ← i32 ((low a).toInt - (low b).toInt)
    let v ← i32 (difference + borrow)
    let rest ← subBorrow (Fin.tail a) (Fin.tail b) (v >>> W)
    return (Fin.cons (BitVec.ofInt 32 v &&& MASK) rest.1, rest.2)

/-- The loop of the additions, with the carry it ends with. -/
def addCarry : {n : Nat} → Words 32 n → Words 32 n → Nat → Option (Words 32 n × Nat)
  | 0, a, _, carry => some (a, carry)
  | _ + 1, a, b, carry => do
    let sum ← u32 ((low a).toNat + (low b).toNat)
    let v ← u32 (sum + carry)
    let rest ← addCarry (Fin.tail a) (Fin.tail b) (v >>> W)
    return (Fin.cons (BitVec.ofNat 32 v &&& MASK) rest.1, rest.2)

/-! ## Field operations -/

def subIfGeq (a m : Limbs) : Option Limbs := do
  let d ← subBorrow a m 0
  let keep := BitVec.ofInt 32 d.2
  return fun i => (a i &&& keep) ||| (d.1 i &&& ~~~keep)

def zero : Limbs := fun _ => 0

section Operations

variable (m : Modulus)

def canonical (a : Limbs) : Option Limbs := subIfGeq a m.P

def add (a b : Limbs) : Option Limbs := do
  let s ← addCarry a b 0
  subIfGeq s.1 m.P2

def sub (a b : Limbs) : Option Limbs := do
  let d ← subBorrow a b 0
  let mask := BitVec.ofInt 32 d.2
  let r ← addCarry d.1 (fun i => m.P2 i &&& mask) 0
  return r.1

def double (a : Limbs) : Option Limbs := add m a a

def neg (a : Limbs) : Option Limbs := sub m zero a

def isZero (a : Limbs) : Option Bool := do
  let c ← canonical m a
  return decide (c = zero)

def equals (a b : Limbs) : Option Bool := do
  let x ← canonical m a
  let y ← canonical m b
  return decide (x = y)

end Operations

/-! ## Four limbs of 64 bits -/

/-- The word that holds the lowest bit of a limb. -/
def word (i : Fin 9) : Fin 4 := ⟨29 * i / 64, by omega⟩

def shift (i : Fin 9) : Nat := 29 * i % 64

def fromU64x4 (l : U64x4) : Limbs := fun i =>
  let v := l (word i) >>> shift i
  let v :=
    if h : 35 < shift i ∧ (word i).val + 1 < 4 then
      v ||| l ⟨(word i).val + 1, h.2⟩ <<< (64 - shift i)
    else v
  (v &&& MASK64).setWidth 32

/-- One round of the loop of `to_u64x4`. -/
def spread (a : Limbs) (out : U64x4) (i : Fin 9) : U64x4 :=
  let limb := (a i).setWidth 64
  let out := Function.update out (word i) (out (word i) ||| limb <<< shift i)
  if h : 35 < shift i ∧ (word i).val + 1 < 4 then
    let next : Fin 4 := ⟨(word i).val + 1, h.2⟩
    Function.update out next (out next ||| limb >>> (64 - shift i))
  else out

def toU64x4 (a : Limbs) : U64x4 := (List.finRange 9).foldl (spread a) fun _ => 0

/-! ## The elements of arkworks -/

/-- The limbs that an element of arkworks holds, those of its Montgomery form. -/
def arkMontLimbs {m : Modulus} (x : ZMod m.p) : U64x4 := Radix.ofNat 64 64 4 (x * (2 ^ 256 : ℕ)).val

/-- `new_unchecked`, which is promised limbs below the modulus. -/
def arkFromMontLimbs {m : Modulus} (limbs : U64x4) : Option (ZMod m.p) :=
  if value 64 limbs < m.p then some (value 64 limbs * ((2 ^ 256 : ℕ) : ZMod m.p)⁻¹) else none

def rawFromArk {m : Modulus} (x : ZMod m.p) : Limbs := fromU64x4 (arkMontLimbs x)

def rawToArk {m : Modulus} (a : Limbs) : Option (ZMod m.p) := do
  let c ← subIfGeq a m.P
  arkFromMontLimbs (toU64x4 c)

end Curvy.Prover.U29x9
