import Curvy.Core.BabyJubjub
import Curvy.Core.Field
import Curvy.Core.SecretField
import Curvy.Lib.MontyForm

/-!
# Arithmetic on secret scalars

Little-endian byte strings of a fixed length stand for 256-bit and 512-bit integers. The Montgomery
forms and their operators are the library's; the schedules are the code's. A failed assertion
stops the program (`none`).
-/

namespace Curvy

set_option autoImplicit false

open Witness (Fr frModulus)
open BabyJubjub (Point base8)

/-! ## Library operators on field elements -/

namespace Element

def one : Element := new 1

def plus (left right : Element) : Element :=
  ofResidue ((left.residue.toNat : Fr) + (right.residue.toNat : Fr))

def sub (left right : Element) : Element :=
  ofResidue ((left.residue.toNat : Fr) - (right.residue.toNat : Fr))

def square (x : Element) : Element := mul x x

/-- The canonical integer. -/
def retrieve (x : Element) : Nat := x.intoArk.val

def invert (x : Element) : Option Element :=
  if x.intoArk = 0 then none else some (ofResidue (x.intoArk⁻¹ * radix))

end Element

namespace SecretArithmetic

/-! ## Scalars -/

/-- `ScalarModulus`, `WideScalarModulus` and `ORDER`. -/
def order : Nat := 0x060c89ce5c263405370a08b6d0302b0bab3eedb83920ee0a677297dc392126f1

/-- `NONCE_LIMIT`, in two halves. -/
def nonceLimit : Nat :=
  0xffffffffffffffffffffffffffffffffffffffffffffffffffffffffffffffff * 2 ^ 256 +
    0xfbba4adb0e45af571b8d20dfc055ea708b9b93530a07b13bca1bb54118134de2

abbrev Scalar := MontyForm 256 order

abbrev WideScalar := MontyForm 512 order

def validSecret (bytes : List UInt8) : Bool :=
  let n := leNat bytes
  decide (n < order) && !decide (n = 0)

def reduceWide (bytes : List UInt8) : List UInt8 :=
  let value : WideScalar := .new (leNat bytes)
  let reduced := leBytes 64 value.retrieve
  reduced.take 32

def nonceCandidate (bytes : List UInt8) : Option (List UInt8) :=
  if leNat bytes < nonceLimit then
    let reduced := reduceWide bytes
    if validSecret reduced then some reduced else none
  else none

def response (nonce : List UInt8) (challenge : Fr) (secret : List UInt8) (cofactor : Nat) :
    List UInt8 :=
  let r : Scalar := .new (leNat nonce)
  let key : Scalar := .new (leNat secret)
  let h : Scalar := .new (leNat (leBytes 32 challenge.val))
  let result := r.add ((h.mul (.new cofactor)).mul key)
  leBytes 32 result.retrieve

/-! ## Scalar multiplication -/

structure Projective where
  x : Element
  y : Element
  z : Element

namespace Projective

open Element

def identity : Projective := ⟨.zero, .one, .one⟩

def add (self rhs : Projective) : Projective :=
  let a := mul self.z rhs.z
  let b := square a
  let c := mul self.x rhs.x
  let d := mul self.y rhs.y
  let e := mul (mul (new 168696) c) d
  let f := sub b e
  let g := plus b e
  { x := mul (mul a f) (sub (sub (mul (plus self.x self.y) (plus rhs.x rhs.y)) c) d)
    y := mul (mul a g) (sub d (mul (new 168700) c))
    z := mul f g }

def select (self rhs : Projective) (bit : Bool) : Projective :=
  let select := fun x y : Element => if bit then y else x
  ⟨select self.x rhs.x, select self.y rhs.y, select self.z rhs.z⟩

end Projective

/-- The integer of a field element, in Montgomery form. -/
def field (x : Fr) : Element := .new (leNat (leBytes 32 x.val))

def base : Projective := ⟨field base8.1, field base8.2, .one⟩

/-- One round of the loop over the scalar's bits. -/
def baseMulStep (scalar : Nat) (point : Projective) (bit : Nat) : Projective :=
  let doubled := point.add point
  let added := doubled.add base
  doubled.select added (scalar.testBit bit)

/-- `for bit in (0..256).rev()`. -/
def ladder (scalar : Nat) : Projective :=
  (List.range 256).reverse.foldl (baseMulStep scalar) Projective.identity

/-- The affine coordinates, by way of their public encoding. -/
def Projective.affine (point : Projective) (inverse : Element) : Point :=
  let x := point.x.mul inverse
  let y := point.y.mul inverse
  let coordinates := leBytes 32 x.retrieve ++ leBytes 32 y.retrieve
  ((Element.new (leNat (coordinates.take 32))).intoArk,
    (Element.new (leNat (coordinates.drop 32))).intoArk)

def baseMul (bytes : List UInt8) : Option Point :=
  let point := ladder (leNat bytes)
  point.z.invert.map point.affine

end SecretArithmetic

end Curvy
