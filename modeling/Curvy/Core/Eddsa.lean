import Curvy.Core.Blake512
import Curvy.Core.SecretArithmetic
import Curvy.Core.Stealth
import Curvy.Lib.Panic

/-!
# EdDSA-Poseidon signatures

Keys come from a seed or are scalars of the subgroup; both ways of signing end in one equation.
HMAC and the permutation behind `poseidon` are parameters, what `poseidon` asserts is not.
-/

namespace Curvy

set_option autoImplicit false

open Witness (Fr)

/-! ## Scalars and points -/

namespace BabyJubjub

open SecretArithmetic (validSecret baseMul)

inductive BabyJubError where
  | invalidScalarDecimal
  | nonCanonicalScalarDecimal
  | scalarOutOfRange
  | zeroSecretScalar
  | invalidCoordinate (error : Bn254FrError)
  | pointNotOnCurve
  | pointNotInSubgroup
  | identityPoint
  deriving DecidableEq

/-- `parse_scalar_decimal`. -/
def parseScalarDecimal (s : String) : Except BabyJubError Nat :=
  if utf8 s = [] ∨ ¬ (utf8 s).all (fun b => decide (Decimal.IsDigit b)) then
    .error .invalidScalarDecimal
  else if (utf8 s).length > 1 ∧ (utf8 s).head? = some 48 then .error .nonCanonicalScalarDecimal
  else if (utf8 s).length > 76 then .error .scalarOutOfRange
  else .ok (Decimal.value (utf8 s))

/-- A scalar below the order of the subgroup. -/
structure BabyJubScalar where
  value : Nat
  canonical : value < subOrder

namespace BabyJubScalar

def tryFromBiguint (value : Nat) : Except BabyJubError BabyJubScalar :=
  if h : value < subOrder then .ok ⟨value, h⟩ else .error .scalarOutOfRange

def tryFromDec (s : String) : Except BabyJubError BabyJubScalar := do
  tryFromBiguint (← parseScalarDecimal s)

def tryFromLeBytes (bytes : List UInt8) : Except BabyJubError BabyJubScalar :=
  tryFromBiguint (leNat bytes)

end BabyJubScalar

/-- A scalar that may be a key or a nonce, in its 32 bytes. -/
structure BabyJubSecretScalar where
  toLe32 : List UInt8
  length : toLe32.length = 32
  valid : validSecret toLe32 = true

namespace BabyJubSecretScalar

def tryFromLeBytes (bytes : List UInt8) (hlength : bytes.length = 32) :
    Except BabyJubError BabyJubSecretScalar :=
  if h : validSecret bytes = true then .ok ⟨bytes, hlength, h⟩
  else if bytes.all (· == 0) then .error .zeroSecretScalar
  else .error .scalarOutOfRange

end BabyJubSecretScalar

/-- A point of the subgroup. -/
structure BabyJubPoint where
  x : Fr
  y : Fr
  checked : isInSubgroup (x, y) = some true

namespace BabyJubPoint

def asTuple (point : BabyJubPoint) : Point := (point.x, point.y)

def isIdentity (point : BabyJubPoint) : Bool := decide (point.asTuple = identity)

def tryFromXY (x y : Fr) : Except (Stop BabyJubError) BabyJubPoint :=
  if isOnCurve (x, y) then
    match h : isInSubgroup (x, y) with
    | none => .error .panic
    | some false => .error (.error .pointNotInSubgroup)
    | some true => .ok ⟨x, y, h⟩
  else .error (.error .pointNotOnCurve)

def tryFromXYNonIdentity (x y : Fr) : Except (Stop BabyJubError) BabyJubPoint := do
  let point ← tryFromXY x y
  Panic.refuse (point.isIdentity = true) .identityPoint
  return point

def tryFromDec (x y : String) : Except (Stop BabyJubError) BabyJubPoint := do
  let x ← (Curvy.tryFromDec x).mapError fun e => .error (.invalidCoordinate e)
  let y ← (Curvy.tryFromDec y).mapError fun e => .error (.invalidCoordinate e)
  tryFromXYNonIdentity x y

/-- The debug assertions stop the program. -/
def fromSubgroupNonIdentityUnchecked (point : Point) : Option BabyJubPoint :=
  if h : isInSubgroup point = some true then
    if point = identity then none else some ⟨point.1, point.2, h⟩
  else none

end BabyJubPoint

def publicKeyFromScalar (scalar : BabyJubSecretScalar) : Option BabyJubPoint :=
  (baseMul scalar.toLe32).bind BabyJubPoint.fromSubgroupNonIdentityUnchecked

end BabyJubjub

/-! ## Encodings and hashes -/

/-- `biguint_to_le_bytes`, whose assertion stops the program. -/
def biguintToLeBytes (value length : Nat) : Option (List UInt8) :=
  if value < 256 ^ length then some (leBytes length value) else none

/-- `poseidon`, which asserts its arity. -/
def poseidon (permutation : List Fr → Fr) (inputs : List Fr) : Option Fr :=
  if 1 ≤ inputs.length ∧ inputs.length ≤ 16 then some (permutation inputs) else none

namespace Eddsa

open BabyJubjub
open SecretArithmetic (baseMul reduceWide nonceCandidate)
open Blake512 (blake512)

def scalarNonceLabel : List UInt8 := "CURVY_BABYJUB_SCALAR_NONCE_V1".toUTF8.toList

structure Signature where
  r8 : Point
  s : Nat

structure ScalarSignature where
  r8 : BabyJubPoint
  s : BabyJubScalar

def ScalarSignature.toSignature (signature : ScalarSignature) : Signature :=
  ⟨signature.r8.asTuple, signature.s.value⟩

inductive ScalarSignatureError where
  | invalidKey (error : BabyJubError)
  | invalidSeedKey (error : Stealth.HexDecodeError)
  | publicKeyMismatch
  | nonceCounterExhausted
  | internalVerificationFailed
  | unsupportedNoteCount (notes min max : Nat)

/-! ## Keys from a seed -/

def pruneBuffer (b : List UInt8) : List UInt8 :=
  ((b.modify 0 (· &&& 0xf8)).modify 31 (· &&& 0x7f)).modify 31 (· ||| 0x40)

def prunedScalarBuffer (privateKey : List UInt8) : Option (List UInt8) :=
  (blake512 privateKey).map fun hash => pruneBuffer (hash.take 32)

def deriveSecretScalar (privateKey : List UInt8) : Option Nat :=
  (prunedScalarBuffer privateKey).map fun pruned => leNat pruned >>> 3 % subOrder

/-- One round of the loop that shifts the buffer by three bits in place. -/
def shiftStep (scalar : List UInt8) (i : Nat) : List UInt8 :=
  scalar.set i (scalar.getD i 0 >>> 3 ||| scalar.getD (i + 1) 0 <<< 5)

def publicScalar (pruned : List UInt8) : List UInt8 :=
  ((List.range 31).foldl shiftStep pruned).modify 31 (· >>> 3)

def derivePublicKey (privateKey : List UInt8) : Option Point :=
  (prunedScalarBuffer privateKey).bind fun pruned => baseMul (publicScalar pruned)

section Sign

variable (permutation : List Fr → Fr)

def sign (message : Nat) (privateKey : List UInt8) : Option Signature := do
  let hash ← blake512 privateKey
  let seedScalar := pruneBuffer (hash.take 32)
  let a ← baseMul (publicScalar seedScalar)
  let msgBuff ← biguintToLeBytes message 32
  let compose := hash.drop 32 ++ msgBuff
  let nonceHash ← blake512 compose
  let r := reduceWide nonceHash
  let r8 ← baseMul r
  let hm ← poseidon permutation [r8.1, r8.2, a.1, a.2, (message : Fr)]
  let response := SecretArithmetic.response r hm seedScalar 1
  some ⟨r8, leNat response⟩

/-! ## Keys that are scalars -/

def verifyScalarCompat (message : Fr) (publicKey : BabyJubPoint) (signature : ScalarSignature) :
    Option Bool :=
  if publicKey.isIdentity || signature.r8.isIdentity then some false
  else do
    let h ← poseidon permutation
      [signature.r8.x, signature.r8.y, publicKey.x, publicKey.y, message]
    let e := 8 * h.val % subOrder
    let left ← mulPointEscalar base8 signature.s.value
    let right ← addPoint signature.r8.asTuple (← mulPointEscalar publicKey.asTuple e)
    return decide (left = right)

/-- What a boundary refuses before it verifies. -/
inductive VerifyError where
  | message (error : Bn254FrError)
  | key (error : BabyJubError)

def VerifyError.ofKey : Stop BabyJubError → Stop VerifyError
  | .panic => .panic
  | .error e => .error (.key e)

/-- `verify_scalar_signature`, on texts. -/
def verifyScalarSignature (message publicX publicY r8X r8Y s : String) :
    Except (Stop VerifyError) Bool := do
  let message ← (tryFromDec message).mapError fun e => .error (.message e)
  let publicKey ← (BabyJubPoint.tryFromDec publicX publicY).mapError VerifyError.ofKey
  let r8 ← (BabyJubPoint.tryFromDec r8X r8Y).mapError VerifyError.ofKey
  let s ← (BabyJubScalar.tryFromDec s).mapError fun e => .error (.key e)
  Panic.expect (verifyScalarCompat permutation message publicKey ⟨r8, s⟩)

variable (hmac : List UInt8 → List UInt8 → List UInt8)

/-- The message authenticated for one counter. -/
def nonceInput (publicKey : BabyJubPoint) (message : Fr) (counter : Nat) : List UInt8 :=
  scalarNonceLabel ++ toLeBytes publicKey.x ++ toLeBytes publicKey.y ++ toLeBytes message ++
    beBytes 4 counter

/-- The loop over the counters, with those still to try. -/
def nonceFrom (secret : BabyJubSecretScalar) (publicKey : BabyJubPoint) (message : Fr) :
    Nat → Nat → Except (Stop ScalarSignatureError) BabyJubSecretScalar
  | 0, _ => .error (.error .nonceCounterExhausted)
  | rest + 1, counter =>
    match nonceCandidate (hmac secret.toLe32 (nonceInput publicKey message counter)) with
    | none => nonceFrom secret publicKey message rest (counter + 1)
    | some reduced =>
      if hlength : reduced.length = 32 then
        match BabyJubSecretScalar.tryFromLeBytes reduced hlength with
        | .ok nonce => .ok nonce
        | .error _ => .error .panic
      else .error .panic

def deterministicScalarNonce (secret : BabyJubSecretScalar) (publicKey : BabyJubPoint)
    (message : Fr) : Except (Stop ScalarSignatureError) BabyJubSecretScalar :=
  nonceFrom hmac secret publicKey message (2 ^ 32) 0

def signScalarCompat (message : Fr) (secret : BabyJubSecretScalar) (publicKey : BabyJubPoint) :
    Except (Stop ScalarSignatureError) ScalarSignature := do
  let expectedPublic ← Panic.expect (publicKeyFromScalar secret)
  Panic.refuse (expectedPublic.asTuple ≠ publicKey.asTuple) .internalVerificationFailed
  let nonce ← deterministicScalarNonce hmac secret publicKey message
  let r := nonce.toLe32
  let r8 ← Panic.expect (publicKeyFromScalar nonce)
  let h ← Panic.expect (poseidon permutation [r8.x, r8.y, publicKey.x, publicKey.y, message])
  let response := SecretArithmetic.response r h secret.toLe32 8
  let s ← Panic.expect (BabyJubScalar.tryFromLeBytes response).toOption
  let signature : ScalarSignature := ⟨r8, s⟩
  let verified ← Panic.expect (verifyScalarCompat permutation message publicKey signature)
  Panic.refuse (verified = false) .internalVerificationFailed
  return signature

end Sign

end Eddsa

end Curvy
