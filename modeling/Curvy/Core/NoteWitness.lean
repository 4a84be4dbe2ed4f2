import Curvy.Core.Eddsa
import Curvy.Core.PendingWitness

/-!
# Witnesses of withdrawals and aggregations

The message that is signed is built from the notes, the witness lists texts of the same notes. The
signer gives the key and the signature; key derivation, counter mode and SHA-256 of the cipher are
parameters.
-/

namespace Curvy.NoteWitness

set_option autoImplicit false

open BabyJubjub
open Eddsa (Signature ScalarSignatureError)
open Witness (Fr)

/-- The libraries behind the cipher. -/
structure CipherLibrary where
  hkdf : (salt ikm info : List UInt8) → List UInt8
  sha256 : List UInt8 → List UInt8
  aesCtr : (key counter : List UInt8) → List UInt8

/-! ## The cipher -/

namespace Cipher

variable (lib : CipherLibrary)

def noteKeySalt : List UInt8 := "curvy/agg-note/v1".toUTF8.toList

def noteKeyInfo : List UInt8 := "curvy/agg-note/v1:amount+token".toUTF8.toList

def deriveNoteKey (sharedSecret : Nat) : Option (List UInt8) :=
  (biguintToBe32 sharedSecret).map fun input => lib.hkdf noteKeySalt input noteKeyInfo

def deriveCounterBlock (ephemeralKey : Nat × Nat) : Option (List UInt8) := do
  let x ← biguintToBe32 ephemeralKey.1
  let y ← biguintToBe32 ephemeralKey.2
  return (lib.sha256 (x ++ y)).take 16

def ctrKeystreamFields (sharedSecret : Nat) (ephemeralKey : Nat × Nat) : Option (Fr × Fr) := do
  let key ← deriveNoteKey lib sharedSecret
  let counter ← deriveCounterBlock lib ephemeralKey
  let ks := lib.aesCtr key counter
  return ((beNat (ks.take 32) : Fr), (beNat (ks.drop 32) : Fr))

def encryptAmountToken (amount token : Fr) (sharedSecret : Nat) (ephemeralKey : Nat × Nat) :
    Option (Fr × Fr) :=
  (ctrKeystreamFields lib sharedSecret ephemeralKey).map fun ks => (amount + ks.1, token + ks.2)

end Cipher

/-! ## Notes -/

section Notes

variable (permutation : List Fr → Fr) (lib : CipherLibrary)

def ownerHash (publicKey : Point) (sharedSecret : Fr) : Option Fr :=
  poseidon permutation [publicKey.1, publicKey.2, sharedSecret]

def noteId (ownerHash amount token : Fr) : Option Fr := poseidon permutation [ownerHash, amount, token]

def nullifier (sharedSecret : Fr) (publicKey : Point) : Option Fr :=
  poseidon permutation [sharedSecret, publicKey.1, publicKey.2]

structure Note where
  amount : Fr
  token : Fr
  ownerPub : Point
  sharedSecret : Fr
  ephemeralKey : Point
  viewTag : Fr

structure Proof where
  leafIndex : UInt64
  siblings : List Fr

def Note.id (n : Note) : Option Fr :=
  (ownerHash permutation n.ownerPub n.sharedSecret).bind fun owner =>
    noteId permutation owner n.amount n.token

def Note.nullifier (n : Note) : Option Fr :=
  NoteWitness.nullifier permutation n.sharedSecret n.ownerPub

def Note.flat (n : Note) : List String :=
  [frToDec n.ownerPub.1, frToDec n.ownerPub.2, frToDec n.sharedSecret, frToDec n.amount,
    frToDec n.token]

def Note.encrypted (n : Note) : Option (Fr × Fr) :=
  Cipher.encryptAmountToken lib n.amount n.token (frToBiguint n.sharedSecret)
    (frToBiguint n.ephemeralKey.1, frToBiguint n.ephemeralKey.2)

def Note.flatEncrypted (n : Note) : Option (List String) :=
  (n.encrypted lib).map fun e =>
    [frToDec e.1, frToDec e.2, frToDec n.ephemeralKey.1, frToDec n.ephemeralKey.2, frToDec n.viewTag]

def Proof.flat (p : Proof) : List String := toString p.leafIndex.toNat :: p.siblings.map frToDec

def flatSignature (r8 : Point) (s : Nat) : String × String × String :=
  (toString s, frToDec r8.1, frToDec r8.2)

end Notes

/-! ## Signers -/

structure NoteSigner where
  publicKey : Point
  sign : Fr → Except (Stop ScalarSignatureError) Signature

section Signers

variable (permutation : List Fr → Fr) (hmac : List UInt8 → List UInt8 → List UInt8)

structure SeedNoteSigner where
  privateKey : List UInt8
  publicKey : Point

namespace SeedNoteSigner

def fromBytes (privateKey : List UInt8) : Option SeedNoteSigner :=
  (Eddsa.derivePublicKey privateKey).map fun publicKey => ⟨privateKey, publicKey⟩

def new (privateKeyHex : List UInt8) : Except (Stop Stealth.HexDecodeError) SeedNoteSigner := do
  let privateKey ← (Stealth.fromHexExact 32 privateKeyHex).mapError .error
  Panic.expect (fromBytes privateKey)

def invalidSeedKey : Stop Stealth.HexDecodeError → Stop ScalarSignatureError
  | .panic => .panic
  | .error e => .error (.invalidSeedKey e)

def fromParts (privateKeyHex : List UInt8) (publicKey : Point) :
    Except (Stop ScalarSignatureError) SeedNoteSigner := do
  let signer ← (new privateKeyHex).mapError invalidSeedKey
  Panic.refuse (signer.publicKey ≠ publicKey) .publicKeyMismatch
  return signer

def signRaw (signer : SeedNoteSigner) (message : Nat) : Option Signature :=
  Eddsa.sign permutation message signer.privateKey

def noteSigner (signer : SeedNoteSigner) : NoteSigner where
  publicKey := signer.publicKey
  sign message := Panic.expect (signer.signRaw permutation (frToBiguint message))

end SeedNoteSigner

/-- A scalar with the point derived from it. -/
structure ScalarSigningKey where
  secret : BabyJubSecretScalar
  publicPoint : BabyJubPoint
  derived : publicKeyFromScalar secret = some publicPoint

namespace ScalarSigningKey

def fromSecret (secret : BabyJubSecretScalar) : Option ScalarSigningKey :=
  match h : publicKeyFromScalar secret with
  | none => none
  | some publicPoint => some ⟨secret, publicPoint, h⟩

def noteSigner (key : ScalarSigningKey) : NoteSigner where
  publicKey := key.publicPoint.asTuple
  sign message := do
    let signature ← Eddsa.signScalarCompat permutation hmac message key.secret key.publicPoint
    return signature.toSignature

end ScalarSigningKey

end Signers

/-! ## The builders -/

structure WithdrawalWitness where
  inputNotes : List (List String)
  publicKey : String × String
  inputNoteInclusionProofs : List (List String)
  signature : String × String × String
  notesRoot : String
  destinationAddress : String
  tokenId : String

structure AggregationWitness where
  inputNotes : List (List String)
  inputNoteInclusionProofs : List (List String)
  outputNotes : List (List String)
  publicKey : String × String
  signature : String × String × String
  feeNote : List String
  encryptedNoteData : List (List String)
  notesRoot : String
  protocolFeePerThousand : String
  gasFee : String
  feeNotePublicKey : String × String

def maxWithdrawalInputNotes : Nat := 13

def minAggregationOutputNotes : Nat := 1

def maxAggregationOutputNotes : Nat := 7

section Builders

variable (permutation : List Fr → Fr) (lib : CipherLibrary)

def buildWithdrawalWithSigner (notes : List Note) (signer : NoteSigner) (proofs : List Proof)
    (notesRoot destinationAddress tokenId : Fr) :
    Except (Stop ScalarSignatureError) WithdrawalWitness := do
  Panic.refuse (notes.length > maxWithdrawalInputNotes)
    (.unsupportedNoteCount notes.length 0 maxWithdrawalInputNotes)
  let total := notes.foldl (fun a n => a + n.amount) 0
  let nullifiers ← Panic.expect (notes.mapM (Note.nullifier permutation))
  let msg := nullifiers ++ [destinationAddress, total, tokenId]
  let sig ← signer.sign (← Panic.expect (poseidon permutation msg))
  let publicKey := signer.publicKey
  return {
    inputNotes := notes.map Note.flat
    publicKey := (frToDec publicKey.1, frToDec publicKey.2)
    inputNoteInclusionProofs := proofs.map Proof.flat
    signature := flatSignature sig.r8 sig.s
    notesRoot := frToDec notesRoot
    destinationAddress := frToDec destinationAddress
    tokenId := frToDec tokenId }

def buildWithdrawal (notes : List Note) (ownerKeyHex : List UInt8) (publicKey : Point)
    (proofs : List Proof) (notesRoot destinationAddress tokenId : Fr) :
    Except (Stop ScalarSignatureError) WithdrawalWitness := do
  let signer ← SeedNoteSigner.fromParts ownerKeyHex publicKey
  buildWithdrawalWithSigner permutation notes (signer.noteSigner permutation) proofs notesRoot
    destinationAddress tokenId

def buildAggregationWithSigner (inputNotes : List Note) (inputProofs : List Proof)
    (outputNotes : List Note) (feeNote : Note) (signer : NoteSigner)
    (notesRoot protocolFeePerThousand gasFee : Fr) (feeNotePublicKey : Point) :
    Except (Stop ScalarSignatureError) AggregationWitness := do
  Panic.refuse (¬ (minAggregationOutputNotes ≤ outputNotes.length ∧
      outputNotes.length ≤ maxAggregationOutputNotes))
    (.unsupportedNoteCount outputNotes.length minAggregationOutputNotes maxAggregationOutputNotes)
  let encNotes := outputNotes ++ [feeNote]
  let encrypted ← Panic.expect (encNotes.mapM (Note.encrypted lib))
  let ids ← Panic.expect (outputNotes.mapM (Note.id permutation))
  let outputNoteHash ← Panic.expect (poseidon permutation ids)
  let encFlat := encrypted.flatMap fun e => [e.1, e.2]
  let encryptedNoteDataHash ← Panic.expect (poseidon permutation encFlat)
  let signingHash ← Panic.expect (poseidon permutation [outputNoteHash, encryptedNoteDataHash])
  let sig ← signer.sign signingHash
  let publicKey := signer.publicKey
  let encryptedNoteData ← Panic.expect (encNotes.mapM (Note.flatEncrypted lib))
  return {
    inputNotes := inputNotes.map Note.flat
    inputNoteInclusionProofs := inputProofs.map Proof.flat
    outputNotes := outputNotes.map Note.flat
    publicKey := (frToDec publicKey.1, frToDec publicKey.2)
    signature := flatSignature sig.r8 sig.s
    feeNote := feeNote.flat
    encryptedNoteData
    notesRoot := frToDec notesRoot
    protocolFeePerThousand := frToDec protocolFeePerThousand
    gasFee := frToDec gasFee
    feeNotePublicKey := (frToDec feeNotePublicKey.1, frToDec feeNotePublicKey.2) }

def buildAggregation (inputNotes : List Note) (inputProofs : List Proof) (outputNotes : List Note)
    (feeNote : Note) (ownerKeyHex : List UInt8) (publicKey : Point)
    (notesRoot protocolFeePerThousand gasFee : Fr) (feeNotePublicKey : Point) :
    Except (Stop ScalarSignatureError) AggregationWitness := do
  let signer ← SeedNoteSigner.fromParts ownerKeyHex publicKey
  buildAggregationWithSigner permutation lib inputNotes inputProofs outputNotes feeNote
    (signer.noteSigner permutation) notesRoot protocolFeePerThousand gasFee feeNotePublicKey

end Builders

end Curvy.NoteWitness
