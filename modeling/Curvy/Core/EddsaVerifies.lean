import Curvy.Core.EddsaKeys

/-!
# Both ways of signing pass verification

Responses count modulo the order of the base point. A scalar key brings the cofactor in as a factor
of the challenge, a seed in its pruned scalar, which is eight times the scalar of its public key.
-/

namespace Curvy.Eddsa

set_option autoImplicit false

open Witness (Fr frModulus)
open BabyJubjub
open SecretArithmetic (baseMul baseMul_eq order order_eq response reduceWide validSecret
  nonceCandidate nonceCandidate_iff validSecret_reduced reduceWide_eq leNat_reduced)
open Blake512 (blake512 blake512_total)

/-! ## The equation -/

theorem leNat_response (nonce secret : List UInt8) (h : Fr) (cofactor : Nat) :
    leNat (response nonce h secret cofactor) =
      (leNat nonce + h.val * cofactor * leNat secret) % subOrder := by
  have hchallenge : leNat (leBytes 32 h.val) = h.val := by
    have hlt : h.val < frModulus := ZMod.val_lt h
    have hmodulus : frModulus < 256 ^ 32 := by decide
    exact leNat_leBytes (Nat.lt_trans hlt hmodulus)
  have hnew := fun n => MontyForm.value_new (SecretArithmetic.coprime_radix 256) n
  unfold response
  dsimp only
  rw [MontyForm.retrieve, MontyForm.value_add, MontyForm.value_mul, MontyForm.value_mul, hnew, hnew,
    hnew, hnew, hchallenge, ← Nat.cast_mul, ← Nat.cast_mul, ← Nat.cast_add, ZMod.val_natCast,
    leNat_reduced, order_eq]

section Verify

variable (permutation : List Fr → Fr)

/-- The challenge of a signature. -/
def challenge (r8 a : Point) (message : Fr) : Fr :=
  permutation [r8.1, r8.2, a.1, a.2, message]

theorem poseidon_challenge (r8 a : Point) (message : Fr) :
    poseidon permutation [r8.1, r8.2, a.1, a.2, message] =
      some (challenge permutation r8 a message) :=
  if_pos ⟨Nat.succ_le_succ (Nat.zero_le 4), Nat.le_add_right 5 11⟩

theorem verifyScalarCompat_eq {message : Fr} {publicKey : BabyJubPoint}
    {signature : ScalarSignature} {e : Nat} {left product right : Point}
    (hpublic : publicKey.isIdentity = false) (hr8 : signature.r8.isIdentity = false)
    (he : e = 8 * (challenge permutation signature.r8.asTuple publicKey.asTuple message).val %
      subOrder)
    (hleft : mulPointEscalar base8 signature.s.value = some left)
    (hproduct : mulPointEscalar publicKey.asTuple e = some product)
    (hright : addPoint signature.r8.asTuple product = some right) :
    verifyScalarCompat permutation message publicKey signature = some (decide (left = right)) := by
  have hposeidon : poseidon permutation
      [signature.r8.x, signature.r8.y, publicKey.x, publicKey.y, message] =
        some (challenge permutation signature.r8.asTuple publicKey.asTuple message) :=
    poseidon_challenge permutation signature.r8.asTuple publicKey.asTuple message
  rw [verifyScalarCompat, hpublic, hr8, if_neg (by decide), hposeidon]
  dsimp only [Option.bind_eq_bind, Option.bind_some]
  rw [hleft, ← he, hproduct]
  dsimp only [Option.bind_some]
  rw [hright]
  rfl

/-- A response that the equation asks for is accepted unless a point is the identity. -/
theorem verifyScalarCompat_multiple (message : Fr) (a r : Nat) (s : BabyJubScalar)
    (hs : s.value = (r + 8 * (challenge permutation (multiple r).asTuple (multiple a).asTuple
      message).val * a) % subOrder) :
    verifyScalarCompat permutation message (multiple a) ⟨multiple r, s⟩ =
      some (!decide (subOrder ∣ a) && !decide (subOrder ∣ r)) := by
  by_cases ha : subOrder ∣ a
  · have hidentity : (multiple a).isIdentity = true := by
      rw [multiple_isIdentity, decide_eq_true ha]
    rw [verifyScalarCompat, hidentity, Bool.true_or, if_pos rfl, decide_eq_true ha]
    rfl
  · by_cases hr : subOrder ∣ r
    · have hidentity : (multiple r).isIdentity = true := by
        rw [multiple_isIdentity, decide_eq_true hr]
      rw [verifyScalarCompat, hidentity, Bool.or_true, if_pos rfl, decide_eq_true hr,
        Bool.not_true, Bool.and_false]
    · have hpublic : (multiple a).isIdentity = false := by
        rw [multiple_isIdentity, decide_eq_false ha]
      have hr8 : (multiple r).isIdentity = false := by
        rw [multiple_isIdentity, decide_eq_false hr]
      generalize hh : (challenge permutation (multiple r).asTuple (multiple a).asTuple
        message).val = h at hs
      have hequation : s.value • basePoint =
          r • basePoint + (8 * h % subOrder) • a • basePoint := by
        calc s.value • basePoint = (r + 8 * h * a) • basePoint := by rw [hs, mod_subOrder_smul]
          _ = r • basePoint + a • (8 * h) • basePoint := by
              rw [add_nsmul, mul_comm (8 * h), mul_nsmul']
          _ = r • basePoint + (8 * h % subOrder) • a • basePoint := by
              rw [← mod_subOrder_smul (8 * h), smul_comm a]
      rw [@verifyScalarCompat_eq permutation message (multiple a) ⟨multiple r, s⟩ _ _ _ _ hpublic
        hr8 (by rw [hh]) (mulPointEscalar_coordinates basePoint s.value)
        (mulPointEscalar_coordinates (a • basePoint) (8 * h % subOrder))
        (addPoint_coordinates (r • basePoint) ((8 * h % subOrder) • a • basePoint)),
        hequation, decide_eq_true rfl, decide_eq_false ha, decide_eq_false hr]
      rfl

/-! ## Scalar keys -/

variable (hmac : List UInt8 → List UInt8 → List UInt8)

/-- A candidate that is accepted is a nonce: the loop stops with one or runs out of counters. -/
theorem nonceFrom_spec (secret : BabyJubSecretScalar) (publicKey : BabyJubPoint) (message : Fr)
    (rest counter : Nat) :
    nonceFrom hmac secret publicKey message rest counter =
        .error (.error .nonceCounterExhausted) ∨
      ∃ nonce, nonceFrom hmac secret publicKey message rest counter = .ok nonce := by
  induction rest generalizing counter with
  | zero => exact Or.inl rfl
  | succ rest ih =>
    unfold nonceFrom
    cases hcandidate : nonceCandidate
      (hmac secret.toLe32 (nonceInput publicKey message counter)) with
    | none => exact ih (counter + 1)
    | some reduced =>
      obtain ⟨_, hdvd, hreduced⟩ := (nonceCandidate_iff _ _).mp hcandidate
      have hlength : reduced.length = 32 := by rw [hreduced, leBytes_length]
      have hvalid : validSecret reduced = true := by
        rw [hreduced]
        exact (validSecret_reduced _).mpr hdvd
      have hnonce : BabyJubSecretScalar.tryFromLeBytes reduced hlength =
          .ok ⟨reduced, hlength, hvalid⟩ := dif_pos hvalid
      refine Or.inr ⟨⟨reduced, hlength, hvalid⟩, ?_⟩
      dsimp only
      rw [dif_pos hlength, hnonce]

theorem tryFromLeBytes_reduced {bytes : List UInt8} (h : leNat bytes < subOrder) :
    BabyJubScalar.tryFromLeBytes bytes = .ok ⟨leNat bytes, h⟩ := dif_pos h

theorem signScalarCompat_spec (secret : BabyJubSecretScalar) (message : Fr)
    {nonce : BabyJubSecretScalar}
    (hnonce : deterministicScalarNonce hmac secret (multiple (leNat secret.toLe32)) message =
      .ok nonce) :
    ∃ signature,
      signScalarCompat permutation hmac message secret (multiple (leNat secret.toLe32)) =
        .ok signature ∧
      verifyScalarCompat permutation message (multiple (leNat secret.toLe32)) signature =
        some true := by
  generalize hh : challenge permutation (multiple (leNat nonce.toLe32)).asTuple
    (multiple (leNat secret.toLe32)).asTuple message = h
  have hresponse := leNat_response nonce.toLe32 secret.toLe32 h 8
  have hlt : leNat (response nonce.toLe32 h secret.toLe32 8) < subOrder := by
    rw [hresponse]
    exact Nat.mod_lt _ subOrder_prime.pos
  have hposeidon := poseidon_challenge permutation (multiple (leNat nonce.toLe32)).asTuple
    (multiple (leNat secret.toLe32)).asTuple message
  rw [hh] at hposeidon
  have hverify := verifyScalarCompat_multiple permutation message (leNat secret.toLe32)
    (leNat nonce.toLe32) ⟨leNat (response nonce.toLe32 h secret.toLe32 8), hlt⟩
    (by rw [hh, Nat.mul_comm 8]; exact hresponse)
  rw [decide_eq_false (secret_not_dvd secret), decide_eq_false (secret_not_dvd nonce)] at hverify
  refine ⟨_, ?_, hverify⟩
  have hsame : ¬ (multiple (leNat secret.toLe32)).asTuple ≠
      (multiple (leNat secret.toLe32)).asTuple := fun h => h rfl
  unfold signScalarCompat
  rw [publicKeyFromScalar_eq, Panic.expect, Fallible.ok_bind, Panic.refuse, if_neg hsame,
    Fallible.ok_bind, hnonce, Fallible.ok_bind, publicKeyFromScalar_eq, Panic.expect,
    Fallible.ok_bind]
  dsimp only [BabyJubPoint.asTuple] at hposeidon
  rw [hposeidon, Panic.expect, Fallible.ok_bind]
  dsimp only
  rw [tryFromLeBytes_reduced hlt, Except.toOption, Panic.expect, Fallible.ok_bind, hverify]
  rfl

theorem signScalarCompat_exhausted {secret : BabyJubSecretScalar} {message : Fr}
    (hnonce : deterministicScalarNonce hmac secret (multiple (leNat secret.toLe32)) message =
      .error (.error .nonceCounterExhausted)) :
    signScalarCompat permutation hmac message secret (multiple (leNat secret.toLe32)) =
      .error (.error .nonceCounterExhausted) := by
  have hsame : ¬ (multiple (leNat secret.toLe32)).asTuple ≠
      (multiple (leNat secret.toLe32)).asTuple := fun h => h rfl
  rw [signScalarCompat, publicKeyFromScalar_eq, Panic.expect, Fallible.ok_bind, Panic.refuse,
    if_neg hsame, Fallible.ok_bind, hnonce, Fallible.error_bind]

/-! ## Seed keys -/

theorem sign_spec {seed hash digest : List UInt8} {message : Nat} (hmessage : message < 2 ^ 256)
    (hhash : blake512 seed = some hash) (hlength : hash.length = 64)
    (hdigest : blake512 (hash.drop 32 ++ leBytes 32 message) = some digest) :
    ∃ s : BabyJubScalar, sign permutation message seed =
        some ⟨(multiple (leNat digest % subOrder)).asTuple, s.value⟩ ∧
      verifyScalarCompat permutation (message : Fr)
          (multiple (leNat (pruneBuffer (hash.take 32)) / 8))
          ⟨multiple (leNat digest % subOrder), s⟩ =
        some (!(multiple (leNat (pruneBuffer (hash.take 32)) / 8)).isIdentity &&
          !(multiple (leNat digest % subOrder)).isIdentity) := by
  have htake : (hash.take 32).length = 32 := by
    rw [List.length_take, hlength]
    rfl
  have hpruned : (pruneBuffer (hash.take 32)).length = 32 := by rw [pruneBuffer_length, htake]
  obtain ⟨height, _, _⟩ := pruneBuffer_bounds htake
  have hpublic := baseMul_eq (publicScalar_length hpruned)
  rw [leNat_publicScalar hpruned] at hpublic
  have hfits : message < 256 ^ 32 := by
    have hradix : 256 ^ 32 = 2 ^ 256 := by decide
    rwa [hradix]
  have hbytes : biguintToLeBytes message 32 = some (leBytes 32 message) := if_pos hfits
  generalize hseed : pruneBuffer (hash.take 32) = pruned at hpruned height hpublic ⊢
  have hreduced : leNat (reduceWide digest) = leNat digest % subOrder := by
    rw [reduceWide_eq, leNat_reduced, order_eq]
  have hwide : (reduceWide digest).length = 32 := by rw [reduceWide_eq, leBytes_length]
  have hr8 := baseMul_eq hwide
  rw [hreduced] at hr8
  have hposeidon := poseidon_challenge permutation (multiple (leNat digest % subOrder)).asTuple
    (multiple (leNat pruned / 8)).asTuple (message : Fr)
  generalize hh : challenge permutation (multiple (leNat digest % subOrder)).asTuple
    (multiple (leNat pruned / 8)).asTuple (message : Fr) = h at hposeidon
  have hposeidon' : poseidon permutation [(coordinates ((leNat digest % subOrder) • basePoint)).1,
      (coordinates ((leNat digest % subOrder) • basePoint)).2,
      (coordinates ((leNat pruned / 8) • basePoint)).1,
      (coordinates ((leNat pruned / 8) • basePoint)).2, (message : Fr)] = some h := hposeidon
  have hresponse := leNat_response (reduceWide digest) pruned h 1
  rw [hreduced, Nat.mul_one] at hresponse
  -- the cofactor of the equation is in the scalar that was pruned
  have hexact : h.val * leNat pruned = 8 * h.val * (leNat pruned / 8) := by
    rw [Nat.mul_comm 8, Nat.mul_assoc, Nat.mul_div_cancel' height]
  have hlt : leNat (response (reduceWide digest) h pruned 1) < subOrder := by
    rw [hresponse]
    exact Nat.mod_lt _ subOrder_prime.pos
  have hverify := verifyScalarCompat_multiple permutation (message : Fr) (leNat pruned / 8)
    (leNat digest % subOrder) ⟨leNat (response (reduceWide digest) h pruned 1), hlt⟩
    (by rw [hh, ← hexact]; exact hresponse)
  refine ⟨⟨leNat (response (reduceWide digest) h pruned 1), hlt⟩, ?_, ?_⟩
  · unfold sign
    rw [hhash, Option.bind_eq_bind, Option.bind_some]
    dsimp only
    rw [hseed, hpublic, Option.bind_eq_bind, Option.bind_some, hbytes, Option.bind_eq_bind,
      Option.bind_some, hdigest, Option.bind_some, hr8,
      Option.bind_some, hposeidon']
    rfl
  · rw [hverify, multiple_isIdentity, multiple_isIdentity]

/-- Among the pruned scalars one is a multiple of the order times eight. -/
theorem pruned_multiple_iff {n : Nat} (height : 8 ∣ n) (hlow : 2 ^ 254 ≤ n) (hhigh : n < 2 ^ 255) :
    subOrder ∣ n / 8 ↔ n = 16 * subOrder := by
  obtain ⟨k, rfl⟩ := height
  rw [Nat.mul_div_cancel_left k (by decide)]
  unfold subOrder
  omega

/-- Signing with a scalar ends in a signature that verifies unless the counters run out. Signing
with a seed ends in one that verifies under the key of the seed, unless its nonce vanishes or that
key is the identity, as it is for a single pruned scalar. -/
theorem signatures_verify :
    (∀ (secret : BabyJubSecretScalar) (message : Fr), ∃ publicKey,
      publicKeyFromScalar secret = some publicKey ∧
        (deterministicScalarNonce hmac secret publicKey message =
            .error (.error .nonceCounterExhausted) ∧
          signScalarCompat permutation hmac message secret publicKey =
            .error (.error .nonceCounterExhausted) ∨
        ∃ nonce signature,
          deterministicScalarNonce hmac secret publicKey message = .ok nonce ∧
          signScalarCompat permutation hmac message secret publicKey = .ok signature ∧
          verifyScalarCompat permutation message publicKey signature = some true)) ∧
    (∀ (seed : List UInt8) (message : Nat), message < 2 ^ 256 →
      ∃ hash digest signature a publicKey r8 s, blake512 seed = some hash ∧
        blake512 (hash.drop 32 ++ leBytes 32 message) = some digest ∧
        sign permutation message seed = some signature ∧ derivePublicKey seed = some a ∧
        BabyJubPoint.tryFromXY a.1 a.2 = .ok publicKey ∧
        BabyJubPoint.tryFromXY signature.r8.1 signature.r8.2 = .ok r8 ∧
        BabyJubScalar.tryFromBiguint signature.s = .ok s ∧
        (r8.isIdentity = true ↔ subOrder ∣ leNat digest) ∧
        verifyScalarCompat permutation (message : Fr) publicKey ⟨r8, s⟩ =
          some (!publicKey.isIdentity && !r8.isIdentity)) ∧
    ∀ seed : List UInt8, ∃ pruned scalar a, prunedScalarBuffer seed = some pruned ∧
      deriveSecretScalar seed = some scalar ∧ derivePublicKey seed = some a ∧
      mulPointEscalar base8 scalar = some a ∧ (a = identity ↔ leNat pruned = 16 * subOrder) := by
  refine ⟨?_, ?_, ?_⟩
  · intro secret message
    refine ⟨_, publicKeyFromScalar_eq secret, ?_⟩
    rcases nonceFrom_spec hmac secret (multiple (leNat secret.toLe32)) message (2 ^ 32) 0 with
      hnone | ⟨nonce, hnonce⟩
    · exact Or.inl ⟨hnone, signScalarCompat_exhausted permutation hmac hnone⟩
    · obtain ⟨signature, hsign, hverify⟩ := signScalarCompat_spec permutation hmac secret message hnonce
      exact Or.inr ⟨nonce, signature, hnonce, hsign, hverify⟩
  · intro seed message hmessage
    obtain ⟨hash, hhash, hlength⟩ := blake512_total seed
    obtain ⟨digest, hdigest, _⟩ := blake512_total (hash.drop 32 ++ leBytes 32 message)
    obtain ⟨s, hsign, hverify⟩ := sign_spec permutation hmessage hhash hlength hdigest
    have hpruned : (pruneBuffer (hash.take 32)).length = 32 := by
      rw [pruneBuffer_length, List.length_take, hlength]
      rfl
    refine ⟨hash, digest, _, _, _, _, s, hhash, hdigest, hsign,
      derivePublicKey_eq (prunedScalarBuffer_eq hhash) hpruned, tryFromXY_multiple _,
      tryFromXY_multiple _, dif_pos s.canonical, ?_, hverify⟩
    rw [multiple_isIdentity, decide_eq_true_iff, Nat.dvd_mod_iff (Nat.dvd_refl subOrder)]
  · intro seed
    obtain ⟨pruned, hpruned, hlength, height, hlow, hhigh⟩ := prunedScalarBuffer_spec seed
    have hscalar := mulPointEscalar_coordinates basePoint (leNat pruned / 8 % subOrder)
    rw [mod_subOrder_smul] at hscalar
    refine ⟨pruned, _, _, hpruned, deriveSecretScalar_eq hpruned,
      derivePublicKey_eq hpruned hlength, hscalar, ?_⟩
    rw [coordinates_eq_identity, pruned_multiple_iff height hlow hhigh]

end Verify

/-- The empty seed. -/
theorem signatures_verify_example : ∃ hash digest signature a publicKey r8 s,
    blake512 [] = some hash ∧ blake512 (hash.drop 32 ++ leBytes 32 5) = some digest ∧
      sign (fun _ => 7) 5 [] = some signature ∧ derivePublicKey [] = some a ∧
      BabyJubPoint.tryFromXY a.1 a.2 = .ok publicKey ∧
      BabyJubPoint.tryFromXY signature.r8.1 signature.r8.2 = .ok r8 ∧
      BabyJubScalar.tryFromBiguint signature.s = .ok s ∧
      (r8.isIdentity = true ↔ subOrder ∣ leNat digest) ∧
      verifyScalarCompat (fun _ => 7) ((5 : Nat) : Fr) publicKey ⟨r8, s⟩ =
        some (!publicKey.isIdentity && !r8.isIdentity) :=
  (signatures_verify (fun _ => 7) fun key _ => key).2.1 [] 5 (by decide)

end Curvy.Eddsa
