import Curvy.Core.EddsaVerifies
import Curvy.Core.NoteWitness

/-!
# The witnesses are signed

What a witness lists is read back and its message computed again: a signature of a signer whose
signatures verify is one of that message. Only the signer stops a build within the note counts.
-/

namespace Curvy.NoteWitness

set_option autoImplicit false

open BabyJubjub
open Eddsa
open Witness (Fr)

/-! ## Reading the texts back -/

def readField (text : String) : Option Fr := (tryFromDec text).toOption

theorem readField_frToDec (x : Fr) : readField (frToDec x) = some x := by
  have h : tryFromDec (frToDec x) = .ok x := tryFromDec_iff.mpr rfl
  rw [readField, h]
  rfl

/-- A note as it is listed. -/
structure ListedNote where
  ownerPub : Point
  sharedSecret : Fr
  amount : Fr
  token : Fr

def readNote (row : List String) : Option ListedNote := do
  match ← row.mapM readField with
  | [ownerX, ownerY, sharedSecret, amount, token] => some ⟨(ownerX, ownerY), sharedSecret, amount, token⟩
  | _ => none

/-- The encrypted amount and token of a listed row. -/
def readEncrypted (row : List String) : Option (Fr × Fr) := do
  match ← row.mapM readField with
  | [amount, token, _, _, _] => some (amount, token)
  | _ => none

section Messages

variable (permutation : List Fr → Fr)

/-- The message of a withdrawal, from what the witness lists. -/
def WithdrawalWitness.message (w : WithdrawalWitness) : Option Fr := do
  let notes ← w.inputNotes.mapM readNote
  let nullifiers ← notes.mapM fun n => nullifier permutation n.sharedSecret n.ownerPub
  let destination ← readField w.destinationAddress
  let token ← readField w.tokenId
  poseidon permutation (nullifiers ++ [destination, (notes.map (·.amount)).sum, token])

/-- The message of an aggregation, from what the witness lists. -/
def AggregationWitness.message (w : AggregationWitness) : Option Fr := do
  let notes ← w.outputNotes.mapM readNote
  let ids ← notes.mapM fun n => (ownerHash permutation n.ownerPub n.sharedSecret).bind fun owner =>
    noteId permutation owner n.amount n.token
  let encrypted ← w.encryptedNoteData.mapM readEncrypted
  let outputNoteHash ← poseidon permutation ids
  let encryptedNoteDataHash ← poseidon permutation (encrypted.flatMap fun e => [e.1, e.2])
  poseidon permutation [outputNoteHash, encryptedNoteDataHash]

/-- The texts of a key and a signature pass the verification of the message. -/
def SignedTexts (message : Option Fr) (publicKey : String × String)
    (signature : String × String × String) : Prop :=
  ∃ m, message = some m ∧ verifyScalarSignature permutation (frToDec m) publicKey.1 publicKey.2
    signature.2.1 signature.2.2 signature.1 = .ok true

/-! ## Signers -/

/-- A signature that verifies under the key, both of them well formed. -/
def Accepts (publicKey : Point) (message : Fr) (signature : Signature) : Prop :=
  ∃ point r8 s, BabyJubPoint.tryFromXYNonIdentity publicKey.1 publicKey.2 = .ok point ∧
    BabyJubPoint.tryFromXYNonIdentity signature.r8.1 signature.r8.2 = .ok r8 ∧
    BabyJubScalar.tryFromBiguint signature.s = .ok s ∧
    verifyScalarCompat permutation message point ⟨r8, s⟩ = some true

def NoteSigner.Verifies (signer : NoteSigner) : Prop :=
  ∀ message signature, signer.sign message = .ok signature →
    Accepts permutation signer.publicKey message signature

end Messages

/-! ## Reading back what was listed -/

theorem mapM_total {α β : Type} {f : α → Option β} {g : α → β} (h : ∀ a, f a = some (g a))
    (l : List α) : l.mapM f = some (l.map g) := by
  have hfun : f = fun a => some (g a) := funext h
  rw [hfun]
  exact List.mapM_pure

theorem readFields_frToDec (fields : List Fr) : (fields.map frToDec).mapM readField = some fields := by
  have h : (readField ∘ frToDec) = some := funext readField_frToDec
  rw [List.mapM_map, h]
  exact (mapM_total (fun _ => rfl) fields).trans (congrArg some (List.map_id fields))

/-- What stands in the row of a note. -/
def Note.listed (n : Note) : ListedNote := ⟨n.ownerPub, n.sharedSecret, n.amount, n.token⟩

theorem readNote_flat (n : Note) : readNote n.flat = some n.listed := by
  have hrow := readFields_frToDec [n.ownerPub.1, n.ownerPub.2, n.sharedSecret, n.amount, n.token]
  rw [readNote, Note.flat]
  dsimp only [List.map] at hrow
  rw [hrow]
  rfl

section Readable

variable (permutation : List Fr → Fr) (lib : CipherLibrary)

theorem poseidon_some {inputs : List Fr} (hlow : 1 ≤ inputs.length) (hhigh : inputs.length ≤ 16) :
    poseidon permutation inputs = some (permutation inputs) := if_pos ⟨hlow, hhigh⟩

theorem biguintToBe32_field (x : Fr) : ∃ bytes, biguintToBe32 (frToBiguint x) = some bytes := by
  have hlt : x.val < Witness.frModulus := ZMod.val_lt x
  have hmodulus : Witness.frModulus < 256 ^ 32 := by decide
  exact ⟨_, if_pos (Nat.lt_trans hlt hmodulus)⟩

theorem encrypted_total (n : Note) : ∃ e, n.encrypted lib = some e := by
  obtain ⟨secret, hsecret⟩ := biguintToBe32_field n.sharedSecret
  obtain ⟨x, hx⟩ := biguintToBe32_field n.ephemeralKey.1
  obtain ⟨y, hy⟩ := biguintToBe32_field n.ephemeralKey.2
  have hcounter : Cipher.deriveCounterBlock lib
      (frToBiguint n.ephemeralKey.1, frToBiguint n.ephemeralKey.2) =
        some ((lib.sha256 (x ++ y)).take 16) := by
    rw [Cipher.deriveCounterBlock, hx, Option.bind_eq_bind, Option.bind_some, hy]
    rfl
  rw [Note.encrypted, Cipher.encryptAmountToken, Cipher.ctrKeystreamFields, Cipher.deriveNoteKey,
    hsecret, hcounter]
  exact ⟨_, rfl⟩

/-- The encrypted amount and token of a note. -/
def Note.cipherPair (n : Note) : Fr × Fr := (n.encrypted lib).getD (0, 0)

theorem encrypted_eq (n : Note) : n.encrypted lib = some (n.cipherPair lib) := by
  obtain ⟨e, he⟩ := encrypted_total lib n
  rw [Note.cipherPair, he, Option.getD_some]

/-- The row of the encrypted note. -/
def Note.cipherRow (n : Note) : List Fr :=
  [(n.cipherPair lib).1, (n.cipherPair lib).2, n.ephemeralKey.1, n.ephemeralKey.2, n.viewTag]

theorem flatEncrypted_eq (n : Note) : n.flatEncrypted lib = some ((n.cipherRow lib).map frToDec) := by
  rw [Note.flatEncrypted, encrypted_eq]
  rfl

theorem readEncrypted_cipherRow (n : Note) :
    readEncrypted ((n.cipherRow lib).map frToDec) = some (n.cipherPair lib) := by
  rw [readEncrypted, readFields_frToDec]
  rfl

end Readable

/-! ## Texts of a key and a signature -/

section Texts

variable (permutation : List Fr → Fr)

theorem parseScalarDecimal_spell {n : Nat} (hn : n < subOrder) :
    parseScalarDecimal (toString n) = .ok n := by
  have hbytes : utf8 (toString n) = Decimal.spell n := Decimal.utf8_toString n
  have hdigits : (Decimal.spell n).all (fun b => decide (Decimal.IsDigit b)) = true := by
    rw [List.all_eq_true]
    intro b hb
    exact decide_eq_true (Decimal.spell_digits n b hb)
  have hcanonical := Decimal.spell_canonical n
  have hvalue := Decimal.value_spell n
  have hlength : (Decimal.spell n).length ≤ 76 := by
    by_contra hlong
    have hle := Decimal.le_value hcanonical (by omega)
    have hpow : 10 ^ 76 ≤ 10 ^ ((Decimal.spell n).length - 1) :=
      Nat.pow_le_pow_right (by decide) (by omega)
    have horder : subOrder < 10 ^ 76 := by decide
    omega
  have hzero : ¬ ((Decimal.spell n).length > 1 ∧ (Decimal.spell n).head? = some 48) :=
    fun h => hcanonical.2 h.1 h.2
  have hnonempty : ¬ (Decimal.spell n = [] ∨
      ¬ (Decimal.spell n).all (fun b => decide (Decimal.IsDigit b)) = true) := by
    rintro (hnil | hbad)
    · exact Decimal.spell_ne_nil n hnil
    · exact hbad hdigits
  rw [parseScalarDecimal, hbytes, if_neg hnonempty, if_neg hzero, if_neg (Nat.not_lt.mpr hlength),
    hvalue]

theorem scalar_tryFromDec {n : Nat} {s : BabyJubScalar} (h : BabyJubScalar.tryFromBiguint n = .ok s) :
    BabyJubScalar.tryFromDec (toString n) = .ok s := by
  have hn : n < subOrder := by
    by_contra hlarge
    rw [BabyJubScalar.tryFromBiguint, dif_neg hlarge] at h
    cases h
  rw [BabyJubScalar.tryFromDec, parseScalarDecimal_spell hn, Fallible.ok_bind, h]

theorem point_tryFromDec {x y : Fr} {point : BabyJubPoint}
    (h : BabyJubPoint.tryFromXYNonIdentity x y = .ok point) :
    BabyJubPoint.tryFromDec (frToDec x) (frToDec y) = .ok point := by
  have hread : ∀ z, tryFromDec (frToDec z) = .ok z := fun z => tryFromDec_iff.mpr rfl
  rw [BabyJubPoint.tryFromDec, hread, hread]
  exact h

/-- An accepted signature is accepted from the texts of the witness. -/
theorem signedTexts_of_accepts {publicKey : Point} {message : Fr} {signature : Signature}
    (h : Accepts permutation publicKey message signature) :
    SignedTexts permutation (some message) (frToDec publicKey.1, frToDec publicKey.2)
      (flatSignature signature.r8 signature.s) := by
  obtain ⟨point, r8, s, hpoint, hr8, hs, hverify⟩ := h
  have hmessage : tryFromDec (frToDec message) = .ok message := tryFromDec_iff.mpr rfl
  refine ⟨message, rfl, ?_⟩
  unfold verifyScalarSignature flatSignature
  rw [hmessage]
  dsimp only
  rw [point_tryFromDec hpoint, point_tryFromDec hr8, scalar_tryFromDec hs]
  change Panic.expect (verifyScalarCompat permutation message point ⟨r8, s⟩) = .ok true
  rw [hverify]
  rfl

end Texts

/-! ## The messages -/

section Builds

variable (permutation : List Fr → Fr) (lib : CipherLibrary)

def ListedNote.nullifierOf (n : ListedNote) : Fr :=
  permutation [n.sharedSecret, n.ownerPub.1, n.ownerPub.2]

def ListedNote.idOf (n : ListedNote) : Fr :=
  permutation [permutation [n.ownerPub.1, n.ownerPub.2, n.sharedSecret], n.amount, n.token]

theorem nullifier_listed (n : ListedNote) :
    nullifier permutation n.sharedSecret n.ownerPub = some (n.nullifierOf permutation) :=
  poseidon_some permutation (by simp) (by simp)

theorem id_listed (n : ListedNote) :
    ((ownerHash permutation n.ownerPub n.sharedSecret).bind fun owner =>
      noteId permutation owner n.amount n.token) = some (n.idOf permutation) := by
  have howner : ownerHash permutation n.ownerPub n.sharedSecret =
      some (permutation [n.ownerPub.1, n.ownerPub.2, n.sharedSecret]) :=
    poseidon_some permutation (by simp) (by simp)
  rw [howner, Option.bind_some]
  exact poseidon_some permutation (by simp) (by simp)

/-- The hash that a withdrawal signs. -/
def withdrawalHash (notes : List Note) (destinationAddress tokenId : Fr) : Fr :=
  permutation (notes.map (fun n => n.listed.nullifierOf permutation) ++
    [destinationAddress, (notes.map (·.amount)).sum, tokenId])

theorem total_eq (notes : List Note) :
    notes.foldl (fun a n => a + n.amount) 0 = (notes.map (·.amount)).sum := by
  rw [List.sum_eq_foldl, List.foldl_map]

/-- Within the count of notes only the signer can stop a withdrawal. -/
theorem buildWithdrawalWithSigner_eq {notes : List Note} (hcount : notes.length ≤ 13)
    (signer : NoteSigner) (proofs : List Proof) (notesRoot destinationAddress tokenId : Fr) :
    buildWithdrawalWithSigner permutation notes signer proofs notesRoot destinationAddress tokenId =
      signer.sign (withdrawalHash permutation notes destinationAddress tokenId) >>= fun sig =>
        .ok {
          inputNotes := notes.map Note.flat
          publicKey := (frToDec signer.publicKey.1, frToDec signer.publicKey.2)
          inputNoteInclusionProofs := proofs.map Proof.flat
          signature := flatSignature sig.r8 sig.s
          notesRoot := frToDec notesRoot
          destinationAddress := frToDec destinationAddress
          tokenId := frToDec tokenId } := by
  have hnullifiers : notes.mapM (Note.nullifier permutation) =
      some (notes.map fun n => n.listed.nullifierOf permutation) :=
    mapM_total (fun n : Note => nullifier_listed permutation n.listed) notes
  have hposeidon : poseidon permutation (notes.map (fun n => n.listed.nullifierOf permutation) ++
      [destinationAddress, (notes.map (·.amount)).sum, tokenId]) =
        some (withdrawalHash permutation notes destinationAddress tokenId) := by
    apply poseidon_some <;> simp only [List.length_append, List.length_map, List.length_cons,
      List.length_nil] <;> omega
  have hfew : ¬ notes.length > maxWithdrawalInputNotes := Nat.not_lt.mpr hcount
  unfold buildWithdrawalWithSigner
  rw [Panic.refuse, if_neg hfew, Fallible.ok_bind, total_eq, hnullifiers]
  change (Panic.expect (poseidon permutation (notes.map _ ++ _)) >>= _) = _
  rw [hposeidon]
  rfl

theorem withdrawal_message {w : WithdrawalWitness} {notes : List Note}
    {destinationAddress tokenId : Fr} (hcount : notes.length ≤ 13)
    (hnotes : w.inputNotes = notes.map Note.flat)
    (hdestination : w.destinationAddress = frToDec destinationAddress)
    (htoken : w.tokenId = frToDec tokenId) :
    w.message permutation = some (withdrawalHash permutation notes destinationAddress tokenId) := by
  have hread : (notes.map Note.flat).mapM readNote = some (notes.map Note.listed) := by
    rw [List.mapM_map]
    exact mapM_total readNote_flat notes
  have hnullifiers : (notes.map Note.listed).mapM
      (fun n => nullifier permutation n.sharedSecret n.ownerPub) =
        some (notes.map fun n => n.listed.nullifierOf permutation) := by
    rw [mapM_total (nullifier_listed permutation), List.map_map]
    rfl
  have hamounts : ((notes.map Note.listed).map (·.amount)).sum = (notes.map (·.amount)).sum := by
    rw [List.map_map]
    rfl
  unfold WithdrawalWitness.message
  rw [hnotes, hread, Option.bind_eq_bind, Option.bind_some, hnullifiers, Option.bind_eq_bind,
    Option.bind_some, hdestination, readField_frToDec, Option.bind_eq_bind, Option.bind_some, htoken,
    readField_frToDec, Option.bind_some, hamounts]
  apply poseidon_some <;> simp only [List.length_append, List.length_map, List.length_cons,
    List.length_nil] <;> omega

/-! ### Aggregations -/

/-- The hash that an aggregation signs. -/
def aggregationHash (outputNotes : List Note) (feeNote : Note) : Fr :=
  permutation [permutation (outputNotes.map fun n => n.listed.idOf permutation),
    permutation (((outputNotes ++ [feeNote]).map (Note.cipherPair lib)).flatMap fun e => [e.1, e.2])]

theorem length_pairs (pairs : List (Fr × Fr)) :
    (pairs.flatMap fun e => [e.1, e.2]).length = 2 * pairs.length := by
  induction pairs with
  | nil => rfl
  | cons e pairs ih =>
    rw [List.flatMap_cons, List.length_append, ih, List.length_cons, List.length_cons,
      List.length_cons, List.length_nil]
    omega

theorem poseidon_aggregation (outputNotes : List Note) (feeNote : Note) : poseidon permutation
      [permutation (outputNotes.map fun n => n.listed.idOf permutation), permutation
        (((outputNotes ++ [feeNote]).map (Note.cipherPair lib)).flatMap fun e => [e.1, e.2])] =
    some (aggregationHash permutation lib outputNotes feeNote) :=
  poseidon_some permutation (by simp) (by simp)

section Counted

variable {outputNotes : List Note} (hlow : 1 ≤ outputNotes.length) (hhigh : outputNotes.length ≤ 7)
  (feeNote : Note)

include hlow hhigh

theorem poseidon_ids : poseidon permutation (outputNotes.map fun n => n.listed.idOf permutation) =
    some (permutation (outputNotes.map fun n => n.listed.idOf permutation)) := by
  apply poseidon_some
  · rwa [List.length_map]
  · rw [List.length_map]
    omega

theorem poseidon_pairs : poseidon permutation
      (((outputNotes ++ [feeNote]).map (Note.cipherPair lib)).flatMap fun e => [e.1, e.2]) =
    some (permutation
      (((outputNotes ++ [feeNote]).map (Note.cipherPair lib)).flatMap fun e => [e.1, e.2])) := by
  apply poseidon_some <;> rw [length_pairs, List.length_map, List.length_append,
    List.length_singleton] <;> omega

/-- Within the count of notes only the signer can stop an aggregation. -/
theorem buildAggregationWithSigner_eq (inputNotes : List Note) (inputProofs : List Proof)
    (signer : NoteSigner) (notesRoot protocolFeePerThousand gasFee : Fr) (feeNotePublicKey : Point) :
    buildAggregationWithSigner permutation lib inputNotes inputProofs outputNotes feeNote signer
        notesRoot protocolFeePerThousand gasFee feeNotePublicKey =
      signer.sign (aggregationHash permutation lib outputNotes feeNote) >>= fun sig =>
        .ok {
          inputNotes := inputNotes.map Note.flat
          inputNoteInclusionProofs := inputProofs.map Proof.flat
          outputNotes := outputNotes.map Note.flat
          publicKey := (frToDec signer.publicKey.1, frToDec signer.publicKey.2)
          signature := flatSignature sig.r8 sig.s
          feeNote := feeNote.flat
          encryptedNoteData := (outputNotes ++ [feeNote]).map fun n => (n.cipherRow lib).map frToDec
          notesRoot := frToDec notesRoot
          protocolFeePerThousand := frToDec protocolFeePerThousand
          gasFee := frToDec gasFee
          feeNotePublicKey := (frToDec feeNotePublicKey.1, frToDec feeNotePublicKey.2) } := by
  have hids : outputNotes.mapM (Note.id permutation) =
      some (outputNotes.map fun n => n.listed.idOf permutation) :=
    mapM_total (fun n : Note => id_listed permutation n.listed) outputNotes
  have hencrypted := mapM_total (encrypted_eq lib) (outputNotes ++ [feeNote])
  have hrows := mapM_total (flatEncrypted_eq lib) (outputNotes ++ [feeNote])
  have hcount : ¬ ¬ (minAggregationOutputNotes ≤ outputNotes.length ∧
      outputNotes.length ≤ maxAggregationOutputNotes) := not_not.mpr ⟨hlow, hhigh⟩
  unfold buildAggregationWithSigner
  rw [Panic.refuse, if_neg hcount, Fallible.ok_bind]
  dsimp only
  rw [hencrypted, Panic.expect, Fallible.ok_bind,
    hids, Panic.expect, Fallible.ok_bind, poseidon_ids permutation hlow hhigh, Panic.expect,
    Fallible.ok_bind, poseidon_pairs permutation lib hlow hhigh feeNote, Panic.expect, Fallible.ok_bind,
    poseidon_aggregation permutation lib outputNotes feeNote, Panic.expect, Fallible.ok_bind, hrows]
  rfl

theorem aggregation_message {w : AggregationWitness}
    (hnotes : w.outputNotes = outputNotes.map Note.flat)
    (hdata : w.encryptedNoteData =
      (outputNotes ++ [feeNote]).map fun n => (n.cipherRow lib).map frToDec) :
    w.message permutation = some (aggregationHash permutation lib outputNotes feeNote) := by
  have hread : (outputNotes.map Note.flat).mapM readNote = some (outputNotes.map Note.listed) := by
    rw [List.mapM_map]
    exact mapM_total readNote_flat outputNotes
  have hids : (outputNotes.map Note.listed).mapM
      (fun n => (ownerHash permutation n.ownerPub n.sharedSecret).bind fun owner =>
        noteId permutation owner n.amount n.token) =
          some (outputNotes.map fun n => n.listed.idOf permutation) := by
    rw [mapM_total (id_listed permutation), List.map_map]
    rfl
  have hrows : ((outputNotes ++ [feeNote]).map fun n => (n.cipherRow lib).map frToDec).mapM
      readEncrypted = some ((outputNotes ++ [feeNote]).map (Note.cipherPair lib)) := by
    rw [List.mapM_map]
    exact mapM_total (readEncrypted_cipherRow lib) _
  unfold AggregationWitness.message
  rw [hnotes, hread, Option.bind_eq_bind, Option.bind_some, hids, Option.bind_eq_bind,
    Option.bind_some, hdata, hrows, Option.bind_eq_bind, Option.bind_some,
    poseidon_ids permutation hlow hhigh, Option.bind_eq_bind, Option.bind_some,
    poseidon_pairs permutation lib hlow hhigh feeNote, Option.bind_some,
    poseidon_aggregation permutation lib outputNotes feeNote]

end Counted

/-! ## What a build does -/

/-- A build over `count` notes is refused outside the counts it supports. Within them it stops as
the signer does, or its witness carries the signature of its own message. -/
structure SignsItself {W : Type} (signer : NoteSigner) (low high count : Nat)
    (build : Except (Stop ScalarSignatureError) W) (message : W → Option Fr)
    (publicKey : W → String × String) (signature : W → String × String × String) : Prop where
  refuses : ¬ (low ≤ count ∧ count ≤ high) →
    build = .error (.error (.unsupportedNoteCount count low high))
  signs : low ≤ count → count ≤ high → ∃ m,
    (∀ stop, signer.sign m = .error stop → build = .error stop) ∧
      ∀ s, signer.sign m = .ok s → ∃ w, build = .ok w ∧ message w = some m ∧
        publicKey w = (frToDec signer.publicKey.1, frToDec signer.publicKey.2) ∧
        SignedTexts permutation (message w) (publicKey w) (signature w)

variable {signer : NoteSigner}

theorem withdrawal_signs (hsigner : signer.Verifies permutation) (notes : List Note)
    (proofs : List Proof) (notesRoot destinationAddress tokenId : Fr) :
    SignsItself permutation signer 0 maxWithdrawalInputNotes notes.length
      (buildWithdrawalWithSigner permutation notes signer proofs notesRoot destinationAddress tokenId)
      (·.message permutation) (·.publicKey) (·.signature) where
  refuses := by
    intro hcount
    have hmany : notes.length > maxWithdrawalInputNotes := by omega
    rw [buildWithdrawalWithSigner, Panic.refuse, if_pos hmany]
    rfl
  signs := by
    intro _ hcount
    refine ⟨withdrawalHash permutation notes destinationAddress tokenId, ?_, ?_⟩
    · intro stop hstop
      rw [buildWithdrawalWithSigner_eq permutation hcount, hstop]
      rfl
    · intro s hs
      rw [buildWithdrawalWithSigner_eq permutation hcount, hs]
      refine ⟨_, rfl, ?_⟩
      dsimp only
      rw [withdrawal_message permutation hcount rfl rfl rfl]
      exact ⟨rfl, rfl, signedTexts_of_accepts permutation (hsigner _ s hs)⟩

theorem aggregation_signs (hsigner : signer.Verifies permutation) (inputNotes : List Note)
    (inputProofs : List Proof) (outputNotes : List Note) (feeNote : Note)
    (notesRoot protocolFeePerThousand gasFee : Fr) (feeNotePublicKey : Point) :
    SignsItself permutation signer minAggregationOutputNotes maxAggregationOutputNotes
      outputNotes.length
      (buildAggregationWithSigner permutation lib inputNotes inputProofs outputNotes feeNote signer
        notesRoot protocolFeePerThousand gasFee feeNotePublicKey)
      (·.message permutation) (·.publicKey) (·.signature) where
  refuses := by
    intro hcount
    rw [buildAggregationWithSigner, Panic.refuse, if_pos hcount]
    rfl
  signs := by
    intro hlow hhigh
    refine ⟨aggregationHash permutation lib outputNotes feeNote, ?_, ?_⟩
    · intro stop hstop
      rw [buildAggregationWithSigner_eq permutation lib hlow hhigh, hstop]
      rfl
    · intro s hs
      rw [buildAggregationWithSigner_eq permutation lib hlow hhigh, hs]
      refine ⟨_, rfl, ?_⟩
      dsimp only
      rw [aggregation_message permutation lib hlow hhigh feeNote rfl rfl]
      exact ⟨rfl, rfl, signedTexts_of_accepts permutation (hsigner _ s hs)⟩

end Builds

/-! ## The signers of the code -/

section Keys

variable (permutation : List Fr → Fr) (hmac : List UInt8 → List UInt8 → List UInt8)

theorem tryFromXY_self (point : BabyJubPoint) : BabyJubPoint.tryFromXY point.x point.y = .ok point := by
  have hcurve : isOnCurve (point.x, point.y) = true := by
    by_contra hoff
    have hchecked := point.checked
    rw [isInSubgroup, if_neg hoff] at hchecked
    cases hchecked
  unfold BabyJubPoint.tryFromXY
  rw [if_pos hcurve]
  split
  · rename_i hnone
    exact absurd (hnone.symm.trans point.checked) (by decide)
  · rename_i hfalse
    exact absurd (hfalse.symm.trans point.checked) (by decide)
  · rfl

theorem tryFromXYNonIdentity_self {point : BabyJubPoint} (h : point.isIdentity = false) :
    BabyJubPoint.tryFromXYNonIdentity point.x point.y = .ok point := by
  have hidentity : ¬ point.isIdentity = true := by
    rw [h]
    decide
  have hrefuse : (Panic.refuse (point.isIdentity = true) .identityPoint :
      Except (Stop BabyJubError) Unit) = .ok () := if_neg hidentity
  rw [BabyJubPoint.tryFromXYNonIdentity, tryFromXY_self, Fallible.ok_bind, hrefuse]
  rfl

theorem accepts_of_verify {message : Fr} {point : BabyJubPoint} {signature : ScalarSignature}
    (h : verifyScalarCompat permutation message point signature = some true) :
    Accepts permutation point.asTuple message signature.toSignature := by
  have hpoints : (point.isIdentity || signature.r8.isIdentity) = false := by
    cases hor : point.isIdentity || signature.r8.isIdentity with
    | false => rfl
    | true =>
      rw [verifyScalarCompat, if_pos hor] at h
      exact absurd (Option.some.inj h) (by decide)
  obtain ⟨hpoint, hr8⟩ := Bool.or_eq_false_iff.mp hpoints
  exact ⟨point, signature.r8, signature.s, tryFromXYNonIdentity_self hpoint,
    tryFromXYNonIdentity_self hr8, dif_pos signature.s.canonical, h⟩

/-- Every signature of a scalar key verifies. -/
theorem scalarSigner_verifies (key : ScalarSigningKey) :
    (key.noteSigner permutation hmac).Verifies permutation := by
  intro message signature hsign
  have hderived := key.derived
  rw [publicKeyFromScalar_eq] at hderived
  have hpoint := Option.some.inj hderived
  have hkey : (key.noteSigner permutation hmac).publicKey = key.publicPoint.asTuple := rfl
  rw [hkey, ← hpoint]
  obtain ⟨scalarSignature, hscalar, hsignature⟩ := Fallible.bind_ok.mp hsign
  obtain rfl := Except.ok.inj hsignature
  rw [← hpoint] at hscalar
  apply accepts_of_verify
  rcases nonceFrom_spec hmac key.secret (multiple (leNat key.secret.toLe32)) message (2 ^ 32) 0 with
    hnone | ⟨nonce, hnonce⟩
  · have hloop : deterministicScalarNonce hmac key.secret (multiple (leNat key.secret.toLe32))
        message = .error (.error .nonceCounterExhausted) := hnone
    rw [signScalarCompat_exhausted permutation hmac hloop] at hscalar
    cases hscalar
  · obtain ⟨found, hfound, hverify⟩ := signScalarCompat_spec permutation hmac key.secret message hnonce
    rw [hfound] at hscalar
    obtain rfl := Except.ok.inj hscalar
    exact hverify

/-- A signature of a seed verifies unless its nonce or its key vanishes. -/
theorem seedSigner_accepts {seed hash digest : List UInt8} {signer : SeedNoteSigner}
    (hsigner : SeedNoteSigner.fromBytes seed = some signer) (hkey : signer.publicKey ≠ identity)
    {message : Fr} (hhash : Blake512.blake512 seed = some hash)
    (hdigest : Blake512.blake512 (hash.drop 32 ++ leBytes 32 message.val) = some digest)
    (hnonce : ¬ subOrder ∣ leNat digest) {signature : Signature}
    (hsign : (signer.noteSigner permutation).sign message = .ok signature) :
    Accepts permutation signer.publicKey message signature := by
  obtain ⟨digest', hhash', hlength⟩ := Blake512.blake512_total seed
  obtain rfl := Option.some.inj (hhash.symm.trans hhash')
  have htake : (pruneBuffer (hash.take 32)).length = 32 := by
    rw [pruneBuffer_length, List.length_take, hlength]
    rfl
  have hpublic := derivePublicKey_eq (prunedScalarBuffer_eq hhash) htake
  rw [SeedNoteSigner.fromBytes, hpublic, Option.map_some] at hsigner
  obtain rfl := Option.some.inj hsigner
  have hsmall : message.val < 2 ^ 256 := by
    have hlt : message.val < Witness.frModulus := ZMod.val_lt message
    have hmodulus : Witness.frModulus < 2 ^ 256 := by decide
    exact Nat.lt_trans hlt hmodulus
  obtain ⟨s, hs, hverify⟩ := sign_spec permutation hsmall hhash hlength hdigest
  have hdvd : ¬ subOrder ∣ leNat (pruneBuffer (hash.take 32)) / 8 :=
    fun h => hkey ((coordinates_eq_identity _).mpr h)
  have hidentity : (multiple (leNat (pruneBuffer (hash.take 32)) / 8)).isIdentity = false := by
    rw [multiple_isIdentity, decide_eq_false hdvd]
  have hnonce' : ¬ subOrder ∣ leNat digest % subOrder := by
    rw [Nat.dvd_mod_iff (Nat.dvd_refl subOrder)]
    exact hnonce
  have hr8 : (multiple (leNat digest % subOrder)).isIdentity = false := by
    rw [multiple_isIdentity, decide_eq_false hnonce']
  rw [hidentity, hr8, ZMod.natCast_zmod_val] at hverify
  have hsigned : (Panic.expect (sign permutation message.val seed) :
      Except (Stop ScalarSignatureError) Signature) = .ok signature := hsign
  rw [hs, Panic.expect, Except.ok.injEq] at hsigned
  have haccepts := accepts_of_verify permutation hverify
  rw [ScalarSignature.toSignature, hsigned] at haccepts
  exact haccepts

end Keys

/-- Within the supported counts of notes both builders stop only as their signer does, and a
witness carries a signature that passes the verification of the message it spells, under the key
it lists. -/
theorem witnesses_are_signed (permutation : List Fr → Fr) (lib : CipherLibrary)
    {signer : NoteSigner} (hsigner : signer.Verifies permutation) :
    (∀ notes proofs notesRoot destinationAddress tokenId,
      SignsItself permutation signer 0 maxWithdrawalInputNotes notes.length
        (buildWithdrawalWithSigner permutation notes signer proofs notesRoot destinationAddress
          tokenId)
        (·.message permutation) (·.publicKey) (·.signature)) ∧
    ∀ inputNotes inputProofs outputNotes feeNote notesRoot protocolFeePerThousand gasFee
      feeNotePublicKey,
      SignsItself permutation signer minAggregationOutputNotes maxAggregationOutputNotes
        outputNotes.length
        (buildAggregationWithSigner permutation lib inputNotes inputProofs outputNotes feeNote signer
          notesRoot protocolFeePerThousand gasFee feeNotePublicKey)
        (·.message permutation) (·.publicKey) (·.signature) :=
  ⟨withdrawal_signs permutation hsigner, aggregation_signs permutation lib hsigner⟩

/-- The scalar one as a key, with an aggregation of a single note. -/
theorem witnesses_are_signed_example : ∃ key : ScalarSigningKey,
    SignsItself List.sum (key.noteSigner List.sum fun key _ => key) minAggregationOutputNotes
      maxAggregationOutputNotes [(⟨1, 2, identity, 3, identity, 4⟩ : Note)].length
      (buildAggregationWithSigner List.sum ⟨fun _ ikm _ => ikm, id, fun key _ => key⟩ [] []
        [⟨1, 2, identity, 3, identity, 4⟩] ⟨5, 6, identity, 7, identity, 8⟩
        (key.noteSigner List.sum fun key _ => key) 0 0 0 identity)
      (·.message List.sum) (·.publicKey) (·.signature) := by
  have hlength : ((1 : UInt8) :: List.replicate 31 0).length = 32 := by decide
  have hvalid : SecretArithmetic.validSecret ((1 : UInt8) :: List.replicate 31 0) = true := by
    decide
  refine ⟨⟨⟨_, hlength, hvalid⟩, _, publicKeyFromScalar_eq _⟩, ?_⟩
  exact (witnesses_are_signed List.sum ⟨fun _ ikm _ => ikm, id, fun key _ => key⟩
    (scalarSigner_verifies List.sum (fun key _ => key) _)).2 [] []
      [⟨1, 2, identity, 3, identity, 4⟩] ⟨5, 6, identity, 7, identity, 8⟩ 0 0 0 identity

end Curvy.NoteWitness
