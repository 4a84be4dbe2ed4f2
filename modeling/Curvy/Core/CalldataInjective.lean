import Curvy.Core.Calldata
import Curvy.Lib.HashChain

/-!
# The calldata commitment names its words

The commitment is a chain of Poseidon calls over zero-padded chunks from a start that holds
the word count. Lists whose calls do not collide have different commitments. Packed words are
bound as the elements they spell.
-/

namespace Curvy

set_option autoImplicit false

open Witness (Fr frModulus)

section Definitions
variable (H : Primitives Fr)

def bindCalldataPacked (words : List UInt8) : Except CalldataError (CalldataBinding Fr) :=
  if words.length > maxCalldataWords * 32 then .error (.tooManyWords ((words.length + 31) / 32))
  else match frFromBe32Packed words with
    | .error e => .error (.packedWords e)
    | .ok fields => bindCalldata H fields

/-- The state before the first call. -/
def calldataStart (count : Nat) : Fr := calldataCommitmentDomain H + (count : Fr)

/-- A chunk with the zeros behind it. -/
def padChunk (chunk : List Fr) : List Fr :=
  chunk ++ List.replicate (calldataWordsPerHash - chunk.length) 0

def paddedChunks (words : List Fr) : List (List Fr) :=
  (words.chunks calldataWordsPerHash).map padChunk

/-- One call over a padded chunk. -/
def absorbPadded (state : Fr) (padded : List Fr) : Fr := H.poseidon (state :: padded)

/-- The tuples the commitment to `words` hashes. -/
def calldataCalls (words : List Fr) : List (List Fr) :=
  (HashChain.visits (absorbPadded H) (calldataStart H words.length) (paddedChunks words)).map
    fun call => call.1 :: call.2

/-- Poseidon is injective on the tuples and takes none of them to a start state. -/
structure PoseidonUnambiguous (tuples : List (List Fr)) : Prop where
  injective : ∀ a ∈ tuples, ∀ b ∈ tuples, H.poseidon a = H.poseidon b → a = b
  fresh : ∀ a ∈ tuples, ∀ count, 1 ≤ count → count ≤ maxCalldataWords →
    H.poseidon a ≠ calldataStart H count

end Definitions

variable {H : Primitives Fr} {words words' : List Fr}

/-! ### The chain -/

theorem calldataCommitment_ok {c : Fr} : calldataCommitment H words = .ok c ↔
    (1 ≤ words.length ∧ words.length ≤ maxCalldataWords) ∧
      (paddedChunks words).foldl (absorbPadded H) (calldataStart H words.length) = c := by
  have hfold : (words.chunks calldataWordsPerHash).foldl (absorb H)
      (calldataCommitmentDomain H + (words.length : Fr)) =
        (paddedChunks words).foldl (absorbPadded H) (calldataStart H words.length) := by
    rw [paddedChunks, List.foldl_map]
    rfl
  unfold calldataCommitment checkWordCount
  rw [hfold]
  split
  · rename_i hzero
    exact ⟨fun h => (by cases h), fun h => (by omega)⟩
  split
  · rename_i _ hmany
    exact ⟨fun h => (by cases h), fun h => (by omega)⟩
  · rename_i hpos hmax
    rw [Fallible.ok_bind]
    constructor
    · intro h
      exact ⟨⟨by omega, by omega⟩, Except.ok.inj h⟩
    · rintro ⟨_, rfl⟩
      rfl

/-- The padded chunks are the words with zeros behind them. -/
theorem flatten_paddedChunks (words : List Fr) :
    ∃ zeros, (paddedChunks words).flatten = words ++ List.replicate zeros 0 := by
  have hsize : 0 < calldataWordsPerHash := by decide
  unfold paddedChunks
  induction words using List.chunks_induction hsize with
  | nil => exact ⟨0, rfl⟩
  | cut words hne ih =>
    rw [List.chunks_of_ne_nil hsize hne, List.map_cons, List.flatten_cons, padChunk]
    rcases Nat.lt_or_ge words.length calldataWordsPerHash with hshort | hlong
    · rw [List.drop_eq_nil_of_le hshort.le, List.take_of_length_le hshort.le, List.chunks_nil]
      exact ⟨_, by rw [List.map_nil, List.flatten_nil, List.append_nil]⟩
    · obtain ⟨zeros, hzeros⟩ := ih
      have hfull : (words.take calldataWordsPerHash).length = calldataWordsPerHash :=
        List.length_take_of_le hlong
      refine ⟨zeros, ?_⟩
      rw [hfull, Nat.sub_self, List.replicate_zero, List.append_nil, hzeros, ← List.append_assoc,
        List.take_append_drop]

theorem paddedChunk_length {padded : List Fr} (h : padded ∈ paddedChunks words) :
    padded.length = calldataWordsPerHash := by
  have hsize : 0 < calldataWordsPerHash := by decide
  obtain ⟨chunk, hchunk, rfl⟩ := List.mem_map.mp h
  have hle : chunk.length ≤ calldataWordsPerHash := by
    rcases List.chunks_sizes hsize words with ⟨hall, _⟩ | ⟨full, last, heq, hall, _, hlast⟩
    · exact (hall chunk hchunk).le
    · rw [heq] at hchunk
      rcases List.mem_append.mp hchunk with hmem | hmem
      · exact (hall chunk hmem).le
      · obtain rfl := List.mem_singleton.mp hmem
        exact hlast.le
  rw [padChunk, List.length_append, List.length_replicate]
  omega

/-- Every call takes sixteen elements. -/
theorem calldataCalls_length {tuple : List Fr} (h : tuple ∈ calldataCalls H words) :
    tuple.length = calldataWordsPerHash + 1 := by
  obtain ⟨call, hcall, rfl⟩ := List.mem_map.mp h
  rw [List.length_cons, paddedChunk_length (HashChain.visits_block hcall)]

/-- What holds of all tuples of sixteen elements holds of the tuples that are hashed. -/
theorem PoseidonUnambiguous.of_sixteen
    (hinj : ∀ a b : List Fr, a.length = 16 → b.length = 16 → H.poseidon a = H.poseidon b → a = b)
    (hfresh : ∀ a : List Fr, a.length = 16 → ∀ count, 1 ≤ count → count ≤ maxCalldataWords →
      H.poseidon a ≠ calldataStart H count) :
    PoseidonUnambiguous H (calldataCalls H words ++ calldataCalls H words') := by
  have hsixteen : ∀ a ∈ calldataCalls H words ++ calldataCalls H words', a.length = 16 := by
    intro a ha
    rcases List.mem_append.mp ha with ha | ha
    · exact calldataCalls_length ha
    · exact calldataCalls_length ha
  exact ⟨fun a ha b hb => hinj a b (hsixteen a ha) (hsixteen b hb),
    fun a ha => hfresh a (hsixteen a ha)⟩

/-! ### One list for each commitment -/

theorem calldataStart_inj {count count' : Nat} (h : count ≤ maxCalldataWords)
    (h' : count' ≤ maxCalldataWords) (heq : calldataStart H count = calldataStart H count') :
    count = count' := by
  have hsmall : maxCalldataWords < frModulus := by decide
  have hcast : (count : Fr) = (count' : Fr) := add_left_cancel heq
  have hval := congrArg ZMod.val hcast
  rwa [ZMod.val_cast_of_lt (by omega), ZMod.val_cast_of_lt (by omega)] at hval

theorem PoseidonUnambiguous.chains
    (h : PoseidonUnambiguous H (calldataCalls H words ++ calldataCalls H words')) :
    HashChain.Unambiguous (absorbPadded H)
      (fun s => ∃ count, 1 ≤ count ∧ count ≤ maxCalldataWords ∧ s = calldataStart H count)
      (HashChain.visits (absorbPadded H) (calldataStart H words.length) (paddedChunks words) ++
        HashChain.visits (absorbPadded H) (calldataStart H words'.length) (paddedChunks words')) where
  inj p hp q hq heq := by
    rw [calldataCalls, calldataCalls, ← List.map_append] at h
    have htuple := h.injective _ (List.mem_map_of_mem hp) _ (List.mem_map_of_mem hq) heq
    obtain ⟨hstate, hblock⟩ := List.cons.inj htuple
    exact Prod.ext hstate hblock
  fresh p hp := by
    rw [calldataCalls, calldataCalls, ← List.map_append] at h
    rintro ⟨count, hpos, hmax, heq⟩
    exact h.fresh _ (List.mem_map_of_mem hp) count hpos hmax heq

theorem calldataCommitment_inj
    (h : PoseidonUnambiguous H (calldataCalls H words ++ calldataCalls H words')) {c : Fr}
    (hc : calldataCommitment H words = .ok c) (hc' : calldataCommitment H words' = .ok c) :
    words = words' := by
  obtain ⟨⟨hpos, hmax⟩, hfold⟩ := calldataCommitment_ok.mp hc
  obtain ⟨⟨hpos', hmax'⟩, hfold'⟩ := calldataCommitment_ok.mp hc'
  obtain ⟨hstart, hblocks⟩ := h.chains.foldl_inj ⟨_, hpos, hmax, rfl⟩ ⟨_, hpos', hmax', rfl⟩
    (hfold.trans hfold'.symm)
  have hcount := calldataStart_inj hmax hmax' hstart
  obtain ⟨zeros, hzeros⟩ := flatten_paddedChunks words
  obtain ⟨zeros', hzeros'⟩ := flatten_paddedChunks words'
  rw [hblocks, hzeros'] at hzeros
  exact (List.append_inj hzeros hcount.symm).1.symm

/-! ### Packed words -/

theorem bindCalldataPacked_packed (fields : List Fr) :
    bindCalldataPacked H (frToBe32Packed fields) = bindCalldata H fields := by
  have hlength : (frToBe32Packed fields).length = fields.length * 32 := by
    rw [frToBe32Packed, List.flatMap_def, List.length_flatten_of_forall, List.length_map]
    intro piece hpiece
    obtain ⟨x, _, rfl⟩ := List.mem_map.mp hpiece
    exact frToBe32_length x
  unfold bindCalldataPacked
  rw [hlength]
  split
  · rename_i hmany
    have hcount : (fields.length * 32 + 31) / 32 = fields.length := by omega
    have hbound : maxCalldataWords < fields.length := by omega
    rw [hcount, bindCalldata, calldataCommitment, checkWordCount, if_neg (by omega), if_pos hbound]
    rfl
  · rw [frFromBe32Packed_ok.mpr rfl]

/-- A word at or above the modulus. -/
def NonCanonicalWord (word : List UInt8) : Prop := frModulus ≤ leNat word.reverse

theorem bindCalldataPacked_nonCanonical {words : List (List UInt8)}
    (hwords : ∀ word ∈ words, word.length = 32) (hbad : ∃ word ∈ words, NonCanonicalWord word) :
    ∃ e, bindCalldataPacked H words.flatten = .error e := by
  unfold bindCalldataPacked
  split
  · exact ⟨_, rfl⟩
  · cases hdecode : frFromBe32Packed words.flatten with
    | error e => exact ⟨.packedWords e, rfl⟩
    | ok fields =>
      obtain ⟨word, hmem, hword⟩ := hbad
      have hpacked := frFromBe32Packed_ok.mp hdecode
      have hcut : words = fields.map frToBe32 := by
        have hsize : ∀ piece ∈ fields.map frToBe32, piece.length = 32 := by
          intro piece hpiece
          obtain ⟨x, _, rfl⟩ := List.mem_map.mp hpiece
          exact frToBe32_length x
        rw [frToBe32Packed, List.flatMap_def] at hpacked
        rw [← List.chunks_flatten (by decide) hwords, hpacked,
          List.chunks_flatten (by decide) hsize]
      rw [hcut] at hmem
      obtain ⟨x, _, rfl⟩ := List.mem_map.mp hmem
      have hlt : x.val < frModulus := ZMod.val_lt x
      have hmodulus : frModulus < 256 ^ 32 := by decide
      rw [NonCanonicalWord, frToBe32, List.reverse_reverse, toLeBytes,
        leNat_leBytes (by omega)] at hword
      omega

/-- The commitment names its words as long as Poseidon does not collide on what is hashed,
and packed words are bound as their elements or rejected. -/
theorem calldata_binding_unambiguous (H : Primitives Fr) :
    (∀ words : List Fr, 1 ≤ words.length → words.length ≤ maxCalldataWords →
      ∃ c, calldataCommitment H words = .ok c) ∧
    (∀ words words' : List Fr, ∀ c, calldataCommitment H words = .ok c →
      calldataCommitment H words' = .ok c →
      PoseidonUnambiguous H (calldataCalls H words ++ calldataCalls H words') → words = words') ∧
    (∀ fields : List Fr, bindCalldataPacked H (fields.flatMap frToBe32) = bindCalldata H fields) ∧
    (∀ words : List (List UInt8), (∀ word ∈ words, word.length = 32) →
      (∃ word ∈ words, NonCanonicalWord word) →
      ∃ e, bindCalldataPacked H words.flatten = .error e) := by
  refine ⟨fun words hpos hmax => ⟨_, calldataCommitment_ok.mpr ⟨⟨hpos, hmax⟩, rfl⟩⟩, ?_,
    bindCalldataPacked_packed, fun words => bindCalldataPacked_nonCanonical⟩
  exact fun words words' c hc hc' h => calldataCommitment_inj h hc hc'

/-- Primitives whose hash keeps the state apart. -/
def statePrimitives : Primitives Fr where
  poseidon tuple := ((10000 : ℕ) : Fr) * tuple.headD 0
  sha256 _ := []
  keccak256 _ := []
  frToBe32 := frToBe32
  frFromBeBytesMod _ := 0

theorem statePrimitives_unambiguous : PoseidonUnambiguous statePrimitives
    (calldataCalls statePrimitives [7] ++ calldataCalls statePrimitives [7, 0]) := by
  have hsmall : 20000 < frModulus := by decide
  have hvalues : ∀ a ∈ calldataCalls statePrimitives [7] ++ calldataCalls statePrimitives [7, 0],
      (statePrimitives.poseidon a).val = 10000 ∨ (statePrimitives.poseidon a).val = 20000 := by
    decide
  refine ⟨by decide, fun a ha count _ hmax heq => ?_⟩
  have hstart : (calldataStart statePrimitives count).val = count := by
    have hzero : calldataStart statePrimitives count = (count : Fr) := zero_add _
    rw [maxCalldataWords] at hmax
    rw [hzero, ZMod.val_cast_of_lt (by omega)]
  rw [maxCalldataWords] at hmax
  rcases hvalues a ha with h | h
  · rw [heq, hstart] at h
    omega
  · rw [heq, hstart] at h
    omega

/-- A word and the same word before a zero. -/
theorem calldata_binding_unambiguous_example :
    calldataCommitment statePrimitives [7] ≠ calldataCommitment statePrimitives [7, 0] := by
  intro heq
  have h := calldata_binding_unambiguous statePrimitives
  obtain ⟨c, hc⟩ := h.1 [7] (by decide) (by decide)
  have hsame := h.2.1 [7] [7, 0] c hc (heq.symm.trans hc) statePrimitives_unambiguous
  cases hsame

end Curvy
