import Curvy.Core.Field
import Curvy.Lib.Loop
import Mathlib.Algebra.BigOperators.Group.Finset.Basic
import Mathlib.Algebra.BigOperators.Ring.Finset
import Mathlib.Algebra.Ring.Basic

/-!
# The calldata binding

A list of words, the Poseidon commitment to it, the challenge derived from both and the
words evaluated at the challenge. The hashes and the byte forms of a field element are
parameters.
-/

namespace Curvy

set_option autoImplicit false

structure Primitives (F : Type) where
  poseidon : List F → F
  sha256 : List UInt8 → List UInt8
  keccak256 : List UInt8 → List UInt8
  frToBe32 : F → List UInt8
  frFromBeBytesMod : List UInt8 → F

/-- The two-to-one hash of the trees. -/
def Primitives.poseidonPair {F : Type} (H : Primitives F) (left right : F) : F :=
  H.poseidon [left, right]

structure CalldataBinding (F : Type) where
  commitment : F
  y : F
  x : F
  deriving DecidableEq, Repr

inductive CalldataError where
  | noWords
  | tooManyWords (count : Nat)
  | packedWords (error : PackedFieldsError)
  deriving DecidableEq, Repr

def calldataCommitmentTag : List UInt8 := "curvy.calldata.commitment.v1".toUTF8.toList

def calldataWordsPerHash : Nat := 15

def maxCalldataWords : Nat := 8192

section Definitions
variable {F : Type} [CommRing F] (H : Primitives F)

def checkWordCount {F : Type} (words : List F) : Except CalldataError Unit :=
  if words.length = 0 then .error .noWords
  else if maxCalldataWords < words.length then .error (.tooManyWords words.length)
  else .ok ()

def calldataCommitmentDomain {F : Type} (H : Primitives F) : F :=
  H.frFromBeBytesMod (H.sha256 calldataCommitmentTag)

/-- One Poseidon call: the state, the chunk and zeros up to the fixed width. -/
def absorb (state : F) (chunk : List F) : F :=
  H.poseidon (state :: chunk ++ List.replicate (calldataWordsPerHash - chunk.length) 0)

def calldataCommitment (words : List F) : Except CalldataError F := do
  checkWordCount words
  return (words.chunks calldataWordsPerHash).foldl (absorb H)
    (calldataCommitmentDomain H + (words.length : F))

def calldataChallenge {F : Type} (H : Primitives F) (words : List F) (commitment : F) :
    Except CalldataError F := do
  checkWordCount words
  return H.frFromBeBytesMod
    (H.keccak256 (words.flatMap H.frToBe32 ++ H.frToBe32 commitment))

def calldataEvaluation (words : List F) (x : F) : F :=
  words.reverse.foldl (fun accumulator word => accumulator * x + word) 0

def bindCalldata (words : List F) : Except CalldataError (CalldataBinding F) := do
  let commitment ← calldataCommitment H words
  let x ← calldataChallenge H words commitment
  return { commitment, y := calldataEvaluation words x, x }

/-! ### What the binding says -/

/-- The state after `k` calls, each over the next fifteen words or zeros past the end. -/
def calldataChain (words : List F) : Nat → F
  | 0 => calldataCommitmentDomain H + (words.length : F)
  | k + 1 => H.poseidon (calldataChain words k ::
      List.tabulate calldataWordsPerHash fun j => words.getD (k * calldataWordsPerHash + j) 0)

/-- The binding of `words`: the chained commitment, the challenge over words and
commitment, and the polynomial with these coefficients at the challenge. -/
structure Binds (words : List F) (b : CalldataBinding F) : Prop where
  commitment : b.commitment =
    calldataChain H words ((words.length + (calldataWordsPerHash - 1)) / calldataWordsPerHash)
  x : b.x = H.frFromBeBytesMod
    (H.keccak256 (words.flatMap H.frToBe32 ++ H.frToBe32 b.commitment))
  y : b.y = ∑ i ∈ Finset.range words.length, words.getD i 0 * b.x ^ i

end Definitions

variable {F : Type} [CommRing F] {H : Primitives F} {words : List F}

theorem calldataEvaluation_eq (words : List F) (x : F) :
    calldataEvaluation words x = ∑ i ∈ Finset.range words.length, words.getD i 0 * x ^ i := by
  unfold calldataEvaluation
  rw [List.foldl_reverse]
  induction words with
  | nil => simp
  | cons word words ih =>
    rw [List.foldr_cons, ih, List.length_cons, Finset.sum_range_succ', Finset.sum_mul]
    simp only [List.getD_cons_succ, List.getD_cons_zero, pow_succ, pow_zero, mul_one, mul_assoc]

theorem padded_chunk (words : List F) (k : Nat) :
    (words.drop (k * calldataWordsPerHash)).take calldataWordsPerHash ++
        List.replicate (calldataWordsPerHash -
          ((words.drop (k * calldataWordsPerHash)).take calldataWordsPerHash).length) 0 =
      List.tabulate calldataWordsPerHash fun j =>
        words.getD (k * calldataWordsPerHash + j) 0 := by
  apply List.ext_getElem
  · simp
  · intro j _ hj
    rw [List.tabulate_length] at hj
    rw [List.tabulate_getElem, List.getD_eq_getElem?_getD, List.getElem_append]
    split
    · rename_i hlt
      rw [List.getElem_take, List.getElem_drop, List.getElem?_eq_getElem, Option.getD_some]
    · rename_i hge
      simp only [List.length_take, List.length_drop, not_lt] at hge
      rw [List.getElem_replicate, List.getElem?_eq_none (by omega), Option.getD_none]

theorem foldl_absorb (words : List F) {k : Nat}
    (hk : k ≤ (words.chunks calldataWordsPerHash).length) :
    ((words.chunks calldataWordsPerHash).take k).foldl (absorb H)
      (calldataCommitmentDomain H + (words.length : F)) = calldataChain H words k := by
  have hsize : 0 < calldataWordsPerHash := by decide
  induction k with
  | zero => rfl
  | succ k ih =>
    have hstart : k * calldataWordsPerHash < words.length := by
      rw [List.length_chunks hsize] at hk
      have := (Nat.le_div_iff_mul_le hsize).mp hk
      rw [Nat.succ_mul] at this
      omega
    have hget := List.getElem?_chunks hsize words hstart
    rw [List.take_add_one, hget, Option.toList_some, List.foldl_append, ih (by omega),
      List.foldl_cons, List.foldl_nil, absorb, List.cons_append, padded_chunk, calldataChain]

/-- Words within the count bounds always bind. -/
theorem bindCalldata_spec (hpos : words.length ≠ 0) (hmax : words.length ≤ maxCalldataWords) :
    ∃ b, bindCalldata H words = .ok b ∧ Binds H words b := by
  have hcount : checkWordCount words = .ok () := by
    rw [checkWordCount, if_neg hpos, if_neg (by omega)]
  refine ⟨_, by simp only [bindCalldata, calldataCommitment, calldataChallenge, hcount]; rfl, ?_⟩
  refine ⟨?_, rfl, calldataEvaluation_eq words _⟩
  have hfold := foldl_absorb (H := H) words (le_refl _)
  rw [List.take_length, List.length_chunks (by decide)] at hfold
  exact hfold

end Curvy
