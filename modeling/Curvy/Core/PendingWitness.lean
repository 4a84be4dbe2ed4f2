import Curvy.Core.BoundPending

/-!
# The pending commitment of the SHA-256 circuit

The core builder appends a batch to a copy of the flat tree, slot by slot, and records the
siblings of each new leaf as it is appended; a zero id is a slot without a leaf.
-/

namespace Curvy

set_option autoImplicit false

open Witness (Fr frModulus)
open PerfectTree

def frToBiguint (x : Fr) : Nat := x.val

def frToDec (x : Fr) : String := toString (frToBiguint x)

/-- Panics on a value of more than 32 bytes. -/
def biguintToBe32 (value : Nat) : Option (List UInt8) :=
  if value < 256 ^ 32 then some (beBytes 32 value) else none

def sha256Bigint (sha256 : List UInt8 → List UInt8) (inputs : List Nat) : Option Nat := do
  let words ← inputs.mapM biguintToBe32
  some (beNat (sha256 words.flatten))

structure PendingCommitmentWitness where
  currentNoteIndex : String
  inputHash : String
  currentNotesRoot : String
  pendingNoteIds : List String
  siblings : List (List String)
  newNotesRoot : String
  deriving DecidableEq, Repr

/-- What the input hash covers. -/
def pendingHashInputs (padded : List Fr) (currentNotesRoot newNotesRoot : Fr)
    (currentNoteIndex newNoteIndex : Nat) : List Nat :=
  padded.map frToBiguint ++
    [frToBiguint currentNotesRoot, frToBiguint newNotesRoot, currentNoteIndex, newNoteIndex]

/-- `resize` of the batch with zeros. -/
def padNoteIds (batchSize : Nat) (noteIds : List Fr) : List Fr :=
  noteIds.take batchSize ++ List.replicate (batchSize - noteIds.length) 0

/-- The slots that take a leaf. -/
def insertedIds (noteIds : List Fr) : List Fr := noteIds.filter (· ≠ 0)

section Definitions
variable (poseidon : Fr → Fr → Fr) (sha256 : List UInt8 → List UInt8)

/-- The loop over the padded batch. -/
def witnessSlots (treeDepth : Nat) :
    List Fr → Imt Fr → List (List Fr) → Option (List (List Fr) × Imt Fr)
  | [], work, siblings => some (siblings, work)
  | id :: ids, work, siblings =>
    if id = 0 then witnessSlots treeDepth ids work (siblings ++ [List.replicate treeDepth 0])
    else do
      let work ← work.insert poseidon id
      let proof ← work.createProof (work.leafCount - 1)
      witnessSlots treeDepth ids work (siblings ++ [proof.siblings])

/-- `none` is a panic: a batch or a tree the builder is not meant for. -/
def buildPendingCommitment (tree : Imt Fr) (treeDepth batchSize : Nat) (pendingNoteIds : List Fr) :
    Option PendingCommitmentWitness := do
  guard (batchSize ≤ maxPendingBatchSize)
  guard (pendingNoteIds.length ≤ batchSize)
  guard (treeDepth = tree.depth)
  let capacity ← tree.capacity.toOption
  guard (tree.leafCount ≤ capacity)
  guard ((insertedIds pendingNoteIds).length ≤ capacity - tree.leafCount)
  let currentNotesRoot ← tree.root
  let currentNoteIndex := tree.leafCount
  let padded := padNoteIds batchSize pendingNoteIds
  let (siblings, work) ← witnessSlots poseidon treeDepth padded tree []
  let newNotesRoot ← work.root
  let newNoteIndex := work.leafCount
  let inputHash ← sha256Bigint sha256
    (pendingHashInputs padded currentNotesRoot newNotesRoot currentNoteIndex newNoteIndex)
  some {
    currentNoteIndex := toString currentNoteIndex
    inputHash := toString inputHash
    currentNotesRoot := frToDec currentNotesRoot
    pendingNoteIds := padded.map frToDec
    siblings := siblings.map fun row => row.map frToDec
    newNotesRoot := frToDec newNotesRoot }

end Definitions

/-! ### Over a leaf history -/

section History
variable (poseidon : Fr → Fr → Fr) (sha256 : List UInt8 → List UInt8) (z : Fr)

/-- The sibling rows of a batch appended behind `leaves`. -/
def slotRows (depth : Nat) : List Fr → List Fr → List (List Fr)
  | _, [] => []
  | leaves, id :: ids =>
    if id = 0 then List.replicate depth 0 :: slotRows depth leaves ids
    else path poseidon z (leaves ++ [id]) depth leaves.length :: slotRows depth (leaves ++ [id]) ids

def historyRoot (depth : Nat) (leaves : List Fr) : Fr := node poseidon z leaves depth 0

def historyHash (depth : Nat) (leaves padded : List Fr) : Nat :=
  beNat (sha256 ((pendingHashInputs padded (historyRoot poseidon z depth leaves)
    (historyRoot poseidon z depth (leaves ++ insertedIds padded)) leaves.length
    (leaves ++ insertedIds padded).length).flatMap (beBytes 32)))

/-- What a batch commits to behind `leaves`. -/
def historyWitness (depth : Nat) (leaves padded : List Fr) : PendingCommitmentWitness where
  currentNoteIndex := toString leaves.length
  inputHash := toString (historyHash poseidon sha256 z depth leaves padded)
  currentNotesRoot := frToDec (historyRoot poseidon z depth leaves)
  pendingNoteIds := padded.map frToDec
  siblings := (slotRows poseidon z depth leaves padded).map fun row => row.map frToDec
  newNotesRoot := frToDec (historyRoot poseidon z depth (leaves ++ insertedIds padded))

variable {poseidon sha256 z} {depth : Nat} {leaves : List Fr}

theorem insertedIds_cons_zero (ids : List Fr) : insertedIds (0 :: ids) = insertedIds ids := by
  unfold insertedIds
  rw [List.filter_cons_of_neg (by simp)]

theorem insertedIds_cons {id : Fr} (h : id ≠ 0) (ids : List Fr) :
    insertedIds (id :: ids) = id :: insertedIds ids := by
  unfold insertedIds
  rw [List.filter_cons_of_pos (by simpa using h)]

theorem padNoteIds_eq {batchSize : Nat} {noteIds : List Fr} (h : noteIds.length ≤ batchSize) :
    padNoteIds batchSize noteIds = noteIds ++ List.replicate (batchSize - noteIds.length) 0 := by
  rw [padNoteIds, List.take_of_length_le h]

/-- Padding adds no leaf. -/
theorem insertedIds_padded {batchSize : Nat} {noteIds : List Fr} (h : noteIds.length ≤ batchSize) :
    insertedIds (padNoteIds batchSize noteIds) = insertedIds noteIds := by
  have hzeros : insertedIds (List.replicate (batchSize - noteIds.length) (0 : Fr)) = [] := by
    apply List.filter_eq_nil_iff.mpr
    intro x hx
    rw [List.eq_of_mem_replicate hx]
    simp
  rw [padNoteIds_eq h, insertedIds, List.filter_append, ← insertedIds, ← insertedIds, hzeros,
    List.append_nil]

theorem frToBiguint_lt (x : Fr) : frToBiguint x < 256 ^ 32 :=
  Nat.lt_of_lt_of_le (ZMod.val_lt x) (by decide)

theorem sha256Bigint_eq {inputs : List Nat} (h : ∀ value ∈ inputs, value < 256 ^ 32) :
    sha256Bigint sha256 inputs = some (beNat (sha256 (inputs.flatMap (beBytes 32)))) := by
  have hwords : inputs.mapM biguintToBe32 = some (inputs.map (beBytes 32)) := by
    induction inputs with
    | nil => rfl
    | cons value inputs ih =>
      obtain ⟨hvalue, hrest⟩ := List.forall_mem_cons.mp h
      rw [List.mapM_cons, ih hrest, biguintToBe32, if_pos hvalue]
      rfl
  rw [sha256Bigint, hwords, List.flatMap_def]
  rfl

theorem pendingHashInputs_lt {padded : List Fr} {root root' : Fr} {index index' : Nat}
    (hindex : index < 256 ^ 32) (hindex' : index' < 256 ^ 32) :
    ∀ value ∈ pendingHashInputs padded root root' index index', value < 256 ^ 32 := by
  intro value hvalue
  unfold pendingHashInputs at hvalue
  rcases List.mem_append.mp hvalue with hvalue | hvalue
  · obtain ⟨x, -, rfl⟩ := List.mem_map.mp hvalue
    exact frToBiguint_lt x
  · simp only [List.mem_cons, List.not_mem_nil, or_false] at hvalue
    rcases hvalue with rfl | rfl | rfl | rfl
    · exact frToBiguint_lt root
    · exact frToBiguint_lt root'
    · exact hindex
    · exact hindex'

variable (poseidon sha256 z leaves) in
theorem historyHash_eq (hd : depth < usizeBits) (padded : List Fr)
    (hroom : leaves.length + (insertedIds padded).length ≤ 2 ^ depth) :
    sha256Bigint sha256 (pendingHashInputs padded (node poseidon z leaves depth 0)
        (node poseidon z (leaves ++ insertedIds padded) depth 0) leaves.length
        (leaves ++ insertedIds padded).length) =
      some (historyHash poseidon sha256 z depth leaves padded) := by
  have hwidth : 2 ^ depth < 256 ^ 32 :=
    Nat.lt_trans (Nat.pow_lt_pow_right (by decide) hd) (by decide)
  have hlength : (leaves ++ insertedIds padded).length ≤ 2 ^ depth := by
    rw [List.length_append]
    exact hroom
  exact sha256Bigint_eq (pendingHashInputs_lt (by omega) (by omega))

variable (poseidon z) in
theorem witnessSlots_canon (hd : depth < usizeBits) (ids : List Fr) :
    ∀ (leaves : List Fr) (siblings : List (List Fr)),
      leaves.length + (insertedIds ids).length ≤ 2 ^ depth →
      witnessSlots poseidon depth ids (Imt.canon poseidon depth z leaves) siblings =
        some (siblings ++ slotRows poseidon z depth leaves ids,
          Imt.canon poseidon depth z (leaves ++ insertedIds ids)) := by
  induction ids with
  | nil =>
    intro leaves siblings _
    rw [witnessSlots, slotRows, List.append_nil, insertedIds, List.filter_nil, List.append_nil]
  | cons id ids ih =>
    intro leaves siblings hfits
    unfold witnessSlots slotRows
    by_cases hzero : id = 0
    · subst hzero
      rw [insertedIds_cons_zero] at hfits ⊢
      rw [if_pos rfl, if_pos rfl, ih leaves _ hfits, List.append_assoc]
      rfl
    · rw [insertedIds_cons hzero, List.length_cons] at hfits
      have hlength : (leaves ++ [id]).length = leaves.length + 1 := by simp
      have hlast : (Imt.canon poseidon depth z (leaves ++ [id])).leafCount - 1 = leaves.length := by
        rw [Imt.canon_leafCount, hlength]
        omega
      rw [if_neg hzero, if_neg hzero, insertedIds_cons hzero,
        Imt.insert_canon poseidon hd z id (by omega)]
      simp only [Option.bind_eq_bind, Option.bind_some, hlast]
      rw [Imt.createProof_canon poseidon z (by omega) (by omega), Option.bind_some,
        ih (leaves ++ [id]) _ (by omega), List.append_assoc, List.append_assoc]
      rfl

/-- The core builder over the flat tree of a history. -/
theorem buildPendingCommitment_canon (hd : depth < usizeBits) (hle : leaves.length ≤ 2 ^ depth)
    {batchSize : Nat} {noteIds : List Fr} (hbatch : batchSize ≤ maxPendingBatchSize)
    (hsize : noteIds.length ≤ batchSize)
    (hroom : leaves.length + (insertedIds noteIds).length ≤ 2 ^ depth) :
    buildPendingCommitment poseidon sha256 (Imt.canon poseidon depth z leaves) depth batchSize noteIds =
      some (historyWitness poseidon sha256 z depth leaves (padNoteIds batchSize noteIds)) := by
  have hinserted := insertedIds_padded hsize
  have hslots := witnessSlots_canon poseidon z hd (padNoteIds batchSize noteIds) leaves []
    (by rw [hinserted]; exact hroom)
  have hlength : (leaves ++ insertedIds noteIds).length ≤ 2 ^ depth := by
    rw [List.length_append]
    exact hroom
  have hcount : (insertedIds noteIds).length ≤ 2 ^ depth - leaves.length := by omega
  have hhash := historyHash_eq poseidon sha256 z leaves hd (padNoteIds batchSize noteIds)
    (by rw [hinserted]; exact hroom)
  rw [hinserted] at hhash
  unfold buildPendingCommitment
  simp only [guard, if_pos hbatch, if_pos hsize, Imt.canon_depth, if_true, Imt.capacity,
    treeCapacity_ok hd, Except.toOption, Imt.canon_leafCount, if_pos hle, if_pos hcount,
    Option.bind_eq_bind, Option.bind_some, Option.pure_def, Imt.canon_root poseidon _ _ _ hle, hslots,
    hinserted, Imt.canon_root poseidon _ _ _ hlength, List.nil_append, hhash, historyWitness,
    historyRoot]

end History

end Curvy
