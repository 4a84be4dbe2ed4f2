import Curvy.Core.ImtProofs
import Curvy.Core.PendingWitness

/-!
# The slots of a pending commitment

The working tree of the batch, slot by slot: each row opens the tree of its own slot, and the
last tree is the one a bulk insertion of the non-zero ids makes.
-/

namespace Curvy

set_option autoImplicit false

open Witness (Fr)
open PerfectTree

section Statement
variable (poseidon : Fr → Fr → Fr) (sha256 : List UInt8 → List UInt8)

/-- A slot between the tree before it and the tree behind it. -/
structure SlotProves (before : Imt Fr) (id : Fr) (row : List Fr) (after : Imt Fr) : Prop where
  skipped : id = 0 → after = before ∧ row = List.replicate before.depth 0
  inserted : id ≠ 0 → before.insert poseidon id = some after ∧
    after.leafCount = before.leafCount + 1 ∧ after.leaf before.leafCount = some id ∧
    ∃ root, after.root = some root ∧
      verifyProofAtDepth poseidon ⟨id, before.leafCount, row, root⟩ after.depth = true

/-- The witness `w` of a batch over `tree`, with the trees the builder goes through. -/
structure Consistent (tree : Imt Fr) (padded : List Fr) (w : PendingCommitmentWitness)
    (rows : List (List Fr)) (works : Nat → Imt Fr) : Prop where
  start : works 0 = tree
  passes : ∀ k, k ≤ padded.length →
    witnessSlots poseidon tree.depth (padded.take k) tree [] = some (rows.take k, works k)
  slots : ∀ k id, padded[k]? = some id →
    ∃ row, rows[k]? = some row ∧ SlotProves poseidon (works k) id row (works (k + 1))
  bulk : tree.insertMany poseidon (insertedIds padded) = some (.ok (), works padded.length)
  siblings : w.siblings = rows.map fun row => row.map frToDec
  noteIds : w.pendingNoteIds = padded.map frToDec
  index : w.currentNoteIndex = toString tree.leafCount
  roots : ∃ root newRoot hash, tree.root = some root ∧ (works padded.length).root = some newRoot ∧
    w.currentNotesRoot = frToDec root ∧ w.newNotesRoot = frToDec newRoot ∧
    sha256Bigint sha256 (pendingHashInputs padded root newRoot tree.leafCount
      (works padded.length).leafCount) = some hash ∧ w.inputHash = toString hash

/-- The assertions of the builder. -/
structure Accepted (tree : Imt Fr) (treeDepth batchSize : Nat) (noteIds : List Fr) : Prop where
  batch : batchSize ≤ maxPendingBatchSize
  size : noteIds.length ≤ batchSize
  depth : treeDepth = tree.depth
  room : tree.leafCount + (insertedIds noteIds).length ≤ 2 ^ tree.depth

end Statement

section Slots
variable (poseidon : Fr → Fr → Fr) (sha256 : List UInt8 → List UInt8) {depth : Nat}
variable (z : Fr) (leaves padded : List Fr)

/-- The leaves behind the first `k` slots. -/
def slotLeaves (k : Nat) : List Fr := leaves ++ insertedIds (padded.take k)

variable {z leaves padded}

theorem slotLeaves_zero : slotLeaves leaves padded 0 = leaves := by
  rw [slotLeaves, List.take_zero, insertedIds, List.filter_nil, List.append_nil]

variable (leaves) in
theorem slotLeaves_succ {k : Nat} {id : Fr} (h : padded[k]? = some id) :
    slotLeaves leaves padded (k + 1) =
      if id = 0 then slotLeaves leaves padded k else slotLeaves leaves padded k ++ [id] := by
  unfold slotLeaves
  rw [List.take_add_one, h, Option.toList_some, insertedIds, List.filter_append, ← insertedIds]
  split
  · rename_i hid
    rw [hid]
    simp
  · rename_i hid
    rw [List.filter_cons_of_pos (by simpa using hid), List.filter_nil, List.append_assoc]

theorem slotLeaves_all : slotLeaves leaves padded padded.length = leaves ++ insertedIds padded := by
  rw [slotLeaves, List.take_length]

variable (leaves padded) in
theorem slotLeaves_length_le (k : Nat) :
    (slotLeaves leaves padded k).length ≤ leaves.length + (insertedIds padded).length := by
  rw [slotLeaves, List.length_append]
  exact Nat.add_le_add_left ((List.take_sublist k padded).filter _).length_le _

variable (z leaves padded) in
theorem slotRows_take (k : Nat) :
    slotRows poseidon z depth leaves (padded.take k) = (slotRows poseidon z depth leaves padded).take k := by
  induction padded generalizing leaves k with
  | nil => rw [List.take_nil, slotRows, List.take_nil]
  | cons id ids ih =>
    cases k with
    | zero => rfl
    | succ k =>
      rw [List.take_succ_cons, slotRows, slotRows]
      by_cases hid : id = 0
      · rw [if_pos hid, if_pos hid, List.take_succ_cons, ih]
      · rw [if_neg hid, if_neg hid, List.take_succ_cons, ih]

/-- The row of one slot. -/
theorem slotRows_getElem? {k : Nat} {id : Fr} (h : padded[k]? = some id) :
    (slotRows poseidon z depth leaves padded)[k]? = some (if id = 0 then List.replicate depth 0
      else path poseidon z (slotLeaves leaves padded k ++ [id]) depth
        (slotLeaves leaves padded k).length) := by
  induction padded generalizing leaves k with
  | nil => cases h
  | cons first ids ih =>
    cases k with
    | zero =>
      obtain rfl : first = id := Option.some_inj.mp h
      rw [slotRows, slotLeaves_zero]
      split <;> rfl
    | succ k =>
      rw [List.getElem?_cons_succ] at h
      by_cases hfirst : first = 0
      · have hleaves : slotLeaves leaves (first :: ids) (k + 1) = slotLeaves leaves ids k := by
          rw [slotLeaves, List.take_succ_cons, hfirst, insertedIds_cons_zero, slotLeaves]
        rw [slotRows, if_pos hfirst, List.getElem?_cons_succ, hleaves]
        exact ih h
      · have hleaves : slotLeaves leaves (first :: ids) (k + 1) = slotLeaves (leaves ++ [first]) ids k := by
          rw [slotLeaves, List.take_succ_cons, insertedIds_cons hfirst, slotLeaves, List.append_assoc]
          rfl
        rw [slotRows, if_neg hfirst, List.getElem?_cons_succ, hleaves]
        exact ih h

/-- A row opens the tree behind its slot. -/
theorem slot_proves (hd : depth < usizeBits)
    (hroom : leaves.length + (insertedIds padded).length ≤ 2 ^ depth) {k : Nat} {id : Fr}
    (hid : padded[k]? = some id) :
    ∃ row, (slotRows poseidon z depth leaves padded)[k]? = some row ∧
      SlotProves poseidon (Imt.canon poseidon depth z (slotLeaves leaves padded k)) id row
        (Imt.canon poseidon depth z (slotLeaves leaves padded (k + 1))) := by
  have hnext := slotLeaves_succ leaves hid
  have hle := slotLeaves_length_le leaves padded (k + 1)
  refine ⟨_, slotRows_getElem? poseidon hid, ?_, ?_⟩
  · intro hzero
    rw [if_pos hzero] at hnext
    rw [hnext, if_pos hzero]
    exact ⟨rfl, rfl⟩
  · intro hzero
    rw [if_neg hzero] at hnext
    rw [hnext, List.length_append, List.length_singleton] at hle
    have hlt : (slotLeaves leaves padded k).length < (slotLeaves leaves padded k ++ [id]).length := by
      rw [List.length_append, List.length_singleton]
      omega
    have hfits : (slotLeaves leaves padded k ++ [id]).length ≤ 2 ^ depth := by
      rw [List.length_append, List.length_singleton]
      omega
    have hlast : (slotLeaves leaves padded k ++ [id]).getD (slotLeaves leaves padded k).length z = id := by
      rw [List.getD_eq_getElem?_getD, List.getElem?_concat_length]
      rfl
    obtain ⟨proof, hproof, hverifies⟩ := Imt.createProof_verifies (z := z) hd hfits hlt
    rw [Imt.createProof_canon poseidon z hfits hlt, Option.some.injEq] at hproof
    rw [← hproof, hlast] at hverifies
    rw [hnext, if_neg hzero]
    refine ⟨Imt.insert_canon poseidon hd z id (by omega), ?_, ?_, _,
      Imt.canon_root poseidon _ _ _ hfits, ?_⟩
    · rw [Imt.canon_leafCount, Imt.canon_leafCount, List.length_append, List.length_singleton]
    · rw [Imt.leaf, Imt.canon_leaves, Imt.canon_leafCount, List.getElem?_concat_length]
    · rw [Imt.canon_leafCount]
      exact hverifies

/-- The witness of a history is consistent with its tree. -/
theorem historyWitness_consistent (hd : depth < usizeBits) (hle : leaves.length ≤ 2 ^ depth)
    (hroom : leaves.length + (insertedIds padded).length ≤ 2 ^ depth) :
    Consistent poseidon sha256 (Imt.canon poseidon depth z leaves) padded
      (historyWitness poseidon sha256 z depth leaves padded) (slotRows poseidon z depth leaves padded)
      fun k => Imt.canon poseidon depth z (slotLeaves leaves padded k) where
  start := by rw [slotLeaves_zero]
  passes := by
    intro k _
    have htake : leaves.length + (insertedIds (padded.take k)).length ≤ 2 ^ depth := by
      have hprefix := slotLeaves_length_le leaves padded k
      rw [slotLeaves, List.length_append] at hprefix
      omega
    rw [Imt.canon_depth, witnessSlots_canon poseidon z hd _ leaves [] htake, slotRows_take, List.nil_append,
      slotLeaves]
  slots := fun _ _ hid => slot_proves poseidon hd hroom hid
  bulk := by
    have hbulk := Imt.insertMany_canon poseidon hd z leaves (insertedIds padded)
    rw [if_neg (by omega)] at hbulk
    rw [slotLeaves_all]
    exact hbulk
  siblings := rfl
  noteIds := rfl
  index := by
    rw [Imt.canon_leafCount]
    rfl
  roots := by
    have hend : (leaves ++ insertedIds padded).length ≤ 2 ^ depth := by
      rw [List.length_append]
      exact hroom
    rw [slotLeaves_all, Imt.canon_leafCount, Imt.canon_leafCount]
    exact ⟨_, _, _, Imt.canon_root poseidon _ _ _ hle, Imt.canon_root poseidon _ _ _ hend, rfl, rfl,
      historyHash_eq poseidon sha256 z leaves hd padded hroom, rfl⟩

/-- The builder returns exactly when its assertions hold. -/
theorem buildPendingCommitment_spec (hd : depth < usizeBits) (hle : leaves.length ≤ 2 ^ depth)
    (treeDepth batchSize : Nat) (noteIds : List Fr) :
    (Accepted (Imt.canon poseidon depth z leaves) treeDepth batchSize noteIds ∧ ∃ w rows works,
        buildPendingCommitment poseidon sha256 (Imt.canon poseidon depth z leaves) treeDepth batchSize
          noteIds = some w ∧
        Consistent poseidon sha256 (Imt.canon poseidon depth z leaves) (padNoteIds batchSize noteIds) w
          rows works) ∨
      (¬ Accepted (Imt.canon poseidon depth z leaves) treeDepth batchSize noteIds ∧
        buildPendingCommitment poseidon sha256 (Imt.canon poseidon depth z leaves) treeDepth batchSize
          noteIds = none) := by
  by_cases haccepted : Accepted (Imt.canon poseidon depth z leaves) treeDepth batchSize noteIds
  · refine .inl ⟨haccepted, ?_⟩
    obtain ⟨hbatch, hsize, hdepth, hroom⟩ := haccepted
    rw [Imt.canon_leafCount, Imt.canon_depth] at hroom
    rw [hdepth, Imt.canon_depth]
    have hpadded : leaves.length + (insertedIds (padNoteIds batchSize noteIds)).length ≤ 2 ^ depth := by
      rw [insertedIds_padded hsize]
      exact hroom
    exact ⟨_, _, _, buildPendingCommitment_canon hd hle hbatch hsize hroom,
      historyWitness_consistent poseidon sha256 hd hle hpadded⟩
  · refine .inr ⟨haccepted, ?_⟩
    by_contra hsome
    obtain ⟨w, hw⟩ := Option.ne_none_iff_exists'.mp hsome
    obtain ⟨_, hbatch, hw⟩ := Option.bind_eq_some_iff.mp hw
    obtain ⟨_, hsize, hw⟩ := Option.bind_eq_some_iff.mp hw
    obtain ⟨_, hdepth, hw⟩ := Option.bind_eq_some_iff.mp hw
    obtain ⟨capacity, hcapacity, hw⟩ := Option.bind_eq_some_iff.mp hw
    obtain ⟨_, hfits, hw⟩ := Option.bind_eq_some_iff.mp hw
    obtain ⟨_, hcount, hw⟩ := Option.bind_eq_some_iff.mp hw
    rw [Option.guard_eq_some'] at hbatch hsize hdepth hfits hcount
    rw [Imt.capacity, Imt.canon_depth, treeCapacity_ok hd, Except.toOption, Option.some.injEq] at hcapacity
    refine haccepted ⟨hbatch, hsize, hdepth, ?_⟩
    rw [Imt.canon_depth, hcapacity]
    omega

end Slots

/-- Over every tree the code can build: a batch is refused by an assertion, or its witness is
consistent with the tree. -/
theorem pending_rows_consistent (poseidon : Fr → Fr → Fr) (sha256 : List UInt8 → List UInt8) {depth : Nat}
    {z : Fr} {initial : List Fr} {t₀ tree : Imt Fr} {ops : List (Imt.Op Fr)}
    (hstart : Imt.fromLeavesWithZero poseidon depth z initial = some t₀)
    (hrun : Imt.run poseidon t₀ ops = some tree) (treeDepth batchSize : Nat) (noteIds : List Fr) :
    (Accepted tree treeDepth batchSize noteIds ∧ ∃ w rows works,
        buildPendingCommitment poseidon sha256 tree treeDepth batchSize noteIds = some w ∧
        Consistent poseidon sha256 tree (padNoteIds batchSize noteIds) w rows works) ∨
      (¬ Accepted tree treeDepth batchSize noteIds ∧
        buildPendingCommitment poseidon sha256 tree treeDepth batchSize noteIds = none) := by
  obtain ⟨hd, hle, rfl⟩ := Imt.fromLeavesWithZero_some poseidon hstart
  obtain ⟨rfl, hle'⟩ := Imt.run_canon poseidon hd ops hle hrun
  exact buildPendingCommitment_spec poseidon sha256 hd hle' treeDepth batchSize noteIds

/-- A batch with a skipped slot between two ids, behind one leaf. -/
theorem pending_rows_consistent_example : ∃ tree w rows works,
    Imt.fromLeavesWithZero (fun a b : Fr => 2 * a + 3 * b + 1) 3 0 [4] = some tree ∧
      buildPendingCommitment (fun a b : Fr => 2 * a + 3 * b + 1) (List.take 32) tree 3 4 [5, 0, 6] =
        some w ∧
      Consistent (fun a b : Fr => 2 * a + 3 * b + 1) (List.take 32) tree [5, 0, 6, 0] w rows works := by
  have hstart : Imt.fromLeavesWithZero (fun a b : Fr => 2 * a + 3 * b + 1) 3 0 [4] = some _ :=
    Imt.fromLeavesWithZero_eq _ (by decide) 0 (by decide)
  have hrun : ∀ tree, Imt.run (fun a b : Fr => 2 * a + 3 * b + 1) tree [] = some tree := fun _ => rfl
  rcases pending_rows_consistent (fun a b : Fr => 2 * a + 3 * b + 1) (List.take 32) hstart (hrun _)
    3 4 [5, 0, 6] with ⟨-, w, rows, works, hbuild, hconsistent⟩ | ⟨hrefused, -⟩
  · exact ⟨_, w, rows, works, hstart, hbuild, hconsistent⟩
  · exact absurd ⟨by decide, by decide, rfl, by decide⟩ hrefused

end Curvy
