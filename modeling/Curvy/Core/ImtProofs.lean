import Curvy.Core.ImtRuns
import Mathlib.Data.Tree.Basic

/-!
# Inclusion proofs

A tree's own proofs verify at its depth. A proof that verifies against its root opens the
padded leaf row at its index, with the tree's siblings, unless the two paths hash two
different pairs to one value.
-/

namespace Curvy

set_option autoImplicit false

open PerfectTree

variable {F : Type} [DecidableEq F] (poseidon : F → F → F)

/-- The loop of `verifyPath` over the node and its index. -/
def verifyPathFrom : F × Nat → List F → F × Nat
  | state, [] => state
  | (node, idx), sib :: siblings =>
    verifyPathFrom
      (if idx % 2 = 0 then poseidon node sib else poseidon sib node, idx >>> 1) siblings

def verifyPath (proof : InclusionProof F) : Bool :=
  let (node, idx) := verifyPathFrom poseidon (proof.leaf, proof.index) proof.siblings
  idx == 0 && node == proof.root

def verifyProofAtDepth (proof : InclusionProof F) (depth : Nat) : Bool :=
  (treeCapacity depth).isOk && proof.siblings.length == depth && verifyPath poseidon proof

variable {poseidon}

omit [DecidableEq F] in
theorem verifyPathFrom_eq (node : F) (idx : Nat) (siblings : List F) :
    verifyPathFrom poseidon (node, idx) siblings =
      (climb poseidon node idx siblings, idx / 2 ^ siblings.length) := by
  induction siblings generalizing node idx with
  | nil => rw [verifyPathFrom, climb_nil, List.length_nil, Nat.pow_zero, Nat.div_one]
  | cons sib siblings ih =>
    rw [verifyPathFrom, ih, climb_cons, List.length_cons, Nat.shiftRight_one, join,
      Nat.pow_succ', Nat.div_div_eq_div_mul]

/-- What the verifier checks. -/
theorem verifyProofAtDepth_eq {proof : InclusionProof F} {depth : Nat} :
    verifyProofAtDepth poseidon proof depth = true ↔ depth < usizeBits ∧
      proof.siblings.length = depth ∧ proof.index < 2 ^ depth ∧
        climb poseidon proof.leaf proof.index proof.siblings = proof.root := by
  have hcapacity : (treeCapacity depth).isOk = true ↔ depth < usizeBits := by
    unfold treeCapacity
    split
    · exact iff_of_true rfl ‹_›
    · exact iff_of_false (fun h => by cases h) ‹_›
  have hindex : proof.index / 2 ^ proof.siblings.length = 0 ↔
      proof.index < 2 ^ proof.siblings.length := by
    rw [Nat.div_eq_zero_iff_lt (Nat.two_pow_pos _)]
  simp only [verifyProofAtDepth, verifyPath, verifyPathFrom_eq, Bool.and_eq_true, beq_iff_eq,
    hcapacity, hindex, and_assoc]
  constructor
  · rintro ⟨hd, rfl, hlt, hroot⟩
    exact ⟨hd, rfl, hlt, hroot⟩
  · rintro ⟨hd, rfl, hlt, hroot⟩
    exact ⟨hd, rfl, hlt, hroot⟩

namespace Imt

/-- The proof opens the padded leaf row of the tree at its index. -/
structure Opens (poseidon : F → F → F) (t : Imt F) (proof : InclusionProof F) : Prop where
  index : proof.index < 2 ^ t.depth
  leaf : proof.leaf = t.leaves.getD proof.index t.zeroLeaf
  siblings : proof.siblings = path poseidon t.zeroLeaf t.leaves t.depth proof.index

section Canon
variable {depth : Nat} {z : F} {leaves : List F}

theorem createProof_verifies (hd : depth < usizeBits) (hle : leaves.length ≤ 2 ^ depth) {i : Nat}
    (hi : i < leaves.length) : ∃ proof, createProof (canon poseidon depth z leaves) i = some proof ∧
      verifyProofAtDepth poseidon proof depth = true := by
  refine ⟨_, createProof_canon poseidon z hle hi, verifyProofAtDepth_eq.mpr ⟨hd, ?_, ?_, ?_⟩⟩
  · exact path_length poseidon z leaves depth i
  · exact Nat.lt_of_lt_of_le hi hle
  · dsimp only
    rw [climb_path, Nat.div_eq_of_lt (Nat.lt_of_lt_of_le hi hle)]

/-- A proof against the root opens the tree, or its path collides with the tree's. -/
theorem verifies_opens (hle : leaves.length ≤ 2 ^ depth) {proof : InclusionProof F}
    (hroot : (canon poseidon depth z leaves).root = some proof.root)
    (hverify : verifyProofAtDepth poseidon proof depth = true) :
    Opens poseidon (canon poseidon depth z leaves) proof ∨
      Collision poseidon proof.index proof.leaf proof.siblings (leaves.getD proof.index z)
        (path poseidon z leaves depth proof.index) := by
  obtain ⟨_, hlength, hindex, hclimb⟩ := verifyProofAtDepth_eq.mp hverify
  rw [canon_root poseidon depth z leaves hle, Option.some.injEq] at hroot
  have hpath := climb_path poseidon z leaves depth proof.index
  rw [Nat.div_eq_of_lt hindex, hroot] at hpath
  have hsiblings : proof.siblings.length = (path poseidon z leaves depth proof.index).length :=
    hlength.trans (path_length poseidon z leaves depth proof.index).symm
  rcases climb_binding poseidon proof.index proof.leaf (leaves.getD proof.index z) proof.siblings _
    hsiblings (hclimb.trans hpath.symm) with ⟨hleaf, hsame⟩ | hcollision
  · left
    refine ⟨hindex, ?_, ?_⟩
    · rw [canon_leaves]
      exact hleaf
    · rw [canon_leaves]
      exact hsame
  · exact .inr hcollision

end Canon

/-- Every tree a run reaches proves its leaves, and over a hash without collisions a proof
that verifies against its root is a proof of the tree. -/
theorem proofs_complete_and_sound (poseidon : F → F → F) {depth : Nat} {z : F}
    {initial : List F} {t₀ t : Imt F} (ops : List (Op F))
    (hstart : fromLeavesWithZero poseidon depth z initial = some t₀)
    (hrun : run poseidon t₀ ops = some t) :
    (∀ i, i < t.leafCount → ∃ proof, createProof t i = some proof ∧
      verifyProofAtDepth poseidon proof t.depth = true) ∧
    ∀ proof : InclusionProof F, t.root = some proof.root →
      verifyProofAtDepth poseidon proof t.depth = true →
        (Opens poseidon t proof ∨ Collision poseidon proof.index proof.leaf proof.siblings
          (t.leaves.getD proof.index t.zeroLeaf)
          (path poseidon t.zeroLeaf t.leaves t.depth proof.index)) ∧
        ((∀ a b c d, poseidon a b = poseidon c d → a = c ∧ b = d) → Opens poseidon t proof) := by
  obtain ⟨hd, hle, rfl⟩ := fromLeavesWithZero_some poseidon hstart
  obtain ⟨rfl, hle'⟩ := run_canon poseidon hd ops hle hrun
  refine ⟨fun i hi => ?_, fun proof hroot hverify => ?_⟩
  · rw [canon_leafCount] at hi
    exact createProof_verifies hd hle' hi
  · have hopens := verifies_opens hle' hroot hverify
    rw [canon_leaves, canon_zeroLeaf, canon_depth]
    refine ⟨hopens, fun hinj => ?_⟩
    rcases hopens with hopens | hcollision
    · exact hopens
    · exact absurd hcollision
        (not_collision_of_injective poseidon (fun {a b c d} => hinj a b c d) _ _ _ _ _)

/-- Over the free hash, on a tree of two leaves below a capacity of four. -/
theorem proofs_complete_and_sound_example : ∃ t : Imt (BinaryTree Unit),
    t.leaves = [.node () .nil .nil, .nil] ∧
      (∃ proof, createProof t 1 = some proof ∧ verifyProofAtDepth (BinaryTree.node ()) proof 2 = true) ∧
      ∀ proof : InclusionProof (BinaryTree Unit), t.root = some proof.root →
        verifyProofAtDepth (BinaryTree.node ()) proof 2 = true → Opens (BinaryTree.node ()) t proof := by
  have h := proofs_complete_and_sound (BinaryTree.node ())
    [.insert (.node () .nil .nil), .insertMany [.nil]]
    (show fromLeavesWithZero _ 2 (.nil : BinaryTree Unit) [] = some _ from rfl) rfl
  refine ⟨_, rfl, h.1 1 (by decide), fun proof hroot hverify => (h.2 proof hroot hverify).2 ?_⟩
  intro a b c d heq
  exact ⟨(BinaryTree.node.inj heq).2.1, (BinaryTree.node.inj heq).2.2⟩

end Imt
end Curvy
