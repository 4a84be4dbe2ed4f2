import Mathlib.Data.Nat.Bitwise
import Curvy.Core.ImtRows
import Curvy.Lib.Chunks

/-!
# The stateless sharded tree

The root and the witnesses of the flat tree, from the roots of its shards and a cap over them.
The zero of the cap is the root of an empty shard.
-/

namespace Curvy

set_option autoImplicit false

open PerfectTree List

section Definitions
variable {F : Type} [Zero F] (poseidon : F → F → F)

/-- The cap level 0. -/
def shardRoots (leaves : List F) (shardHeight : Nat) : Option (List F) := do
  guard (shardHeight < usizeBits)
  (leaves.chunks (2 ^ shardHeight)).mapM fun chunk => do
    (← Imt.fromLeaves poseidon shardHeight chunk).root

/-- One round of the cap; the zero is read only for a missing right neighbour. -/
def capLevel (z : List F) (h : Nat) : List F → Option (List F)
  | [] => some []
  | [left] => do some [poseidon left (← z[h]?)]
  | left :: right :: level => do some (poseidon left right :: (← capLevel z h level))

def capLevels (shardRoots z : List F) (shardHeight capDepth : Nat) : Option (List (List F)) :=
  (List.range capDepth).foldlM (fun levels k => do
    let level ← levels[k]?
    some (levels ++ [← capLevel poseidon z (shardHeight + k) level])) [shardRoots]

def shardedRoot (leaves : List F) (depth shardHeight : Nat) : Option F := do
  let z := zeroRoots poseidon depth
  guard (shardHeight ≤ depth)
  let capDepth := depth - shardHeight
  let levels ← capLevels poseidon (← shardRoots poseidon leaves shardHeight) z shardHeight capDepth
  let top ← levels[capDepth]?
  if top.isEmpty then z[depth]? else top[0]?

/-- One level of the cap path; the state is the siblings so far and the index in the row. -/
def capSibling (levels : List (List F)) (z : List F) (shardHeight : Nat) (s : List F × Nat) (k : Nat) :
    Option (List F × Nat) := do
  let row ← levels[k]?
  let sib := s.2 ^^^ 1
  let sibling ← (if sib < row.length then row[sib]? else z[shardHeight + k]?)
  some (s.1 ++ [sibling], s.2 >>> 1)

def shardedWitness (leaves : List F) (leafIndex depth shardHeight : Nat) :
    Option (InclusionProof F) := do
  let z := zeroRoots poseidon depth
  guard (shardHeight < usizeBits)
  let shardSize := 2 ^ shardHeight
  guard (shardHeight ≤ depth)
  let capDepth := depth - shardHeight
  let shardIndex := leafIndex >>> shardHeight
  let withinIndex := leafIndex &&& (shardSize - 1)
  let shardStart := shardIndex * shardSize
  guard (shardStart + shardSize ≤ usizeMax)
  let shardEnd := min (shardStart + shardSize) leaves.length
  guard (shardStart ≤ shardEnd)
  let shardLeaves := (leaves.drop shardStart).take (shardEnd - shardStart)
  let proof ← (← Imt.fromLeaves poseidon shardHeight shardLeaves).createProof withinIndex
  let levels ← capLevels poseidon (← shardRoots poseidon leaves shardHeight) z shardHeight capDepth
  let (siblings, _) ← (List.range capDepth).foldlM (capSibling levels z shardHeight)
    (proof.siblings, shardIndex)
  let top ← levels[capDepth]?
  some {
    leaf := ← leaves[leafIndex]?
    index := leafIndex
    siblings
    root := ← (if top.isEmpty then z[depth]? else top[0]?) }

end Definitions

section Flat
variable {F : Type} [Zero F] (poseidon : F → F → F) {depth shardHeight : Nat}

omit [Zero F] in
theorem length_chunks_width (leaves : List F) (h : Nat) :
    (leaves.chunks (2 ^ h)).length = width leaves.length h := by
  have hpos := Nat.two_pow_pos h
  apply eq_width
  intro i
  rw [List.length_chunks hpos, Nat.lt_iff_add_one_le, Nat.le_div_iff_mul_le hpos, Nat.succ_mul]
  omega

theorem root_of_slice (leaves : List F) (hs : shardHeight < usizeBits) (i : Nat) :
    (Imt.fromLeaves poseidon shardHeight (slice leaves shardHeight i)).bind Imt.root =
      some (node poseidon 0 leaves shardHeight i) := by
  have hle : (slice leaves shardHeight i).length ≤ 2 ^ shardHeight := List.length_take_le _ _
  unfold Imt.fromLeaves
  rw [Imt.fromLeavesWithZero_eq poseidon hs 0 hle, Option.bind_some, Imt.canon_root poseidon _ _ _ hle,
    node_slice_root]

/-- The shard roots are the row of the flat tree at the cut. -/
theorem shardRoots_eq (leaves : List F) (hs : shardHeight < usizeBits) :
    shardRoots poseidon leaves shardHeight = some (row poseidon 0 leaves shardHeight) := by
  unfold shardRoots
  simp only [guard, if_pos hs, Option.bind_eq_bind, Option.pure_def, Option.bind_some]
  apply Loop.mapM_some
  · rw [row_length, length_chunks_width]
  · intro i chunk hchunk
    have hi : i < width leaves.length shardHeight := by
      rw [← length_chunks_width]
      exact (List.getElem?_eq_some_iff.mp hchunk).1
    rw [List.getElem?_chunks (Nat.two_pow_pos _) _ (lt_width.mp hi), Option.some.injEq] at hchunk
    rw [← hchunk, row_getElem?, if_pos hi]
    exact root_of_slice poseidon leaves hs i

omit [Zero F] in
theorem capLevel_eq {z : List F} {h : Nat} {e : F} (hz : z[h]? = some e) (level : List F) :
    capLevel poseidon z h level = some (pairUp poseidon e level) := by
  induction level using pairUp.induct with
  | case1 => rfl
  | case2 left => simp only [capLevel, hz, pairUp, Option.bind_eq_bind, Option.bind_some]
  | case3 left right level ih =>
    simp only [capLevel, ih, pairUp, Option.bind_eq_bind, Option.bind_some]

/-- The cap levels are the rows of the flat tree above the cut. -/
theorem capLevels_eq (leaves : List F) {n : Nat} (hn : shardHeight + n ≤ depth) :
    capLevels poseidon (row poseidon 0 leaves shardHeight) (zeroRoots poseidon depth) shardHeight n =
      some (tabulate (n + 1) fun k => row poseidon 0 leaves (shardHeight + k)) := by
  induction n with
  | zero => rfl
  | succ n ih =>
    have hzero : (zeroRoots poseidon depth)[shardHeight + n]? =
        some (empty poseidon (0 : F) (shardHeight + n)) := by
      rw [Imt.zeroRoots_eq, tabulate_getElem? _ (by omega)]
    unfold capLevels at ih ⊢
    rw [List.range_succ, List.foldlM_append, ih (by omega)]
    simp only [Option.bind_eq_bind, Option.bind_some, List.foldlM_cons, List.foldlM_nil,
      tabulate_getElem? _ (Nat.lt_succ_self n), capLevel_eq poseidon hzero, Option.pure_def]
    rw [tabulate_succ (n + 1), ← row_succ]
    rfl

/-- The root at the top of the cap. -/
theorem capTop_eq {leaves : List F} (hle : leaves.length ≤ 2 ^ depth) :
    (if (row poseidon 0 leaves depth).isEmpty then (zeroRoots poseidon depth)[depth]?
      else (row poseidon 0 leaves depth)[0]?) = some (node poseidon 0 leaves depth 0) := by
  by_cases hnil : leaves = []
  · subst hnil
    rw [row_nil, List.isEmpty_nil, if_pos rfl, Imt.zeroRoots_eq, tabulate_getElem? _ (Nat.lt_succ_self _),
      node_nil]
  · rw [row_top poseidon 0 hnil hle]
    rfl

theorem shardedRoot_eq {leaves : List F} (hlt : shardHeight < depth) (hs : shardHeight < usizeBits)
    (hle : leaves.length ≤ 2 ^ depth) :
    shardedRoot poseidon leaves depth shardHeight = some (node poseidon 0 leaves depth 0) := by
  have hcap : shardHeight + (depth - shardHeight) = depth := by omega
  have htop : (tabulate (depth - shardHeight + 1)
      fun k => row poseidon 0 leaves (shardHeight + k))[depth - shardHeight]? =
        some (row poseidon 0 leaves depth) := by
    rw [tabulate_getElem? _ (Nat.lt_succ_self _), hcap]
  simp only [shardedRoot, guard, if_pos (Nat.le_of_lt hlt), Option.bind_eq_bind, Option.pure_def,
    Option.bind_some, shardRoots_eq poseidon leaves hs,
    capLevels_eq poseidon leaves (Nat.le_of_eq hcap), htop]
  exact capTop_eq poseidon hle

theorem xor_one (i : Nat) : i ^^^ 1 = sibling i := by
  unfold sibling
  split
  · rename_i heven
    exact Nat.xor_one_of_even (Nat.even_iff.mpr heven)
  · rename_i hodd
    exact Nat.xor_one_of_odd (Nat.odd_iff.mpr (by omega))

/-- The cap path goes on where the path of the shard ends. -/
theorem capSiblings_eq (leaves siblings : List F) (i : Nat) {n : Nat} (hn : shardHeight + n ≤ depth) :
    (List.range n).foldlM (capSibling (tabulate (depth - shardHeight + 1)
        fun k => row poseidon 0 leaves (shardHeight + k)) (zeroRoots poseidon depth) shardHeight)
        (siblings, i) =
      some (siblings ++ path poseidon (empty poseidon 0 shardHeight) (row poseidon 0 leaves shardHeight) n i,
        i / 2 ^ n) := by
  induction n with
  | zero => simp [path]
  | succ n ih =>
    have hzero : (zeroRoots poseidon depth)[shardHeight + n]? =
        some (empty poseidon (0 : F) (shardHeight + n)) := by
      rw [Imt.zeroRoots_eq, tabulate_getElem? _ (by omega)]
    have hread : ∀ sib, (if sib < (row poseidon 0 leaves (shardHeight + n)).length
        then (row poseidon 0 leaves (shardHeight + n))[sib]?
        else (zeroRoots poseidon depth)[shardHeight + n]?) =
          some (node poseidon 0 leaves (shardHeight + n) sib) := by
      intro sib
      rw [← row_getD, List.getD_eq_getElem?_getD, hzero]
      split
      · rename_i hsib
        rw [List.getElem?_eq_getElem hsib]
        rfl
      · rename_i hsib
        rw [List.getElem?_eq_none (Nat.le_of_not_lt hsib)]
        rfl
    rw [List.range_succ, List.foldlM_append, ih (by omega), path_succ, ← node_add, ← List.append_assoc]
    simp only [List.foldlM_cons, List.foldlM_nil, capSibling, Option.bind_eq_bind, Option.bind_some,
      tabulate_getElem? _ (show n < depth - shardHeight + 1 by omega), xor_one, hread, Option.pure_def,
      div_two_pow_shiftRight]

theorem shardedWitness_eq {leaves : List F} (hlt : shardHeight < depth) (hd : depth < usizeBits)
    (hle : leaves.length ≤ 2 ^ depth) {i : Nat} (hi : i < leaves.length) :
    shardedWitness poseidon leaves i depth shardHeight =
      some ⟨leaves.getD i 0, i, path poseidon 0 leaves depth i, node poseidon 0 leaves depth 0⟩ := by
  have hs : shardHeight < usizeBits := by omega
  have hcap : shardHeight + (depth - shardHeight) = depth := by omega
  have hpos := Nat.two_pow_pos shardHeight
  have hsplit : i / 2 ^ shardHeight * 2 ^ shardHeight + i % 2 ^ shardHeight = i := by
    rw [Nat.mul_comm]
    exact Nat.div_add_mod i _
  have hwithin : i % 2 ^ shardHeight < 2 ^ shardHeight := Nat.mod_lt _ hpos
  -- The shard ends inside the capacity, so its end is a `usize`.
  have hend : i / 2 ^ shardHeight * 2 ^ shardHeight + 2 ^ shardHeight ≤ usizeMax := by
    have hindex : i / 2 ^ shardHeight < 2 ^ (depth - shardHeight) := by
      rw [Nat.div_lt_iff_lt_mul hpos, ← pow_add, Nat.add_comm, hcap]
      omega
    have hmul : (i / 2 ^ shardHeight + 1) * 2 ^ shardHeight ≤ 2 ^ depth := by
      calc (i / 2 ^ shardHeight + 1) * 2 ^ shardHeight
          ≤ 2 ^ (depth - shardHeight) * 2 ^ shardHeight := Nat.mul_le_mul_right _ hindex
        _ = 2 ^ depth := by rw [← pow_add, Nat.add_comm, hcap]
    have hmax : 2 ^ depth ≤ 2 ^ (usizeBits - 1) := Nat.pow_le_pow_right (by decide) (by omega)
    rw [Nat.succ_mul] at hmul
    exact Nat.le_trans hmul (Nat.le_trans hmax (by decide))
  have hstart : i / 2 ^ shardHeight * 2 ^ shardHeight ≤
      min (i / 2 ^ shardHeight * 2 ^ shardHeight + 2 ^ shardHeight) leaves.length := by omega
  have hslice : (leaves.drop (i / 2 ^ shardHeight * 2 ^ shardHeight)).take
      (min (i / 2 ^ shardHeight * 2 ^ shardHeight + 2 ^ shardHeight) leaves.length -
        i / 2 ^ shardHeight * 2 ^ shardHeight) = slice leaves shardHeight (i / 2 ^ shardHeight) := by
    unfold slice
    rw [List.take_eq_take_iff, List.length_drop]
    omega
  have hsliceLe : (slice leaves shardHeight (i / 2 ^ shardHeight)).length ≤ 2 ^ shardHeight :=
    List.length_take_le _ _
  have hsliceLt : i % 2 ^ shardHeight < (slice leaves shardHeight (i / 2 ^ shardHeight)).length := by
    rw [slice, List.length_take, List.length_drop]
    omega
  have hpath : path poseidon 0 (slice leaves shardHeight (i / 2 ^ shardHeight)) shardHeight
      (i % 2 ^ shardHeight) = path poseidon 0 leaves shardHeight i := by
    rw [path_slice poseidon 0 leaves hwithin, hsplit]
  have htop : (tabulate (depth - shardHeight + 1)
      fun k => row poseidon 0 leaves (shardHeight + k))[depth - shardHeight]? =
        some (row poseidon 0 leaves depth) := by
    rw [tabulate_getElem? _ (Nat.lt_succ_self _), hcap]
  have hleaf : leaves[i]? = some (leaves.getD i 0) := by
    rw [List.getD_eq_getElem?_getD, List.getElem?_eq_getElem hi]
    rfl
  have hglued := path_add poseidon 0 leaves shardHeight (depth - shardHeight) i
  rw [hcap] at hglued
  unfold shardedWitness
  simp only [guard, if_pos hs, if_pos (Nat.le_of_lt hlt), Nat.shiftRight_eq_div_pow,
    Nat.and_two_pow_sub_one_eq_mod, if_pos hend, if_pos hstart, hslice, Imt.fromLeaves,
    Imt.fromLeavesWithZero_eq poseidon hs 0 hsliceLe, Imt.createProof_canon poseidon 0 hsliceLe hsliceLt,
    hpath, shardRoots_eq poseidon leaves hs, capLevels_eq poseidon leaves (Nat.le_of_eq hcap),
    capSiblings_eq poseidon leaves _ _ (Nat.le_of_eq hcap), htop, hleaf, capTop_eq poseidon hle,
    Option.bind_eq_bind, Option.bind_some, Option.pure_def, hglued]

/-- The stateless functions return what the flat tree does, on every leaf list it holds. -/
theorem sharded_equals_flat (leaves : List F) {capacity : Nat} (hlt : shardHeight < depth)
    (hcapacity : treeCapacity depth = .ok capacity)
    (hle : leaves.length ≤ capacity) :
    ∃ flat, Imt.fromLeaves poseidon depth leaves = some flat ∧
      (∃ root, flat.root = some root ∧ shardedRoot poseidon leaves depth shardHeight = some root) ∧
      ∀ i, i < leaves.length → ∃ proof, flat.createProof i = some proof ∧
        shardedWitness poseidon leaves i depth shardHeight = some proof := by
  have hd : depth < usizeBits := by
    unfold treeCapacity at hcapacity
    split at hcapacity
    · assumption
    · cases hcapacity
  rw [treeCapacity_ok hd] at hcapacity
  cases hcapacity
  refine ⟨_, Imt.fromLeavesWithZero_eq poseidon hd 0 hle, ⟨_, Imt.canon_root poseidon _ _ _ hle, ?_⟩, ?_⟩
  · exact shardedRoot_eq poseidon hlt (by omega) hle
  · exact fun i hi => ⟨_, Imt.createProof_canon poseidon 0 hle hi,
      shardedWitness_eq poseidon hlt hd hle hi⟩

/-- The list ends on a shard boundary. -/
theorem sharded_equals_flat_example : ∃ flat root,
    Imt.fromLeaves (fun a b : Nat => 2 * a + 3 * b) 3 [4, 5, 6, 7] = some flat ∧ flat.root = some root ∧
      shardedRoot (fun a b : Nat => 2 * a + 3 * b) [4, 5, 6, 7] 3 1 = some root := by
  obtain ⟨flat, hflat, ⟨root, hroot, hsharded⟩, -⟩ :=
    sharded_equals_flat (fun a b : Nat => 2 * a + 3 * b) [4, 5, 6, 7] (show 1 < 3 by decide)
      (treeCapacity_ok (by decide)) (by decide)
  exact ⟨flat, root, hflat, hroot, hsharded⟩

end Flat

end Curvy
