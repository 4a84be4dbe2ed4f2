import Curvy.Core.ImtRuns
import Mathlib.Data.List.AList

/-!
# The indexed Merkle tree

An `Imt` with a map from each leaf to its index. Leaves are unique; a batch is checked
in full before anything changes.
-/

namespace Curvy

set_option autoImplicit false

structure IndexedMerkleTree (F : Type) where
  tree : Imt F
  indices : AList fun _ : F => Nat

namespace IndexedMerkleTree

section Definitions
variable {F : Type} [DecidableEq F] (poseidon : F → F → F)

def leafCount (t : IndexedMerkleTree F) : Nat := t.tree.leafCount

def leaves (t : IndexedMerkleTree F) : List F := t.tree.leaves

def root (t : IndexedMerkleTree F) : Option F := t.tree.root

def getIndex (t : IndexedMerkleTree F) (leaf : F) : Option Nat := t.indices.lookup leaf

def nextLeafFrontier [Zero F] (t : IndexedMerkleTree F) : Option (Except TreeError (List F)) :=
  t.tree.nextLeafFrontier

def new [Zero F] (depth : Nat) : Option (Except TreeError (IndexedMerkleTree F)) :=
  match treeCapacity depth with
  | .error e => some (.error e)
  | .ok _ => do some (.ok ⟨← Imt.new poseidon depth, ∅⟩)

/-- The map of `fromLeaves`; a leaf that is already a key ends the loop. -/
def indexLeaves : List F → Nat → (AList fun _ : F => Nat) →
    Except TreeError (AList fun _ : F => Nat)
  | [], _, indices => .ok indices
  | leaf :: leaves, index, indices =>
    if leaf ∈ indices then .error .duplicateLeaf
    else indexLeaves leaves (index + 1) (indices.insert leaf index)

def fromLeaves [Zero F] (depth : Nat) (leaves : List F) :
    Option (Except TreeError (IndexedMerkleTree F)) :=
  match treeCapacity depth with
  | .error e => some (.error e)
  | .ok capacity =>
    if capacity < leaves.length then some (.error (.treeFull depth))
    else match indexLeaves leaves 0 ∅ with
      | .error e => some (.error e)
      | .ok indices => do some (.ok ⟨← Imt.fromLeaves poseidon depth leaves, indices⟩)

def insert (t : IndexedMerkleTree F) (leaf : F) :
    Option (Except TreeError Nat × IndexedMerkleTree F) :=
  if leaf ∈ t.indices then some (.error .duplicateLeaf, t)
  else match t.tree.capacity with
    | .error e => some (.error e, t)
    | .ok capacity =>
      if capacity ≤ t.leafCount then some (.error (.treeFull t.tree.depth), t)
      else do
        let index := t.leafCount
        let tree ← t.tree.insert poseidon leaf
        some (.ok index, ⟨tree, t.indices.insert leaf index⟩)

/-- The loop of `checkInsertMany` over the leaves still to check. -/
def checkLeaves (indices : AList fun _ : F => Nat) : List F → List F → Except TreeError Unit
  | [], _ => .ok ()
  | leaf :: leaves, incoming =>
    if leaf ∈ indices ∨ leaf ∈ incoming then .error .duplicateLeaf
    else checkLeaves indices leaves (leaf :: incoming)

def checkInsertMany (t : IndexedMerkleTree F) (leaves : List F) : Except TreeError Unit :=
  match t.tree.capacity with
  | .error e => .error e
  | .ok capacity =>
    if capacity - t.leafCount < leaves.length then .error (.treeFull t.tree.depth)
    else checkLeaves t.indices leaves []

def insertMany (t : IndexedMerkleTree F) (leaves : List F) :
    Option (Except TreeError Unit × IndexedMerkleTree F) :=
  match t.checkInsertMany leaves with
  | .error e => some (.error e, t)
  | .ok () => do
    let first := t.leafCount
    let (r, tree) ← t.tree.insertMany poseidon leaves
    match r with
    | .error e => some (.error e, { t with tree })
    | .ok () =>
      some (.ok (), ⟨tree, (leaves.zipIdx first).foldl (fun m p => m.insert p.1 p.2) t.indices⟩)

def truncate (t : IndexedMerkleTree F) (leafCount : Nat) :
    Option (Except TreeError Unit × IndexedMerkleTree F) :=
  if t.leafCount < leafCount then
    some (.error (.leafIndexOutOfRange leafCount t.leafCount), t)
  else do
    let removed := t.leaves.drop leafCount
    let (r, tree) ← t.tree.truncate poseidon leafCount
    match r with
    | .error e => some (.error e, { t with tree })
    | .ok () => some (.ok (), ⟨tree, removed.foldl (fun m leaf => m.erase leaf) t.indices⟩)

end Definitions

/-! ### The tree of a leaf list -/

variable {F : Type} [DecidableEq F] [Zero F] {poseidon : F → F → F}
variable {depth : Nat} {leaves : List F} {t : IndexedMerkleTree F}

/-- `t` stores exactly `leaves`, and its map is their index. -/
structure Holds (poseidon : F → F → F) (depth : Nat) (leaves : List F)
    (t : IndexedMerkleTree F) : Prop where
  width : depth < usizeBits
  fits : leaves.length ≤ 2 ^ depth
  tree : t.tree = Imt.canon poseidon depth 0 leaves
  indices : ∀ leaf i, t.indices.lookup leaf = some i ↔ leaves[i]? = some leaf

theorem Holds.mem_indices (h : Holds poseidon depth leaves t) {leaf : F} :
    leaf ∈ t.indices ↔ leaf ∈ leaves := by
  rw [← AList.lookup_isSome, Option.isSome_iff_exists, List.mem_iff_getElem?]
  exact exists_congr fun i => h.indices leaf i

theorem Holds.leafCount (h : Holds poseidon depth leaves t) : t.leafCount = leaves.length := by
  rw [IndexedMerkleTree.leafCount, h.tree, Imt.canon_leafCount]

theorem Holds.leaves_eq (h : Holds poseidon depth leaves t) : t.leaves = leaves := by
  rw [IndexedMerkleTree.leaves, h.tree, Imt.canon_leaves]

theorem Holds.root (h : Holds poseidon depth leaves t) :
    t.root = some (PerfectTree.node poseidon 0 leaves depth 0) := by
  rw [IndexedMerkleTree.root, h.tree, Imt.canon_root poseidon _ _ _ h.fits]

theorem Holds.nodup (h : Holds poseidon depth leaves t) : leaves.Nodup := by
  rw [List.nodup_iff_getElem?_ne_getElem?]
  intro i j hij hj heq
  obtain ⟨leaf, hleaf⟩ : ∃ leaf, leaves[j]? = some leaf := ⟨_, List.getElem?_eq_getElem hj⟩
  have hi := (h.indices leaf i).mpr (heq.trans hleaf)
  have hj := (h.indices leaf j).mpr hleaf
  rw [hi, Option.some.injEq] at hj
  omega

omit [Zero F] in
/-- One more leaf is one more entry, at the next index. -/
theorem lookup_insert_concat {indices : AList fun _ : F => Nat} {old : List F} {leaf : F}
    (hold : ∀ x i, indices.lookup x = some i ↔ old[i]? = some x) (hfresh : leaf ∉ old)
    (x : F) (i : Nat) :
    (indices.insert leaf old.length).lookup x = some i ↔ (old ++ [leaf])[i]? = some x := by
  by_cases hx : x = leaf
  · subst hx
    rw [AList.lookup_insert, Option.some.injEq]
    constructor
    · rintro rfl
      simp
    · intro hi
      rw [List.getElem?_append] at hi
      split at hi
      · exact absurd (List.mem_of_getElem? hi) hfresh
      · have hpos := (List.getElem?_eq_some_iff.mp hi).1
        simp only [List.length_singleton] at hpos
        omega
  · rw [AList.lookup_insert_ne hx, hold, List.getElem?_append]
    split
    · exact Iff.rfl
    · rename_i hge
      rw [List.getElem?_eq_none (by omega)]
      rcases Nat.eq_or_lt_of_le (Nat.le_of_not_lt hge) with heq | hgt
      · simp [← heq, Ne.symm hx]
      · rw [List.getElem?_eq_none (by simp; omega)]

omit [Zero F] in
theorem lookup_insert_zipIdx {old : List F} (batch : List F) (indices : AList fun _ : F => Nat)
    (hold : ∀ x i, indices.lookup x = some i ↔ old[i]? = some x)
    (hfresh : (old ++ batch).Nodup) (x : F) (i : Nat) :
    ((batch.zipIdx old.length).foldl (fun m p => m.insert p.1 p.2) indices).lookup x = some i ↔
      (old ++ batch)[i]? = some x := by
  induction batch generalizing old indices with
  | nil => simpa using hold x i
  | cons leaf batch ih =>
    have hsplit : old ++ leaf :: batch = old ++ [leaf] ++ batch := by simp
    have hleaf : leaf ∉ old := by
      intro hmem
      exact List.disjoint_of_nodup_append hfresh hmem (by simp)
    have hlen : old.length + 1 = (old ++ [leaf]).length := by simp
    rw [List.zipIdx_cons, List.foldl_cons, hlen, hsplit]
    exact ih _ (lookup_insert_concat hold hleaf) (hsplit ▸ hfresh)

omit [Zero F] in
theorem lookup_foldl_erase (removed : List F) (indices : AList fun _ : F => Nat) (x : F) :
    (removed.foldl (fun m leaf => m.erase leaf) indices).lookup x =
      if x ∈ removed then none else indices.lookup x := by
  induction removed generalizing indices with
  | nil => simp
  | cons leaf removed ih =>
    rw [List.foldl_cons, ih]
    by_cases hx : x = leaf
    · subst hx
      simp
    · simp [hx, AList.lookup_erase_ne hx]

/-! ### Construction -/

omit [Zero F] in
theorem indexLeaves_eq (batch : List F) {old : List F} {indices : AList fun _ : F => Nat}
    (hold : ∀ x i, indices.lookup x = some i ↔ old[i]? = some x) (hnodup : old.Nodup) :
    if (old ++ batch).Nodup then
      ∃ indices', indexLeaves batch old.length indices = .ok indices' ∧
        ∀ x i, indices'.lookup x = some i ↔ (old ++ batch)[i]? = some x
    else indexLeaves batch old.length indices = .error .duplicateLeaf := by
  induction batch generalizing old indices with
  | nil => simpa [indexLeaves, hnodup] using hold
  | cons leaf batch ih =>
    have hsplit : old ++ leaf :: batch = old ++ [leaf] ++ batch := by simp
    have hmem : leaf ∈ indices ↔ leaf ∈ old := by
      rw [← AList.lookup_isSome, Option.isSome_iff_exists, List.mem_iff_getElem?]
      exact exists_congr (hold leaf)
    by_cases hleaf : leaf ∈ old
    · rw [if_neg, indexLeaves, if_pos (hmem.mpr hleaf)]
      intro hnd
      exact List.disjoint_of_nodup_append hnd hleaf (by simp)
    · have hlen : old.length + 1 = (old ++ [leaf]).length := by simp
      rw [indexLeaves, if_neg (mt hmem.mp hleaf), hsplit, hlen]
      apply ih (lookup_insert_concat hold hleaf)
      refine List.nodup_append.mpr ⟨hnodup, List.nodup_singleton _, ?_⟩
      rintro x hx y hy rfl
      exact hleaf (List.mem_singleton.mp hy ▸ hx)

theorem new_holds {t : IndexedMerkleTree F} (h : new poseidon depth = some (.ok t)) :
    Holds poseidon depth [] t := by
  unfold new at h
  by_cases hd : depth < usizeBits
  · have hnew := Imt.newWithZero_eq poseidon hd (0 : F)
    simp only [treeCapacity_ok hd, Imt.new, hnew, Option.bind_eq_bind, Option.bind_some,
      Option.some.injEq, Except.ok.injEq] at h
    subst h
    exact ⟨hd, by simp, rfl, by simp⟩
  · simp [treeCapacity, hd] at h

theorem fromLeaves_holds {t : IndexedMerkleTree F}
    (h : fromLeaves poseidon depth leaves = some (.ok t)) : Holds poseidon depth leaves t := by
  unfold fromLeaves at h
  by_cases hd : depth < usizeBits
  · simp only [treeCapacity_ok hd] at h
    split at h
    · simp at h
    · rename_i hfit
      have hnone : ∀ (x : F) (i : Nat), (∅ : AList fun _ : F => Nat).lookup x = some i ↔
          ([] : List F)[i]? = some x := by simp
      have hindex := indexLeaves_eq leaves hnone List.nodup_nil
      simp only [List.nil_append, List.length_nil] at hindex
      by_cases hnodup : leaves.Nodup
      · rw [if_pos hnodup] at hindex
        obtain ⟨indices, hok, hlookup⟩ := hindex
        have hfrom := Imt.fromLeavesWithZero_eq poseidon hd (0 : F) (Nat.le_of_not_lt hfit)
        simp only [hok, Imt.fromLeaves, hfrom, Option.bind_eq_bind, Option.bind_some,
          Option.some.injEq, Except.ok.injEq] at h
        subst h
        exact ⟨hd, Nat.le_of_not_lt hfit, rfl, hlookup⟩
      · rw [if_neg hnodup] at hindex
        simp [hindex] at h
  · simp [treeCapacity, hd] at h

/-! ### Mutations -/

theorem insert_spec (h : Holds poseidon depth leaves t) (leaf : F) :
    if leaf ∈ leaves then t.insert poseidon leaf = some (.error .duplicateLeaf, t)
    else if 2 ^ depth ≤ leaves.length then
      t.insert poseidon leaf = some (.error (.treeFull depth), t)
    else ∃ t', t.insert poseidon leaf = some (.ok leaves.length, t') ∧
      Holds poseidon depth (leaves ++ [leaf]) t' := by
  have hcap : t.tree.capacity = .ok (2 ^ depth) := by
    rw [h.tree, Imt.capacity, Imt.canon_depth, treeCapacity_ok h.width]
  unfold insert
  simp only [h.mem_indices, hcap, h.leafCount]
  split
  · rfl
  rename_i hfresh
  split
  · rw [h.tree, Imt.canon_depth]
  · rename_i hroom
    have hins := Imt.insert_canon poseidon h.width 0 leaf (Nat.not_le.mp hroom)
    refine ⟨_, by rw [h.tree, hins]; rfl, h.width, by simp; omega, rfl, ?_⟩
    exact lookup_insert_concat h.indices hfresh

omit [Zero F] in
theorem checkLeaves_eq {indices : AList fun _ : F => Nat} (batch incoming : List F) :
    checkLeaves indices batch incoming =
      if batch.Nodup ∧ ∀ x ∈ batch, x ∉ indices ∧ x ∉ incoming then .ok ()
      else .error .duplicateLeaf := by
  induction batch generalizing incoming with
  | nil => simp [checkLeaves]
  | cons leaf batch ih =>
    rw [checkLeaves]
    by_cases hseen : leaf ∈ indices ∨ leaf ∈ incoming
    · rw [if_pos hseen, if_neg]
      rintro ⟨-, hall⟩
      have := hall leaf (by simp)
      tauto
    · rw [if_neg hseen, ih]
      congr 1
      simp only [List.nodup_cons, List.mem_cons, not_or, eq_iff_iff, forall_eq_or_imp]
      rw [not_or] at hseen
      constructor
      · rintro ⟨hnodup, hall⟩
        exact ⟨⟨fun hmem => (hall leaf hmem).2.1 rfl, hnodup⟩, hseen,
          fun x hx => ⟨(hall x hx).1, (hall x hx).2.2⟩⟩
      · rintro ⟨⟨hleaf, hnodup⟩, -, hall⟩
        exact ⟨hnodup, fun x hx => ⟨(hall x hx).1, fun heq => hleaf (heq ▸ hx), (hall x hx).2⟩⟩

/-- What a batch needs to be unique in a tree over `leaves`. -/
def Fresh (leaves batch : List F) : Prop := batch.Nodup ∧ ∀ x ∈ batch, x ∉ leaves

instance (leaves batch : List F) : Decidable (Fresh leaves batch) :=
  inferInstanceAs (Decidable (batch.Nodup ∧ ∀ x ∈ batch, x ∉ leaves))

theorem insertMany_spec (h : Holds poseidon depth leaves t) (batch : List F) :
    if 2 ^ depth < leaves.length + batch.length then
      t.insertMany poseidon batch = some (.error (.treeFull depth), t)
    else if Fresh leaves batch then
      ∃ t', t.insertMany poseidon batch = some (.ok (), t') ∧
        Holds poseidon depth (leaves ++ batch) t'
    else t.insertMany poseidon batch = some (.error .duplicateLeaf, t) := by
  have hcap : t.tree.capacity = .ok (2 ^ depth) := by
    rw [h.tree, Imt.capacity, Imt.canon_depth, treeCapacity_ok h.width]
  have hroom : 2 ^ depth - leaves.length < batch.length ↔
      2 ^ depth < leaves.length + batch.length := by
    have := h.fits
    omega
  have hfresh : (batch.Nodup ∧ ∀ x ∈ batch, x ∉ t.indices ∧ x ∉ ([] : List F)) ↔
      Fresh leaves batch := by
    simp [Fresh, h.mem_indices]
  simp only [insertMany, checkInsertMany, hcap, h.leafCount, checkLeaves_eq, hroom, hfresh]
  by_cases hfull : 2 ^ depth < leaves.length + batch.length
  · simp only [if_pos hfull]
    rw [h.tree, Imt.canon_depth]
  by_cases hf : Fresh leaves batch
  · have hins := Imt.insertMany_canon poseidon h.width 0 leaves batch
    rw [if_neg (by omega)] at hins
    simp only [if_neg hfull, if_pos hf]
    refine ⟨_, by rw [h.tree, hins]; rfl, h.width, by simp; omega, rfl, ?_⟩
    refine lookup_insert_zipIdx batch t.indices h.indices ?_
    exact List.nodup_append.mpr ⟨h.nodup, hf.1, fun a ha b hb heq => hf.2 b hb (heq ▸ ha)⟩
  · simp only [if_neg hfull, if_neg hf]

theorem truncate_spec (h : Holds poseidon depth leaves t) (n : Nat) :
    if leaves.length < n then
      t.truncate poseidon n = some (.error (.leafIndexOutOfRange n leaves.length), t)
    else ∃ t', t.truncate poseidon n = some (.ok (), t') ∧
      Holds poseidon depth (leaves.take n) t' := by
  simp only [truncate, h.leafCount, h.leaves_eq]
  split
  · rfl
  rename_i hn
  have htrunc := Imt.truncate_canon poseidon h.width 0 n h.fits
  rw [if_neg hn] at htrunc
  refine ⟨_, by rw [h.tree, htrunc]; rfl, h.width, ?_, rfl, ?_⟩
  · exact (List.length_take_le' n leaves).trans h.fits
  · intro x i
    rw [lookup_foldl_erase, List.getElem?_take]
    have hsplit := List.take_append_drop n leaves
    have hnodup := h.nodup
    rw [← hsplit] at hnodup
    by_cases hmem : x ∈ leaves.drop n
    · rw [if_pos hmem]
      simp only [reduceCtorEq, false_iff]
      intro hi
      split at hi
      · rename_i hlt
        refine List.disjoint_of_nodup_append hnodup ?_ hmem
        exact List.mem_of_getElem? (i := i) (by rw [List.getElem?_take, if_pos hlt]; exact hi)
      · simp at hi
    · rw [if_neg hmem, h.indices]
      split
      · exact Iff.rfl
      · rename_i hge
        constructor
        · intro hi
          refine absurd (List.mem_of_getElem? (i := i - n) ?_) hmem
          rw [List.getElem?_drop, ← hi]
          congr 1
          omega
        · simp

/-! ### Runs -/

/-- The tree after inserting `leaves` one call at a time. -/
def inserted (poseidon : F → F → F) (t : IndexedMerkleTree F) (leaves : List F) :
    Option (IndexedMerkleTree F) :=
  leaves.foldlM (fun t leaf => (t.insert poseidon leaf).bind fun (r, t) =>
    r.toOption.map fun _ => t) t

theorem inserted_eq (h : Holds poseidon depth leaves t) (batch : List F)
    (hfit : leaves.length + batch.length ≤ 2 ^ depth) (hfresh : Fresh leaves batch) :
    t.inserted poseidon batch = some ⟨Imt.canon poseidon depth 0 (leaves ++ batch),
      (batch.zipIdx leaves.length).foldl (fun m p => m.insert p.1 p.2) t.indices⟩ := by
  induction batch generalizing leaves t with
  | nil =>
    rw [List.append_nil, ← h.tree]
    rfl
  | cons leaf batch ih =>
    obtain ⟨hnodup, hnew⟩ := hfresh
    rw [List.nodup_cons] at hnodup
    rw [List.length_cons] at hfit
    have hleaf : leaf ∉ leaves := hnew leaf (by simp)
    have hroom : leaves.length < 2 ^ depth := by omega
    have hcap : t.tree.capacity = .ok (2 ^ depth) := by
      rw [h.tree, Imt.capacity, Imt.canon_depth, treeCapacity_ok h.width]
    have hins : t.insert poseidon leaf = some (.ok leaves.length,
        ⟨Imt.canon poseidon depth 0 (leaves ++ [leaf]),
          t.indices.insert leaf leaves.length⟩) := by
      unfold insert
      rw [if_neg (mt h.mem_indices.mp hleaf), hcap]
      simp only [h.leafCount, if_neg (Nat.not_le.mpr hroom)]
      rw [h.tree, Imt.insert_canon poseidon h.width 0 leaf hroom]
      rfl
    have hstep : Holds poseidon depth (leaves ++ [leaf])
        ⟨Imt.canon poseidon depth 0 (leaves ++ [leaf]), t.indices.insert leaf leaves.length⟩ :=
      ⟨h.width, by simp; omega, rfl, lookup_insert_concat h.indices hleaf⟩
    have hrest := ih hstep (by simp; omega) ⟨hnodup.2, fun x hx hmem => ?_⟩
    · rw [inserted, List.foldlM_cons, hins]
      rw [List.append_assoc, List.singleton_append, List.length_append] at hrest
      exact hrest
    · rcases List.mem_append.mp hmem with hmem | hmem
      · exact hnew x (List.mem_cons_of_mem _ hx) hmem
      · exact hnodup.1 (List.mem_singleton.mp hmem ▸ hx)

/-- A batch that is taken leaves the tree that one insert at a time leaves. -/
theorem insertMany_eq (h : Holds poseidon depth leaves t) (batch : List F)
    (hfit : leaves.length + batch.length ≤ 2 ^ depth) (hfresh : Fresh leaves batch) :
    ∃ t', (t.insertMany poseidon batch = some (.ok (), t') ∧
      t.inserted poseidon batch = some t') ∧ Holds poseidon depth (leaves ++ batch) t' := by
  have hcheck : t.checkInsertMany batch = .ok () := by
    have hcap : t.tree.capacity = .ok (2 ^ depth) := by
      rw [h.tree, Imt.capacity, Imt.canon_depth, treeCapacity_ok h.width]
    simp only [checkInsertMany, hcap, h.leafCount]
    rw [if_neg (by omega), checkLeaves_eq, if_pos]
    exact ⟨hfresh.1, fun x hx => ⟨mt h.mem_indices.mp (hfresh.2 x hx), List.not_mem_nil⟩⟩
  have hins := Imt.insertMany_canon poseidon h.width 0 leaves batch
  rw [if_neg (by omega)] at hins
  refine ⟨_, ⟨?_, inserted_eq h batch hfit hfresh⟩, h.width, by simp; omega, rfl, ?_⟩
  · simp only [insertMany, hcheck]
    rw [h.tree, hins, h.leafCount]
    rfl
  · refine lookup_insert_zipIdx batch t.indices h.indices ?_
    exact List.nodup_append.mpr ⟨h.nodup, hfresh.1, fun a ha b hb heq => hfresh.2 b hb (heq ▸ ha)⟩

/-- The trees the public operations lead to, with their leaves. -/
inductive Reachable (poseidon : F → F → F) (depth : Nat) : List F → IndexedMerkleTree F → Prop
  | new {t : IndexedMerkleTree F} : IndexedMerkleTree.new poseidon depth = some (.ok t) →
      Reachable poseidon depth [] t
  | fromLeaves {leaves : List F} {t : IndexedMerkleTree F} :
      IndexedMerkleTree.fromLeaves poseidon depth leaves = some (.ok t) →
      Reachable poseidon depth leaves t
  | insert {leaves : List F} {t t' : IndexedMerkleTree F} {leaf : F} {r : Except TreeError Nat} :
      Reachable poseidon depth leaves t → t.insert poseidon leaf = some (r, t') →
      Reachable poseidon depth (if r.isOk then leaves ++ [leaf] else leaves) t'
  | insertMany {leaves batch : List F} {t t' : IndexedMerkleTree F} {r : Except TreeError Unit} :
      Reachable poseidon depth leaves t → t.insertMany poseidon batch = some (r, t') →
      Reachable poseidon depth (if r.isOk then leaves ++ batch else leaves) t'
  | truncate {leaves : List F} {t t' : IndexedMerkleTree F} {n : Nat}
      {r : Except TreeError Unit} :
      Reachable poseidon depth leaves t → t.truncate poseidon n = some (r, t') →
      Reachable poseidon depth (if r.isOk then leaves.take n else leaves) t'

theorem Reachable.holds (h : Reachable poseidon depth leaves t) :
    Holds poseidon depth leaves t := by
  induction h with
  | new hnew => exact new_holds hnew
  | fromLeaves hfrom => exact fromLeaves_holds hfrom
  | @insert leaves t t' leaf r _ hcall ih =>
    have hspec := insert_spec ih leaf
    rw [hcall] at hspec
    split at hspec
    · cases hspec
      exact ih
    split at hspec
    · cases hspec
      exact ih
    · obtain ⟨_, heq, hholds⟩ := hspec
      cases heq
      exact hholds
  | @insertMany leaves batch t t' r _ hcall ih =>
    have hspec := insertMany_spec ih batch
    rw [hcall] at hspec
    split at hspec
    · cases hspec
      exact ih
    split at hspec
    · obtain ⟨_, heq, hholds⟩ := hspec
      cases heq
      exact hholds
    · cases hspec
      exact ih
  | @truncate leaves t t' n r _ hcall ih =>
    have hspec := truncate_spec ih n
    rw [hcall] at hspec
    split at hspec
    · cases hspec
      exact ih
    · obtain ⟨_, heq, hholds⟩ := hspec
      cases heq
      exact hholds

/-- After any run the map is the inverse of a list without duplicates, and a batch is refused
whole or has the effect of its single inserts. -/
theorem index_is_exact (h : Reachable poseidon depth leaves t) :
    (t.leaves = leaves ∧ leaves.Nodup ∧
      ∀ leaf i, t.getIndex leaf = some i ↔ t.leaves[i]? = some leaf) ∧
    ∀ batch : List F,
      (∃ e, t.insertMany poseidon batch = some (.error e, t) ∧
        (2 ^ depth < leaves.length + batch.length ∨ ¬ batch.Nodup ∨ ∃ x ∈ batch, x ∈ leaves)) ∨
      ∃ t', t.insertMany poseidon batch = some (.ok (), t') ∧
        t.inserted poseidon batch = some t' := by
  have hholds := h.holds
  refine ⟨⟨hholds.leaves_eq, hholds.nodup, ?_⟩, fun batch => ?_⟩
  · intro leaf i
    rw [hholds.leaves_eq]
    exact hholds.indices leaf i
  · by_cases hfull : 2 ^ depth < leaves.length + batch.length
    · have hspec := insertMany_spec hholds batch
      rw [if_pos hfull] at hspec
      exact .inl ⟨_, hspec, .inl hfull⟩
    by_cases hfresh : Fresh leaves batch
    · obtain ⟨t', hcalls, _⟩ := insertMany_eq hholds batch (by omega) hfresh
      exact .inr ⟨t', hcalls⟩
    · have hspec := insertMany_spec hholds batch
      rw [if_neg hfull, if_neg hfresh] at hspec
      refine .inl ⟨_, hspec, .inr ?_⟩
      by_cases hnodup : batch.Nodup
      · right
        by_contra hnone
        exact hfresh ⟨hnodup, fun x hx hmem => hnone ⟨x, hx, hmem⟩⟩
      · exact .inl hnodup

/-- A run with a refused batch and a truncation. -/
theorem index_is_exact_example : ∃ t : IndexedMerkleTree Nat, t.leaves = [3, 4] ∧
    (∀ leaf i, t.getIndex leaf = some i ↔ t.leaves[i]? = some leaf) ∧
      ∃ e, t.insertMany (fun a b => 2 * a + 3 * b) [5, 4] = some (.error e, t) := by
  have hnew : Reachable (fun a b : Nat => 2 * a + 3 * b) 2 [] _ := .new rfl
  have hone := hnew.insert (show IndexedMerkleTree.insert _ _ 3 = some _ from rfl)
  have hrefused := hone.insertMany (show IndexedMerkleTree.insertMany _ _ [4, 3] = some _ from rfl)
  have hgrown := hrefused.insertMany (show IndexedMerkleTree.insertMany _ _ [4, 5] = some _ from rfl)
  have hcut := hgrown.truncate (show IndexedMerkleTree.truncate _ _ 2 = some _ from rfl)
  have h := index_is_exact hcut
  exact ⟨_, rfl, h.1.2.2, .duplicateLeaf, rfl⟩

end IndexedMerkleTree
end Curvy
