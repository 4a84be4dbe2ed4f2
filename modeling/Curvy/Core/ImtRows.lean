import Curvy.Core.Imt

/-!
# Every Imt operation in closed form

`canon` is the tree a bulk build produces, written through `PerfectTree.node`. Each
mutation of `canon` over a leaf list is `canon` over the changed leaf list.
-/

namespace Curvy.Imt

set_option autoImplicit false

open PerfectTree List

variable {F : Type} (poseidon : F → F → F)

theorem zeroRootsFrom_eq (depth : Nat) (z : F) :
    zeroRootsFrom poseidon depth z = tabulate (depth + 1) (empty poseidon z) := by
  induction depth with
  | zero => rfl
  | succ d ih =>
    have hstep : zeroRootsFrom poseidon (d + 1) z = zeroRootsFrom poseidon d z ++
        [poseidon ((zeroRootsFrom poseidon d z).getLastD z) ((zeroRootsFrom poseidon d z).getLastD z)] := by
      simp [zeroRootsFrom, List.range_succ]
    have hlast : (tabulate (d + 1) (empty poseidon z)).getLastD z = empty poseidon z d := by
      simp [tabulate_succ]
    rw [hstep, ih, hlast, ← empty_succ poseidon z d, ← tabulate_succ]

theorem zeroRoots_eq [Zero F] (depth : Nat) :
    zeroRoots poseidon depth = tabulate (depth + 1) (empty poseidon (0 : F)) := by
  unfold zeroRoots
  simp only [zeroRootsFrom_eq, tabulate_length]
  split
  · rename_i hle
    apply List.ext_getElem
    · simpa using hle
    · intro i _ _
      simp
  · rfl

/-- The stored row of height `h`: the top row of an empty tree of positive depth holds
the empty root. -/
def storedRow (depth : Nat) (z : F) (leaves : List F) (h : Nat) : List F :=
  if h = depth ∧ depth ≠ 0 ∧ leaves = [] then [empty poseidon z depth]
  else row poseidon z leaves h

/-- A tree record with the given rows. -/
def withRows (depth : Nat) (z : F) (rows : Nat → List F) : Imt F where
  depth := depth
  zeroLeaf := z
  zeroes := tabulate depth (empty poseidon z)
  nodes := tabulate (depth + 1) rows

theorem withRows_congr {depth : Nat} {z : F} {f g : Nat → List F} (h : ∀ i, i ≤ depth → f i = g i) :
    withRows poseidon depth z f = withRows poseidon depth z g := by
  unfold withRows
  rw [tabulate_congr fun i hi => h i (by omega)]

def canon (depth : Nat) (z : F) (leaves : List F) : Imt F :=
  withRows poseidon depth z (storedRow poseidon depth z leaves)

section Rows
variable {depth h : Nat} (z : F) (leaves : List F)

theorem storedRow_of_lt (hlt : h < depth) :
    storedRow poseidon depth z leaves h = row poseidon z leaves h := by
  simp [storedRow, Nat.ne_of_lt hlt]

theorem storedRow_of_ne_nil (hne : leaves ≠ []) :
    storedRow poseidon depth z leaves h = row poseidon z leaves h := by
  simp [storedRow, hne]

@[simp] theorem storedRow_zero : storedRow poseidon depth z leaves 0 = leaves := by
  unfold storedRow
  split
  · omega
  · simp

theorem storedRow_top (hle : leaves.length ≤ 2 ^ depth) (hpos : depth ≠ 0 ∨ leaves ≠ []) :
    storedRow poseidon depth z leaves depth = [node poseidon z leaves depth 0] := by
  by_cases hne : leaves = []
  · subst hne
    have hd : depth ≠ 0 := by simpa using hpos
    simp [storedRow, hd, node_nil]
  · rw [storedRow_of_ne_nil poseidon z leaves hne, row_top poseidon z hne hle]

variable (depth)

@[simp] theorem canon_depth : (canon poseidon depth z leaves).depth = depth := rfl

@[simp] theorem canon_zeroLeaf : (canon poseidon depth z leaves).zeroLeaf = z := rfl

@[simp] theorem canon_leaves : (canon poseidon depth z leaves).leaves = leaves := by
  simp [Imt.leaves, canon, withRows, tabulate, List.range_succ_eq_map]

@[simp] theorem canon_leafCount : (canon poseidon depth z leaves).leafCount = leaves.length := by
  simp [leafCount]

theorem canon_nodes_getElem? {h : Nat} (hle : h ≤ depth) :
    (canon poseidon depth z leaves).nodes[h]? = some (storedRow poseidon depth z leaves h) :=
  tabulate_getElem? _ (by omega)

theorem canon_zeroes_getElem? {h : Nat} (hlt : h < depth) :
    (canon poseidon depth z leaves).zeroes[h]? = some (empty poseidon z h) :=
  tabulate_getElem? _ hlt

theorem canon_root (hle : leaves.length ≤ 2 ^ depth) :
    (canon poseidon depth z leaves).root = some (node poseidon z leaves depth 0) := by
  unfold root
  by_cases hempty : depth = 0 ∧ leaves = []
  · obtain ⟨rfl, rfl⟩ := hempty
    simp
  · rw [if_neg (by simpa using hempty), canon_depth, canon_nodes_getElem? poseidon _ _ _ le_rfl,
      storedRow_top poseidon z leaves hle (by tauto)]
    rfl

end Rows

/-! ### Construction -/

variable {depth : Nat} (hd : depth < usizeBits)
include hd

theorem newWithZero_eq (z : F) :
    newWithZero poseidon depth z = some (canon poseidon depth z []) := by
  have htake : (tabulate (depth + 1) (empty poseidon z)).take depth =
      tabulate depth (empty poseidon z) := by
    rw [tabulate_succ, List.take_left' (by simp)]
  have hrows : List.replicate (depth + 1) ([] : List F) = tabulate (depth + 1) fun _ => [] := by
    simp [tabulate]
  simp only [newWithZero, treeCapacity_ok hd, zeroRootsFrom_eq, htake, hrows, Except.toOption,
    Option.bind_eq_bind, Option.bind_some]
  by_cases hd0 : depth = 0
  · subst hd0
    simp only [ne_eq, not_true_eq_false, if_false]
    refine congrArg some (withRows_congr poseidon ?_)
    intro i hi
    obtain rfl : i = 0 := by omega
    simp
  · simp only [ne_eq, hd0, not_false_eq_true, if_true, Option.bind_some,
      tabulate_getElem? (empty poseidon z) (Nat.lt_succ_self depth),
      put_tabulate _ _ (Nat.lt_succ_self depth)]
    refine congrArg some (withRows_congr poseidon ?_)
    intro i _
    by_cases hi : i = depth
    · subst hi
      simp [storedRow, hd0]
    · simp [storedRow, hi]

theorem fromLeavesWithZero_eq (z : F) {leaves : List F} (hle : leaves.length ≤ 2 ^ depth) :
    fromLeavesWithZero poseidon depth z leaves = some (canon poseidon depth z leaves) := by
  simp only [fromLeavesWithZero, treeCapacity_ok hd, newWithZero_eq poseidon hd, Except.toOption,
    Option.bind_eq_bind, Option.bind_some, if_neg (Nat.not_lt.mpr hle)]
  by_cases hne : leaves = []
  · simp [hne]
  have hput : (canon poseidon depth z []).nodes.put 0 leaves = some (tabulate (depth + 1)
      (Function.update (storedRow poseidon depth z []) 0 leaves)) :=
    put_tabulate _ _ (by omega)
  simp only [List.isEmpty_iff, hne, if_false, hput, Option.bind_some]
  -- rows up to `k` belong to `leaves`, the others are still those of the empty tree
  obtain ⟨t, ht, rfl⟩ := Loop.foldlM_range (n := depth) (f := buildLevel poseidon)
    (s := withRows poseidon depth z (Function.update (storedRow poseidon depth z []) 0 leaves))
    (P := fun k t => t = withRows poseidon depth z fun h =>
      if h ≤ k then row poseidon z leaves h else storedRow poseidon depth z [] h)
    (by
      apply withRows_congr
      intro i _
      by_cases hi : i = 0
      · subst hi; simp
      · simp [hi])
    (by
      rintro k hk t rfl
      refine ⟨_, ?_, rfl⟩
      simp only [buildLevel, withRows, tabulate_getElem? _ (show k < depth + 1 by omega),
        tabulate_getElem? _ hk, le_refl, if_true,
        put_tabulate _ _ (show k + 1 < depth + 1 by omega), Option.bind_eq_bind, Option.bind_some]
      refine congrArg some (withRows_congr poseidon ?_)
      intro i _
      by_cases hi : i = k + 1
      · subst hi
        simp [buildParentLevel, row_succ]
      · have : i ≤ k + 1 ↔ i ≤ k := by omega
        simp [hi, this])
  refine ht.trans (congrArg some (withRows_congr poseidon ?_))
  intro i hi
  rw [if_pos hi, storedRow_of_ne_nil poseidon z leaves hne]

/-! ### Mutations -/

omit hd

/-- Rows in the middle of a bottom-up change: below `k` already those of `new`. -/
def midRows (depth : Nat) (z : F) (old new : List F) (k h : Nat) : List F :=
  if h < k then row poseidon z new h else storedRow poseidon depth z old h

theorem midRows_succ {z : F} {old new : List F} {k : Nat} :
    Function.update (midRows poseidon depth z old new k) k (row poseidon z new k) =
      midRows poseidon depth z old new (k + 1) := by
  funext i
  rw [Function.update_apply]
  unfold midRows
  by_cases hi : i = k
  · subst hi
    simp
  · have : i < k + 1 ↔ i < k := by omega
    simp [hi, this]

theorem midRows_self {z : F} {old new : List F} {k : Nat} :
    midRows poseidon depth z old new k k = storedRow poseidon depth z old k := by
  simp [midRows]

theorem tabulate_midRows {z : F} {old : List F} (new : List F) (hne : new ≠ []) :
    tabulate (depth + 1) (midRows poseidon depth z old new (depth + 1)) =
      tabulate (depth + 1) (storedRow poseidon depth z new) := by
  apply tabulate_congr
  intro i hi
  rw [storedRow_of_ne_nil poseidon z new hne]
  simp [midRows, hi]

/-- Placing the climbing node keeps its row final. -/
theorem place_eq_row (z : F) (leaves : List F) (leaf : F) (k : Nat) :
    let index := leaves.length / 2 ^ k
    let old := row poseidon z leaves k
    let placed := node poseidon z (leaves ++ [leaf]) k index
    (if index < old.length then old.set index placed
      else old ++ List.replicate (index - old.length) (empty poseidon z k) ++ [placed]) =
      row poseidon z (leaves ++ [leaf]) k := by
  intro index old placed
  have hlo := div_le_width leaves.length k
  have hhi := width_le_div_succ leaves.length k
  have hlen : old.length = width leaves.length k := row_length poseidon z leaves k
  rw [row_append_singleton]
  split
  · rename_i hlt
    rw [List.set_eq_take_append_cons_drop, if_pos hlt, List.drop_eq_nil_of_le (by omega)]
  · rename_i hge
    have hindex : index = old.length := by omega
    rw [hindex, Nat.sub_self, List.replicate_zero, List.append_nil]
    congr 1
    exact (List.take_of_length_le (by omega)).symm

theorem getD_start {z : F} {leaves : List F} (k i : Nat) :
    let start := i - i % 2
    poseidon ((row poseidon z leaves k).getD start (empty poseidon z k))
      ((row poseidon z leaves k).getD (start + 1) (empty poseidon z k)) =
      node poseidon z leaves (k + 1) (i / 2) := by
  intro start
  rw [row_getD, row_getD, node_succ]
  have : start = 2 * (i / 2) := by omega
  rw [this]

theorem insertLevel_eq {z : F} {leaves : List F} {leaf : F} {k : Nat} (hk : k < depth) :
    insertLevel poseidon (tabulate depth (empty poseidon z))
      ⟨tabulate (depth + 1) (midRows poseidon depth z leaves (leaves ++ [leaf]) k),
        node poseidon z (leaves ++ [leaf]) k (leaves.length / 2 ^ k), leaves.length / 2 ^ k⟩ k =
    some ⟨tabulate (depth + 1) (midRows poseidon depth z leaves (leaves ++ [leaf]) (k + 1)),
        node poseidon z (leaves ++ [leaf]) (k + 1) (leaves.length / 2 ^ (k + 1)),
        leaves.length / 2 ^ (k + 1)⟩ := by
  have hk' : k < depth + 1 := by omega
  simp only [insertLevel, tabulate_getElem? _ hk', tabulate_getElem? _ hk, put_tabulate _ _ hk',
    midRows_self, storedRow_of_lt poseidon z leaves hk, place_eq_row, midRows_succ, getD_start,
    div_two_pow_succ, Option.bind_eq_bind, Option.bind_some]

theorem insert_canon (hd : depth < usizeBits) (z : F) {leaves : List F} (leaf : F)
    (hlt : leaves.length < 2 ^ depth) :
    insert poseidon (canon poseidon depth z leaves) leaf =
      some (canon poseidon depth z (leaves ++ [leaf])) := by
  obtain ⟨s, hs, rfl⟩ := Loop.foldlM_range (n := depth)
    (f := insertLevel poseidon (tabulate depth (empty poseidon z)))
    (s := ⟨tabulate (depth + 1) (storedRow poseidon depth z leaves), leaf, leaves.length⟩)
    (P := fun k s => s =
      ⟨tabulate (depth + 1) (midRows poseidon depth z leaves (leaves ++ [leaf]) k),
        node poseidon z (leaves ++ [leaf]) k (leaves.length / 2 ^ k), leaves.length / 2 ^ k⟩)
    (by
      have hrows : midRows poseidon depth z leaves (leaves ++ [leaf]) 0 =
          storedRow poseidon depth z leaves := by
        funext i
        simp [midRows]
      simp [hrows, List.getD_eq_getElem?_getD])
    (by
      rintro k hk s rfl
      exact ⟨_, insertLevel_eq poseidon hk, rfl⟩)
  have hdiv : leaves.length / 2 ^ depth = 0 := Nat.div_eq_of_lt hlt
  have htop : (if (storedRow poseidon depth z leaves depth).isEmpty = true then
        storedRow poseidon depth z leaves depth ++ [node poseidon z (leaves ++ [leaf]) depth 0]
      else (storedRow poseidon depth z leaves depth).set 0
        (node poseidon z (leaves ++ [leaf]) depth 0)) = row poseidon z (leaves ++ [leaf]) depth := by
    rw [row_top poseidon z (by simp) (by simp; omega)]
    by_cases hpos : depth ≠ 0 ∨ leaves ≠ []
    · rw [storedRow_top poseidon z leaves hlt.le hpos]
      simp
    · obtain ⟨rfl, rfl⟩ : depth = 0 ∧ leaves = [] := by tauto
      simp
  have hput := put_tabulate (n := depth + 1) (i := depth)
    (midRows poseidon depth z leaves (leaves ++ [leaf]) depth)
    (row poseidon z (leaves ++ [leaf]) depth) (by omega)
  rw [midRows_succ, tabulate_midRows poseidon _ (by simp)] at hput
  simp only [insert, capacity, canon_depth, canon_leafCount, treeCapacity_ok hd, Except.toOption,
    if_pos hlt, Option.bind_eq_bind, Option.bind_some]
  change Option.bind (List.foldlM _ _ _) _ = _
  simp only [canon, withRows]
  rw [hs]
  simp only [hdiv, Option.pure_def, Option.bind_some, tabulate_getElem? _ (Nat.lt_succ_self depth),
    midRows_self, htop, hput]

theorem foldlM_insert_canon (hd : depth < usizeBits) (z : F) (leaves batch : List F)
    (hfit : leaves.length + batch.length ≤ 2 ^ depth) :
    batch.foldlM (insert poseidon) (canon poseidon depth z leaves) =
      some (canon poseidon depth z (leaves ++ batch)) := by
  induction batch generalizing leaves with
  | nil => simp
  | cons leaf batch ih =>
    rw [List.length_cons] at hfit
    rw [List.foldlM_cons, insert_canon poseidon hd z leaf (by omega), Option.bind_eq_bind,
      Option.bind_some, ih (leaves ++ [leaf]) (by simp; omega), List.append_assoc]
    rfl

theorem storedRow_take {z : F} (leaves batch : List F) (h : Nat) :
    (storedRow poseidon depth z leaves h).take (leaves.length / 2 ^ h) =
      (row poseidon z (leaves ++ batch) h).take (leaves.length / 2 ^ h) := by
  by_cases hne : leaves = []
  · simp [hne]
  · rw [storedRow_of_ne_nil poseidon z leaves hne, row_append_take]

theorem insertManyLevel_eq {z : F} {leaves batch : List F} {k : Nat} (hk : k < depth) :
    insertManyLevel poseidon (tabulate depth (empty poseidon z))
      ⟨tabulate (depth + 1) (midRows poseidon depth z leaves (leaves ++ batch) (k + 1)),
        leaves.length / 2 ^ k⟩ k =
    some ⟨tabulate (depth + 1) (midRows poseidon depth z leaves (leaves ++ batch) (k + 1 + 1)),
        leaves.length / 2 ^ (k + 1)⟩ := by
  have hk₀ : k < depth + 1 := by omega
  have hk₁ : k + 1 < depth + 1 := by omega
  have hrow : midRows poseidon depth z leaves (leaves ++ batch) (k + 1) k =
      row poseidon z (leaves ++ batch) k := by simp [midRows]
  have hfit : ¬ (row poseidon z (leaves ++ batch) k).length < 2 * (leaves.length / 2 ^ (k + 1)) := by
    have h1 := div_le_width leaves.length k
    have h2 := width_mono (m := leaves.length) (n := (leaves ++ batch).length) (by simp) k
    rw [row_length, div_two_pow_succ]
    omega
  have hrun : (storedRow poseidon depth z leaves (k + 1)).take (leaves.length / 2 ^ (k + 1)) ++
      buildParentLevel poseidon ((row poseidon z (leaves ++ batch) k).drop
        (2 * (leaves.length / 2 ^ (k + 1)))) (empty poseidon z k) =
      row poseidon z (leaves ++ batch) (k + 1) := by
    rw [storedRow_take, buildParentLevel, pairUp_drop, ← row_succ, List.take_append_drop]
  simp only [insertManyLevel, div_two_pow_shiftRight, tabulate_getElem? _ hk₀, tabulate_getElem? _ hk₁,
    tabulate_getElem? _ hk, hrow, hfit, if_false, midRows_self, hrun, put_tabulate _ _ hk₁,
    midRows_succ, Option.bind_eq_bind, Option.bind_some]

theorem update_row_zero {z : F} {leaves new : List F} :
    Function.update (storedRow poseidon depth z leaves) 0 new =
      midRows poseidon depth z leaves new 1 := by
  funext i
  rw [Function.update_apply]
  by_cases hi : i = 0
  · subst hi
    simp [midRows]
  · simp [midRows, hi]

theorem insertMany_canon (hd : depth < usizeBits) (z : F) (leaves batch : List F) :
    insertMany poseidon (canon poseidon depth z leaves) batch =
      if 2 ^ depth - leaves.length < batch.length then
        some (.error (.treeFull depth), canon poseidon depth z leaves)
      else some (.ok (), canon poseidon depth z (leaves ++ batch)) := by
  simp only [insertMany, capacity, canon_depth, canon_leafCount, canon_leaves, treeCapacity_ok hd]
  split
  · rfl
  by_cases hb : batch = []
  · simp [hb]
  obtain ⟨s, hs, rfl⟩ := Loop.foldlM_range (n := depth)
    (f := insertManyLevel poseidon (tabulate depth (empty poseidon z)))
    (s := ⟨tabulate (depth + 1) (midRows poseidon depth z leaves (leaves ++ batch) 1),
      leaves.length⟩)
    (P := fun k s => s =
      ⟨tabulate (depth + 1) (midRows poseidon depth z leaves (leaves ++ batch) (k + 1)),
        leaves.length / 2 ^ k⟩)
    (by simp)
    (by
      rintro k hk s rfl
      exact ⟨_, insertManyLevel_eq poseidon hk, rfl⟩)
  have hput : (canon poseidon depth z leaves).nodes.put 0 (leaves ++ batch) =
      some (tabulate (depth + 1) (midRows poseidon depth z leaves (leaves ++ batch) 1)) := by
    rw [← update_row_zero]
    exact put_tabulate _ _ (by omega)
  simp only [List.isEmpty_iff, hb, if_false, hput, Option.bind_eq_bind, Option.bind_some]
  change Option.bind (List.foldlM _ _ _) _ = _
  rw [show (canon poseidon depth z leaves).zeroes = tabulate depth (empty poseidon z) from rfl, hs]
  simp only [Option.pure_def, Option.bind_some, tabulate_midRows poseidon (leaves ++ batch)
    (by simp [hb])]
  rfl

theorem updateLevel_eq {z : F} {leaves : List F} {index : Nat} {leaf : F} {k : Nat} (hk : k < depth)
    (hindex : index < leaves.length) :
    updateLevel poseidon (tabulate depth (empty poseidon z))
      ⟨tabulate (depth + 1) (midRows poseidon depth z leaves (leaves.set index leaf) (k + 1)),
        index / 2 ^ k⟩ k =
    some ⟨tabulate (depth + 1) (midRows poseidon depth z leaves (leaves.set index leaf) (k + 1 + 1)),
        index / 2 ^ (k + 1)⟩ := by
  have hk₀ : k < depth + 1 := by omega
  have hk₁ : k + 1 < depth + 1 := by omega
  have hne : leaves ≠ [] := by
    rintro rfl
    simp at hindex
  have hrow : midRows poseidon depth z leaves (leaves.set index leaf) (k + 1) k =
      row poseidon z (leaves.set index leaf) k := by simp [midRows]
  have hput : (row poseidon z leaves (k + 1)).put (index / 2 ^ (k + 1))
      (node poseidon z (leaves.set index leaf) (k + 1) (index / 2 ^ (k + 1))) =
      some (row poseidon z (leaves.set index leaf) (k + 1)) := by
    have hwidth : index / 2 ^ (k + 1) < width leaves.length (k + 1) := by
      rw [lt_width]
      exact lt_of_le_of_lt (Nat.div_mul_le_self index _) hindex
    rw [put_of_lt (by simpa using hwidth), ← row_set poseidon z leaves leaf hindex]
  simp only [updateLevel, div_two_pow_shiftRight, tabulate_getElem? _ hk₀, tabulate_getElem? _ hk₁,
    tabulate_getElem? _ hk, hrow, midRows_self, storedRow_of_ne_nil poseidon z leaves hne,
    getD_start, ← div_two_pow_succ, hput, put_tabulate _ _ hk₁, midRows_succ, Option.bind_eq_bind,
    Option.bind_some]

theorem update_canon (z : F) (leaves : List F) (index : Nat) (leaf : F) :
    update poseidon (canon poseidon depth z leaves) index leaf =
      if leaves.length ≤ index then
        some (.error (.leafIndexOutOfRange index leaves.length), canon poseidon depth z leaves)
      else some (.ok (), canon poseidon depth z (leaves.set index leaf)) := by
  simp only [update, canon_leafCount, canon_leaves]
  split
  · rfl
  rename_i hlt
  have hindex : index < leaves.length := by omega
  obtain ⟨s, hs, rfl⟩ := Loop.foldlM_range (n := depth)
    (f := updateLevel poseidon (tabulate depth (empty poseidon z)))
    (s := ⟨tabulate (depth + 1) (midRows poseidon depth z leaves (leaves.set index leaf) 1),
      index⟩)
    (P := fun k s => s =
      ⟨tabulate (depth + 1) (midRows poseidon depth z leaves (leaves.set index leaf) (k + 1)),
        index / 2 ^ k⟩)
    (by simp)
    (by
      rintro k hk s rfl
      exact ⟨_, updateLevel_eq poseidon hk hindex, rfl⟩)
  have hput : (canon poseidon depth z leaves).nodes.put 0 (leaves.set index leaf) =
      some (tabulate (depth + 1) (midRows poseidon depth z leaves (leaves.set index leaf) 1)) := by
    rw [← update_row_zero]
    exact put_tabulate _ _ (by omega)
  have hne : leaves.set index leaf ≠ [] := by
    intro h
    have := congrArg List.length h
    simp only [List.length_set, List.length_nil] at this
    omega
  simp only [hput, Option.bind_eq_bind, Option.bind_some, canon_depth]
  change Option.bind (List.foldlM _ _ _) _ = _
  rw [show (canon poseidon depth z leaves).zeroes = tabulate depth (empty poseidon z) from rfl, hs]
  simp only [Option.pure_def, Option.bind_some, tabulate_midRows poseidon _ hne]
  rfl

theorem truncate_canon (hd : depth < usizeBits) (z : F) {leaves : List F} (leafCount : Nat)
    (hle : leaves.length ≤ 2 ^ depth) :
    truncate poseidon (canon poseidon depth z leaves) leafCount =
      if leaves.length < leafCount then
        some (.error (.leafIndexOutOfRange leafCount leaves.length), canon poseidon depth z leaves)
      else some (.ok (), canon poseidon depth z (leaves.take leafCount)) := by
  have htake : (leaves.take leafCount).length ≤ 2 ^ depth := by
    rw [List.length_take]
    omega
  simp only [truncate, canon_leafCount, canon_leaves, canon_depth, canon_zeroLeaf,
    fromLeavesWithZero_eq poseidon hd z htake, Option.bind_eq_bind, Option.bind_some]

/-! ### Queries -/

theorem createProof_canon (z : F) {leaves : List F} {index : Nat} (hle : leaves.length ≤ 2 ^ depth)
    (hindex : index < leaves.length) :
    createProof (canon poseidon depth z leaves) index =
      some ⟨leaves.getD index z, index, path poseidon z leaves depth index,
        node poseidon z leaves depth 0⟩ := by
  have hleaf : leaves[index]? = some (leaves.getD index z) := by
    simp [List.getD_eq_getElem?_getD, hindex]
  simp only [createProof, canon_leaves, canon_depth, hleaf, canon_root poseidon _ z leaves hle,
    Option.bind_eq_bind, Option.bind_some]
  rw [Loop.mapM_range (g := fun level => node poseidon z leaves level (sibling (index / 2 ^ level)))]
  · rfl
  · intro level hlevel
    simp only [canon_nodes_getElem? poseidon _ _ _ hlevel.le,
      canon_zeroes_getElem? poseidon _ _ _ hlevel, storedRow_of_lt poseidon z leaves hlevel,
      Option.bind_some, row_getD]
    rfl

end Curvy.Imt
