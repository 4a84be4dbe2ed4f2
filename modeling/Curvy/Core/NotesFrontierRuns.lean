import Curvy.Core.ImtRuns
import Curvy.Core.NotesFrontier
import Curvy.Lib.TreeFrontier

/-!
# The notes frontier against the full tree

`ofLeaves` is the frontier of a leaf list. Every operation maps it to the frontier of
the extended list and answers as the `Imt` over that list.
-/

namespace Curvy.NotesFrontier

set_option autoImplicit false

open PerfectTree List

variable {F : Type} [Zero F] (poseidon : F → F → F)

def ofLeaves (depth shardHeight : Nat) (leaves : List F) : NotesFrontier F where
  depth := depth
  shardHeight := shardHeight
  shardSize := 2 ^ shardHeight
  leafCount := leaves.length
  frontier := tabulate (depth + 1) (slot poseidon 0 leaves)
  zeroes := tabulate (depth + 1) (empty poseidon 0)

theorem new_eq {depth shardHeight : Nat} (hpos : 0 < shardHeight) (hlt : shardHeight < depth)
    (hd : depth < usizeBits) :
    new poseidon depth shardHeight = .ok (ofLeaves poseidon depth shardHeight []) := by
  have hgeo : ¬ (shardHeight = 0 ∨ depth ≤ shardHeight) := by omega
  have hs : shardHeight < usizeBits := by omega
  have hslots : List.replicate (depth + 1) (none : Option F) =
      tabulate (depth + 1) (slot poseidon 0 []) := by
    simp [tabulate, funext (slot_nil poseidon (0 : F))]
  simp only [new, hgeo, if_false, treeCapacity_ok hd, treeCapacity_ok hs, Imt.zeroRoots_eq, bind,
    Except.bind, pure, Except.pure, hslots]
  rfl

theorem new_eq_ok {depth shardHeight : Nat} {f : NotesFrontier F}
    (h : new poseidon depth shardHeight = .ok f) :
    0 < shardHeight ∧ shardHeight < depth ∧ depth < usizeBits ∧
      f = ofLeaves poseidon depth shardHeight [] := by
  by_cases hgeo : shardHeight = 0 ∨ depth ≤ shardHeight
  · simp [new, hgeo, throw, throwThe, MonadExceptOf.throw, bind, Except.bind] at h
  have hd : depth < usizeBits := by
    by_contra hd
    by_cases hs : shardHeight < usizeBits <;>
      simp [new, hgeo, treeCapacity, hd, hs, bind, Except.bind] at h
  rw [new_eq poseidon (by omega) (by omega) hd] at h
  exact ⟨by omega, by omega, hd, (Except.ok.inj h).symm⟩

/-! ### Queries -/

section Queries
variable {depth shardHeight : Nat} {leaves : List F}

theorem and_one_eq_zero {n : Nat} : n &&& 1 = 0 ↔ n % 2 = 0 := by rw [Nat.and_one_is_mod]

theorem and_one_eq_one {n : Nat} : n &&& 1 = 1 ↔ n % 2 = 1 := by rw [Nat.and_one_is_mod]

theorem rootLevel_eq {k : Nat} (hk : k < depth) :
    rootLevel poseidon (ofLeaves poseidon depth shardHeight leaves)
      (node poseidon 0 leaves k (leaves.length / 2 ^ k), leaves.length / 2 ^ k) k =
    some (node poseidon 0 leaves (k + 1) (leaves.length / 2 ^ (k + 1)),
      leaves.length / 2 ^ (k + 1)) := by
  have hk' : k < depth + 1 := by omega
  simp only [rootLevel, ofLeaves, tabulate_getElem? _ hk', Option.bind_eq_bind, Option.bind_some,
    and_one_eq_one, div_two_pow_shiftRight,
    node_boundary_succ poseidon 0 (Nat.le_succ leaves.length) k]
  by_cases hodd : leaves.length / 2 ^ k % 2 = 1
  · simp only [hodd, if_true, slot_of_odd poseidon 0 hodd, Option.getD_some]
  · simp only [hodd, if_false]

theorem root_ofLeaves (hd : depth < usizeBits) (hle : leaves.length ≤ 2 ^ depth) :
    root poseidon (ofLeaves poseidon depth shardHeight leaves) =
      some (node poseidon 0 leaves depth 0) := by
  have htop : depth < depth + 1 := by omega
  unfold root
  simp only [show (ofLeaves poseidon depth shardHeight leaves).depth = depth from rfl,
    show (ofLeaves poseidon depth shardHeight leaves).leafCount = leaves.length from rfl,
    treeCapacity_ok hd, Except.toOption, Option.getD_some]
  by_cases hfull : leaves.length = 2 ^ depth
  · simp [hfull, ofLeaves, slot]
  · rw [if_neg hfull]
    obtain ⟨s, hs, rfl⟩ := Loop.foldlM_range (n := depth)
      (f := rootLevel poseidon (ofLeaves poseidon depth shardHeight leaves))
      (s := (0, leaves.length))
      (P := fun k s => s =
        (node poseidon 0 leaves k (leaves.length / 2 ^ k), leaves.length / 2 ^ k))
      (by simp)
      (by
        rintro k hk s rfl
        exact ⟨_, rootLevel_eq poseidon hk, rfl⟩)
    have hzero : (ofLeaves poseidon depth shardHeight leaves).zeroes[0]? = some 0 :=
      tabulate_getElem? _ (by omega)
    have hdiv : leaves.length / 2 ^ depth = 0 := Nat.div_eq_of_lt (by omega)
    rw [hzero, Option.bind_eq_bind, Option.bind_some, hs, hdiv]
    rfl

theorem collect_eq {α : Type} {n : Nat} {item : Nat → Option (Except TreeError α)} {g : Nat → α}
    (h : ∀ i, i < n → item i = some (.ok (g i))) : collect n item = some (.ok (tabulate n g)) := by
  unfold collect
  rw [Loop.mapM_range (g := g)]
  · rfl
  · intro i hi
    rw [h i hi]
    rfl

variable (shardHeight leaves) in
theorem siblingAt_eq {level : Nat} (hlevel : level < depth) :
    siblingAt (ofLeaves poseidon depth shardHeight leaves) level =
      some (.ok ((slot poseidon 0 leaves level).getD (empty poseidon 0 level))) := by
  have hlevel' : level < depth + 1 := by omega
  simp only [siblingAt, ofLeaves, tabulate_getElem? _ hlevel', and_one_eq_zero,
    Nat.shiftRight_eq_div_pow, Option.map_some]
  unfold slot
  by_cases hodd : leaves.length / 2 ^ level % 2 = 1
  · simp [hodd]
  · simp [Nat.mod_two_not_eq_one.mp hodd]

variable (shardHeight leaves) in
theorem frontierAt_eq {level : Nat} (hlevel : level < depth) :
    frontierAt (ofLeaves poseidon depth shardHeight leaves) level =
      some (.ok ((slot poseidon 0 leaves level).getD 0)) := by
  have hlevel' : level < depth + 1 := by omega
  simp only [frontierAt, ofLeaves, tabulate_getElem? _ hlevel', and_one_eq_zero,
    Nat.shiftRight_eq_div_pow, Option.map_some]
  unfold slot
  by_cases hodd : leaves.length / 2 ^ level % 2 = 1
  · simp [hodd]
  · simp [Nat.mod_two_not_eq_one.mp hodd]

theorem nextLeafFrontier_ofLeaves (hd : depth < usizeBits) :
    nextLeafFrontier (ofLeaves poseidon depth shardHeight leaves) =
      if 2 ^ depth ≤ leaves.length then some (.error (.treeFull depth))
      else some (.ok (tabulate depth fun level => (slot poseidon 0 leaves level).getD 0)) := by
  have h := collect_eq fun level hlevel =>
    frontierAt_eq poseidon shardHeight leaves (show level < depth from hlevel)
  simp only [nextLeafFrontier, show (ofLeaves poseidon depth shardHeight leaves).depth = depth from rfl,
    show (ofLeaves poseidon depth shardHeight leaves).leafCount = leaves.length from rfl,
    treeCapacity_ok hd, h]

theorem imt_nextLeafFrontier (hd : depth < usizeBits) :
    (Imt.canon poseidon depth 0 leaves).nextLeafFrontier =
      if 2 ^ depth ≤ leaves.length then some (.error (.treeFull depth))
      else some (.ok (tabulate depth fun level => (slot poseidon 0 leaves level).getD 0)) := by
  simp only [Imt.nextLeafFrontier, Imt.capacity, Imt.canon_depth, Imt.canon_leafCount,
    treeCapacity_ok hd]
  split
  · rfl
  rw [Loop.mapM_range (g := fun level => (slot poseidon 0 leaves level).getD 0)]
  · rfl
  intro level hlevel
  simp only [Imt.canon_nodes_getElem? poseidon _ _ _ hlevel.le,
    Imt.storedRow_of_lt poseidon 0 leaves hlevel, and_one_eq_one, Nat.shiftRight_eq_div_pow,
    Option.bind_eq_bind, Option.bind_some]
  unfold slot
  by_cases hodd : leaves.length / 2 ^ level % 2 = 1
  · have hwidth : leaves.length / 2 ^ level - 1 < width leaves.length level := by
      have := div_le_width leaves.length level
      have := pred_lt_of_odd hodd
      omega
    simp only [hodd, if_true, row_getElem?, hwidth, Option.getD_some, Option.pure_def]
  · simp [hodd]

end Queries

/-! ### Appends -/

/-- The descriptor of shard `s` of a leaf list. -/
def shardOf (shardHeight : Nat) (leaves : List F) (s : Nat) : CompletedShard F :=
  ⟨s, node poseidon 0 leaves shardHeight s⟩

/-- The descriptor emitted when `leaf` is appended: of the shard it completes, if any. -/
def completion (shardHeight : Nat) (leaves : List F) (leaf : F) : Option (CompletedShard F) :=
  if (leaves.length + 1) % 2 ^ shardHeight = 0 then
    some (shardOf poseidon shardHeight (leaves ++ [leaf]) (leaves.length / 2 ^ shardHeight))
  else none

/-- All shards completed by a leaf list. -/
def completedShards (shardHeight : Nat) (leaves : List F) : List (CompletedShard F) :=
  tabulate (leaves.length / 2 ^ shardHeight) (shardOf poseidon shardHeight leaves)

theorem completedShards_append (shardHeight : Nat) (leaves : List F) (leaf : F) :
    completedShards poseidon shardHeight (leaves ++ [leaf]) =
      completedShards poseidon shardHeight leaves ++
        (completion poseidon shardHeight leaves leaf).toList := by
  have hold : tabulate (leaves.length / 2 ^ shardHeight)
        (shardOf poseidon shardHeight (leaves ++ [leaf])) =
      completedShards poseidon shardHeight leaves := by
    apply tabulate_congr
    intro s hs
    rw [shardOf, shardOf, node_append_of_lt poseidon 0 hs]
  unfold completion
  split
  · rename_i hdvd
    have hcount := ((carries_iff_dvd _ _).mpr hdvd).div_eq
    rw [completedShards, List.length_append, List.length_singleton, hcount, tabulate_succ, hold]
    rfl
  · rename_i hdvd
    have hcount : (leaves.length + 1) / 2 ^ shardHeight = leaves.length / 2 ^ shardHeight := by
      rw [Nat.succ_div_of_not_dvd fun h => hdvd (Nat.mod_eq_zero_of_dvd h)]
    rw [completedShards, List.length_append, List.length_singleton, hcount, hold]
    simp

section Append
variable {depth shardHeight : Nat} {leaves : List F} {leaf : F}

/-- The loop state on reaching level `k`: the slots below `k` are taken. -/
def carried (depth shardHeight : Nat) (leaves : List F) (leaf : F) (k : Nat) : Carry F where
  frontier := tabulate (depth + 1) fun h => if h < k then none else slot poseidon 0 leaves h
  cursor := leaves.length / 2 ^ k
  node := node poseidon 0 (leaves ++ [leaf]) k (leaves.length / 2 ^ k)
  completedShard := if shardHeight ≤ k then
    some (shardOf poseidon shardHeight (leaves ++ [leaf]) (leaves.length / 2 ^ shardHeight))
    else none

variable (depth leaf) in
theorem completion_of_carries {k : Nat} (hc : Carries leaves.length k)
    (heven : leaves.length / 2 ^ k % 2 = 0) :
    (carried poseidon depth shardHeight leaves leaf k).completedShard =
      completion poseidon shardHeight leaves leaf := by
  have hiff : shardHeight ≤ k ↔ (leaves.length + 1) % 2 ^ shardHeight = 0 := by
    constructor
    · intro hle
      have hk := (carries_iff_dvd _ _).mp hc
      exact Nat.mod_eq_zero_of_dvd
        ((pow_dvd_pow 2 hle).trans (Nat.dvd_of_mod_eq_zero hk))
    · intro hdvd
      by_contra hlt
      have h1 := ((carries_iff_dvd _ _).mpr hdvd).div_lt (Nat.not_le.mp hlt)
      rw [hc.div_eq] at h1
      omega
  simp only [carried, completion, hiff]

variable (shardHeight leaf) in
theorem carry_eq (hn : leaves.length < 2 ^ depth) {k m : Nat} (hkm : k + m = depth + 1)
    (hk : k ≤ depth) (hc : Carries leaves.length k) :
    ∃ s, carry poseidon shardHeight leaves.length (List.range' k m)
        (carried poseidon depth shardHeight leaves leaf k) = some (.ok (), s) ∧
      s.frontier = tabulate (depth + 1) (slot poseidon 0 (leaves ++ [leaf])) ∧
      s.completedShard = completion poseidon shardHeight leaves leaf := by
  induction m generalizing k with
  | zero => omega
  | succ m ih =>
    have hk' : k < depth + 1 := by omega
    rw [List.range'_succ]
    by_cases heven : leaves.length / 2 ^ k % 2 = 0
    · -- the first clear bit takes the node
      refine ⟨{ carried poseidon depth shardHeight leaves leaf k with
        frontier := tabulate (depth + 1) (slot poseidon 0 (leaves ++ [leaf])) }, ?_, rfl,
        completion_of_carries poseidon depth leaf hc heven⟩
      have hcursor : (carried poseidon depth shardHeight leaves leaf k).cursor &&& 1 = 0 :=
        and_one_eq_zero.mpr heven
      have hput : (carried poseidon depth shardHeight leaves leaf k).frontier.put k
          (some (carried poseidon depth shardHeight leaves leaf k).node) =
          some (tabulate (depth + 1) (slot poseidon 0 (leaves ++ [leaf]))) := by
        refine (put_tabulate _ _ hk').trans (congrArg some (tabulate_congr fun h _ => ?_))
        rw [Function.update_apply, slot_append poseidon 0 hc heven]
        by_cases hh : h = k
        · subst hh
          simp [carried]
        · simp [hh]
      rw [carry]
      simp only [hcursor, if_true, hput, Option.bind_eq_bind, Option.bind_some]
    · -- a set bit merges its slot and carries on
      have hodd : leaves.length / 2 ^ k % 2 = 1 := by omega
      have hcursor : ¬ (carried poseidon depth shardHeight leaves leaf k).cursor &&& 1 = 0 :=
        fun h => heven (and_one_eq_zero.mp h)
      have hlt : k < depth := by
        rcases Nat.lt_or_eq_of_le hk with hlt | rfl
        · exact hlt
        · rw [Nat.div_eq_of_lt hn] at hodd
          omega
      have hslot : (carried poseidon depth shardHeight leaves leaf k).frontier[k]? =
          some (some (node poseidon 0 leaves k (leaves.length / 2 ^ k - 1))) := by
        rw [← slot_of_odd poseidon 0 hodd]
        refine (tabulate_getElem? _ hk').trans ?_
        rw [if_neg (Nat.lt_irrefl k)]
      have hstep : carried poseidon depth shardHeight leaves leaf (k + 1) =
          ⟨(carried poseidon depth shardHeight leaves leaf k).frontier.set k none,
            (carried poseidon depth shardHeight leaves leaf k).cursor >>> 1,
            poseidon (node poseidon 0 leaves k (leaves.length / 2 ^ k - 1))
              (carried poseidon depth shardHeight leaves leaf k).node,
            if k + 1 = shardHeight then some ⟨leaves.length >>> shardHeight,
              poseidon (node poseidon 0 leaves k (leaves.length / 2 ^ k - 1))
                (carried poseidon depth shardHeight leaves leaf k).node⟩
            else (carried poseidon depth shardHeight leaves leaf k).completedShard⟩ := by
        have hnode : node poseidon 0 (leaves ++ [leaf]) (k + 1) (leaves.length / 2 ^ (k + 1)) =
            poseidon (node poseidon 0 leaves k (leaves.length / 2 ^ k - 1))
              (node poseidon 0 (leaves ++ [leaf]) k (leaves.length / 2 ^ k)) := by
          rw [node_boundary_succ poseidon 0 (n := leaves.length) (by simp), if_pos hodd,
            node_append_of_lt poseidon 0 (pred_lt_of_odd hodd)]
        simp only [carried, ← hnode, div_two_pow_shiftRight, tabulate_set, Carry.mk.injEq,
          true_and]
        rw [Nat.shiftRight_eq_div_pow]
        refine ⟨tabulate_congr fun h _ => ?_, ?_⟩
        · rw [Function.update_apply]
          by_cases hh : h = k
          · simp [hh]
          · have : h < k + 1 ↔ h < k := by omega
            simp [hh, this]
        · rcases Nat.lt_trichotomy (k + 1) shardHeight with hlt | rfl | hgt
          · rw [if_neg (by omega), if_neg (by omega), if_neg (by omega)]
          · simp only [le_refl, if_true, shardOf]
          · rw [if_pos (by omega), if_neg (by omega), if_pos (by omega)]
      obtain ⟨s, hs, hres⟩ := ih (k := k + 1) (by omega) (by omega) (hc.succ hodd)
      refine ⟨s, ?_, hres⟩
      rw [carry]
      simp only [hcursor, if_false, hslot, Option.bind_eq_bind, Option.bind_some]
      rw [← hs, hstep]

theorem append_ofLeaves (hd : depth < usizeBits) (hsh : 0 < shardHeight) :
    append poseidon (ofLeaves poseidon depth shardHeight leaves) leaf =
      if 2 ^ depth ≤ leaves.length then
        some (.error (.treeFull depth), ofLeaves poseidon depth shardHeight leaves)
      else some (.ok ⟨leaves.length, completion poseidon shardHeight leaves leaf⟩,
        ofLeaves poseidon depth shardHeight (leaves ++ [leaf])) := by
  simp only [append, show (ofLeaves poseidon depth shardHeight leaves).depth = depth from rfl,
    show (ofLeaves poseidon depth shardHeight leaves).leafCount = leaves.length from rfl,
    show (ofLeaves poseidon depth shardHeight leaves).shardHeight = shardHeight from rfl,
    treeCapacity_ok hd]
  split
  · rfl
  rename_i hroom
  have hinit : carried poseidon depth shardHeight leaves leaf 0 =
      ⟨(ofLeaves poseidon depth shardHeight leaves).frontier, leaves.length, leaf, none⟩ := by
    have hne : ¬ shardHeight ≤ 0 := by omega
    simp [carried, ofLeaves, hne, List.getD_eq_getElem?_getD]
  obtain ⟨s, hs, hfrontier, hcompleted⟩ := carry_eq poseidon shardHeight leaf
    (Nat.not_le.mp hroom) (k := 0) (m := depth + 1) (by omega)
    (Nat.zero_le _) (carries_zero _)
  rw [hinit, ← List.range_eq_range'] at hs
  simp only [hs, Option.bind_eq_bind, Option.bind_some, hfrontier, hcompleted, Option.some.injEq,
    Prod.mk.injEq, true_and]
  simp [ofLeaves]

theorem appendEach_ofLeaves (hd : depth < usizeBits) (hsh : 0 < shardHeight) (leaves batch : List F)
    (done : List (CompletedShard F)) (hfit : leaves.length + batch.length ≤ 2 ^ depth) :
    ∃ emitted, appendEach poseidon batch (ofLeaves poseidon depth shardHeight leaves) done =
        some (.ok (done ++ emitted), ofLeaves poseidon depth shardHeight (leaves ++ batch)) ∧
      completedShards poseidon shardHeight (leaves ++ batch) =
        completedShards poseidon shardHeight leaves ++ emitted := by
  induction batch generalizing leaves done with
  | nil => exact ⟨[], by simp [appendEach], by simp⟩
  | cons leaf batch ih =>
    rw [List.length_cons] at hfit
    obtain ⟨emitted, hrest, hshards⟩ := ih (leaves ++ [leaf])
      (done ++ (completion poseidon shardHeight leaves leaf).toList) (by simp; omega)
    refine ⟨(completion poseidon shardHeight leaves leaf).toList ++ emitted, ?_, ?_⟩
    · rw [appendEach, append_ofLeaves poseidon hd hsh, if_neg (by omega)]
      simp only [Option.bind_eq_bind, Option.bind_some, hrest, List.append_assoc,
        List.singleton_append]
    · rw [completedShards_append, List.append_assoc, List.append_assoc, List.singleton_append]
        at hshards
      exact hshards

/-- The descriptors of the shards completed by appending `batch`, in order. -/
def completions (shardHeight : Nat) (leaves batch : List F) : List (CompletedShard F) :=
  (completedShards poseidon shardHeight (leaves ++ batch)).drop (leaves.length / 2 ^ shardHeight)

theorem appendMany_ofLeaves (hd : depth < usizeBits) (hsh : 0 < shardHeight) (batch : List F)
    (hle : leaves.length ≤ 2 ^ depth) :
    appendMany poseidon (ofLeaves poseidon depth shardHeight leaves) batch =
      if leaves.length + batch.length ≤ 2 ^ depth then
        some (.ok (completions poseidon shardHeight leaves batch),
          ofLeaves poseidon depth shardHeight (leaves ++ batch))
      else some (.error (.treeFull depth), ofLeaves poseidon depth shardHeight leaves) := by
  simp only [appendMany, show (ofLeaves poseidon depth shardHeight leaves).depth = depth from rfl,
    show (ofLeaves poseidon depth shardHeight leaves).leafCount = leaves.length from rfl,
    treeCapacity_ok hd]
  by_cases hfit : leaves.length + batch.length ≤ 2 ^ depth
  · obtain ⟨emitted, heach, hshards⟩ := appendEach_ofLeaves poseidon hd hsh leaves batch [] hfit
    have hemitted : completions poseidon shardHeight leaves batch = emitted := by
      rw [completions, hshards, List.drop_left' (by simp [completedShards])]
    rw [if_neg (by omega), if_pos hfit, heach, hemitted, List.nil_append]
  · rw [if_pos (by omega), if_neg hfit]

theorem appendWithSiblings_ofLeaves (hd : depth < usizeBits) (hsh : 0 < shardHeight) :
    appendWithSiblings poseidon (ofLeaves poseidon depth shardHeight leaves) leaf =
      if 2 ^ depth ≤ leaves.length then
        some (.error (.treeFull depth), ofLeaves poseidon depth shardHeight leaves)
      else some (.ok (⟨leaves.length, completion poseidon shardHeight leaves leaf⟩,
          path poseidon 0 (leaves ++ [leaf]) depth leaves.length),
        ofLeaves poseidon depth shardHeight (leaves ++ [leaf])) := by
  have hsib := collect_eq fun level hlevel =>
    siblingAt_eq poseidon shardHeight leaves (show level < depth from hlevel)
  simp only [appendWithSiblings,
    show (ofLeaves poseidon depth shardHeight leaves).depth = depth from rfl, hsib,
    append_ofLeaves poseidon hd hsh, path_append_singleton, Option.bind_eq_bind, Option.bind_some]
  split
  · rfl
  · rfl

end Append

/-! ### Runs -/

inductive Op (F : Type) where
  | append (leaf : F)
  | appendMany (leaves : List F)
  | appendWithSiblings (leaf : F)
  | appendAll (leaves : List F)

inductive Reply (F : Type) where
  | appended (result : FrontierAppend F)
  | shards (completed : List (CompletedShard F))
  | withSiblings (result : FrontierAppend F) (siblings : List F)
  | done

def Op.items {F : Type} : Op F → List F
  | .append leaf => [leaf]
  | .appendMany leaves => leaves
  | .appendWithSiblings leaf => [leaf]
  | .appendAll leaves => leaves

/-- The effect of a call on the leaf list: all of its items or none. -/
def Op.leaves {F : Type} (depth : Nat) (leaves : List F) (op : Op F) : List F :=
  if leaves.length + op.items.length ≤ 2 ^ depth then leaves ++ op.items else leaves

def step {F : Type} (poseidon : F → F → F) (f : NotesFrontier F) :
    Op F → Option (Except TreeError (Reply F) × NotesFrontier F)
  | .append leaf => (append poseidon f leaf).map fun (r, f) => (r.map .appended, f)
  | .appendMany leaves => (appendMany poseidon f leaves).map fun (r, f) => (r.map .shards, f)
  | .appendWithSiblings leaf => (appendWithSiblings poseidon f leaf).map fun (r, f) =>
      (r.map fun (a, siblings) => .withSiblings a siblings, f)
  | .appendAll leaves => (appendAll poseidon f leaves).map fun (r, f) => (r.map fun _ => .done, f)

/-- The descriptors emitted by the appends a call makes; `appendAll` makes them on its copy. -/
def emitted {F : Type} (poseidon : F → F → F) (f : NotesFrontier F) (op : Op F) :
    Option (List (CompletedShard F)) :=
  let inner := match op with
    | .appendAll leaves => .appendMany leaves
    | op => op
  (step poseidon f inner).map fun
    | (.ok (.appended result), _) => result.completedShard.toList
    | (.ok (.shards completed), _) => completed
    | (.ok (.withSiblings result _), _) => result.completedShard.toList
    | _ => []

/-- A run with the log of everything its appends emitted. -/
def run {F : Type} (poseidon : F → F → F) (f : NotesFrontier F) (ops : List (Op F)) :
    Option (List (CompletedShard F) × NotesFrontier F) :=
  ops.foldlM (fun s op => do
    let log ← emitted poseidon s.2 op
    let (_, f) ← step poseidon s.2 op
    some (s.1 ++ log, f)) ([], f)

section Runs
variable {depth shardHeight : Nat} {leaves : List F}

/-- `shard` carries the root of the Imt over its slice of `leaves`. -/
def Describes (shardHeight : Nat) (leaves : List F) (shard : CompletedShard F) : Prop :=
  ∃ t, Imt.fromLeaves poseidon shardHeight (slice leaves shardHeight shard.shardIndex) = some t ∧
    t.root = some shard.root

/-- The shard an append emits: the one it completes, or none. -/
def EmitsAt (shardHeight : Nat) (leaves : List F) (leaf : F) :
    Option (CompletedShard F) → Prop
  | some shard => (leaves.length + 1) % 2 ^ shardHeight = 0 ∧
      shard.shardIndex = leaves.length / 2 ^ shardHeight ∧
      Describes poseidon shardHeight (leaves ++ [leaf]) shard
  | none => (leaves.length + 1) % 2 ^ shardHeight ≠ 0

/-- The answer to a call on the frontier of `leaves`, in terms of the full tree. -/
def Answers (depth shardHeight : Nat) (leaves : List F) : Op F → Reply F → Prop
  | .append leaf, .appended result =>
    result.leafIndex = leaves.length ∧
      EmitsAt poseidon shardHeight leaves leaf result.completedShard
  | .appendMany batch, .shards completed =>
    completed.map CompletedShard.shardIndex = List.range' (leaves.length / 2 ^ shardHeight)
        ((leaves ++ batch).length / 2 ^ shardHeight - leaves.length / 2 ^ shardHeight) ∧
      ∀ shard ∈ completed, Describes poseidon shardHeight (leaves ++ batch) shard
  | .appendWithSiblings leaf, .withSiblings result siblings =>
    result.leafIndex = leaves.length ∧
      EmitsAt poseidon shardHeight leaves leaf result.completedShard ∧
      ∃ t p, Imt.fromLeaves poseidon depth (leaves ++ [leaf]) = some t ∧
        t.createProof leaves.length = some p ∧ p.siblings = siblings
  | .appendAll _, .done => True
  | _, _ => False

theorem shardOf_describes (hs : shardHeight < usizeBits) (s : Nat) :
    Describes poseidon shardHeight leaves (shardOf poseidon shardHeight leaves s) := by
  have hle : (slice leaves shardHeight s).length ≤ 2 ^ shardHeight := by simp [slice]
  refine ⟨_, Imt.fromLeavesWithZero_eq poseidon hs 0 hle, ?_⟩
  refine (Imt.canon_root poseidon _ _ _ hle).trans ?_
  rw [shardOf, node_slice_root]

theorem completion_emitsAt (hs : shardHeight < usizeBits) (leaf : F) :
    EmitsAt poseidon shardHeight leaves leaf (completion poseidon shardHeight leaves leaf) := by
  unfold completion
  split
  · rename_i hdvd
    exact ⟨hdvd, rfl, shardOf_describes poseidon hs _⟩
  · rename_i hdvd
    exact hdvd

theorem completions_indices (batch : List F) :
    (completions poseidon shardHeight leaves batch).map CompletedShard.shardIndex =
      List.range' (leaves.length / 2 ^ shardHeight)
        ((leaves ++ batch).length / 2 ^ shardHeight - leaves.length / 2 ^ shardHeight) := by
  have hmap : (completedShards poseidon shardHeight (leaves ++ batch)).map
      CompletedShard.shardIndex = List.range ((leaves ++ batch).length / 2 ^ shardHeight) := by
    simp [completedShards, tabulate, shardOf, Function.comp_def]
  rw [completions, List.map_drop, hmap, List.range_eq_range', List.drop_range']
  simp

theorem completions_describes (hs : shardHeight < usizeBits) (batch : List F) :
    ∀ shard ∈ completions poseidon shardHeight leaves batch,
      Describes poseidon shardHeight (leaves ++ batch) shard := by
  intro shard hmem
  obtain ⟨s, _, rfl⟩ := List.mem_map.mp (List.mem_of_mem_drop hmem)
  exact shardOf_describes poseidon hs s

theorem completion_toList (leaf : F) :
    (completion poseidon shardHeight leaves leaf).toList =
      completions poseidon shardHeight leaves [leaf] := by
  rw [completions, completedShards_append, List.drop_left' (by simp [completedShards])]

/-- One call: refused with the frontier unchanged when the items do not fit, else
answered as by the full tree. -/
theorem step_ofLeaves (hd : depth < usizeBits) (hpos : 0 < shardHeight)
    (hs : shardHeight < usizeBits) (hle : leaves.length ≤ 2 ^ depth) (op : Op F) :
    if leaves.length + op.items.length ≤ 2 ^ depth then
      ∃ reply, step poseidon (ofLeaves poseidon depth shardHeight leaves) op =
          some (.ok reply, ofLeaves poseidon depth shardHeight (leaves ++ op.items)) ∧
        Answers poseidon depth shardHeight leaves op reply ∧
        emitted poseidon (ofLeaves poseidon depth shardHeight leaves) op =
          some (completions poseidon shardHeight leaves op.items)
    else
      step poseidon (ofLeaves poseidon depth shardHeight leaves) op =
        some (.error (.treeFull depth), ofLeaves poseidon depth shardHeight leaves) ∧
      emitted poseidon (ofLeaves poseidon depth shardHeight leaves) op = some [] := by
  cases op with
  | append leaf =>
    simp only [step, emitted, Op.items, List.length_singleton, append_ofLeaves poseidon hd hpos]
    by_cases hfit : leaves.length + 1 ≤ 2 ^ depth
    · rw [if_pos hfit, if_neg (by omega)]
      exact ⟨_, rfl, ⟨rfl, completion_emitsAt poseidon hs leaf⟩,
        congrArg some (completion_toList poseidon leaf)⟩
    · rw [if_neg hfit, if_pos (by omega)]
      exact ⟨rfl, rfl⟩
  | appendMany batch =>
    simp only [step, emitted, Op.items, appendMany_ofLeaves poseidon hd hpos batch hle]
    by_cases hfit : leaves.length + batch.length ≤ 2 ^ depth
    · simp only [if_pos hfit]
      exact ⟨_, rfl, ⟨completions_indices poseidon batch, completions_describes poseidon hs batch⟩,
        rfl⟩
    · simp only [if_neg hfit]
      exact ⟨rfl, rfl⟩
  | appendWithSiblings leaf =>
    simp only [step, emitted, Op.items, List.length_singleton,
      appendWithSiblings_ofLeaves poseidon hd hpos]
    by_cases hfit : leaves.length + 1 ≤ 2 ^ depth
    · have hfit' : (leaves ++ [leaf]).length ≤ 2 ^ depth := by simpa using hfit
      rw [if_pos hfit, if_neg (by omega)]
      refine ⟨_, rfl, ⟨rfl, completion_emitsAt poseidon hs leaf, _, _,
        Imt.fromLeavesWithZero_eq poseidon hd 0 hfit',
        Imt.createProof_canon poseidon 0 hfit' (by simp), rfl⟩,
        congrArg some (completion_toList poseidon leaf)⟩
    · rw [if_neg hfit, if_pos (by omega)]
      exact ⟨rfl, rfl⟩
  | appendAll batch =>
    simp only [step, emitted, Op.items, appendAll, appendMany_ofLeaves poseidon hd hpos batch hle]
    by_cases hfit : leaves.length + batch.length ≤ 2 ^ depth
    · simp only [if_pos hfit]
      exact ⟨_, rfl, trivial, rfl⟩
    · simp only [if_neg hfit]
      exact ⟨rfl, rfl⟩

omit [Zero F] in
theorem Op.leaves_length_le (op : Op F) (hle : leaves.length ≤ 2 ^ depth) :
    (op.leaves depth leaves).length ≤ 2 ^ depth := by
  unfold Op.leaves
  split
  · simpa using ‹_›
  · exact hle

theorem run_ofLeaves (hd : depth < usizeBits) (hpos : 0 < shardHeight)
    (hs : shardHeight < usizeBits) (ops : List (Op F)) :
    run poseidon (ofLeaves poseidon depth shardHeight []) ops =
      some (completedShards poseidon shardHeight (ops.foldl (Op.leaves depth) []),
        ofLeaves poseidon depth shardHeight (ops.foldl (Op.leaves depth) [])) ∧
    (ops.foldl (Op.leaves depth) []).length ≤ 2 ^ depth := by
  induction ops using List.reverseRecOn with
  | nil => simp [run, completedShards, tabulate]
  | append_singleton ops op ih =>
    obtain ⟨hrun, hle⟩ := ih
    rw [List.foldl_concat]
    refine ⟨?_, op.leaves_length_le hle⟩
    rw [run] at hrun
    rw [run, List.foldlM_append, hrun]
    generalize ops.foldl (Op.leaves depth) [] = leaves at hle
    have hstep := step_ofLeaves poseidon hd hpos hs hle op
    unfold Op.leaves
    by_cases hfit : leaves.length + op.items.length ≤ 2 ^ depth
    · rw [if_pos hfit] at hstep
      obtain ⟨reply, hstep, _, hemit⟩ := hstep
      have hsplit : completedShards poseidon shardHeight leaves ++
          completions poseidon shardHeight leaves op.items =
          completedShards poseidon shardHeight (leaves ++ op.items) := by
        obtain ⟨emitted, _, hshards⟩ :=
          appendEach_ofLeaves poseidon hd hpos leaves op.items [] hfit
        rw [completions, hshards, List.drop_left' (by simp [completedShards])]
      simp [hemit, hstep, hfit, hsplit]
    · rw [if_neg hfit] at hstep
      simp [hstep.1, hstep.2, hfit]

/-- A frontier reached from the empty one and the full tree over the same leaves. -/
structure Simulates (depth shardHeight : Nat) (leaves : List F) (f : NotesFrontier F)
    (t : Imt F) : Prop where
  tree : Imt.fromLeaves poseidon depth leaves = some t
  leafCount : f.leafCount = leaves.length
  root : f.root poseidon = t.root
  root_eq : t.root = some (node poseidon 0 leaves depth 0)
  nextLeafFrontier : f.nextLeafFrontier = t.nextLeafFrontier
  slots : ∀ level, level ≤ depth →
    ∃ slot, f.frontier[level]? = some slot ∧ (slot.isSome ↔ f.leafCount.testBit level)
  answers : ∀ op : Op F, leaves.length + op.items.length ≤ 2 ^ depth →
    ∃ reply f', step poseidon f op = some (.ok reply, f') ∧
      Answers poseidon depth shardHeight leaves op reply
  refuses : ∀ op : Op F, 2 ^ depth < leaves.length + op.items.length →
    step poseidon f op = some (.error (.treeFull depth), f)

theorem ofLeaves_simulates (hd : depth < usizeBits) (hpos : 0 < shardHeight)
    (hs : shardHeight < usizeBits) (hle : leaves.length ≤ 2 ^ depth) :
    Simulates poseidon depth shardHeight leaves (ofLeaves poseidon depth shardHeight leaves)
      (Imt.canon poseidon depth 0 leaves) where
  tree := Imt.fromLeavesWithZero_eq poseidon hd 0 hle
  leafCount := rfl
  root := by rw [root_ofLeaves poseidon hd hle, Imt.canon_root poseidon _ _ _ hle]
  root_eq := Imt.canon_root poseidon _ _ _ hle
  nextLeafFrontier := by
    rw [nextLeafFrontier_ofLeaves poseidon hd, imt_nextLeafFrontier poseidon hd]
  slots := by
    intro level hlevel
    refine ⟨_, tabulate_getElem? _ (by omega), ?_⟩
    rw [show (ofLeaves poseidon depth shardHeight leaves).leafCount = leaves.length from rfl,
      Nat.testBit_eq_decide_div_mod_eq, slot]
    split <;> simp [*]
  answers := by
    intro op hfit
    have h := step_ofLeaves poseidon hd hpos hs hle op
    rw [if_pos hfit] at h
    obtain ⟨reply, hstep, hanswer, _⟩ := h
    exact ⟨reply, _, hstep, hanswer⟩
  refuses := by
    intro op hfull
    have h := step_ofLeaves poseidon hd hpos hs hle op
    rw [if_neg (by omega)] at h
    exact h.1

/-- Every run from an empty frontier ends, without a panic, in a frontier that simulates
the full tree; its appends emitted each completed shard once and in order. -/
theorem run_simulates {depth shardHeight : Nat} {f₀ : NotesFrontier F}
    (hnew : new poseidon depth shardHeight = .ok f₀) (ops : List (Op F)) :
    ∃ log f t, run poseidon f₀ ops = some (log, f) ∧
      Simulates poseidon depth shardHeight (ops.foldl (Op.leaves depth) []) f t ∧
      log.map CompletedShard.shardIndex = List.range (f.leafCount >>> shardHeight) ∧
      ∀ shard ∈ log, Describes poseidon shardHeight (ops.foldl (Op.leaves depth) []) shard := by
  obtain ⟨hpos, hlt, hd, rfl⟩ := new_eq_ok poseidon hnew
  have hs : shardHeight < usizeBits := by omega
  obtain ⟨hrun, hle⟩ := run_ofLeaves poseidon hd hpos hs ops
  refine ⟨_, _, _, hrun, ofLeaves_simulates poseidon hd hpos hs hle, ?_, ?_⟩
  · rw [Nat.shiftRight_eq_div_pow]
    simp [completedShards, tabulate, shardOf, Function.comp_def, ofLeaves]
  · intro shard hmem
    obtain ⟨s, _, rfl⟩ := List.mem_map.mp hmem
    exact shardOf_describes poseidon hs s

theorem run_simulates_example :
    ∃ log f t, run (fun a b : Nat => 2 * a + 3 * b + 1)
        (ofLeaves (fun a b => 2 * a + 3 * b + 1) 3 1 []) [.append 4, .appendMany [5, 6],
          .appendAll [1, 2, 3, 4, 5, 6], .appendWithSiblings 7] = some (log, f) ∧
      Simulates (fun a b => 2 * a + 3 * b + 1) 3 1 [4, 5, 6, 7] f t := by
  obtain ⟨log, f, t, hrun, hsim, _⟩ := run_simulates (fun a b : Nat => 2 * a + 3 * b + 1)
    (new_eq _ (show 0 < 1 by decide) (show 1 < 3 by decide) (by decide))
    [.append 4, .appendMany [5, 6], .appendAll [1, 2, 3, 4, 5, 6], .appendWithSiblings 7]
  exact ⟨log, f, t, hrun, hsim⟩

end Runs
end Curvy.NotesFrontier
