import Curvy.Core.ImtRows

/-!
# Runs of Imt mutations

The abstract tree is its leaf list. `step` is one call of a mutating method; a run
stops at a panic. Every tree a run reaches is the bulk-built tree of the list the same
calls produce.
-/

namespace Curvy.Imt

set_option autoImplicit false

open PerfectTree

variable {F : Type} (poseidon : F → F → F)

inductive Op (F : Type) where
  | insert (leaf : F)
  | insertMany (leaves : List F)
  | update (index : Nat) (leaf : F)
  | truncate (leafCount : Nat)

/-- The effect of a call on the leaf list. A refused call has none. -/
def Op.leaves {F : Type} (depth : Nat) (leaves : List F) : Op F → List F
  | .insert leaf => leaves ++ [leaf]
  | .insertMany batch => if leaves.length + batch.length ≤ 2 ^ depth then leaves ++ batch else leaves
  | .update index leaf => leaves.set index leaf
  | .truncate leafCount => leaves.take leafCount

def step (t : Imt F) : Op F → Option (Except TreeError Unit × Imt F)
  | .insert leaf => (insert poseidon t leaf).map fun t => (.ok (), t)
  | .insertMany leaves => insertMany poseidon t leaves
  | .update index leaf => update poseidon t index leaf
  | .truncate leafCount => truncate poseidon t leafCount

def run (t : Imt F) (ops : List (Op F)) : Option (Imt F) :=
  ops.foldlM (fun t op => (step poseidon t op).map Prod.snd) t

section Steps
variable {depth : Nat} {z : F} {leaves : List F}

theorem Op.leaves_length_le (op : Op F) (hle : leaves.length ≤ 2 ^ depth)
    (hinsert : ∀ leaf, op = .insert leaf → leaves.length < 2 ^ depth) :
    (op.leaves depth leaves).length ≤ 2 ^ depth := by
  cases op with
  | insert leaf =>
    have := hinsert leaf rfl
    simp only [Op.leaves, List.length_append, List.length_singleton]
    omega
  | insertMany batch =>
    simp only [Op.leaves]
    split
    · simpa using ‹_›
    · exact hle
  | update index leaf => simpa [Op.leaves] using hle
  | truncate leafCount =>
    simp only [Op.leaves, List.length_take]
    omega

theorem insert_canon_full (hd : depth < usizeBits) (leaf : F) (hfull : 2 ^ depth ≤ leaves.length) :
    insert poseidon (canon poseidon depth z leaves) leaf = none := by
  simp only [insert, capacity, canon_depth, canon_leafCount, treeCapacity_ok hd, Except.toOption,
    Option.bind_eq_bind, Option.bind_some, if_neg (Nat.not_lt.mpr hfull)]

/-- What one call does: an insert panics on a full tree; every other call returns, with
the bulk-built tree of the new leaf list, and with the old tree on an error. -/
theorem step_canon (hd : depth < usizeBits) (op : Op F) (hle : leaves.length ≤ 2 ^ depth) :
    ((∃ leaf, op = .insert leaf) ∧ leaves.length = 2 ^ depth ∧
      step poseidon (canon poseidon depth z leaves) op = none) ∨
    ((∀ leaf, op = .insert leaf → leaves.length < 2 ^ depth) ∧
      ∃ r, step poseidon (canon poseidon depth z leaves) op =
          some (r, canon poseidon depth z (op.leaves depth leaves)) ∧
        ∀ e, r = .error e → op.leaves depth leaves = leaves) := by
  cases op with
  | insert leaf =>
    by_cases hlt : leaves.length < 2 ^ depth
    · refine Or.inr ⟨fun _ _ => hlt, .ok (), ?_, fun e h => by cases h⟩
      simp [step, insert_canon poseidon hd z leaf hlt, Op.leaves]
    · refine Or.inl ⟨⟨leaf, rfl⟩, by omega, ?_⟩
      simp [step, insert_canon_full poseidon hd leaf (by omega : 2 ^ depth ≤ leaves.length)]
  | insertMany batch =>
    refine Or.inr ⟨fun _ h => (by cases h), ?_⟩
    simp only [step, insertMany_canon poseidon hd, Op.leaves]
    by_cases hfit : leaves.length + batch.length ≤ 2 ^ depth
    · rw [if_neg (by omega), if_pos hfit]
      exact ⟨_, rfl, fun e h => by cases h⟩
    · rw [if_pos (by omega), if_neg hfit]
      exact ⟨_, rfl, fun _ _ => rfl⟩
  | update index leaf =>
    refine Or.inr ⟨fun _ h => (by cases h), ?_⟩
    simp only [step, update_canon, Op.leaves]
    by_cases hindex : leaves.length ≤ index
    · rw [if_pos hindex, List.set_eq_of_length_le hindex]
      exact ⟨_, rfl, fun _ _ => rfl⟩
    · rw [if_neg hindex]
      exact ⟨_, rfl, fun e h => by cases h⟩
  | truncate leafCount =>
    refine Or.inr ⟨fun _ h => (by cases h), ?_⟩
    simp only [step, truncate_canon poseidon hd z leafCount hle, Op.leaves]
    by_cases hcount : leaves.length < leafCount
    · rw [if_pos hcount, List.take_of_length_le hcount.le]
      exact ⟨_, rfl, fun _ _ => rfl⟩
    · rw [if_neg hcount]
      exact ⟨_, rfl, fun e h => by cases h⟩

theorem run_canon (hd : depth < usizeBits) {t : Imt F} (ops : List (Op F))
    (hle : leaves.length ≤ 2 ^ depth)
    (hrun : run poseidon (canon poseidon depth z leaves) ops = some t) :
    t = canon poseidon depth z (ops.foldl (Op.leaves depth) leaves) ∧
      (ops.foldl (Op.leaves depth) leaves).length ≤ 2 ^ depth := by
  induction ops generalizing leaves with
  | nil =>
    simp only [run, List.foldlM_nil, Option.pure_def, Option.some.injEq] at hrun
    exact ⟨hrun.symm, hle⟩
  | cons op ops ih =>
    rw [run, List.foldlM_cons] at hrun
    rcases step_canon poseidon (z := z) hd op hle with ⟨_, _, hstep⟩ | ⟨hinsert, r, hstep, _⟩
    · simp [hstep] at hrun
    · simp only [hstep, Option.map_some, Option.bind_eq_bind, Option.bind_some] at hrun
      exact ih (op.leaves_length_le hle hinsert) hrun

end Steps

theorem fromLeavesWithZero_some {depth : Nat} {z : F} {leaves : List F} {t : Imt F}
    (h : fromLeavesWithZero poseidon depth z leaves = some t) :
    depth < usizeBits ∧ leaves.length ≤ 2 ^ depth ∧ t = canon poseidon depth z leaves := by
  have hd : depth < usizeBits := by
    by_contra hd
    simp [fromLeavesWithZero, treeCapacity, hd, Except.toOption] at h
  have hle : leaves.length ≤ 2 ^ depth := by
    by_contra hle
    simp [fromLeavesWithZero, treeCapacity_ok hd, Except.toOption, Nat.not_le.mp hle] at h
  rw [fromLeavesWithZero_eq poseidon hd z hle] at h
  exact ⟨hd, hle, (Option.some.inj h).symm⟩

/-- Every tree reached by a run is the bulk-built tree of the current leaf list, its root
is the padded root, errors change nothing and only an insert into a full tree panics. -/
theorem run_keeps_rows {depth : Nat} {z : F} {initial : List F} {t₀ t : Imt F} (ops : List (Op F))
    (hstart : fromLeavesWithZero poseidon depth z initial = some t₀)
    (hrun : run poseidon t₀ ops = some t) :
    t.leaves = ops.foldl (Op.leaves depth) initial ∧
    fromLeavesWithZero poseidon depth z t.leaves = some t ∧
    t.root = some (node poseidon z t.leaves depth 0) ∧
    ∀ op, (step poseidon t op = none ↔ (∃ leaf, op = .insert leaf) ∧ t.leafCount = 2 ^ depth) ∧
      ∀ e t', step poseidon t op = some (.error e, t') → t' = t := by
  obtain ⟨hd, hle, rfl⟩ := fromLeavesWithZero_some poseidon hstart
  obtain ⟨rfl, hle'⟩ := run_canon poseidon hd ops hle hrun
  rw [canon_leaves]
  refine ⟨rfl, fromLeavesWithZero_eq poseidon hd z hle', canon_root poseidon depth z _ hle', ?_⟩
  intro op
  rcases step_canon poseidon (z := z) hd op hle' with ⟨hop, hfull, hstep⟩ | ⟨hinsert, r, hstep, herr⟩
  · simp [hstep, hop, hfull]
  · rw [hstep, canon_leafCount]
    refine ⟨⟨fun h => (by cases h), ?_⟩, ?_⟩
    · rintro ⟨⟨leaf, hop⟩, hfull⟩
      exact absurd hfull (Nat.ne_of_lt (hinsert leaf hop))
    · rintro e t' heq
      obtain ⟨rfl, rfl⟩ := Prod.mk.inj (Option.some.inj heq)
      rw [herr e rfl]

/-- A run that grows past an odd batch, updates, truncates and is refused twice. -/
theorem run_keeps_rows_example :
    ∃ t : Imt Nat, t.leaves = [7, 9, 3] ∧
      fromLeavesWithZero (fun a b => 2 * a + 3 * b) 2 5 [7, 9, 3] = some t ∧
      t.root = some (node (fun a b => 2 * a + 3 * b) 5 [7, 9, 3] 2 0) := by
  have h := run_keeps_rows (fun a b : Nat => 2 * a + 3 * b)
    [.insertMany [1, 2, 3], .update 1 9, .insertMany [4, 4], .insert 6, .update 0 7, .truncate 3,
      .truncate 4]
    (show fromLeavesWithZero _ 2 5 [] = some _ from rfl) rfl
  exact ⟨_, h.1, h.2.1, h.2.2.1⟩

end Curvy.Imt
