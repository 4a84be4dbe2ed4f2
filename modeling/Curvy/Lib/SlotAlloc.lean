import Mathlib.Data.Set.Insert
import Mathlib.Data.List.Nodup
import Mathlib.Logic.Function.Basic

/-!
# Slot allocation for straight-line programs

Instruction `i` of a straight-line program reads earlier results and produces result
`i`. A slot is released after the last read of the result it holds and may then be given
to a later result. The invariant says which results still own their slots.
-/

set_option autoImplicit false

namespace SlotAlloc

/-- Slot of each result, last owner of each slot, the free slots and the number of slots. -/
structure State where
  slotOf : Nat → Nat
  owner : Nat → Nat
  free : List Nat
  minted : Nat

namespace State

def release (s : State) (j : Nat) : State := { s with free := s.slotOf j :: s.free }

/-- Gives a slot to result `i`: a released one if there is one, otherwise a new one. -/
def place (s : State) (i : Nat) : State :=
  match s.free with
  | x :: rest =>
    { s with
      slotOf := Function.update s.slotOf i x, owner := Function.update s.owner x i, free := rest }
  | [] =>
    { s with
      slotOf := Function.update s.slotOf i s.minted, owner := Function.update s.owner s.minted i
      minted := s.minted + 1 }

theorem place_slotOf_of_ne (s : State) {i j : Nat} (h : j ≠ i) :
    (s.place i).slotOf j = s.slotOf j := by
  unfold place
  split <;> simp [h]

end State

/-- Every result of `live` owns its slot, and no free slot belongs to one of them. -/
structure Owns (live : Set Nat) (bound : Nat) (s : State) : Prop where
  owned : ∀ j ∈ live, s.slotOf j < s.minted ∧ s.owner (s.slotOf j) = j
  released : ∀ x ∈ s.free, x < s.minted ∧ s.owner x ∉ live
  nodup : s.free.Nodup
  before : ∀ x, x < s.minted → s.owner x < bound

namespace Owns

variable {live : Set Nat} {bound : Nat} {s : State}

theorem lt_bound (h : Owns live bound s) {j : Nat} (hj : j ∈ live) : j < bound := by
  obtain ⟨hlt, howner⟩ := h.owned j hj
  have := h.before _ hlt
  omega

theorem not_free (h : Owns live bound s) {j : Nat} (hj : j ∈ live) : s.slotOf j ∉ s.free := by
  intro hfree
  apply (h.released _ hfree).2
  rw [(h.owned j hj).2]
  exact hj

theorem slotOf_ne (h : Owns live bound s) {j k : Nat} (hj : j ∈ live) (hk : k ∈ live)
    (hne : j ≠ k) : s.slotOf j ≠ s.slotOf k := by
  intro heq
  apply hne
  rw [← (h.owned j hj).2, heq, (h.owned k hk).2]

theorem release (h : Owns live bound s) {j : Nat} (hj : j ∈ live) :
    Owns (live \ {j}) bound (s.release j) where
  owned k hk := h.owned k hk.1
  released := by
    intro x hx
    rcases List.mem_cons.mp hx with rfl | hx
    · refine ⟨(h.owned j hj).1, fun hmem => hmem.2 ?_⟩
      exact (h.owned j hj).2
    · exact ⟨(h.released x hx).1, fun hmem => (h.released x hx).2 hmem.1⟩
  nodup := List.nodup_cons.mpr ⟨h.not_free hj, h.nodup⟩
  before := h.before

/-- The new result joins the owners; the slot it takes belonged to none of them. -/
theorem place (h : Owns live bound s) : Owns (insert bound live) (bound + 1) (s.place bound) := by
  have hnot : bound ∉ live := fun hmem => Nat.lt_irrefl _ (h.lt_bound hmem)
  have hne : ∀ j ∈ live, j ≠ bound := fun j hj heq => hnot (heq ▸ hj)
  unfold State.place
  split
  · rename_i x rest hfree
    obtain ⟨hx, hrest⟩ := List.nodup_cons.mp (hfree ▸ h.nodup)
    have hxfree : x ∈ s.free := by simp [hfree]
    have hsub : ∀ y ∈ rest, y ∈ s.free := fun y hy => by simp [hfree, hy]
    refine ⟨?_, ?_, hrest, ?_⟩
    · intro j hj
      rcases hj with rfl | hj
      · simp [(h.released x hxfree).1]
      · have hslot : s.slotOf j ≠ x := fun heq => h.not_free hj (heq ▸ hxfree)
        simp [hne j hj, hslot, h.owned j hj]
    · intro y hy
      have hyx : y ≠ x := fun heq => hx (heq ▸ hy)
      have hy' := h.released y (hsub y hy)
      have hlt := h.before y hy'.1
      refine ⟨hy'.1, ?_⟩
      simp only [Function.update_of_ne hyx, Set.mem_insert_iff, not_or]
      exact ⟨by omega, hy'.2⟩
    · intro y hy
      have hlt := h.before y hy
      simp only [Function.update_apply]
      split <;> omega
  · rename_i hfree
    refine ⟨?_, by simp [hfree], h.nodup, ?_⟩
    · intro j hj
      rcases hj with rfl | hj
      · simp
      · obtain ⟨hlt, howner⟩ := h.owned j hj
        have hslot : s.slotOf j ≠ s.minted := by omega
        simp only [Function.update_of_ne (hne j hj), Function.update_of_ne hslot]
        exact ⟨by omega, howner⟩
    · intro y hy
      simp only [Function.update_apply]
      split
      · omega
      · have := h.before y (by dsimp only at hy; omega)
        omega

theorem congr {live' : Set Nat} (h : Owns live bound s) (heq : live = live') :
    Owns live' bound s := heq ▸ h

/-- A slot taken from the free list was last owned by a dead result. -/
theorem recycled (h : Owns live bound s) {x : Nat} (hx : x ∈ s.free) :
    x < s.minted ∧ s.owner x < bound ∧ s.owner x ∉ live :=
  ⟨(h.released x hx).1, h.before x (h.released x hx).1, (h.released x hx).2⟩

end Owns

/-! ## Last uses -/

/-- `lastUse j` is the last of the first `n` instructions that reads result `j`, or `j`. -/
structure LastUse (reads : Nat → Set Nat) (n : Nat) (lastUse : Nat → Nat) : Prop where
  covers : ∀ i, i < n → ∀ j ∈ reads i, i ≤ lastUse j
  attained : ∀ j, lastUse j = j ∨ j < lastUse j ∧ lastUse j < n ∧ j ∈ reads (lastUse j)

/-- The earlier results that instruction `i` or a later one still reads. -/
def pending (lastUse : Nat → Nat) (i : Nat) : Set Nat := {j | j < i ∧ i ≤ lastUse j}

/-- The earlier results that an instruction after `i` still reads. -/
def surviving (lastUse : Nat → Nat) (i : Nat) : Set Nat := {j | j < i ∧ i < lastUse j}

section Steps

variable {reads : Nat → Set Nat} {n : Nat} {lastUse : Nat → Nat}

theorem LastUse.initial : LastUse reads 0 id := ⟨fun i hi => by omega, fun _ => .inl rfl⟩

/-- Marking the operands of instruction `n`, each an earlier result. -/
theorem LastUse.mark (h : LastUse reads n lastUse) {lastUse' : Nat → Nat}
    (earlier : ∀ j ∈ reads n, j < n) (read : ∀ j ∈ reads n, lastUse' j = n)
    (other : ∀ j, j ∉ reads n → lastUse' j = lastUse j) : LastUse reads (n + 1) lastUse' where
  covers := by
    intro i hi j hj
    by_cases hread : j ∈ reads n
    · rw [read j hread]
      omega
    · have hin : i ≠ n := fun heq => hread (heq ▸ hj)
      rw [other j hread]
      exact h.covers i (by omega) j hj
  attained := by
    intro j
    by_cases hread : j ∈ reads n
    · rw [read j hread]
      exact .inr ⟨earlier j hread, by omega, hread⟩
    · rw [other j hread]
      rcases h.attained j with heq | ⟨hlt, hn, hmem⟩
      · exact .inl heq
      · exact .inr ⟨hlt, by omega, hmem⟩

theorem LastUse.self_le (h : LastUse reads n lastUse) (j : Nat) : j ≤ lastUse j := by
  rcases h.attained j with heq | ⟨hlt, -⟩ <;> omega

theorem LastUse.mem_pending (h : LastUse reads n lastUse) {i j : Nat} (hi : i < n)
    (hread : j ∈ reads i) (hlt : j < i) : j ∈ pending lastUse i :=
  ⟨hlt, h.covers i hi j hread⟩

/-- What outlives instruction `i` is what it found pending, less the reads that end there. -/
theorem LastUse.mem_surviving_or_read (h : LastUse reads n lastUse) {i j : Nat}
    (hj : j ∈ pending lastUse i) : j ∈ surviving lastUse i ∨ lastUse j = i ∧ j ∈ reads i := by
  obtain ⟨hlt, hle⟩ := hj
  rcases h.attained j with heq | ⟨-, -, hmem⟩
  · omega
  · by_cases hlast : lastUse j = i
    · exact .inr ⟨hlast, hlast ▸ hmem⟩
    · exact .inl ⟨hlt, by omega⟩

theorem surviving_subset_pending (lastUse : Nat → Nat) (i : Nat) :
    surviving lastUse i ⊆ pending lastUse i := fun _ hj => ⟨hj.1, Nat.le_of_lt hj.2⟩

theorem pending_succ_of_lt {i : Nat} (hi : i < lastUse i) :
    pending lastUse (i + 1) = insert i (surviving lastUse i) := by
  ext j
  simp only [pending, surviving, Set.mem_ofPred_eq, Set.mem_insert_iff]
  constructor
  · rintro ⟨hlt, hle⟩
    by_cases heq : j = i
    · exact .inl heq
    · exact .inr ⟨by omega, by omega⟩
  · rintro (rfl | ⟨hlt, hle⟩) <;> omega

theorem pending_succ_of_eq {i : Nat} (hi : lastUse i = i) :
    pending lastUse (i + 1) = insert i (surviving lastUse i) \ {i} := by
  ext j
  simp only [pending, surviving, Set.mem_ofPred_eq, Set.mem_sdiff, Set.mem_insert_iff,
    Set.mem_singleton_iff]
  constructor
  · rintro ⟨hlt, hle⟩
    have hne : j ≠ i := by
      rintro rfl
      omega
    exact ⟨.inr ⟨by omega, by omega⟩, hne⟩
  · rintro ⟨rfl | ⟨hlt, hle⟩, hne⟩
    · exact absurd rfl hne
    · omega

end Steps

/-! ## Memory contents -/

/-- The slot of every live result holds its value. -/
def Holds {V : Type} (live : Set Nat) (slotOf : Nat → Nat) (memory value : Nat → V) : Prop :=
  ∀ j ∈ live, memory (slotOf j) = value j

namespace Holds

variable {V : Type} {live : Set Nat} {memory value : Nat → V} {s : State} {i : Nat}

theorem mono {live' : Set Nat} {slotOf : Nat → Nat} (h : Holds live slotOf memory value)
    (hsub : live' ⊆ live) : Holds live' slotOf memory value := fun j hj => h j (hsub hj)

/-- Writing result `i` into the slot it was given disturbs no live result. -/
theorem write (hown : Owns live i s) (h : Holds live s.slotOf memory value) (v : V) :
    Holds (insert i live) (s.place i).slotOf (Function.update memory ((s.place i).slotOf i) v)
      (Function.update value i v) := by
  intro j hj
  rcases hj with rfl | hj
  · simp
  · have hne : j ≠ i := Nat.ne_of_lt (hown.lt_bound hj)
    have hslot := hown.place.slotOf_ne (.inr hj) (.inl rfl) hne
    rw [Function.update_of_ne hslot, Function.update_of_ne hne, s.place_slotOf_of_ne hne]
    exact h j hj

end Holds

end SlotAlloc
