import Curvy.Core.ImtRuns
import Curvy.Core.ShardedTree

/-!
# The sharded tree in closed form

`build` is the tree with given completed roots, live leaves and owned maps. `Owned` is the
invariant of the maps. The internal steps of an append, on built trees, never fail.
-/

namespace Curvy.ShardedNotesTree

set_option autoImplicit false

open PerfectTree List Outcome

structure Geometry (depth shardHeight : Nat) : Prop where
  pos : 0 < shardHeight
  lt : shardHeight < depth
  fits : depth < usizeBits

variable {F : Type} [Zero F] (poseidon : F → F → F)

/-- The leaves of the cap: completed roots, then the root of a nonempty live shard. -/
def capRoots (shardHeight : Nat) (roots live : List F) : List F :=
  if live = [] then roots else roots ++ [node poseidon 0 live shardHeight 0]

def build (depth shardHeight : Nat) (roots live : List F) (notes : OwnedNotes F)
    (leaves : OwnedLeaves F) (dirty : DirtyNotes F) : ShardedNotesTree F where
  depth := depth
  shardHeight := shardHeight
  shardSize := 2 ^ shardHeight
  capDepth := depth - shardHeight
  completedRoots := roots
  live := Imt.canon poseidon shardHeight 0 live
  liveLeaves := live
  cap := Imt.canon poseidon (depth - shardHeight) (empty poseidon 0 shardHeight)
    (capRoots poseidon shardHeight roots live)
  ownedNotes := notes
  ownedLeaves := leaves
  dirtyOwnedNotes := dirty

section Shape
variable {depth shardHeight : Nat} {roots live : List F} {notes : OwnedNotes F}
  {leaves : OwnedLeaves F} {dirty : DirtyNotes F}

theorem build_leafCount : (build poseidon depth shardHeight roots live notes leaves dirty).leafCount =
    roots.length * 2 ^ shardHeight + live.length := rfl

theorem capRoots_nil : capRoots poseidon shardHeight roots [] = roots := if_pos rfl

theorem capRoots_of_ne_nil (hne : live ≠ []) : capRoots poseidon shardHeight roots live =
    roots ++ [node poseidon 0 live shardHeight 0] := if_neg hne

theorem and_shardSize (i : Nat) : i &&& (2 ^ shardHeight - 1) = i % 2 ^ shardHeight :=
  Nat.and_two_pow_sub_one_eq_mod i shardHeight

theorem zeroRoots_getElem? {level : Nat} (hle : level ≤ depth) :
    (zeroRoots poseidon depth)[level]? = some (empty poseidon (0 : F) level) := by
  rw [Imt.zeroRoots_eq]
  exact tabulate_getElem? _ (by omega)

theorem new_eq (g : Geometry depth shardHeight) :
    new poseidon depth shardHeight = some (.ok (build poseidon depth shardHeight [] [] ∅ ∅ ∅)) := by
  have hgeo : ¬ (shardHeight = 0 ∨ depth ≤ shardHeight) := by
    have := g.pos
    have := g.lt
    omega
  have hs : shardHeight < usizeBits := g.lt.trans g.fits
  have hcap : depth - shardHeight < usizeBits := (Nat.sub_le _ _).trans_lt g.fits
  simp only [new, hgeo, if_false, treeCapacity_ok hs, treeCapacity_ok g.fits, Imt.new,
    Imt.newWithZero_eq poseidon hs, Imt.newWithZero_eq poseidon hcap,
    zeroRoots_getElem? poseidon g.lt.le, Option.bind_eq_bind, Option.bind_some]
  rfl

theorem new_ok {t : ShardedNotesTree F} (h : new poseidon depth shardHeight = some (.ok t)) :
    Geometry depth shardHeight ∧ t = build poseidon depth shardHeight [] [] ∅ ∅ ∅ := by
  by_cases hgeo : shardHeight = 0 ∨ depth ≤ shardHeight
  · simp [new, hgeo] at h
  have hd : depth < usizeBits := by
    by_contra hd
    by_cases hs : shardHeight < usizeBits <;> simp [new, hgeo, treeCapacity, hd, hs] at h
  have g : Geometry depth shardHeight := ⟨by omega, by omega, hd⟩
  rw [new_eq poseidon g] at h
  exact ⟨g, (Except.ok.inj (Option.some.inj h)).symm⟩

variable (notes leaves dirty) in
theorem rebuildCap_eq (g : Geometry depth shardHeight) (cap : Imt F)
    (hlive : live.length ≤ 2 ^ shardHeight)
    (hfit : (capRoots poseidon shardHeight roots live).length ≤ 2 ^ (depth - shardHeight)) :
    rebuildCap poseidon { build poseidon depth shardHeight roots live notes leaves dirty with
      cap := cap } = some (build poseidon depth shardHeight roots live notes leaves dirty) := by
  have hcap : depth - shardHeight < usizeBits := (Nat.sub_le _ _).trans_lt g.fits
  simp only [rebuildCap, build, zeroRoots_getElem? poseidon g.lt.le, Option.bind_eq_bind,
    Option.bind_some, Imt.canon_root poseidon _ _ _ hlive]
  by_cases hne : live = []
  · subst hne
    rw [capRoots_nil] at hfit ⊢
    simp [Imt.fromLeavesWithZero_eq poseidon hcap _ hfit]
  · rw [capRoots_of_ne_nil poseidon hne] at hfit ⊢
    simp [hne, Imt.fromLeavesWithZero_eq poseidon hcap _ hfit]

theorem root_eq (hfit : (capRoots poseidon shardHeight roots live).length ≤ 2 ^ (depth - shardHeight)) :
    (build poseidon depth shardHeight roots live notes leaves dirty).root =
      some (node poseidon (empty poseidon 0 shardHeight) (capRoots poseidon shardHeight roots live)
        (depth - shardHeight) 0) := Imt.canon_root poseidon _ _ _ hfit

/-- Pushing the live root into the cap after the live shard changed to `live'`. -/
theorem syncLiveRoot_eq (g : Geometry depth shardHeight) {live' : List F} (hne : live' ≠ [])
    (hle : live'.length ≤ 2 ^ shardHeight) (hroom : roots.length < 2 ^ (depth - shardHeight)) :
    syncLiveRoot poseidon { build poseidon depth shardHeight roots live notes leaves dirty with
      live := Imt.canon poseidon shardHeight 0 live', liveLeaves := live' } =
    some (.ok (), build poseidon depth shardHeight roots live' notes leaves dirty) := by
  have hcap : depth - shardHeight < usizeBits := (Nat.sub_le _ _).trans_lt g.fits
  simp only [syncLiveRoot, build, List.isEmpty_iff, hne, if_false, Imt.canon_leafCount,
    Imt.canon_root poseidon _ _ _ hle, Option.bind_eq_bind, Option.bind_some]
  by_cases hlive : live = []
  · -- first leaf of the shard: a new cap leaf
    subst hlive
    rw [capRoots_nil, if_pos rfl, Imt.insert_canon poseidon hcap _ _ hroom,
      capRoots_of_ne_nil poseidon hne]
    rfl
  · rw [capRoots_of_ne_nil poseidon hlive, capRoots_of_ne_nil poseidon hne, List.length_append,
      List.length_singleton, if_neg (by omega), if_pos rfl, Imt.update_canon, List.length_append,
      List.length_singleton, if_neg (by omega), List.set_append_right _ _ le_rfl]
    simp

end Shape

/-! ### Freezing -/

section Freeze
variable [DecidableEq F] {depth shardHeight : Nat} {roots live : List F} {notes : OwnedNotes F}
  {leaves : OwnedLeaves F} {dirty : DirtyNotes F}

/-- What completing shard `shard` over the leaves `live` makes of a record. -/
def freeze (shardHeight shard : Nat) (live : List F) (w : OwnedNoteWitness F) :
    OwnedNoteWitness F :=
  if w.leafIndex / 2 ^ shardHeight = shard ∧ w.withinShardSiblings = none then
    { w with
      withinShardSiblings := some (path poseidon 0 live shardHeight (w.leafIndex % 2 ^ shardHeight)) }
  else w

omit [DecidableEq F] in
@[simp] theorem freeze_noteId (shard : Nat) (w : OwnedNoteWitness F) :
    (freeze poseidon shardHeight shard live w).noteId = w.noteId := by
  unfold freeze
  split <;> rfl

omit [DecidableEq F] in
@[simp] theorem freeze_leafIndex (shard : Nat) (w : OwnedNoteWitness F) :
    (freeze poseidon shardHeight shard live w).leafIndex = w.leafIndex := by
  unfold freeze
  split <;> rfl

/-- Every unfrozen record of the live shard sits on its leaf. -/
def Placed (shardHeight : Nat) (roots live : List F) (notes : OwnedNotes F) : Prop :=
  ∀ id w, notes.lookup id = some w → w.leafIndex / 2 ^ shardHeight = roots.length →
    w.withinShardSiblings = none → live[w.leafIndex % 2 ^ shardHeight]? = some w.noteId

/-- The maps after freezing the records of `keys`. -/
structure Frozen (shardHeight shard : Nat) (live keys : List F) (notes notes' : OwnedNotes F)
    (dirty dirty' : DirtyNotes F) : Prop where
  lookup : ∀ id, notes'.lookup id = if id ∈ keys then
    (notes.lookup id).map (freeze poseidon shardHeight shard live) else notes.lookup id
  keeps : ∀ id, id ∈ dirty → id ∈ dirty'
  marks : ∀ id, notes'.lookup id ≠ notes.lookup id → id ∈ dirty'
  only : ∀ id, id ∈ dirty' → id ∈ dirty ∨ id ∈ notes
  exact : ∀ id, id ∈ dirty' → id ∈ dirty ∨ notes'.lookup id ≠ notes.lookup id

variable (depth notes leaves dirty) in
theorem freezeOwned_eq (keys : List F) (hlive : live.length ≤ 2 ^ shardHeight) (hnodup : keys.Nodup)
    (hkey : ∀ id w, notes.lookup id = some w → w.noteId = id)
    (hplaced : ∀ id ∈ keys, ∀ w, notes.lookup id = some w →
      w.leafIndex / 2 ^ shardHeight = roots.length → w.withinShardSiblings = none →
      live[w.leafIndex % 2 ^ shardHeight]? = some w.noteId) :
    ∃ notes' dirty', freezeOwned (build poseidon depth shardHeight roots live notes leaves dirty) keys =
        some (.ok (), build poseidon depth shardHeight roots live notes' leaves dirty') ∧
      Frozen poseidon shardHeight roots.length live keys notes notes' dirty dirty' := by
  induction keys generalizing notes dirty with
  | nil =>
    exact ⟨notes, dirty, rfl, by simp, fun _ h => h, by simp, fun _ h => Or.inl h,
      fun _ h => Or.inl h⟩
  | cons key keys ih =>
    obtain ⟨hnotin, hnodup⟩ := List.nodup_cons.mp hnodup
    cases hlookup : notes.lookup key with
    | none =>
      obtain ⟨notes', dirty', hrun, hfrozen⟩ := ih notes dirty hnodup hkey
        fun id hid => hplaced id (List.mem_cons_of_mem _ hid)
      refine ⟨notes', dirty', ?_, ?_, hfrozen.keeps, hfrozen.marks, hfrozen.only, hfrozen.exact⟩
      · rw [freezeOwned]
        simp only [show (build poseidon depth shardHeight roots live notes leaves dirty).ownedNotes =
          notes from rfl, hlookup, hrun]
      · intro id
        rw [hfrozen.lookup]
        by_cases hid : id = key
        · subst hid
          simp [hnotin, hlookup]
        · simp [hid]
    | some w =>
      have hid := hkey key w hlookup
      by_cases hskip : w.leafIndex / 2 ^ shardHeight ≠ roots.length ∨ w.withinShardSiblings.isSome
      · -- another shard, or frozen already
        obtain ⟨notes', dirty', hrun, hfrozen⟩ := ih notes dirty hnodup hkey
          fun id hid => hplaced id (List.mem_cons_of_mem _ hid)
        refine ⟨notes', dirty', ?_, ?_, hfrozen.keeps, hfrozen.marks, hfrozen.only,
          hfrozen.exact⟩
        · rw [freezeOwned]
          simp only [build, hlookup, Nat.shiftRight_eq_div_pow, hskip, if_true]
          exact hrun
        · intro id
          have hsame : freeze poseidon shardHeight roots.length live w = w := by
            unfold freeze
            rw [if_neg]
            rintro ⟨h1, h2⟩
            rcases hskip with h | h
            · exact h h1
            · simp [h2] at h
          rw [hfrozen.lookup]
          by_cases hid : id = key
          · subst hid
            simp [hnotin, hlookup, hsame]
          · simp [hid]
      · -- the record gets its path
        obtain ⟨hshard, hnone⟩ : w.leafIndex / 2 ^ shardHeight = roots.length ∧
            w.withinShardSiblings = none := by
          simpa [not_or] using hskip
        have hleaf := hplaced key (List.mem_cons_self ..) w hlookup hshard hnone
        have hbound : w.leafIndex % 2 ^ shardHeight < live.length :=
          (List.getElem?_eq_some_iff.mp hleaf).1
        have hfreeze : freeze poseidon shardHeight roots.length live w =
            { w with
              withinShardSiblings :=
                some (path poseidon 0 live shardHeight (w.leafIndex % 2 ^ shardHeight)) } :=
          if_pos ⟨hshard, hnone⟩
        have hother : ∀ id, id ≠ key →
            (notes.insert key (freeze poseidon shardHeight roots.length live w)).lookup id =
              notes.lookup id := fun id hne => AList.lookup_insert_ne hne
        obtain ⟨notes', dirty', hrun, hfrozen⟩ := ih
          (notes.insert key (freeze poseidon shardHeight roots.length live w))
          (dirty.insert w.noteId ()) hnodup
          (by
            intro id w' hw'
            by_cases hne : id = key
            · subst hne
              rw [AList.lookup_insert] at hw'
              rw [← Option.some.inj hw', freeze_noteId, hid]
            · rw [hother id hne] at hw'
              exact hkey id w' hw')
          (by
            intro id hmem w' hw'
            rw [hother id (by rintro rfl; exact hnotin hmem)] at hw'
            exact hplaced id (List.mem_cons_of_mem _ hmem) w' hw')
        refine ⟨notes', dirty', ?_, ?_, ?_, ?_, ?_, ?_⟩
        · rw [freezeOwned]
          simp only [build, hlookup, Nat.shiftRight_eq_div_pow, hskip, if_false, and_shardSize,
            Imt.leaf, Imt.canon_leaves, hleaf, ne_eq, not_true_eq_false,
            Imt.createProof_canon poseidon 0 hlive hbound, Option.bind_eq_bind, Option.bind_some]
          rw [← hfreeze]
          exact hrun
        · intro id
          rw [hfrozen.lookup]
          by_cases hne : id = key
          · subst hne
            simp [hnotin, hlookup]
          · rw [hother id hne]
            simp [hne]
        · intro id hmem
          exact hfrozen.keeps id ((AList.mem_insert _).mpr (Or.inr hmem))
        · intro id hdiff
          by_cases hne : id = key
          · subst hne
            exact hfrozen.keeps id ((AList.mem_insert _).mpr (Or.inl hid.symm))
          · rw [← hother id hne] at hdiff
            exact hfrozen.marks id hdiff
        · intro id hmem
          have hkeyIn : key ∈ notes := AList.lookup_isSome.mp (by simp [hlookup])
          rcases hfrozen.only id hmem with hd | hn
          · rcases (AList.mem_insert _).mp hd with rfl | hd
            · exact Or.inr (hid ▸ hkeyIn)
            · exact Or.inl hd
          · rcases (AList.mem_insert _).mp hn with rfl | hn
            · exact Or.inr hkeyIn
            · exact Or.inr hn
        · intro id hmem
          by_cases hne : id = key
          · subst hne
            refine Or.inr ?_
            rw [hfrozen.lookup, if_neg hnotin, AList.lookup_insert, hlookup, hfreeze]
            intro hsame
            rw [← Option.some.inj hsame] at hnone
            cases hnone
          · rcases hfrozen.exact id hmem with hd | hdiff
            · rcases (AList.mem_insert _).mp hd with rfl | hd
              · exact absurd hid hne
              · exact Or.inl hd
            · rw [hother id hne] at hdiff
              exact Or.inr hdiff

variable (leaves dirty) in
/-- Completing the live shard. -/
theorem rollOver_eq (g : Geometry depth shardHeight) (hlive : live.length = 2 ^ shardHeight)
    (hkey : ∀ id w, notes.lookup id = some w → w.noteId = id)
    (hplaced : Placed shardHeight roots live notes) :
    ∃ notes' dirty', rollOver poseidon (build poseidon depth shardHeight roots live notes leaves dirty) =
        some (.ok (), build poseidon depth shardHeight
          (roots ++ [node poseidon 0 live shardHeight 0]) [] notes' leaves dirty') ∧
      Frozen poseidon shardHeight roots.length live notes.keys notes notes' dirty dirty' := by
  have hs : shardHeight < usizeBits := g.lt.trans g.fits
  have hne : live ≠ [] := by
    rintro rfl
    have := Nat.two_pow_pos shardHeight
    simp only [List.length_nil] at hlive
    omega
  obtain ⟨notes', dirty', hrun, hfrozen⟩ := freezeOwned_eq poseidon depth notes
    leaves dirty notes.keys hlive.le notes.keys_nodup hkey
    fun id _ w hw => hplaced id w hw
  refine ⟨notes', dirty', ?_, hfrozen⟩
  simp only [rollOver, show (build poseidon depth shardHeight roots live notes leaves dirty).ownedNotes =
    notes from rfl, hrun, andThen_ok]
  simp only [build, Imt.canon_root poseidon _ _ _ hlive.le, Imt.new,
    Imt.newWithZero_eq poseidon hs, Option.bind_eq_bind, Option.bind_some,
    capRoots_of_ne_nil poseidon hne, capRoots_nil]

end Freeze
end Curvy.ShardedNotesTree
