import Curvy.Core.Imt
import Curvy.Lib.Outcome
import Mathlib.Data.List.AList
import Mathlib.Data.List.Sort

/-!
# The stateful sharded notes tree

Leaves live in the rightmost shard only. Completed shards keep one root each in the cap;
owned notes keep the path inside their shard, frozen when the shard completes. Hash maps
are association lists with distinct keys, the dirty set is a map to unit.
-/

namespace Curvy

set_option autoImplicit false

open Outcome

structure OwnedNoteWitness (F : Type) where
  noteId : F
  leafIndex : Nat
  withinShardSiblings : Option (List F)
  deriving DecidableEq, Repr

structure ShardedTreeSnapshot (F : Type) where
  depth : Nat
  shardHeight : Nat
  completedRoots : List F
  liveLeaves : List F
  ownedNotes : List (OwnedNoteWitness F)

abbrev OwnedNotes (F : Type) := AList fun _ : F => OwnedNoteWitness F

abbrev OwnedLeaves (F : Type) := AList fun _ : Nat => F

abbrev DirtyNotes (F : Type) := AList fun _ : F => Unit

structure ShardedNotesTree (F : Type) where
  depth : Nat
  shardHeight : Nat
  shardSize : Nat
  capDepth : Nat
  completedRoots : List F
  live : Imt F
  liveLeaves : List F
  cap : Imt F
  ownedNotes : OwnedNotes F
  ownedLeaves : OwnedLeaves F
  dirtyOwnedNotes : DirtyNotes F

namespace ShardedNotesTree

variable {F : Type} (poseidon : F → F → F)

def leafCount (t : ShardedNotesTree F) : Nat :=
  t.completedRoots.length * t.shardSize + t.liveLeaves.length

def byLeafIndex (records : List (OwnedNoteWitness F)) : List (OwnedNoteWitness F) :=
  records.mergeSort fun a b => a.leafIndex ≤ b.leafIndex

/-- The public record list: the map's values in leaf order. -/
def ownedNoteRecords (t : ShardedNotesTree F) : List (OwnedNoteWitness F) :=
  byLeafIndex (t.ownedNotes.entries.map Sigma.snd)

def new [Zero F] (depth shardHeight : Nat) : Option (Except TreeError (ShardedNotesTree F)) :=
  if shardHeight = 0 ∨ depth ≤ shardHeight then
    some (.error (.invalidGeometry depth shardHeight))
  else match treeCapacity shardHeight, treeCapacity depth with
    | .error e, _ => some (.error e)
    | _, .error e => some (.error e)
    | .ok shardSize, .ok _ => do
      let globalZeroes := zeroRoots poseidon depth
      let live ← Imt.new poseidon shardHeight
      let cap ← Imt.newWithZero poseidon (depth - shardHeight) (← globalZeroes[shardHeight]?)
      some (.ok {
        depth, shardHeight, shardSize, live, cap
        capDepth := depth - shardHeight
        completedRoots := []
        liveLeaves := []
        ownedNotes := ∅
        ownedLeaves := ∅
        dirtyOwnedNotes := ∅ })

def ensureRoom (t : ShardedNotesTree F) (additional : Nat) : Except TreeError Unit :=
  match treeCapacity t.depth with
  | .error e => .error e
  | .ok capacity =>
    if capacity - t.leafCount < additional then .error (.treeFull t.depth) else .ok ()

def rebuildCap [Zero F] (t : ShardedNotesTree F) : Option (ShardedNotesTree F) := do
  let capZero ← (zeroRoots poseidon t.depth)[t.shardHeight]?
  let roots ← if t.liveLeaves.isEmpty then some t.completedRoots
    else do some (t.completedRoots ++ [← t.live.root])
  let cap ← Imt.fromLeavesWithZero poseidon t.capDepth capZero roots
  some { t with cap }

/-- The hash loop of the path check over the node and its index. -/
def climbFrozen : F × Nat → List F → F
  | (node, _), [] => node
  | (node, index), sibling :: siblings =>
    climbFrozen (if index % 2 = 0 then poseidon node sibling else poseidon sibling node, index >>> 1)
      siblings

def syncLiveRoot (t : ShardedNotesTree F) : Option (Except TreeError Unit × ShardedNotesTree F) :=
  if t.liveLeaves.isEmpty then some (.ok (), t)
  else
    let shardIndex := t.completedRoots.length
    if t.cap.leafCount = shardIndex then do
      let cap ← t.cap.insert poseidon (← t.live.root)
      some (.ok (), { t with cap })
    else if t.cap.leafCount = shardIndex + 1 then do
      let (r, cap) ← t.cap.update poseidon shardIndex (← t.live.root)
      some (r, { t with cap })
    else some (.error (.invalidSnapshot "cap/live shard index mismatch"), t)

variable [DecidableEq F]

def validateIncomingOwnedNote (t : ShardedNotesTree F) (leafIndex : Nat) (noteId : F) :
    Except TreeError Unit :=
  match t.ownedLeaves.lookup leafIndex with
  | some id => if id ≠ noteId then .error (.ownedLeafMismatch leafIndex) else .ok ()
  | none => .ok ()

def verifyFrozenPath (t : ShardedNotesTree F) (noteId : F) (leafIndex : Nat) (siblings : List F) :
    Except TreeError Unit :=
  if siblings.length ≠ t.shardHeight then
    .error (.invalidSiblingCount t.shardHeight siblings.length)
  else
    let shardIndex := leafIndex >>> t.shardHeight
    match t.completedRoots[shardIndex]? with
    | none => .error (.shardNotCompleted shardIndex)
    | some root =>
      if climbFrozen poseidon (noteId, leafIndex &&& (t.shardSize - 1)) siblings ≠ root then
        .error (.witnessRootMismatch shardIndex)
      else .ok ()

/-- The roll-over loop over the owned records, in the map's order. -/
def freezeOwned (t : ShardedNotesTree F) : List F →
    Option (Except TreeError Unit × ShardedNotesTree F)
  | [] => some (.ok (), t)
  | key :: keys =>
    match t.ownedNotes.lookup key with
    | none => t.freezeOwned keys
    | some owned =>
      if owned.leafIndex >>> t.shardHeight ≠ t.completedRoots.length
          ∨ owned.withinShardSiblings.isSome then t.freezeOwned keys
      else
        let withinIndex := owned.leafIndex &&& (t.shardSize - 1)
        if t.live.leaf withinIndex ≠ some owned.noteId then
          some (.error (.ownedLeafMismatch owned.leafIndex), t)
        else do
          let proof ← t.live.createProof withinIndex
          let frozen := { owned with withinShardSiblings := some proof.siblings }
          freezeOwned { t with
            ownedNotes := t.ownedNotes.insert key frozen
            dirtyOwnedNotes := t.dirtyOwnedNotes.insert owned.noteId () } keys

def rollOver [Zero F] (t : ShardedNotesTree F) : Option (Except TreeError Unit × ShardedNotesTree F) :=
  andThen (t.freezeOwned t.ownedNotes.keys) fun _ t => do
    let root ← t.live.root
    let live ← Imt.new poseidon t.shardHeight
    some (.ok (), { t with completedRoots := t.completedRoots ++ [root], live, liveLeaves := [] })

def append [Zero F] (t : ShardedNotesTree F) (noteId : F) :
    Option (Except TreeError Unit × ShardedNotesTree F) :=
  guarded (t.ensureRoom 1) t fun _ =>
  guarded (t.validateIncomingOwnedNote t.leafCount noteId) t fun _ => do
    let live ← t.live.insert poseidon noteId
    andThen (syncLiveRoot poseidon { t with live, liveLeaves := t.liveLeaves ++ [noteId] }) fun _ t =>
      if t.liveLeaves.length = t.shardSize then rollOver poseidon t else some (.ok (), t)

/-- The check loop of a batch. -/
def validateBatch (t : ShardedNotesTree F) : Nat → List F → Except TreeError Unit
  | _, [] => .ok ()
  | leafIndex, noteId :: noteIds =>
    match t.validateIncomingOwnedNote leafIndex noteId with
    | .error e => .error e
    | .ok () => t.validateBatch (leafIndex + 1) noteIds

/-- One round of the batch loop: bulk-builds the live shard when that is cheaper. -/
def appendSegment [Zero F] (t : ShardedNotesTree F) (segment : List F) :
    Option (Except TreeError Unit × ShardedNotesTree F) := do
  let finalLiveLen := t.liveLeaves.length + segment.length
  let rebuildCost := finalLiveLen - 1
  let incrementalCost := min (segment.length * t.shardHeight) usizeMax
  let liveLeaves := t.liveLeaves ++ segment
  let live ← if rebuildCost < incrementalCost then Imt.fromLeaves poseidon t.shardHeight liveLeaves
    else segment.foldlM (Imt.insert poseidon) t.live
  andThen (syncLiveRoot poseidon { t with live, liveLeaves }) fun _ t =>
    if t.liveLeaves.length = t.shardSize then rollOver poseidon t else some (.ok (), t)

/-- The batch loop; a round takes what the live shard has room for. `rounds` bounds the
loop, running out of it stands for not terminating. -/
def appendSegments [Zero F] (rounds : Nat) (remaining : List F) (t : ShardedNotesTree F) :
    Option (Except TreeError Unit × ShardedNotesTree F) :=
  if remaining.isEmpty then some (.ok (), t)
  else match rounds with
    | 0 => none
    | rounds + 1 =>
      if t.shardSize < t.liveLeaves.length then none
      else
        let take := min (t.shardSize - t.liveLeaves.length) remaining.length
        andThen (appendSegment poseidon t (remaining.take take)) fun _ t =>
          appendSegments rounds (remaining.drop take) t

def appendMany [Zero F] (t : ShardedNotesTree F) (noteIds : List F) :
    Option (Except TreeError Unit × ShardedNotesTree F) :=
  guarded (t.ensureRoom noteIds.length) t fun _ =>
  guarded (t.validateBatch t.leafCount noteIds) t fun _ =>
    appendSegments poseidon noteIds.length noteIds t

def markOwned (t : ShardedNotesTree F) (noteId : F) (leafIndex : Nat) :
    Option (Except TreeError Unit × ShardedNotesTree F) :=
  guarded (treeCapacity t.depth) t fun capacity =>
    if capacity ≤ leafIndex then some (.error (.leafIndexOutOfRange leafIndex capacity), t)
    else
      let shardIndex := leafIndex >>> t.shardHeight
      if shardIndex < t.completedRoots.length then some (.error (.noteAlreadyCompleted shardIndex), t)
      else match t.ownedNotes.lookup noteId with
        | some existing =>
          if existing.leafIndex = leafIndex then some (.ok (), t)
          else some (.error (.duplicateOwnedLeaf existing.leafIndex), t)
        | none =>
          if (t.ownedLeaves.lookup leafIndex).any (· ≠ noteId) then
            some (.error (.duplicateOwnedLeaf leafIndex), t)
          else if leafIndex < t.leafCount
              ∧ t.live.leaf (leafIndex &&& (t.shardSize - 1)) ≠ some noteId then
            some (.error (.ownedLeafMismatch leafIndex), t)
          else some (.ok (), { t with
            ownedLeaves := t.ownedLeaves.insert leafIndex noteId
            ownedNotes := t.ownedNotes.insert noteId ⟨noteId, leafIndex, none⟩
            dirtyOwnedNotes := t.dirtyOwnedNotes.insert noteId () })

def unmarkOwned (t : ShardedNotesTree F) (noteId : F) : Bool × ShardedNotesTree F :=
  let t := { t with dirtyOwnedNotes := t.dirtyOwnedNotes.erase noteId }
  match t.ownedNotes.lookup noteId with
  | some owned => (true, { t with
      ownedNotes := t.ownedNotes.erase noteId
      ownedLeaves := t.ownedLeaves.erase owned.leafIndex })
  | none => (false, t)

def adoptFrozenWitness (t : ShardedNotesTree F) (noteId : F) (leafIndex : Nat)
    (withinShardSiblings : List F) : Option (Except TreeError Unit × ShardedNotesTree F) :=
  let shardIndex := leafIndex >>> t.shardHeight
  if t.completedRoots.length ≤ shardIndex then some (.error (.shardNotCompleted shardIndex), t)
  else match (t.ownedNotes.lookup noteId).filter (·.leafIndex ≠ leafIndex) with
    | some existing => some (.error (.duplicateOwnedLeaf existing.leafIndex), t)
    | none =>
      if (t.ownedLeaves.lookup leafIndex).any (· ≠ noteId) then
        some (.error (.duplicateOwnedLeaf leafIndex), t)
      else
        guarded (verifyFrozenPath poseidon t noteId leafIndex withinShardSiblings) t fun _ =>
          some (.ok (), { t with
            ownedLeaves := t.ownedLeaves.insert leafIndex noteId
            ownedNotes := t.ownedNotes.insert noteId ⟨noteId, leafIndex, some withinShardSiblings⟩
            dirtyOwnedNotes := t.dirtyOwnedNotes.insert noteId () })

def root (t : ShardedNotesTree F) : Option F := t.cap.root

def witness (t : ShardedNotesTree F) (noteId : F) : Option (Except TreeError (InclusionProof F)) :=
  match t.ownedNotes.lookup noteId with
  | none => some (.error .noteNotMarked)
  | some owned => do
    let shardIndex := owned.leafIndex >>> t.shardHeight
    let withinIndex := owned.leafIndex &&& (t.shardSize - 1)
    let siblings : Except TreeError (List F) ← match owned.withinShardSiblings with
      | some frozen => some (.ok frozen)
      | none =>
        if shardIndex ≠ t.completedRoots.length ∨ t.live.leaf withinIndex ≠ some noteId then
          some (.error (.ownedLeafMismatch owned.leafIndex))
        else (t.live.createProof withinIndex).map fun proof => .ok proof.siblings
    match siblings with
    | .error e => some (.error e)
    | .ok siblings =>
      let capProof ← t.cap.createProof shardIndex
      some (.ok ⟨noteId, owned.leafIndex, siblings ++ capProof.siblings, ← t.root⟩)

/-- The ids at `leafCount` and above, in leaf order. -/
def ownedFrom (t : ShardedNotesTree F) (leafCount : Nat) : List F :=
  ((t.ownedLeaves.entries.filter fun e => leafCount ≤ e.1).mergeSort fun a b => a.1 ≤ b.1).map
    Sigma.snd

def rewindLiveTo [Zero F] (t : ShardedNotesTree F) (leafCount : Nat) :
    Option (Except TreeError (List F) × ShardedNotesTree F) :=
  let completedLeafCount := t.completedRoots.length * t.shardSize
  if leafCount < completedLeafCount then
    some (.error (.rewindBeforeCompleted completedLeafCount leafCount), t)
  else
    let current := t.leafCount
    if current < leafCount then some (.error (.leafIndexOutOfRange leafCount current), t)
    else do
      let removed := t.ownedFrom leafCount
      let t := removed.foldl (fun t noteId => (t.unmarkOwned noteId).2) t
      let liveLeaves := t.liveLeaves.take (leafCount - completedLeafCount)
      let live ← Imt.fromLeaves poseidon t.shardHeight liveLeaves
      let t ← rebuildCap poseidon { t with live, liveLeaves }
      some (.ok removed, t)

def drainDirtyOwnedNotes (t : ShardedNotesTree F) :
    List (OwnedNoteWitness F) × ShardedNotesTree F :=
  (byLeafIndex (t.dirtyOwnedNotes.keys.filterMap t.ownedNotes.lookup),
    { t with dirtyOwnedNotes := ∅ })

/-- The checks on a snapshot record that depend on whether its shard is completed. -/
def checkRestored (t : ShardedNotesTree F) (owned : OwnedNoteWitness F) : Except TreeError Unit :=
  if owned.leafIndex >>> t.shardHeight < t.completedRoots.length then
    match owned.withinShardSiblings with
    | none => .error (.invalidSnapshot
        s!"owned leaf {owned.leafIndex} is completed but has no frozen path")
    | some siblings => verifyFrozenPath poseidon t owned.noteId owned.leafIndex siblings
  else if owned.withinShardSiblings.isSome then
    .error (.invalidSnapshot
      s!"owned leaf {owned.leafIndex} is not completed but has a frozen path")
  else if owned.leafIndex < t.leafCount
      ∧ t.live.leaf (owned.leafIndex &&& (t.shardSize - 1)) ≠ some owned.noteId then
    .error (.ownedLeafMismatch owned.leafIndex)
  else .ok ()

/-- One record of a snapshot, checked and inserted. -/
def restoreOwned (t : ShardedNotesTree F) (capacity : Nat) (owned : OwnedNoteWitness F) :
    Except TreeError (ShardedNotesTree F) :=
  if capacity ≤ owned.leafIndex then
    .error (.invalidSnapshot s!"owned leaf {owned.leafIndex} exceeds capacity {capacity}")
  else if (t.ownedNotes.lookup owned.noteId).isSome
      ∨ (t.ownedLeaves.lookup owned.leafIndex).isSome then
    .error (.invalidSnapshot s!"duplicate owned note or leaf {owned.leafIndex}")
  else match checkRestored poseidon t owned with
    | .error e => .error e
    | .ok () => .ok { t with
        ownedLeaves := t.ownedLeaves.insert owned.leafIndex owned.noteId
        ownedNotes := t.ownedNotes.insert owned.noteId owned }

def fromSnapshot [Zero F] (snapshot : ShardedTreeSnapshot F) :
    Option (Except TreeError (ShardedNotesTree F)) := do
  match ← new poseidon snapshot.depth snapshot.shardHeight with
  | .error e => some (.error e)
  | .ok t =>
    match treeCapacity t.capDepth, treeCapacity t.depth with
    | .error e, _ => some (.error e)
    | .ok maxShards, capacity =>
      if maxShards < snapshot.completedRoots.length then
        some (.error (.invalidSnapshot "too many completed shard roots"))
      else if t.shardSize ≤ snapshot.liveLeaves.length then
        some (.error (.invalidSnapshot
          "the live shard must contain fewer than one complete shard"))
      else if snapshot.completedRoots.length = maxShards ∧ ¬ snapshot.liveLeaves.isEmpty then
        some (.error (.invalidSnapshot "live leaves exceed the tree capacity"))
      else
        let live ← Imt.fromLeaves poseidon t.shardHeight snapshot.liveLeaves
        let t ← rebuildCap poseidon { t with
          completedRoots := snapshot.completedRoots
          liveLeaves := snapshot.liveLeaves
          live }
        match capacity with
        | .error e => some (.error e)
        | .ok capacity =>
          some (snapshot.ownedNotes.foldlM (fun t owned => restoreOwned poseidon t capacity owned) t)

def snapshot (t : ShardedNotesTree F) : ShardedTreeSnapshot F where
  depth := t.depth
  shardHeight := t.shardHeight
  completedRoots := t.completedRoots
  liveLeaves := t.liveLeaves
  ownedNotes := t.ownedNoteRecords

end ShardedNotesTree
end Curvy
