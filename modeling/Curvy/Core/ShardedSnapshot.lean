import Curvy.Core.ShardedTree
import Curvy.Core.SnapshotBytes

/-!
# Sharded-tree snapshots as bytes

The encoder, and the decoder of arbitrary bytes with every reservation it makes. `Fits` are
the snapshots that have bytes; both directions go through their one spelling.
-/

namespace Curvy.ShardedTreeSnapshot

set_option autoImplicit false

open Decoder
open Snapshot
open Witness (Fr)

def snapshotMagic : List UInt8 := [0x43, 0x59, 0x53, 0x54]
def snapshotVersion : UInt8 := 1
def snapshotHeaderLen : Nat := 20

/-! ### Checks of both directions -/

def checkGeometry (depth shardHeight : Nat) : Call Unit :=
  Panic.refuse (shardHeight = 0 ∨ depth ≤ shardHeight) (.invalidGeometry depth shardHeight)

def checkCounts (depth shardHeight completedCount liveCount : Nat) : Call Unit := do
  let shardSize ← Snapshot.tree (treeCapacity shardHeight)
  let maxShards ← Snapshot.tree (treeCapacity (depth - shardHeight))
  refuseIf (completedCount > maxShards) "too many completed shard roots"
  refuseIf (shardSize ≤ liveCount) "the live shard must contain fewer than one complete shard"
  refuseIf (completedCount = maxShards ∧ liveCount ≠ 0) "live leaves exceed the tree capacity"

/-- `checked_add` and `checked_mul`. -/
def checked (value : Nat) (message : String) : Call Nat := do
  refuseIf (2 ^ 64 ≤ value) message
  return value

/-- `try_into` a fixed-width integer, in big-endian bytes. -/
def narrow (width value : Nat) (message : String) : Call (List UInt8) := do
  refuseIf (256 ^ width ≤ value) message
  return beBytes width value

/-! ### Encoding -/

def appendFields (fields : List Fr) : List UInt8 := fields.flatMap frToBe32

def flagOf (withinShardSiblings : Option (List Fr)) : UInt8 :=
  if withinShardSiblings.isSome then 1 else 0

def encodePath (shardHeight : Nat) : Option (List Fr) → Call (List UInt8)
  | none => return []
  | some siblings => do
    Panic.refuse (siblings.length ≠ shardHeight) (.invalidSiblingCount shardHeight siblings.length)
    return appendFields siblings

def encodeOwned (shardHeight : Nat) (owned : OwnedNoteWitness Fr) : Call (List UInt8) := do
  let leafIndex ← narrow 4 owned.leafIndex "leaf index does not fit u32"
  let path ← encodePath shardHeight owned.withinShardSiblings
  return frToBe32 owned.noteId ++ leafIndex ++ [flagOf owned.withinShardSiblings, 0, 0, 0] ++ path

def encodeEach (shardHeight : Nat) : List (OwnedNoteWitness Fr) → Call (List UInt8)
  | [] => return []
  | owned :: rest => do
    let record ← encodeOwned shardHeight owned
    let records ← encodeEach shardHeight rest
    return record ++ records

def siblingsCount (owned : List (OwnedNoteWitness Fr)) : Nat :=
  (owned.map fun owned => owned.withinShardSiblings.elim 0 List.length).sum

def byteCapacity (s : ShardedTreeSnapshot Fr) : Call Nat := do
  let siblings ← Panic.word (siblingsCount s.ownedNotes)
  let fieldsCount ← checked
    (s.completedRoots.length + s.liveLeaves.length + s.ownedNotes.length + siblings)
    "snapshot size overflow"
  let ownedMetadataBytes ← checked (s.ownedNotes.length * 8) "snapshot size overflow"
  let fieldBytes ← checked (fieldsCount * 32) "snapshot size overflow"
  let size ← checked (snapshotHeaderLen + fieldBytes + ownedMetadataBytes) "snapshot size overflow"
  -- the size of an allocation is at most `isize::MAX`
  Panic.require (size < 2 ^ 63)
  return size

def encode (s : ShardedTreeSnapshot Fr) : Call (List UInt8) := do
  checkGeometry s.depth s.shardHeight
  checkCounts s.depth s.shardHeight s.completedRoots.length s.liveLeaves.length
  let depth ← narrow 1 s.depth "depth does not fit the snapshot format"
  let shardHeight ← narrow 1 s.shardHeight "shard height does not fit the snapshot format"
  let completedCount ← narrow 4 s.completedRoots.length "too many completed roots"
  let liveCount ← narrow 4 s.liveLeaves.length "too many live leaves"
  let ownedCount ← narrow 4 s.ownedNotes.length "too many owned notes"
  let _ ← byteCapacity s
  let records ← encodeEach s.shardHeight s.ownedNotes
  return snapshotMagic ++ [snapshotVersion] ++ depth ++ shardHeight ++ [0] ++ completedCount ++
    liveCount ++ ownedCount ++ appendFields s.completedRoots ++ appendFields s.liveLeaves ++ records

/-! ### Decoding -/

/-- A `Vec::with_capacity` on behalf of the input: the items, the least bytes an item takes
in it, and the bytes left. -/
structure Reservation where
  count : Nat
  width : Nat
  remaining : Nat
  deriving DecidableEq, Repr

/-- The bytes left can hold the items. -/
def Reservation.Justified (r : Reservation) : Prop := r.count * r.width ≤ r.remaining

instance (r : Reservation) : Decidable r.Justified := inferInstanceAs (Decidable (_ ≤ _))

/-- Which reservations are granted; any other stops the call. -/
abbrev Allocator := Reservation → Bool

def anyReservation : Allocator := fun _ => true

def justifiedOnly : Allocator := fun r => decide r.Justified

def reserve (grants : Allocator) (count width : Nat) : Body Unit := fun remaining =>
  if grants ⟨count, width, remaining.length⟩ then .ok ((), remaining) else .error .panic

def readU32 (bytes : List UInt8) (offset : Nat) : Call Nat := do
  refuseIf (bytes.length < offset + 4) "truncated u32"
  return beNat ((bytes.drop offset).take 4)

def readU32AtCursor : Body Nat := do
  let raw ← takeOr (invalid "truncated u32") 4
  return beNat raw

def readFields (grants : Allocator) (count : Nat) : Body (List Fr) := do
  reserve grants count 32
  times readField count

def readPath (grants : Allocator) (shardHeight : Nat) (flag : UInt8) : Body (Option (List Fr)) :=
  if flag = 0 then return none
  else if flag = 1 then some <$> readFields grants shardHeight
  else throw (invalid s!"invalid frozen-path flag {flag}")

def readOwned (grants : Allocator) (shardHeight : Nat) : Body (OwnedNoteWitness Fr) := do
  let noteId ← readField
  let leafIndex ← readU32AtCursor
  let flag ← readByte "truncated owned-note flag"
  let reserved ← takeOr (invalid "truncated owned-note padding") 3
  refuseIf (reserved ≠ [0, 0, 0]) "owned-note padding is non-zero"
  let withinShardSiblings ← readPath grants shardHeight flag
  return { noteId, leafIndex, withinShardSiblings }

/-- Everything behind the header. -/
def readBody (grants : Allocator) (depth shardHeight completedCount liveCount ownedCount : Nat) :
    Body (ShardedTreeSnapshot Fr) := do
  let completedRoots ← readFields grants completedCount
  let liveLeaves ← readFields grants liveCount
  reserve grants ownedCount 40
  let ownedNotes ← times (readOwned grants shardHeight) ownedCount
  return { depth, shardHeight, completedRoots, liveLeaves, ownedNotes }

/-- `left - right` in machine words. -/
def minus (left right : Nat) : Call Nat := do
  Panic.require (right ≤ left)
  return left - right

/-- The checks that the counts of the header fit in the bytes behind it. -/
def checkBytes (available completedCount liveCount ownedCount : Nat) : Call Unit := do
  let fixedFieldCount ← checked (completedCount + liveCount) "field count overflow"
  let fixedBytes ← checked (fixedFieldCount * 32) "field byte count overflow"
  let body ← minus available snapshotHeaderLen
  refuseIf (fixedBytes > body) "truncated root/leaf fields"
  let minimumOwnedBytes ← checked (ownedCount * 40) "owned-note byte count overflow"
  let owned ← minus body fixedBytes
  refuseIf (minimumOwnedBytes > owned) "truncated owned-note records"

def decode (grants : Allocator) (bytes : List UInt8) : Call (ShardedTreeSnapshot Fr) := do
  refuseIf (bytes.length < snapshotHeaderLen) "truncated header"
  refuseIf (bytes.take 4 ≠ snapshotMagic) "bad magic"
  let version ← byteAt bytes 4
  refuseIf (version ≠ snapshotVersion) s!"unsupported version {version}"
  let reserved ← byteAt bytes 7
  refuseIf (reserved ≠ 0) "reserved header byte is non-zero"
  let depth ← byteAt bytes 5
  let shardHeight ← byteAt bytes 6
  checkGeometry depth.toNat shardHeight.toNat
  let completedCount ← readU32 bytes 8
  let liveCount ← readU32 bytes 12
  let ownedCount ← readU32 bytes 16
  checkCounts depth.toNat shardHeight.toNat completedCount liveCount
  checkBytes bytes.length completedCount liveCount ownedCount
  let (s, rest) ← readBody grants depth.toNat shardHeight.toNat completedCount liveCount ownedCount
    (bytes.drop snapshotHeaderLen)
  refuseIf (rest ≠ []) "trailing bytes"
  return s

end Curvy.ShardedTreeSnapshot
