import Curvy.Core.Imt

/-!
# The append frontier of the notes tree

At most one node per level and the leaf count. Slot `level` is read and cleared as the
carries of the leaf count pass it.
-/

namespace Curvy

set_option autoImplicit false

structure CompletedShard (F : Type) where
  shardIndex : Nat
  root : F
  deriving DecidableEq, Repr

structure FrontierAppend (F : Type) where
  leafIndex : Nat
  completedShard : Option (CompletedShard F)
  deriving DecidableEq, Repr

structure NotesFrontier (F : Type) where
  depth : Nat
  shardHeight : Nat
  shardSize : Nat
  leafCount : Nat
  frontier : List (Option F)
  zeroes : List F
  deriving DecidableEq, Repr

namespace NotesFrontier

variable {F : Type} (poseidon : F → F → F)

def new [Zero F] (depth shardHeight : Nat) : Except TreeError (NotesFrontier F) := do
  if shardHeight = 0 ∨ depth ≤ shardHeight then throw (.invalidGeometry depth shardHeight)
  let shardSize ← treeCapacity shardHeight
  let _ ← treeCapacity depth
  return {
    depth, shardHeight, shardSize
    leafCount := 0
    frontier := List.replicate (depth + 1) none
    zeroes := zeroRoots poseidon depth }

def emptySlot (level : Nat) : TreeError :=
  .invalidSnapshot s!"frontier level {level} is empty for occupied leaf-count bit"

/-- One level of the root fold over the node so far and the remaining count bits. -/
def rootLevel (f : NotesFrontier F) (s : F × Nat) (level : Nat) : Option (F × Nat) := do
  let (node, occupied) := s
  let zero ← f.zeroes[level]?
  let node ←
    if occupied &&& 1 = 1 then do some (poseidon ((← f.frontier[level]?).getD zero) node)
    else some (poseidon node zero)
  some (node, occupied >>> 1)

def root (f : NotesFrontier F) : Option F := do
  let capacity := (treeCapacity f.depth).toOption.getD usizeMax
  if f.leafCount = capacity then some ((← f.frontier[f.depth]?).getD (← f.zeroes[f.depth]?))
  else
    let s ← (List.range f.depth).foldlM (rootLevel poseidon f) (← f.zeroes[0]?, f.leafCount)
    some s.1

/-- State of the append loop. -/
structure Carry (F : Type) where
  frontier : List (Option F)
  cursor : Nat
  node : F
  completedShard : Option (CompletedShard F)

/-- The append loop over the remaining levels; the first clear bit ends it. -/
def carry (shardHeight leafIndex : Nat) :
    List Nat → Carry F → Option (Except TreeError Unit × Carry F)
  | [], s => some (.ok (), s)
  | level :: levels, s => do
    if s.cursor &&& 1 = 0 then
      let frontier ← s.frontier.put level (some s.node)
      some (.ok (), { s with frontier })
    else
      let slot ← s.frontier[level]?
      let frontier := s.frontier.set level none
      match slot with
      | none => some (.error (emptySlot level), { s with frontier })
      | some left =>
        let node := poseidon left s.node
        let completedShard :=
          if level + 1 = shardHeight then some ⟨leafIndex >>> shardHeight, node⟩
          else s.completedShard
        carry shardHeight leafIndex levels ⟨frontier, s.cursor >>> 1, node, completedShard⟩

def append (f : NotesFrontier F) (leaf : F) :
    Option (Except TreeError (FrontierAppend F) × NotesFrontier F) := do
  match treeCapacity f.depth with
  | .error e => some (.error e, f)
  | .ok capacity =>
    if capacity ≤ f.leafCount then some (.error (.treeFull f.depth), f)
    else
      let leafIndex := f.leafCount
      let (r, s) ← carry poseidon f.shardHeight leafIndex (List.range (f.depth + 1))
        ⟨f.frontier, leafIndex, leaf, none⟩
      match r with
      | .error e => some (.error e, { f with frontier := s.frontier })
      | .ok () =>
        some (.ok ⟨leafIndex, s.completedShard⟩,
          { f with frontier := s.frontier, leafCount := f.leafCount + 1 })

/-- The batch loop; `completed` collects the shards. -/
def appendEach : List F → NotesFrontier F → List (CompletedShard F) →
    Option (Except TreeError (List (CompletedShard F)) × NotesFrontier F)
  | [], f, completed => some (.ok completed, f)
  | leaf :: leaves, f, completed => do
    let (r, f) ← append poseidon f leaf
    match r with
    | .error e => some (.error e, f)
    | .ok appended => appendEach leaves f (completed ++ appended.completedShard.toList)

def appendMany (f : NotesFrontier F) (leaves : List F) :
    Option (Except TreeError (List (CompletedShard F)) × NotesFrontier F) :=
  match treeCapacity f.depth with
  | .error e => some (.error e, f)
  | .ok capacity =>
    if capacity - f.leafCount < leaves.length then some (.error (.treeFull f.depth), f)
    else appendEach poseidon leaves f []

/-- `collect` of fallible items: the first error is the result. -/
def collect {α : Type} (n : Nat) (item : Nat → Option (Except TreeError α)) :
    Option (Except TreeError (List α)) :=
  ((List.range n).mapM fun i => ExceptT.mk (item i)).run

def siblingAt (f : NotesFrontier F) (level : Nat) : Option (Except TreeError F) :=
  if (f.leafCount >>> level) &&& 1 = 0 then (f.zeroes[level]?).map .ok
  else (f.frontier[level]?).map fun slot => slot.elim (.error (emptySlot level)) .ok

def appendWithSiblings (f : NotesFrontier F) (leaf : F) :
    Option (Except TreeError (FrontierAppend F × List F) × NotesFrontier F) := do
  match ← collect f.depth (siblingAt f) with
  | .error e => some (.error e, f)
  | .ok siblings =>
    let (r, f) ← append poseidon f leaf
    some (r.map fun appended => (appended, siblings), f)

def frontierAt [Zero F] (f : NotesFrontier F) (level : Nat) : Option (Except TreeError F) :=
  if (f.leafCount >>> level) &&& 1 = 0 then some (.ok 0)
  else (f.frontier[level]?).map fun slot => slot.elim (.error (emptySlot level)) .ok

def nextLeafFrontier [Zero F] (f : NotesFrontier F) : Option (Except TreeError (List F)) :=
  match treeCapacity f.depth with
  | .error e => some (.error e)
  | .ok capacity =>
    if capacity ≤ f.leafCount then some (.error (.treeFull f.depth))
    else collect f.depth (frontierAt f)

/-- Works on a copy and swaps it in; the shard descriptors are dropped. -/
def appendAll (f : NotesFrontier F) (leaves : List F) :
    Option (Except TreeError Unit × NotesFrontier F) := do
  let (r, work) ← appendMany poseidon f leaves
  match r with
  | .error e => some (.error e, f)
  | .ok _ => some (.ok (), work)

end NotesFrontier
end Curvy
