import Curvy.Lib.Loop
import Curvy.Lib.MerklePath

/-!
# The incremental Merkle tree

`Imt` as the code stores it: one row of nodes per level, only the nodes that meet a
leaf. `poseidon` is an arbitrary two-to-one hash. A Rust panic is `none`; a `Result`
of a mutating method is returned together with the tree it leaves behind.
-/

namespace Curvy

set_option autoImplicit false

inductive TreeError where
  | invalidGeometry (depth shardHeight : Nat)
  | capacityOverflow (depth : Nat)
  | treeFull (depth : Nat)
  | duplicateLeaf
  | leafNotFound
  | leafIndexOutOfRange (index leafCount : Nat)
  | duplicateOwnedLeaf (leafIndex : Nat)
  | ownedLeafMismatch (leafIndex : Nat)
  | noteNotMarked
  | noteAlreadyCompleted (shardIndex : Nat)
  | shardNotCompleted (shardIndex : Nat)
  | invalidSiblingCount (expected actual : Nat)
  | witnessRootMismatch (shardIndex : Nat)
  | invalidSnapshot (message : String)
  | rewindBeforeCompleted (minimum requested : Nat)
  | nonCanonicalField
  deriving DecidableEq, Repr

/-- Width of the platform index type. -/
def usizeBits : Nat := 64

def usizeMax : Nat := 2 ^ usizeBits - 1

/-- `1usize.checked_shl(depth)`. -/
def treeCapacity (depth : Nat) : Except TreeError Nat :=
  if depth < usizeBits then .ok (2 ^ depth) else .error (.capacityOverflow depth)

theorem treeCapacity_ok {depth : Nat} (h : depth < usizeBits) :
    treeCapacity depth = .ok (2 ^ depth) := by simp [treeCapacity, h]

structure InclusionProof (F : Type) where
  leaf : F
  index : Nat
  siblings : List F
  root : F
  deriving DecidableEq, Repr

structure Imt (F : Type) where
  depth : Nat
  zeroLeaf : F
  zeroes : List F
  nodes : List (List F)
  deriving DecidableEq, Repr

section Definitions
variable {F : Type} (poseidon : F → F → F)

def zeroRootsFrom (depth : Nat) (zeroLeaf : F) : List F :=
  (List.range depth).foldl
    (fun z _ => z ++ [poseidon (z.getLastD zeroLeaf) (z.getLastD zeroLeaf)]) [zeroLeaf]

def maxCachedZeroDepth : Nat := 64

/-- Served from the table for `maxCachedZeroDepth` when it reaches that far. -/
def zeroRoots [Zero F] (depth : Nat) : List F :=
  let table := zeroRootsFrom poseidon maxCachedZeroDepth (0 : F)
  if depth + 1 ≤ table.length then table.take (depth + 1) else zeroRootsFrom poseidon depth 0

def buildParentLevel (level : List F) (zero : F) : List F :=
  PerfectTree.pairUp poseidon zero level

namespace Imt

def leaves (t : Imt F) : List F := t.nodes.headD []

def leafCount (t : Imt F) : Nat := t.leaves.length

def capacity (t : Imt F) : Except TreeError Nat := treeCapacity t.depth

def leaf (t : Imt F) (index : Nat) : Option F := t.leaves[index]?

def newWithZero (depth : Nat) (zeroLeaf : F) : Option (Imt F) := do
  let _ ← (treeCapacity depth).toOption
  let z := zeroRootsFrom poseidon depth zeroLeaf
  let nodes := List.replicate (depth + 1) []
  let nodes ← if depth ≠ 0 then do nodes.put depth [← z[depth]?] else some nodes
  some { depth, zeroLeaf, zeroes := z.take depth, nodes }

/-- One round of the bulk build: the row above `level`. -/
def buildLevel (t : Imt F) (level : Nat) : Option (Imt F) := do
  let row ← t.nodes[level]?
  let zero ← t.zeroes[level]?
  let nodes ← t.nodes.put (level + 1) (buildParentLevel poseidon row zero)
  some { t with nodes }

def fromLeavesWithZero (depth : Nat) (zeroLeaf : F) (leaves : List F) : Option (Imt F) := do
  let capacity ← (treeCapacity depth).toOption
  if capacity < leaves.length then none
  else
    let t ← newWithZero poseidon depth zeroLeaf
    if leaves.isEmpty then some t
    else
      let nodes ← t.nodes.put 0 leaves
      (List.range depth).foldlM (buildLevel poseidon) { t with nodes }

def new [Zero F] (depth : Nat) : Option (Imt F) := newWithZero poseidon depth 0

def fromLeaves [Zero F] (depth : Nat) (leaves : List F) : Option (Imt F) :=
  fromLeavesWithZero poseidon depth 0 leaves

/-- State of the insertion loop: the rows, the node to place and its index. -/
structure Climb (F : Type) where
  nodes : List (List F)
  node : F
  index : Nat

def insertLevel (zeroes : List F) (s : Climb F) (level : Nat) : Option (Climb F) := do
  let start := s.index - s.index % 2
  let row ← s.nodes[level]?
  let zero ← zeroes[level]?
  let row :=
    if s.index < row.length then row.set s.index s.node
    else row ++ List.replicate (s.index - row.length) zero ++ [s.node]
  let nodes ← s.nodes.put level row
  some ⟨nodes, poseidon (row.getD start zero) (row.getD (start + 1) zero), s.index / 2⟩

/-- Panics when the tree is full. -/
def insert (t : Imt F) (leaf : F) : Option (Imt F) := do
  let capacity ← t.capacity.toOption
  if t.leafCount < capacity then
    let s ← (List.range t.depth).foldlM (insertLevel poseidon t.zeroes) ⟨t.nodes, leaf, t.leafCount⟩
    let top ← s.nodes[t.depth]?
    let nodes ← s.nodes.put t.depth (if top.isEmpty then top ++ [s.node] else top.set 0 s.node)
    some { t with nodes }
  else none

/-- State of the batch loop: the rows and the first changed index of the next row. -/
structure Batch (F : Type) where
  nodes : List (List F)
  first : Nat

def insertManyLevel (zeroes : List F) (s : Batch F) (level : Nat) : Option (Batch F) := do
  let first := s.first >>> 1
  let row ← s.nodes[level]?
  let zero ← zeroes[level]?
  if row.length < 2 * first then none
  else
    let parents := buildParentLevel poseidon (row.drop (2 * first)) zero
    let above ← s.nodes[level + 1]?
    let nodes ← s.nodes.put (level + 1) (above.take first ++ parents)
    some ⟨nodes, first⟩

def insertMany (t : Imt F) (leaves : List F) : Option (Except TreeError Unit × Imt F) := do
  match t.capacity with
  | .error e => some (.error e, t)
  | .ok capacity =>
    if capacity - t.leafCount < leaves.length then some (.error (.treeFull t.depth), t)
    else if leaves.isEmpty then some (.ok (), t)
    else
      let nodes ← t.nodes.put 0 (t.leaves ++ leaves)
      let s ← (List.range t.depth).foldlM (insertManyLevel poseidon t.zeroes) ⟨nodes, t.leafCount⟩
      some (.ok (), { t with nodes := s.nodes })

/-- State of the update loop: the rows and the index of the changed node. -/
structure Rehash (F : Type) where
  nodes : List (List F)
  nodeIndex : Nat

def updateLevel (zeroes : List F) (s : Rehash F) (level : Nat) : Option (Rehash F) := do
  let pairStart := s.nodeIndex - s.nodeIndex % 2
  let row ← s.nodes[level]?
  let zero ← zeroes[level]?
  let nodeIndex := s.nodeIndex >>> 1
  let above ← s.nodes[level + 1]?
  let above ← above.put nodeIndex (poseidon (row.getD pairStart zero) (row.getD (pairStart + 1) zero))
  let nodes ← s.nodes.put (level + 1) above
  some ⟨nodes, nodeIndex⟩

def update (t : Imt F) (index : Nat) (leaf : F) : Option (Except TreeError Unit × Imt F) := do
  if t.leafCount ≤ index then some (.error (.leafIndexOutOfRange index t.leafCount), t)
  else
    let nodes ← t.nodes.put 0 (t.leaves.set index leaf)
    let s ← (List.range t.depth).foldlM (updateLevel poseidon t.zeroes) ⟨nodes, index⟩
    some (.ok (), { t with nodes := s.nodes })

def truncate (t : Imt F) (leafCount : Nat) : Option (Except TreeError Unit × Imt F) := do
  if t.leafCount < leafCount then some (.error (.leafIndexOutOfRange leafCount t.leafCount), t)
  else
    let t' ← fromLeavesWithZero poseidon t.depth t.zeroLeaf (t.leaves.take leafCount)
    some (.ok (), t')

def root (t : Imt F) : Option F :=
  if t.depth = 0 ∧ t.leaves.isEmpty then some t.zeroLeaf
  else do (← t.nodes[t.depth]?)[0]?

def nextLeafFrontier [Zero F] (t : Imt F) : Option (Except TreeError (List F)) :=
  match t.capacity with
  | .error e => some (.error e)
  | .ok capacity =>
    if capacity ≤ t.leafCount then some (.error (.treeFull t.depth))
    else do
      let frontier ← (List.range t.depth).mapM fun level => do
        let position := t.leafCount >>> level
        if position &&& 1 = 1 then (← t.nodes[level]?)[position - 1]? else some 0
      some (.ok frontier)

/-- Panics when `index` is not a leaf. -/
def createProof (t : Imt F) (index : Nat) : Option (InclusionProof F) := do
  let leaf ← t.leaves[index]?
  let siblings ← (List.range t.depth).mapM fun level => do
    let idx := index / 2 ^ level
    let sib := if idx % 2 = 0 then idx + 1 else idx - 1
    let row ← t.nodes[level]?
    let zero ← t.zeroes[level]?
    some (row.getD sib zero)
  some ⟨leaf, index, siblings, ← t.root⟩

end Imt
end Definitions
end Curvy
