import Candyland.ConcurrentMerkleTree.Utils
import Candyland.Gummyroll.State

/-!
# The reference tree

`merkle-tree-reference` keeps every node of a tree as a shared cell with links to its
children and its parent.  A cell is an element of a heap here, and a reference to it its
place in the heap.  The numbers of nodes and of levels fit their words on every machine,
so that levels and identifiers are natural numbers.

A function returns `none` when it panics.  A loop has a number of rounds, and returns
`none` when they do not suffice.
-/

namespace Candyland.MerkleTreeReference

open ConcurrentMerkleTree (NodeHash EMPTY hashv emptyNode isLeft hashToParent)
open Gummyroll (Build)

/-- `Rc<RefCell<TreeNode>>`. -/
abbrev Ref := ℕ

/-- `TreeNode`. -/
structure TreeNode (Node : Type) where
  node : Node
  left : Option Ref
  right : Option Ref
  parent : Option Ref
  level : ℕ
  id : ℕ
deriving DecidableEq

/-- The nodes that were allocated. -/
abbrev Heap (Node : Type) := List (TreeNode Node)

variable {Node : Type} [NodeHash Node]

namespace TreeNode

/-- `TreeNode::new(node, left, right, level, id)`. -/
def new (node : Node) (left right : Ref) (level id : ℕ) : TreeNode Node :=
  { node, left := some left, right := some right, parent := none, level, id }

/-- `TreeNode::new_empty(level, id)`. -/
def newEmpty (level id : ℕ) : TreeNode Node :=
  { node := emptyNode level, left := none, right := none, parent := none, level, id }

/-- `assign_parent(parent)`. -/
def assignParent (self : TreeNode Node) (parent : Ref) : TreeNode Node :=
  { self with parent := some parent }

/-- The assignment of `node` through a mutable borrow. -/
def setNode (self : TreeNode Node) (node : Node) : TreeNode Node := { self with node }

end TreeNode

/-! ### Building -/

/-- The variables of `build_root`: `tree` is the queue. -/
structure BuildState (Node : Type) where
  heap : Heap Node
  tree : List Ref
  seqNum : ℕ

namespace BuildState

/-- The choice of `right`, after `left` has left the queue: the next node if it is of the
same level, else a new empty node. -/
def takeRight (st : BuildState Node) (level : ℕ) : Option (Ref × BuildState Node) := do
  let front ← st.tree[0]?
  let frontNode ← st.heap[front]?
  if level ≠ frontNode.level then
    return (st.heap.length, { st with
      heap := st.heap ++ [TreeNode.newEmpty level st.seqNum], seqNum := st.seqNum + 1 })
  else
    return (front, { st with tree := st.tree.tail })

/-- The parent of `left` and `right` is made and put at the back of the queue. -/
def join (st : BuildState Node) (left right : Ref) : Option (BuildState Node) := do
  let leftNode ← st.heap[left]?
  let rightNode ← st.heap[right]?
  let parent := st.heap.length
  let hashedParent := hashv leftNode.node rightNode.node
  let heap := st.heap ++
    [TreeNode.new hashedParent left right (leftNode.level + 1) st.seqNum]
  return {
    heap := (heap.modify left (·.assignParent parent)).modify right (·.assignParent parent)
    tree := st.tree ++ [parent]
    seqNum := st.seqNum + 1 }

/-- The body of the loop of `build_root`. -/
def round (st : BuildState Node) : Option (BuildState Node) := do
  let left ← st.tree.head?
  let leftNode ← st.heap[left]?
  let (right, st) ← takeRight { st with tree := st.tree.tail } leftNode.level
  st.join left right

/-- `while tree.len() > 1`, for a number of rounds. -/
def loop : ℕ → BuildState Node → Option (BuildState Node)
  | 0, st => if 1 < st.tree.length then none else some st
  | fuel + 1, st => if 1 < st.tree.length then st.round >>= loop fuel else some st

end BuildState

/-- `MerkleTree`, with the nodes it refers to. -/
structure MerkleTree (Node : Type) where
  heap : Heap Node
  leafNodes : List Ref
  root : Node

namespace MerkleTree

/-- `MerkleTree::build_root(leaves)`.  The nodes it makes are added to the heap. -/
def buildRoot (fuel : ℕ) (heap : Heap Node) (leaves : List Ref) : Option (Heap Node × Node) := do
  let st ← BuildState.loop fuel { heap, tree := leaves, seqNum := leaves.length }
  let front ← st.tree[0]?
  let root ← st.heap[front]?
  return (st.heap, root.node)

/-- The loop of `MerkleTree::new`: the nodes of the leaves and the references to them. -/
def newLeaves (leaves : List Node) : Heap Node × List Ref :=
  leaves.zipIdx.foldl (fun (heap, leafNodes) (node, i) =>
    (heap ++ [(TreeNode.newEmpty 0 i).setNode node], leafNodes ++ [heap.length])) ([], [])

/-- `MerkleTree::new(leaves)`. -/
def new (fuel : ℕ) (leaves : List Node) : Option (MerkleTree Node) := do
  let (heap, leafNodes) := newLeaves leaves
  let (heap, root) ← buildRoot fuel heap leafNodes
  return { heap, leafNodes, root }

/-! ### Walking upward

A walk that visits more nodes than there are does not end. -/

/-- The loop of `get_proof_of_leaf`. -/
def proofLoop (heap : Heap Node) : ℕ → Ref → List Node → Option (List Node)
  | 0, _, _ => none
  | fuel + 1, node, proof => do
    let refNode ← heap[node]?
    match refNode.parent with
    | none => return proof
    | some parent =>
      let parentNode ← heap[parent]?
      let left ← heap[← parentNode.left]?
      if left.id = refNode.id then
        let right ← heap[← parentNode.right]?
        proofLoop heap fuel parent (proof ++ [right.node])
      else
        proofLoop heap fuel parent (proof ++ [left.node])

/-- `get_proof_of_leaf(idx)`. -/
def getProofOfLeaf (self : MerkleTree Node) (idx : ℕ) : Option (List Node) := do
  let node ← self.leafNodes[idx]?
  proofLoop self.heap self.heap.length node []

/-- The loop of `update_root_from_leaf`: the heap after it and the new root. -/
def updateLoop : ℕ → Ref → Heap Node → Option (Heap Node × Node)
  | 0, _, _ => none
  | fuel + 1, node, heap => do
    let refNode ← heap[node]?
    match refNode.parent with
    | none => return (heap, refNode.node)
    | some parent =>
      let parentNode ← heap[parent]?
      let left ← heap[← parentNode.left]?
      let hash ←
        if left.id = refNode.id then do
          let right ← heap[← parentNode.right]?
          pure (hashv refNode.node right.node)
        else pure (hashv left.node refNode.node)
      updateLoop fuel parent (heap.modify parent (·.setNode hash))

/-- `update_root_from_leaf(leaf_idx)`. -/
def updateRootFromLeaf (self : MerkleTree Node) (leafIdx : ℕ) : Option (MerkleTree Node) := do
  let node ← self.leafNodes[leafIdx]?
  let (heap, root) ← updateLoop self.heap.length node self.heap
  return { self with heap, root }

/-- The assignment of a leaf and the update of its path, which `add_leaf` and
`remove_leaf` share. -/
def setLeaf (self : MerkleTree Node) (leaf : Node) (leafIdx : ℕ) : Option (MerkleTree Node) := do
  let node ← self.leafNodes[leafIdx]?
  updateRootFromLeaf { self with heap := self.heap.modify node (·.setNode leaf) } leafIdx

/-- `add_leaf(leaf, leaf_idx)`. -/
def addLeaf (self : MerkleTree Node) (leaf : Node) (leafIdx : ℕ) : Option (MerkleTree Node) :=
  self.setLeaf leaf leafIdx

/-- `remove_leaf(leaf_idx)`. -/
def removeLeaf (self : MerkleTree Node) (leafIdx : ℕ) : Option (MerkleTree Node) :=
  self.setLeaf EMPTY leafIdx

/-- `get_leaf(leaf_idx)`. -/
def getLeaf (self : MerkleTree Node) (leafIdx : ℕ) : Option Node := do
  let node ← self.heap[← self.leafNodes[leafIdx]?]?
  return node.node

/-- `get_root()`. -/
def getRoot (self : MerkleTree Node) : Node := self.root

end MerkleTree

/-! ### Recomputing a root -/

/-- `index >> i & 1 == 0` for an `i` that comes from a list: a shift by the width of the
word is an overflow. -/
def goesLeft [Build] (index : UInt32) (i : ℕ) : Option Bool :=
  if Build.overflowChecks && decide (32 ≤ i) then none else some (isLeft index i)

/-- `recompute(leaf, proof, index)`. -/
def recompute [Build] (leaf : Node) (proof : List Node) (index : UInt32) : Option Node :=
  proof.zipIdx.foldlM (fun leaf (s, i) => do
    return hashToParent leaf s (← goesLeft index i)) leaf

end Candyland.MerkleTreeReference
