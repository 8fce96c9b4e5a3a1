import Candyland.Lib.CircularBuffer
import Candyland.Lib.Outcome
import Candyland.ConcurrentMerkleTree.State

/-!
# The merkle roll

The methods of `merkle_roll.rs`.  A method on `&mut self` returns its result beside
the roll it leaves behind, after an error as well; beside `panic` stands the roll at
the point of the panic, which no later call sees.

The cursor `active_index` is masked after every change, so that it is a slot of the
buffer by its type.  The other 64-bit counters are natural numbers, with their
wrapping and saturating operations written out.
-/

namespace Candyland.ConcurrentMerkleTree

/-- `MAX_BUFFER_SIZE` is a `usize`, and there is a `change_logs[0]`. -/
class BufferSize (B : ℕ) : Prop where
  pos : 0 < B
  lt_usize : B < 2 ^ 64

/-- `MerkleRoll<MAX_DEPTH, MAX_BUFFER_SIZE>`. -/
structure MerkleRoll (Node : Type) (D B : ℕ) where
  sequenceNumber : ℕ
  activeIndex : Fin B
  bufferSize : ℕ
  changeLogs : Vector (ChangeLog Node D) B
  rightmostProof : Path Node D
deriving DecidableEq

/-- `check_bounds(max_depth, max_buffer_size)`; a panic when it is `false`. -/
def checkBounds (D B : ℕ) : Bool := decide (D < 31) && (B &&& (B - 1) == 0)

/-- `u64::wrapping_sub`. -/
def wrappingSub (a b : ℕ) : ℕ := (a + 2 ^ 64 - b) % 2 ^ 64

/-- `1 << MAX_DEPTH` on a `u32`, the number of leaves. -/
def capacity (D : ℕ) : UInt32 := 1 <<< UInt32.ofNat D

variable {Node : Type} [NodeHash Node] [DecidableEq Node] {D B : ℕ} [hB : BufferSize B]

/-- `x & mask` with `mask = MAX_BUFFER_SIZE - 1`. -/
def mask (x : ℕ) : Fin B :=
  ⟨x &&& (B - 1), Nat.and_le_right.trans_lt (Nat.sub_lt hB.pos Nat.one_pos)⟩

namespace MerkleRoll

omit [DecidableEq Node] in
/-- `MerkleRoll::new()`, also what an account of zero bytes holds. -/
def new : MerkleRoll Node D B where
  sequenceNumber := 0
  activeIndex := ⟨0, hB.pos⟩
  bufferSize := 0
  changeLogs := Vector.replicate B ChangeLog.default
  rightmostProof := Path.default

/-- `initialize()`, whose name is a keyword of Lean. -/
def initializeRoll (self : MerkleRoll Node D B) : Outcome CMTError Node × MerkleRoll Node D B :=
  if checkBounds D B then
    let cache : Vector Node D := Vector.replicate D EMPTY
    let nodes : Vector Node D :=
      Nat.fold D (fun i _ nodes => nodes.set i (emptyNodeCached cache i)) cache
    let changeLog : ChangeLog Node D :=
      { self.changeLogs.get ⟨0, hB.pos⟩ with root := emptyNode D, path := nodes }
    (.ok changeLog.root,
      { sequenceNumber := 0
        activeIndex := ⟨0, hB.pos⟩
        bufferSize := 1
        changeLogs := self.changeLogs.set 0 changeLog hB.pos
        rightmostProof := { (Path.default : Path Node D) with proof := nodes } })
  else (.panic, self)

/-- `initialize_with_root(root, rightmost_leaf, proof_vec, index)`. -/
def initializeWithRoot (self : MerkleRoll Node D B) (root rightmostLeaf : Node)
    (proofVec : List Node) (index : UInt32) :
    Outcome CMTError Node × MerkleRoll Node D B :=
  if checkBounds D B then
    if h : proofVec.length = D then
      let proof : Vector Node D := ⟨proofVec.toArray, by simpa using h⟩
      let changeLog : ChangeLog Node D := { self.changeLogs.get ⟨0, hB.pos⟩ with root := root }
      let self' : MerkleRoll Node D B :=
        { sequenceNumber := 1
          activeIndex := ⟨0, hB.pos⟩
          bufferSize := 1
          changeLogs := self.changeLogs.set 0 changeLog hB.pos
          rightmostProof := ⟨proof, rightmostLeaf, index + 1⟩ }
      if root = recompute rightmostLeaf proof index then (.ok root, self') else (.panic, self')
    else (.panic, self)
  else (.panic, self)

omit [NodeHash Node] [DecidableEq Node] hB in
/-- `get_change_log()`. -/
def getChangeLog (self : MerkleRoll Node D B) : ChangeLog Node D :=
  self.changeLogs[self.activeIndex]

omit [NodeHash Node] [DecidableEq Node] in
/-- The loop of `fast_forward_proof`.  It walks the ring, so that `B + 1` rounds are
more than it ever takes; `none` is a panic in `update_proof_or_leaf`. -/
def fastForwardLoop (self : MerkleRoll Node D B) (leafIndex : UInt32) (useFullBuffer : Bool) :
    ℕ → Fin B → Vector Node D × Node → Option (Vector Node D × Node)
  | 0, _, _ => none
  | fuel + 1, changelogBufferIndex, (proof, leaf) =>
    if !useFullBuffer && changelogBufferIndex == self.activeIndex then some (proof, leaf)
    else
      let changelogBufferIndex := mask (changelogBufferIndex + 1)
      match self.changeLogs[changelogBufferIndex].updateProofOrLeaf leafIndex proof leaf with
      | none => none
      | some (proof, leaf) =>
        if useFullBuffer && changelogBufferIndex == self.activeIndex then some (proof, leaf)
        else fastForwardLoop self leafIndex useFullBuffer fuel changelogBufferIndex (proof, leaf)

omit [NodeHash Node] in
/-- `fast_forward_proof(leaf, proof, leaf_index, changelog_buffer_index, use_full_buffer)`:
whether the leaf is unchanged, the new leaf and the new proof. -/
def fastForwardProof (self : MerkleRoll Node D B) (leaf : Node) (proof : Vector Node D)
    (leafIndex : UInt32) (changelogBufferIndex : Fin B) (useFullBuffer : Bool) :
    Option (Bool × Node × Vector Node D) :=
  (self.fastForwardLoop leafIndex useFullBuffer (B + 1) changelogBufferIndex (proof, leaf)).map
    fun (proof, updatedLeaf) => (decide (updatedLeaf = leaf), updatedLeaf, proof)

omit [NodeHash Node] in
/-- `find_root_in_changelog(current_root)`. -/
def findRootInChangelog (self : MerkleRoll Node D B) (currentRoot : Node) : Option (Fin B) :=
  (List.range self.bufferSize).findSome? fun i =>
    let j := mask (wrappingSub self.activeIndex i)
    if self.changeLogs[j].root = currentRoot then some j else none

/-- `check_valid_leaf(current_root, leaf, proof, leaf_index, allow_inferred_proof)`:
whether the leaf is valid, and the fast-forwarded proof. -/
def checkValidLeaf (self : MerkleRoll Node D B) (currentRoot leaf : Node)
    (proof : Vector Node D) (leafIndex : UInt32) (allowInferredProof : Bool) :
    Outcome CMTError (Bool × Vector Node D) := do
  let (changelogIndex, useFullBuffer) ←
    match self.findRootInChangelog currentRoot with
    | some matchingChangelogIndex => .ok (matchingChangelogIndex, false)
    | none =>
      if allowInferredProof then
        .ok (mask (wrappingSub self.activeIndex (wrappingSub self.bufferSize 1)), true)
      else .err .RootNotFound
  match self.fastForwardProof leaf proof leafIndex changelogIndex useFullBuffer with
  | none => .panic
  | some (proofLeafUnchanged, updatableLeafNode, proof) =>
    if proofLeafUnchanged then
      .ok (decide (recompute updatableLeafNode proof leafIndex = self.getChangeLog.root), proof)
    else .err .LeafContentsModified

omit [NodeHash Node] [DecidableEq Node] in
/-- `update_internal_counters()`. -/
def updateInternalCounters (self : MerkleRoll Node D B) : MerkleRoll Node D B :=
  { self with
    activeIndex := mask (self.activeIndex + 1)
    bufferSize := if self.bufferSize < B then self.bufferSize + 1 else self.bufferSize
    sequenceNumber := min (self.sequenceNumber + 1) (2 ^ 64 - 1) }

omit [DecidableEq Node] hB in
/-- `update_buffers_from_proof(start, proof, index)`. -/
def updateBuffersFromProof (self : MerkleRoll Node D B) (start : Node) (proof : Vector Node D)
    (index : UInt32) : Outcome CMTError Node × MerkleRoll Node D B :=
  let (root, changeLog) :=
    self.changeLogs[self.activeIndex].replaceAndRecomputePath index start proof
  let self := { self with changeLogs := self.changeLogs.set self.activeIndex changeLog }
  let rightmost := self.rightmostProof
  if rightmost.index < capacity D then
    if index < rightmost.index then
      match changeLog.updateProofOrLeaf (rightmost.index - 1) rightmost.proof rightmost.leaf with
      | none => (.panic, self)
      | some (proof, leaf) =>
        (.ok root, { self with rightmostProof := { rightmost with proof := proof, leaf := leaf } })
    else if index = rightmost.index then
      match changeLog.getLeaf with
      | none =>
        (.panic, { self with rightmostProof := { rightmost with proof := proof, index := index + 1 } })
      | some leaf => (.ok root, { self with rightmostProof := ⟨proof, leaf, index + 1⟩ })
    else (.panic, self)
  else (.ok root, self)

/-- `try_apply_proof(current_root, leaf, new_leaf, proof, leaf_index, allow_inferred_proof)`. -/
def tryApplyProof (self : MerkleRoll Node D B) (currentRoot leaf newLeaf : Node)
    (proof : Vector Node D) (leafIndex : UInt32) (allowInferredProof : Bool) :
    Outcome CMTError Node × MerkleRoll Node D B :=
  match self.checkValidLeaf currentRoot leaf proof leafIndex allowInferredProof with
  | .panic => (.panic, self)
  | .err error => (.err error, self)
  | .ok (validRoot, proof) =>
    if validRoot then
      self.updateInternalCounters.updateBuffersFromProof newLeaf proof leafIndex
    else (.err .InvalidProof, self)

/-- `prove_leaf(current_root, leaf, proof_vec, leaf_index)`. -/
def proveLeaf (self : MerkleRoll Node D B) (currentRoot leaf : Node) (proofVec : List Node)
    (leafIndex : UInt32) : Outcome CMTError Node × MerkleRoll Node D B :=
  if checkBounds D B then
    if leafIndex > self.rightmostProof.index then (.err .LeafIndexOutOfBounds, self)
    else
      match fillInProof D proofVec with
      | none => (.panic, self)
      | some proof =>
        match self.checkValidLeaf currentRoot leaf proof leafIndex true with
        | .panic => (.panic, self)
        | .err error => (.err error, self)
        | .ok (validRoot, _) =>
          if validRoot then (.ok EMPTY, self) else (.err .InvalidProof, self)
  else (.panic, self)

/-- `initialize_tree_from_append(leaf, proof)`. -/
def initializeTreeFromAppend (self : MerkleRoll Node D B) (leaf : Node)
    (proof : Vector Node D) : Outcome CMTError Node × MerkleRoll Node D B :=
  let oldRoot := recompute (EMPTY : Node) proof 0
  if oldRoot = emptyNode D then self.tryApplyProof oldRoot EMPTY leaf proof 0 false
  else (.err .TreeAlreadyInitialized, self)

/-- The variables of the loop of `append`. -/
structure AppendLoop (Node : Type) (D : ℕ) where
  changeList : Vector Node D
  node : Node
  intersectionNode : Node
  proof : Vector Node D

omit hB in
/-- The body of the loop of `append`, at `rightmost_proof.index = index`. -/
def appendStep (index : UInt32) (i : ℕ) (hi : i < D) (s : AppendLoop Node D) :
    AppendLoop Node D :=
  let intersection := trailingZeros index
  let changeList := s.changeList.set i s.node
  if i < intersection then
    -- the proof to the appended node consists of empty nodes
    let sibling := emptyNodeCached (Vector.replicate D (EMPTY : Node)) i
    { changeList := changeList
      intersectionNode := hashToParent s.intersectionNode s.proof[i] (isLeft (index - 1) i)
      node := hashToParent s.node sibling true
      proof := s.proof.set i sibling }
  else if i = intersection then
    -- the new node meets the main tree
    { changeList := changeList
      intersectionNode := s.intersectionNode
      node := hashToParent s.node s.intersectionNode false
      proof := s.proof.set i s.intersectionNode }
  else
    { s with
      changeList := changeList
      node := hashToParent s.node s.proof[i] (isLeft (index - 1) i) }

/-- `append(node)`. -/
def append (self : MerkleRoll Node D B) (node : Node) :
    Outcome CMTError Node × MerkleRoll Node D B :=
  if checkBounds D B then
    if node = EMPTY then (.err .CannotAppendEmptyNode, self)
    else if self.rightmostProof.index ≥ capacity D then (.err .TreeFull, self)
    else if self.rightmostProof.index = 0 then
      self.initializeTreeFromAppend node self.rightmostProof.proof
    else
      let index := self.rightmostProof.index
      let s := Nat.fold D (appendStep index)
        ⟨Vector.replicate D EMPTY, node, self.rightmostProof.leaf, self.rightmostProof.proof⟩
      let self := self.updateInternalCounters
      (.ok s.node,
        { self with
          changeLogs := self.changeLogs.set self.activeIndex
            (ChangeLog.new s.node s.changeList index)
          rightmostProof := ⟨s.proof, node, index + 1⟩ })
  else (.panic, self)

/-- `fill_empty_or_append(current_root, leaf, proof_vec, index)`. -/
def fillEmptyOrAppend (self : MerkleRoll Node D B) (currentRoot leaf : Node)
    (proofVec : List Node) (index : UInt32) : Outcome CMTError Node × MerkleRoll Node D B :=
  if checkBounds D B then
    match fillInProof D proofVec with
    | none => (.panic, self)
    | some proof =>
      match self.tryApplyProof currentRoot EMPTY leaf proof index false with
      | (.err .LeafContentsModified, self) => self.append leaf
      | result => result
  else (.panic, self)

/-- `set_leaf(current_root, previous_leaf, new_leaf, proof_vec, index)`. -/
def setLeaf (self : MerkleRoll Node D B) (currentRoot previousLeaf newLeaf : Node)
    (proofVec : List Node) (index : UInt32) : Outcome CMTError Node × MerkleRoll Node D B :=
  if checkBounds D B then
    if index > self.rightmostProof.index then (.err .LeafIndexOutOfBounds, self)
    else
      match fillInProof D proofVec with
      | none => (.panic, self)
      | some proof => self.tryApplyProof currentRoot previousLeaf newLeaf proof index true
  else (.panic, self)

end MerkleRoll

end Candyland.ConcurrentMerkleTree
