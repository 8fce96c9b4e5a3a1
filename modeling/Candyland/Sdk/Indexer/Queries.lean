import Candyland.Sdk.Indexer.Database

/-!
# The proofs of the indexer

How a proof of a leaf is put together from the rows of its tree, also from rows with a gap.
Numbers are exact, and a bare column of a group comes from the row with the largest value.
-/

namespace Candyland.Sdk.Indexer

open ConcurrentMerkleTree (NodeHash EMPTY hashv)

/-! ### Operators on 32 bits -/

/-- A number as a signed one of 32 bits. -/
def toInt32 (x : ℤ) : ℤ := x.bmod (2 ^ 32)

/-- `x << s`. -/
def shiftLeft (x : ℤ) (s : ℕ) : ℤ := toInt32 (toInt32 x * 2 ^ (s % 32))

/-- `x >> s`. -/
def shiftRight (x : ℤ) (s : ℕ) : ℤ := toInt32 x / 2 ^ (s % 32)

theorem toInt32_eq {x : ℕ} (h : x < 2 ^ 31) : toInt32 x = x := by
  rw [toInt32, Int.bmod_eq_of_le] <;> omega

@[simp] theorem shiftLeft_one {s : ℕ} (h : s < 31) : shiftLeft 1 s = 2 ^ s := by
  have hone : toInt32 1 = 1 := toInt32_eq (by norm_num)
  have hpow : toInt32 ((2 ^ s : ℕ) : ℤ) = (2 ^ s : ℕ) :=
    toInt32_eq (Nat.pow_lt_pow_right (by norm_num) h)
  rw [shiftLeft, hone, Nat.mod_eq_of_lt (by omega), one_mul]
  exact_mod_cast hpow

@[simp] theorem shiftRight_eq {x s : ℕ} (hx : x < 2 ^ 31) (hs : s < 32) :
    shiftRight x s = (x / 2 ^ s : ℕ) := by
  rw [shiftRight, toInt32_eq hx, Nat.mod_eq_of_lt hs]
  norm_cast

/-- A number that is neither missing nor zero. -/
def truthy (x : Option ℕ) : Option ℕ := x.filter (· ≠ 0)

@[simp] theorem truthy_none : truthy none = none := rfl

@[simp] theorem truthy_some {n : ℕ} (h : n ≠ 0) : truthy (some n) = some n := by
  simp [truthy, h]

/-! ### Proofs -/

/-- `Proof`. -/
structure Proof (Node Pubkey : Type) where
  leaf : Node
  root : Node
  proofNodes : List Node
  index : ℤ
  nonce : ℕ
  dataHash : Node
  creatorHash : Node
  owner : Pubkey
  delegate : Pubkey
deriving DecidableEq

/-- The loop of `generateProof`, which halves `n`. -/
def proofNodesFrom : ℕ → ℤ → List ℤ
  | 0, _ => [1]
  | fuel + 1, n =>
    if n > 1 then (if n % 2 = 0 then n + 1 else n - 1) :: proofNodesFrom fuel (shiftRight n 1)
    else [1]

/-- The numbers of the siblings of a node and of its ancestors, and then that of the root. -/
def proofNodesOf (nodeIdx : ℤ) : List ℤ := proofNodesFrom nodeIdx.toNat nodeIdx

/-- `proof[level] = hash`, for a level that is at most the length. -/
def assignAt {Node : Type} (proof : List Node) (level : ℕ) (hash : Node) : List Node :=
  proof.take level ++ hash :: proof.drop (level + 1)

variable {Node Pubkey : Type} [NodeHash Node]

/-- `emptyNode(level)`; the cache only saves work. -/
def emptyNode : ℕ → Node
  | 0 => EMPTY
  | level + 1 => hashv (emptyNode level) (emptyNode level)

/-- `generateRoot(proof)`. -/
def generateRoot (proof : Proof Node Pubkey) : Node :=
  proof.proofNodes.zipIdx.foldl (fun node (pNode, i) =>
    if (shiftRight proof.index i).tmod 2 = 0 then hashv node pNode else hashv pNode node) proof.leaf

/-- `verifyProof(proof)`. -/
def verifyProof [DecidableEq Node] (proof : Proof Node Pubkey) : Bool :=
  generateRoot proof = proof.root

namespace NFTDatabaseConnection

variable [DecidableEq Node] [DecidableEq Pubkey] (self : NFTDatabaseConnection Node Pubkey)

/-! ### Queries -/

omit [NodeHash Node] [DecidableEq Node] in
/-- The query of `generateProof`: for every wanted node its row with the largest `seq`, in the
order of the levels. -/
def newestNodes (nodes : List ℤ) (treeId : Pubkey) (maxSequenceNumber : Option ℕ) :
    List (MerkleRow Node Pubkey) :=
  Table.orderBy MerkleRow.level <| Table.groupMax MerkleRow.nodeIdx MerkleRow.seq <|
    self.merkle.filter fun row => decide ((row.nodeIdx : ℤ) ∈ nodes) &&
      decide (row.treeId = treeId) &&
      match truthy maxSequenceNumber with
      | some maxSeq => decide (row.seq ≤ maxSeq)
      | none => true

/-- `generateProof(treeId, nodeIdx, hash, .., check, maxSequenceNumber)`. -/
def generateProof (treeId : Pubkey) (nodeIdx : ℤ) (hash dataHash creatorHash : Node) (nonce : ℕ)
    (owner delegate : Pubkey) (check : Bool) (maxSequenceNumber : Option ℕ) :
    Option (Proof Node Pubkey) := do
  let res := self.newestNodes (proofNodesOf nodeIdx) treeId maxSequenceNumber
  let root ← res.getLast?
  let res := res.dropLast
  if root.nodeIdx ≠ 1 then none
  else
    let proof : List Node := (List.range root.level).map emptyNode
    let proof := res.foldl (fun proof node => assignAt proof node.level node.hash) proof
    let leafIdx := nodeIdx - shiftLeft 1 root.level
    let inferredProof : Proof Node Pubkey :=
      ⟨hash, root.hash, proof, leafIdx, nonce, dataHash, creatorHash, owner, delegate⟩
    let inferredProof :=
      if (truthy maxSequenceNumber).isSome then
        { inferredProof with root := generateRoot inferredProof }
      else inferredProof
    if check && !verifyProof inferredProof then none else some inferredProof

/-- `getProof(hash, treeId, check)`. -/
def getProof (hash : Node) (treeId : Pubkey) (check : Bool) : Option (Proof Node Pubkey) :=
  let res := (self.merkle ×ˢ self.leafSchema).filter fun (m, l) =>
    decide (m.hash = l.leafHash) && decide (m.treeId = l.treeId) && decide (m.seq = l.seq) &&
      (decide (m.hash = hash) && decide (m.treeId = treeId) && decide (m.level = 0))
  match res with
  | [(m, l)] =>
    self.generateProof treeId m.nodeIdx hash l.dataHash l.creatorHash l.nonce l.owner l.delegate
      check none
  | _ => none

omit [NodeHash Node] [DecidableEq Node] in
/-- `getMaxSeq(treeId)`. -/
def getMaxSeq (treeId : Pubkey) : Option ℕ :=
  ((self.merkle.filter fun row => decide (row.treeId = treeId)).map MerkleRow.seq).max?

omit [NodeHash Node] [DecidableEq Node] in
/-- `getDepth(treeId)`. -/
def getDepth (treeId : Pubkey) : Option ℕ :=
  ((self.merkle.filter fun row => decide (row.treeId = treeId)).map MerkleRow.level).max?

omit [NodeHash Node] [DecidableEq Node] in
/-- The query of `getInferredProof`: the smallest `seq` whose successor is missing. -/
def gapIndex (treeId : Pubkey) : Option ℕ :=
  (Table.orderBy MerkleRow.seq <| self.merkle.filter fun m0 =>
    !(self.merkle.any fun m1 => decide (m1.seq = m0.seq + 1) && decide (m1.treeId = treeId)) &&
      decide (m0.treeId = treeId)).head?.map MerkleRow.seq

/-- `inferProofWithKnownGap(hash, treeId, seq, check)`. -/
def inferProofWithKnownGap (hash : Node) (treeId : Pubkey) (seq : ℕ) (check : Bool) :
    Option (Proof Node Pubkey) := do
  let depth ← truthy (self.getDepth treeId)
  let res ← self.leafSchema.find? fun l => decide (l.leafHash = hash) && decide (l.treeId = treeId)
  self.generateProof treeId (shiftLeft 1 depth + res.nonce) hash res.dataHash res.creatorHash
    res.nonce res.owner res.delegate check (some seq)

/-- `getInferredProof(hash, treeId, check)`. -/
def getInferredProof (hash : Node) (treeId : Pubkey) (check : Bool) :
    Option (Proof Node Pubkey) := do
  let latestSeq ← truthy (self.getMaxSeq treeId)
  match self.gapIndex treeId with
  | some gapIndex =>
    if gapIndex < latestSeq then self.inferProofWithKnownGap hash treeId gapIndex check
    else self.getProof hash treeId check
  | none => self.getProof hash treeId check

end NFTDatabaseConnection

end Candyland.Sdk.Indexer
