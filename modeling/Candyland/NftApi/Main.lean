import Candyland.DigitalAssetTypes.AssetProof

/-!
# The proof endpoint of the API

`get_proof_and_root` asks for the same nodes as the proof of an asset does, but takes the
rows as they come when all of them exist.  On the replica of a tree it returns the siblings
and the root for every leaf, touched or not.
-/

namespace Candyland.NftApi

open ConcurrentMerkleTree NftIngester DigitalAssetTypes
open MerkleTree (number numbered)

variable {Node Pubkey : Type} {D : ℕ}

/-- `ApiError`, as far as it is returned here. -/
inductive ApiError where
  | ResponseError (msg : String)
deriving DecidableEq

/-- `NodeView`, with nodes for their base58 texts.  A `NodeDAO` has the same columns. -/
abbrev NodeView (Node : Type) := SimpleChangeLog Node

/-- `get_required_nodes_for_proof(index)`, which is repeated here. -/
def getRequiredNodesForProof (index : ℤ) : List ℤ :=
  DigitalAssetTypes.getRequiredNodesForProof index

section Query

variable [DecidableEq Pubkey]

/-- `select max(seq) as seq from cl_items where node_idx = 1 and tree = $2`. -/
def maxRootSeq (rows : List (ClRow Node Pubkey)) (treeId : Pubkey) : Option ℤ :=
  ((rows.filter fun row => decide (row.1.2 = 1) && decide (row.1.1 = treeId)).map
    fun row => row.2.seq).max?

/-- The query of `get_proof_and_root`.  A comparison with the `NULL` of a missing root keeps no
row. -/
def nodesFromDb (rows : List (ClRow Node Pubkey)) (treeId : Pubkey) (nodes : List ℤ) :
    List (NodeView Node) :=
  (Select.distinctOn (fun row : ClRow Node Pubkey => row.1.2) <|
    Select.orderByDesc (fun row => row.1.2) <|
      rows.filter fun row => decide (row.1.2 ∈ nodes) && decide (row.1.1 = treeId) &&
        match maxRootSeq rows treeId with
        | some seq => decide (row.2.seq ≤ seq)
        | none => false).map .ofRow

/-- `get_proof_and_root(db, tree_id, index)`. -/
def getProofAndRoot [NodeHash Node] [DecidableEq Node] (rows : List (ClRow Node Pubkey))
    (treeId : Pubkey) (index : ℤ) : Outcome ApiError (List (NodeView Node)) :=
  let nodes := getRequiredNodesForProof index
  let expectedProofSize := nodes.length
  let nodesFromDb := nodesFromDb rows treeId nodes
  if nodesFromDb.length > expectedProofSize then .err (.ResponseError "Tree Corrupted")
  else if nodesFromDb.length ≠ expectedProofSize then fillNodeList nodes nodesFromDb
  else .ok nodesFromDb

end Query

section Replica

variable [NodeHash Node] [DecidableEq Pubkey] {i : ℕ} {rows : List (ClRow Node Pubkey)}
  {tree : Pubkey} {ws : List (ℕ × Node)} {clItems : Pubkey × ℤ → Option (ClItem Node)}
  (h : Replicates D tree ws clItems) (hstores : Stores rows tree clItems)
  (hbound : ∀ w ∈ ws, w.1 < 2 ^ D)

include h hstores in
omit [DecidableEq Pubkey] in
theorem seq_le_of_mem {row : ClRow Node Pubkey} (hrow : row ∈ rows) (htree : row.1.1 = tree) :
    row.2.seq ≤ ws.length := by
  obtain ⟨⟨t, x⟩, item⟩ := row
  obtain rfl : t = tree := htree
  obtain ⟨n, seq, -, hseq, rfl⟩ := h.exists_of_eq_some ((hstores.mem_iff x item).1 hrow)
  exact Int.ofNat_le.2 (lastSeq_le hseq)

include h hstores hbound in
/-- The root has the number of the last update. -/
theorem maxRootSeq_replica : maxRootSeq rows tree = some (ws.length : ℤ) := by
  have hroot := (hstores.mem_iff _ _).2 (h.touched 1 ws.length (lastSeq_one hbound))
  rw [maxRootSeq, List.max?_eq_some_iff]
  constructor
  · exact List.mem_map.2 ⟨_, List.mem_filter.2 ⟨hroot, by simp⟩, rfl⟩
  · intro seq hseq
    obtain ⟨row, hrow, rfl⟩ := List.mem_map.1 hseq
    obtain ⟨hmem, hpass⟩ := List.mem_filter.1 hrow
    exact seq_le_of_mem h hstores hmem (by simp_all)

include h hstores hbound in
theorem nodesFromDb_replica (hi : i < 2 ^ D) :
    nodesFromDb rows tree (getRequiredNodesForProof ((2 ^ D + i : ℕ) : ℤ)) =
      (getRequiredNodesForProof ((2 ^ D + i : ℕ) : ℤ)).filterMap (lookupNode clItems tree) := by
  rw [nodesFromDb, maxRootSeq_replica h hstores hbound]
  refine hstores.select hi fun row hrow => ?_
  simp only [Bool.and_eq_true, decide_eq_true_eq]
  constructor
  · intro hpass
    exact hpass.1
  · intro hpass
    exact ⟨hpass, seq_le_of_mem h hstores hrow hpass.2⟩

/-- The endpoint returns the siblings of every leaf and then the root, each with its number
and its level, and the leaf climbs to that root. -/
theorem proof_and_root_of_replica [DecidableEq Node] (h : Replicates D tree ws clItems)
    (hstores : Stores rows tree clItems) (hbound : ∀ w ∈ ws, w.1 < 2 ^ D) (hi : i < 2 ^ D) :
    getProofAndRoot rows tree (2 ^ D + i : ℕ) =
      .ok ((List.range D).map (fun l : ℕ => ⟨some (MerkleTree.sibling hashv (treeAfter ws) i l), l,
          (number D i l ^^^ 1 : ℕ), ((lastSeq D (number D i l ^^^ 1) ws).getD 0 : ℕ)⟩) ++
        [⟨some (MerkleTree.root hashv D (treeAfter ws)), D, 1, ws.length⟩]) ∧
    ∀ (index : UInt32) (proof : Vector Node D), D ≤ 32 → index.toNat = i →
      proof.toList = siblings D (treeAfter ws) i →
        recompute (treeAfter ws i) proof index = MerkleTree.root hashv D (treeAfter ws) := by
  refine ⟨?_, fun index proof hD hindex hproof => recompute_siblings hD _ hindex hi hproof⟩
  -- the wanted nodes, with the root written out
  have hnodes : (List.range (D + 1)).map (fun l => DigitalAssetTypes.proofNode D ws (wanted D i l)) =
      (List.range D).map (fun l : ℕ => ⟨some (MerkleTree.sibling hashv (treeAfter ws) i l), l,
          (number D i l ^^^ 1 : ℕ), ((lastSeq D (number D i l ^^^ 1) ws).getD 0 : ℕ)⟩) ++
        [⟨some (MerkleTree.root hashv D (treeAfter ws)), D, 1, ws.length⟩] := by
    rw [List.range_succ, List.map_append]
    congr 1
    · refine List.map_congr_left fun l hl => ?_
      have hlt := List.mem_range.1 hl
      rw [DigitalAssetTypes.proofNode, numbered_wanted _ hi hlt, wanted_log2 hi hlt.le,
        Nat.sub_sub_self hlt.le, wanted, if_pos hlt]
    · have hlog : Nat.log2 1 = 0 := rfl
      simp [DigitalAssetTypes.proofNode, wanted, MerkleTree.numbered_one, lastSeq_one hbound, hlog]
  rw [getProofAndRoot, nodesFromDb_replica h hstores hbound hi,
    if_neg (not_lt.2 (List.length_filterMap_le _ _)), ← hnodes]
  split_ifs with hmissing
  · exact fillNodeList_replica h ApiError hi
  · -- all rows exist, and come in the order of the levels
    have hall := List.filterMap_length_eq_length.1 (not_not.1 hmissing)
    rw [← nodesOrEmpty_of_isSome hall]
    exact congrArg _ (nodesOrEmpty_replica h hi)

end Replica

/-- The proof of the untouched leaf `6` on a tree with one leaf. -/
theorem proof_and_root_of_untouched :
    getProofAndRoot (storedRows 3 [(0, .leaf 1)]) 0 14 =
      .ok [⟨some EMPTY, 0, 15, 0⟩, ⟨some (emptyNode 1), 1, 6, 0⟩,
        ⟨some (MerkleTree.node hashv (treeAfter [(0, .leaf 1)]) 2 0), 2, 2, 1⟩,
        ⟨some (MerkleTree.root hashv 3 (treeAfter [(0, .leaf 1)])), 3, 1, 1⟩] := by
  refine (proof_and_root_of_replica (i := 6) (replicates_replica 3 0 [(0, Term.leaf 1)])
    (stores_storedRows 3 _) (by decide) (by decide)).1.trans ?_
  decide +kernel

end Candyland.NftApi
