import Candyland.DigitalAssetTypes.ChangeLogs

/-!
# The proof of an asset

`get_proof_for_asset` on the replica of a tree.  It returns the leaf, its siblings and the
root, unless the rows of all of them exist: then the list of nodes is never filled, and the
texts of the proof and of the root are empty.
-/

namespace Candyland.DigitalAssetTypes

open ConcurrentMerkleTree NftIngester

section Replica

variable {Node Pubkey : Type} [NodeHash Node] [DecidableEq Pubkey] {D i : ℕ}
  {rows : List (ClRow Node Pubkey)} {tree : Pubkey} {ws : List (ℕ × Node)}
  {clItems : Pubkey × ℤ → Option (ClItem Node)} {assets : Pubkey → Option (Asset Node Pubkey)}
  {assetId : Pubkey} {asset : Asset Node Pubkey}

/-- The leaf of the asset is found through its nonce. -/
theorem leafRow_replica (h : Replicates D tree ws clItems) (hstores : Stores rows tree clItems)
    (hasset : assets assetId = some asset) (htree : asset.treeId = some tree)
    (hnonce : asset.nonce = i) {seq : ℕ} (hseq : lastSeq D (2 ^ D + i) ws = some seq)
    (hi : i < 2 ^ D) : leafRow rows assets assetId =
      some ((tree, ((2 ^ D + i : ℕ) : ℤ)), nodeRow D (treeAfter ws) (2 ^ D + i) seq) := by
  have hlog := MerkleTree.log2_two_pow_add hi
  have hmem := (hstores.mem_iff _ _).2 (h.touched (2 ^ D + i) seq hseq)
  rw [leafRow, hasset]
  dsimp only
  generalize hfilter : rows.filter _ = found
  have hfound : ∀ row, row ∈ found ↔ row ∈ rows ∧
      (row.2.leafIdx = some (i : ℤ) ∧ tree = row.1.1) ∧ row.2.level = 0 := by
    intro row
    simp [← hfilter, htree, hnonce]
  -- no other row has this leaf index
  have honly : ∀ row ∈ found, row =
      ((tree, ((2 ^ D + i : ℕ) : ℤ)), nodeRow D (treeAfter ws) (2 ^ D + i) seq) := by
    intro row hrow
    obtain ⟨hrow, ⟨hleaf, rfl⟩, -⟩ := (hfound row).1 hrow
    obtain ⟨n, seq', hx, hseq', hitem⟩ :=
      h.exists_of_eq_some ((hstores.mem_iff row.1.2 row.2).1 hrow)
    have hn := (Nat.log2_eq_iff (pos_of_lastSeq_eq_some hseq').ne').1 rfl
    rw [hitem, nodeRow] at hleaf
    split_ifs at hleaf with hdepth
    rw [hdepth] at hn
    have hindex : (n : ℤ) - (2 ^ D : ℕ) = i := by simpa using hleaf
    obtain rfl : n = 2 ^ D + i := by omega
    obtain rfl : seq' = seq := Option.some.inj (hseq'.symm.trans hseq)
    rw [← hx, ← hitem]
  have hleaf : ((tree, ((2 ^ D + i : ℕ) : ℤ)), nodeRow D (treeAfter ws) (2 ^ D + i) seq) ∈ found := by
    refine (hfound _).2 ⟨hmem, ⟨?_, rfl⟩, ?_⟩
    · simp [nodeRow, hlog]
    · simp [nodeRow, hlog]
  have hperm := Select.orderByDesc_perm (fun row : ClRow Node Pubkey => row.2.seq) found
  rcases hhead : Select.orderByDesc (fun row : ClRow Node Pubkey => row.2.seq) found with _ | ⟨row, _⟩
  · exact absurd (hperm.mem_iff.2 hleaf) (by simp [hhead])
  · rw [List.head?_cons, honly row (hperm.mem_iff.1 (by simp [hhead]))]

/-- The proof of an asset is right, unless all of the wanted rows exist. -/
theorem proof_for_asset_iff [DecidableEq Node] (h : Replicates D tree ws clItems)
    (hstores : Stores rows tree clItems) (hasset : assets assetId = some asset)
    (htree : asset.treeId = some tree) (hnonce : asset.nonce = i) (hi : i < 2 ^ D)
    (htouched : lastSeq D (2 ^ D + i) ws ≠ none) :
    (getProofForAsset rows assets assetId =
        .ok ⟨some (MerkleTree.root hashv D (treeAfter ws)), some (treeAfter ws i),
          (siblings D (treeAfter ws) i).map some, (2 ^ D + i : ℕ), tree⟩ ↔
      ∃ l ≤ D, clItems (tree, (wanted D i l : ℤ)) = none) ∧
    ∀ (index : UInt32) (proof : Vector Node D), D ≤ 32 → index.toNat = i →
      proof.toList = siblings D (treeAfter ws) i →
        recompute (treeAfter ws i) proof index = MerkleTree.root hashv D (treeAfter ws) := by
  refine ⟨?_, fun index proof hD hindex hproof => recompute_siblings hD _ hindex hi hproof⟩
  obtain ⟨seq, hseq⟩ := Option.ne_none_iff_exists'.1 htouched
  have hleaf : (nodeRow D (treeAfter ws) (2 ^ D + i) seq).hash = treeAfter ws i := by
    rw [nodeRow, MerkleTree.numbered, MerkleTree.log2_two_pow_add hi, Nat.sub_self,
      Nat.add_sub_cancel_left]
    rfl
  rw [getProofForAsset, leafRow_replica h hstores hasset htree hnonce hseq hi]
  dsimp only
  rw [proofRows, hstores.select hi (by simp)]
  by_cases hall : ∀ l ≤ D, clItems (tree, (wanted D i l : ℤ)) ≠ none
  · -- the list is not filled, and its last hash is the empty vector
    rw [if_neg (not_not_intro ((length_filterMap_lookupNode hi).2 hall)),
      getRequiredNodesForProof_leaf hi, Outcome.ok_bind, List.length_map, List.length_range,
      List.getLast?_replicate, if_neg (Nat.succ_ne_zero D)]
    constructor
    · intro hok
      have hroot := congrArg AssetProof.root (Outcome.ok.inj hok)
      exact absurd hroot (by simp [default])
    · rintro ⟨l, hl, hnone⟩
      exact absurd hnone (hall l hl)
  · rw [if_pos fun heq => hall ((length_filterMap_lookupNode hi).1 heq),
      fillNodeList_replica h DbErr hi, Outcome.ok_bind]
    have hhashes := hashes_proofNodes ws hi
    generalize (List.range (D + 1)).map (fun l => proofNode D ws (wanted D i l)) = nodes at hhashes
    have hlast : nodes.getLast?.map SimpleChangeLog.hash =
        some (some (MerkleTree.root hashv D (treeAfter ws))) := by
      rw [← List.getLast?_map, hhashes, List.getLast?_concat]
    have hinit : nodes.dropLast.map SimpleChangeLog.hash =
        (siblings D (treeAfter ws) i).map some := by
      rw [List.map_dropLast, hhashes, List.dropLast_concat]
    obtain ⟨root, hroot, heq⟩ := Option.map_eq_some_iff.1 hlast
    rw [hroot]
    constructor
    · intro _
      by_contra hnone
      exact hall fun l hl hrow => hnone ⟨l, hl, hrow⟩
    · intro _
      simp only [heq, hinit, hleaf]

end Replica

/-! ### A sparse tree and a full one -/

/-- Asset `5` is a leaf of tree `0`. -/
def assetFive (nonce : ℤ) : ℕ → Option (Asset Term ℕ) := fun id =>
  if id = 5 then some ⟨1, none, false, 1, none, true, false, some 0, none, nonce, false⟩ else none

/-- The rows of the replica of tree `0`. -/
def storedRows (D : ℕ) (ws : List (ℕ × Term)) : List (ClRow Term ℕ) :=
  (List.range (2 ^ (D + 1))).filterMap fun n : ℕ =>
    (replica D 0 ws (0, (n : ℤ))).map fun item => ((0, (n : ℤ)), item)

theorem stores_storedRows (D : ℕ) (ws : List (ℕ × Term)) :
    Stores (storedRows D ws) 0 (replica D 0 ws) where
  nodup := by
    rw [storedRows, List.map_filterMap]
    simp only [Option.map_map]
    refine (List.nodup_range.filterMap ?_)
    intro n m key hn hm
    obtain ⟨item, _, hkey⟩ := Option.map_eq_some_iff.1 hn
    obtain ⟨item', _, hkey'⟩ := Option.map_eq_some_iff.1 hm
    simpa using hkey.trans hkey'.symm
  mem_iff x item := by
    rw [storedRows, List.mem_filterMap]
    constructor
    · rintro ⟨n, -, hrow⟩
      obtain ⟨item', hitem, heq⟩ := Option.map_eq_some_iff.1 hrow
      obtain ⟨hkey, rfl⟩ := Prod.mk.inj heq
      rw [← hkey, hitem]
    · intro hitem
      obtain ⟨n, seq, rfl, hseq, -⟩ := (replicates_replica D 0 ws).exists_of_eq_some hitem
      have hpos := pos_of_lastSeq_eq_some hseq
      obtain ⟨ws', -, -, hpath, -⟩ := lastSeq_eq_some hseq
      refine ⟨n, List.mem_range.2 ?_, by rw [hitem]; rfl⟩
      exact ((Nat.log2_lt hpos.ne').1 (Nat.lt_succ_of_le hpath.2.1))

/-- After one append the siblings of its leaf have no rows. -/
theorem proof_for_asset_sparse :
    getProofForAsset (storedRows 3 [(0, .leaf 1)]) (assetFive 0) 5 =
      .ok ⟨some (MerkleTree.root hashv 3 (treeAfter [(0, .leaf 1)])), some (.leaf 1),
        (siblings 3 (treeAfter [(0, Term.leaf 1)]) 0).map some, 8, 0⟩ := by
  have hreplica := replicates_replica 3 (0 : ℕ) [(0, Term.leaf 1)]
  have hiff := (proof_for_asset_iff (i := 0) hreplica (stores_storedRows 3 _)
    (show assetFive 0 5 = some _ from rfl) rfl rfl (by decide) (by decide)).1
  exact hiff.2 ⟨0, by decide, by decide⟩

/-- When all leaves were written, the texts of the root and of the proof are empty. -/
theorem proof_for_asset_full :
    let ws := (List.range 8).reverse.map fun j => (j, Term.leaf (j + 1))
    Replicates 3 (0 : ℕ) ws (replica 3 0 ws) ∧ Stores (storedRows 3 ws) 0 (replica 3 0 ws) ∧
      lastSeq 3 8 ws = some 1 ∧ getProofForAsset (storedRows 3 ws) (assetFive 0) 5 =
        .ok ⟨none, some (.leaf 1), [none, none, none], 8, 0⟩ := by
  intro ws
  exact ⟨replicates_replica 3 0 ws, stores_storedRows 3 ws, by decide, by decide +kernel⟩

end Candyland.DigitalAssetTypes
