import Candyland.DigitalAssetTypes.Dao

/-!
# Proofs from the change logs

How the endpoints put together a proof from the rows of `cl_items`: they ask for the
siblings of the path and the root, place the rows that exist by their level and fill the
gaps with empty nodes.  `get_proof_for_asset` does so only when a row is missing.
-/

namespace Candyland.DigitalAssetTypes

open ConcurrentMerkleTree NftIngester
open MerkleTree (number numbered)

variable {Node Pubkey : Type} {D : ℕ}

/-- A row of a query, `SimpleChangeLog`.  A hash is a byte vector of a node, and `none` for the
empty vector. -/
structure SimpleChangeLog (Node : Type) where
  hash : Option Node
  level : ℤ
  nodeIdx : ℤ
  seq : ℤ
deriving DecidableEq

instance : Inhabited (SimpleChangeLog Node) := ⟨⟨none, 0, 0, 0⟩⟩

/-- The columns of a row that a query returns. -/
def SimpleChangeLog.ofRow (row : ClRow Node Pubkey) : SimpleChangeLog Node :=
  ⟨some row.2.hash, row.2.level, row.1.2, row.2.seq⟩

/-- The loop of `get_required_nodes_for_proof`, which halves `idx`. -/
def requiredNodesFrom : ℕ → ℕ → List ℤ
  | 0, _ => [1]
  | fuel + 1, idx =>
    if idx > 1 then
      (if idx % 2 = 0 then (idx : ℤ) + 1 else idx - 1) :: requiredNodesFrom fuel (idx >>> 1)
    else [1]

/-- `get_required_nodes_for_proof(index)`. -/
def getRequiredNodesForProof (index : ℤ) : List ℤ :=
  requiredNodesFrom index.toNat index.toNat

section Fill

variable [NodeHash Node]

/-- `make_empty_node(lvl, node_index)`. -/
def makeEmptyNode (lvl nodeIndex : ℤ) : SimpleChangeLog Node :=
  ⟨some (emptyNode lvl.toNat), lvl, nodeIndex, 0⟩

variable {ε : Type}

/-- `final_node_list[node.level as usize] = node`, if the level is below the length.  A negative
level becomes a large index. -/
def placeNode (finalNodeList : List (SimpleChangeLog Node)) (node : SimpleChangeLog Node) :
    Outcome ε (List (SimpleChangeLog Node)) :=
  if node.level < finalNodeList.length then
    if 0 ≤ node.level then .ok (finalNodeList.set node.level.toNat node) else .panic
  else .ok finalNodeList

/-- The second loop: what is still the default becomes an empty node. -/
def fillEmptyNodes [DecidableEq Node] (finalNodeList : List (SimpleChangeLog Node))
    (reqIndexes : List ℤ) : List (SimpleChangeLog Node) :=
  finalNodeList.zipIdx.map fun (n, i) =>
    match reqIndexes[i]? with
    | some nin => if n = default then makeEmptyNode i nin else n
    | none => n

/-- Both loops. -/
def fillNodeList [DecidableEq Node] (reqIndexes : List ℤ) (nodes : List (SimpleChangeLog Node)) :
    Outcome ε (List (SimpleChangeLog Node)) := do
  let placed ← nodes.foldlM placeNode (List.replicate reqIndexes.length default)
  .ok (fillEmptyNodes placed reqIndexes)

end Fill

/-- `DbErr`, as far as it is returned here. -/
inductive DbErr where
  | RecordNotFound (message : String)
deriving DecidableEq

/-- `rpc::AssetProof`, with nodes and keys for their base58 texts. -/
structure AssetProof (Node Pubkey : Type) where
  root : Option Node
  leaf : Option Node
  proof : List (Option Node)
  nodeIndex : ℤ
  treeId : Pubkey
deriving DecidableEq

section Query

variable [DecidableEq Pubkey]

/-- The first query of `get_proof_for_asset`: the newest leaf row of the asset. -/
def leafRow (rows : List (ClRow Node Pubkey)) (assets : Pubkey → Option (Asset Node Pubkey))
    (assetId : Pubkey) : Option (ClRow Node Pubkey) :=
  match assets assetId with
  | none => none
  | some asset => (Select.orderByDesc (fun row : ClRow Node Pubkey => row.2.seq) <|
      rows.filter fun row => decide (row.2.leafIdx = some asset.nonce) &&
        decide (asset.treeId = some row.1.1) && decide (row.2.level = 0)).head?

/-- The second query: the rows of the wanted nodes. -/
def proofRows (rows : List (ClRow Node Pubkey)) (tree : Pubkey) (reqIndexes : List ℤ) :
    List (SimpleChangeLog Node) :=
  (Select.distinctOn (fun row : ClRow Node Pubkey => row.1.2) <|
    Select.orderByDesc (fun row => row.1.2) <|
      rows.filter fun row => decide (row.1.2 ∈ reqIndexes) && decide (row.1.1 = tree)).map
    .ofRow

/-- `get_proof_for_asset(db, asset_id)`.  When all nodes are found, the list stays at its
default. -/
def getProofForAsset [NodeHash Node] [DecidableEq Node] (rows : List (ClRow Node Pubkey))
    (assets : Pubkey → Option (Asset Node Pubkey)) (assetId : Pubkey) :
    Outcome DbErr (AssetProof Node Pubkey) :=
  match leafRow rows assets assetId with
  | none => .err (.RecordNotFound "Asset Proof Not Found")
  | some leaf => do
    let reqIndexes := getRequiredNodesForProof leaf.1.2
    let expectedProofSize := reqIndexes.length
    let nodes := proofRows rows leaf.1.1 reqIndexes
    let finalNodeList ←
      if nodes.length ≠ expectedProofSize then fillNodeList reqIndexes nodes
      else .ok (List.replicate expectedProofSize default)
    match finalNodeList.getLast? with
    | none => .panic
    | some root =>
      .ok ⟨root.hash, some leaf.2.hash, finalNodeList.dropLast.map SimpleChangeLog.hash, leaf.1.2,
        leaf.1.1⟩

end Query

/-! ### The wanted nodes -/

/-- The number of the node wanted at level `l`: a sibling, or the root. -/
def wanted (D i l : ℕ) : ℕ := if l < D then number D i l ^^^ 1 else 1

section Wanted

variable {i l : ℕ}

theorem exists_wanted_eq (hi : i < 2 ^ D) (hl : l ≤ D) :
    ∃ p < 2 ^ (D - l), wanted D i l = 2 ^ (D - l) + p := by
  rw [wanted]
  split_ifs with hlt
  · refine ⟨(i / 2 ^ l) ^^^ 1, ?_, MerkleTree.number_xor_one hlt⟩
    exact Nat.xor_lt_two_pow (MerkleTree.div_lt_of_lt hi hl) (Nat.one_lt_two_pow (by omega))
  · exact ⟨0, by positivity, by rw [show D - l = 0 by omega]; rfl⟩

theorem wanted_pos (hi : i < 2 ^ D) (hl : l ≤ D) : 0 < wanted D i l := by
  obtain ⟨p, -, heq⟩ := exists_wanted_eq hi hl
  rw [heq]
  positivity

theorem wanted_log2 (hi : i < 2 ^ D) (hl : l ≤ D) : (wanted D i l).log2 = D - l := by
  obtain ⟨p, hp, heq⟩ := exists_wanted_eq hi hl
  rw [heq, MerkleTree.log2_two_pow_add hp]

/-- The numbers fall from level to level. -/
theorem wanted_lt {m : ℕ} (hi : i < 2 ^ D) (hlm : l < m) (hm : m ≤ D) :
    wanted D i m < wanted D i l := by
  obtain ⟨p, hp, hwl⟩ := exists_wanted_eq (l := l) hi (by omega)
  obtain ⟨q, hq, hwm⟩ := exists_wanted_eq hi hm
  have hpow : 2 ^ (D - m + 1) ≤ 2 ^ (D - l) := Nat.pow_le_pow_right (by norm_num) (by omega)
  rw [pow_succ] at hpow
  omega

/-- The loop from level `l` on. -/
theorem requiredNodesFrom_number (hi : i < 2 ^ D) {fuel d : ℕ} (hl : l + d = D) (hfuel : d ≤ fuel) :
    requiredNodesFrom fuel (number D i l) =
      (List.range' l (d + 1)).map fun m => ((wanted D i m : ℕ) : ℤ) := by
  induction d generalizing l fuel with
  | zero =>
    obtain rfl : l = D := by omega
    have hone : number l i l = 1 := by simp [number, Nat.div_eq_of_lt hi]
    cases fuel <;> simp [requiredNodesFrom, hone, wanted]
  | succ d ih =>
    obtain _ | fuel := fuel
    · exact absurd hfuel (by simp)
    have hlt : l < D := by omega
    have hbig : 2 ^ 1 ≤ 2 ^ (D - l) := Nat.pow_le_pow_right (by norm_num) (by omega)
    have hgt : number D i l > 1 := hbig.trans (Nat.le_add_right _ _)
    -- the sibling is the other number of the pair
    have hhead : (if number D i l % 2 = 0 then (number D i l : ℤ) + 1 else number D i l - 1) =
        (wanted D i l : ℕ) := by
      rw [wanted, if_pos hlt]
      split_ifs with heven
      · rw [Bits.xor_one_of_even heven]
        rfl
      · rw [Bits.xor_one_of_odd (by omega)]
        omega
    rw [requiredNodesFrom, if_pos hgt, hhead, Nat.shiftRight_one,
      MerkleTree.number_div_two hlt, ih (by omega) (by omega)]
    conv_rhs => rw [List.range'_succ, List.map_cons]

theorem getRequiredNodesForProof_leaf (hi : i < 2 ^ D) :
    getRequiredNodesForProof ((2 ^ D + i : ℕ) : ℤ) =
      (List.range (D + 1)).map fun l => ((wanted D i l : ℕ) : ℤ) := by
  have hnumber : number D i 0 = 2 ^ D + i := by simp [number]
  have hfuel : D ≤ 2 ^ D + i := Nat.lt_two_pow_self.le.trans (Nat.le_add_right _ i)
  rw [getRequiredNodesForProof, Int.toNat_natCast, List.range_eq_range', ← hnumber,
    requiredNodesFrom_number hi (Nat.zero_add D) (hnumber ▸ hfuel)]

end Wanted

/-! ### The rows and the gaps -/

section Fill

variable (ε : Type)

/-- What the first loop leaves at a place: the row of this level, or what was there before. -/
theorem placeNode_spec (nodes init : List (SimpleChangeLog Node))
    (hlevel : ∀ node ∈ nodes, 0 ≤ node.level) :
    ∃ placed, nodes.foldlM placeNode init = (.ok placed : Outcome ε _) ∧
      placed.length = init.length ∧ ∀ l : ℕ,
        ((∀ node ∈ nodes, node.level ≠ l) → placed[l]? = init[l]?) ∧
        ∀ node ∈ nodes, node.level = l → l < init.length →
          (∀ node' ∈ nodes, node'.level = l → node' = node) → placed[l]? = some node := by
  induction nodes generalizing init with
  | nil => exact ⟨init, rfl, rfl, fun l => ⟨fun _ => rfl, by simp⟩⟩
  | cons n nodes ih =>
    have hn := hlevel n List.mem_cons_self
    have hrest : ∀ node ∈ nodes, 0 ≤ node.level := fun node h => hlevel node (.tail n h)
    -- the first row goes to its place
    obtain ⟨next, hnext, hlen, hself, hother⟩ : ∃ next : List (SimpleChangeLog Node),
        placeNode init n = (.ok next : Outcome ε _) ∧ next.length = init.length ∧
          (∀ l : ℕ, n.level = l → l < init.length → next[l]? = some n) ∧
          ∀ l : ℕ, n.level ≠ l → next[l]? = init[l]? := by
      rw [placeNode]
      split_ifs with hlt
      · refine ⟨_, rfl, by simp, ?_, ?_⟩
        · intro l hl hlen
          rw [hl, Int.toNat_natCast, List.getElem?_set_self hlen]
        · intro l hl
          exact List.getElem?_set_ne (by omega)
      · exact ⟨init, rfl, rfl, fun l hl hlen => absurd hlt (by omega), fun l _ => rfl⟩
    obtain ⟨placed, hplaced, hlen', hspec⟩ := ih next hrest
    refine ⟨placed, by rw [List.foldlM_cons, hnext, Outcome.ok_bind, hplaced], hlen'.trans hlen,
      fun l => ⟨fun hno => ?_, fun node hnode hl hlt huniq => ?_⟩⟩
    · rw [(hspec l).1 fun node h => hno node (.tail n h), hother l (hno n List.mem_cons_self)]
    · by_cases hmem : node ∈ nodes
      · exact (hspec l).2 node hmem hl (hlen ▸ hlt) fun node' h => huniq node' (.tail n h)
      · -- only the first row has this level
        obtain rfl : node = n := (List.mem_cons.1 hnode).resolve_right hmem
        rw [(hspec l).1 fun node' h hl' => hmem (huniq node' (.tail _ h) hl' ▸ h),
          hself l hl hlt]

variable [NodeHash Node] [DecidableEq Node]

/-- The wanted nodes: a row where it exists, else the empty node. -/
def nodesOrEmpty (reqIndexes : List ℤ) (lookup : ℤ → Option (SimpleChangeLog Node)) :
    List (SimpleChangeLog Node) :=
  reqIndexes.zipIdx.map fun (nin, i) => (lookup nin).getD (makeEmptyNode i nin)

/-- When the rows have the levels of their places, both loops give the wanted nodes. -/
theorem fillNodeList_eq {reqIndexes : List ℤ} {lookup : ℤ → Option (SimpleChangeLog Node)}
    (hlevel : ∀ (l : ℕ) nin node, reqIndexes[l]? = some nin → lookup nin = some node →
      node.level = l)
    (hdefault : ∀ nin node, lookup nin = some node → node ≠ default) :
    fillNodeList reqIndexes (reqIndexes.filterMap lookup) =
      (.ok (nodesOrEmpty reqIndexes lookup) : Outcome ε _) := by
  have hmem : ∀ node ∈ reqIndexes.filterMap lookup, ∃ (l : ℕ) (nin : ℤ),
      reqIndexes[l]? = some nin ∧ lookup nin = some node := by
    intro node hnode
    obtain ⟨nin, hnin, hlookup⟩ := List.mem_filterMap.1 hnode
    obtain ⟨l, hl⟩ := List.mem_iff_getElem?.1 hnin
    exact ⟨l, nin, hl, hlookup⟩
  obtain ⟨placed, hplaced, hlen, hspec⟩ := placeNode_spec ε (reqIndexes.filterMap lookup)
    (List.replicate reqIndexes.length default) (by
      intro node hnode
      obtain ⟨l, nin, hl, hlookup⟩ := hmem node hnode
      rw [hlevel l nin node hl hlookup]
      exact Int.natCast_nonneg l)
  rw [fillNodeList, hplaced, Outcome.ok_bind, fillEmptyNodes, nodesOrEmpty]
  congr 1
  ext1 l
  rcases hreq : reqIndexes[l]? with _ | nin
  · have hle := List.getElem?_eq_none_iff.1 hreq
    have hle' : placed.length ≤ l := by simpa [hlen] using hle
    simp [List.getElem?_eq_none hle, List.getElem?_eq_none hle']
  · have hlt : l < reqIndexes.length := (List.getElem?_eq_some_iff.1 hreq).1
    -- a row with this level belongs here
    have hhere : ∀ node ∈ reqIndexes.filterMap lookup, node.level = l → lookup nin = some node := by
      intro node hnode hl
      obtain ⟨m, nin', hm, hlookup⟩ := hmem node hnode
      obtain rfl : m = l := Int.ofNat.inj ((hlevel m nin' node hm hlookup).symm.trans hl)
      rw [hreq] at hm
      rw [Option.some.inj hm, hlookup]
    have hplace : placed[l]? = some ((lookup nin).getD default) := by
      rcases hlookup : lookup nin with _ | node
      · rw [(hspec l).1, List.getElem?_replicate_of_lt hlt]
        · rfl
        · intro node hnode hl
          simpa [hlookup] using hhere node hnode hl
      · refine (hspec l).2 node (List.mem_filterMap.2 ⟨nin, List.mem_of_getElem? hreq, hlookup⟩)
          (hlevel l nin node hreq hlookup) (by simpa using hlt) ?_
        intro node' hnode' hl
        have heq := hhere node' hnode' hl
        rw [hlookup] at heq
        exact (Option.some.inj heq).symm
    simp only [List.getElem?_map, List.getElem?_zipIdx, hplace, hreq, Option.map_some, Nat.zero_add]
    rcases hlookup : lookup nin with _ | node
    · simp
    · simp [hdefault nin node hlookup]

omit [DecidableEq Node] in
/-- When all rows exist, they are the wanted nodes. -/
theorem nodesOrEmpty_of_isSome {reqIndexes : List ℤ}
    {lookup : ℤ → Option (SimpleChangeLog Node)} (h : ∀ nin ∈ reqIndexes, (lookup nin).isSome) :
    nodesOrEmpty reqIndexes lookup = reqIndexes.filterMap lookup := by
  rw [nodesOrEmpty]
  generalize 0 = start
  induction reqIndexes generalizing start with
  | nil => rfl
  | cons nin reqIndexes ih =>
    obtain ⟨node, hnode⟩ := Option.isSome_iff_exists.1 (h nin List.mem_cons_self)
    rw [List.zipIdx_cons, List.map_cons, List.filterMap_cons_some hnode,
      ih fun nin' h' => h nin' (.tail nin h')]
    simp [hnode]

end Fill

/-! ### A stored replica -/

section Replica

variable [NodeHash Node] {rows : List (ClRow Node Pubkey)} {tree : Pubkey} {ws : List (ℕ × Node)}
  {clItems : Pubkey × ℤ → Option (ClItem Node)} {i : ℕ}

/-- The row of a node as a query returns it. -/
def lookupNode (clItems : Pubkey × ℤ → Option (ClItem Node)) (tree : Pubkey) (x : ℤ) :
    Option (SimpleChangeLog Node) :=
  (clItems (tree, x)).map fun item => .ofRow ((tree, x), item)

/-- Node `n` as the endpoints should return it. -/
def proofNode (D : ℕ) (ws : List (ℕ × Node)) (n : ℕ) : SimpleChangeLog Node where
  hash := some (numbered hashv D (treeAfter ws) n)
  level := (D - n.log2 : ℕ)
  nodeIdx := n
  seq := ((lastSeq D n ws).getD 0 : ℕ)

omit [NodeHash Node] in
/-- A query for the wanted nodes of a tree finds the rows that exist, from level to level. -/
theorem Stores.select (h : Stores rows tree clItems) (hi : i < 2 ^ D)
    {p : ClRow Node Pubkey → Bool}
    (hp : ∀ row ∈ rows, p row = true ↔
      row.1.2 ∈ getRequiredNodesForProof ((2 ^ D + i : ℕ) : ℤ) ∧ row.1.1 = tree) :
    (Select.distinctOn (fun row : ClRow Node Pubkey => row.1.2) <|
      Select.orderByDesc (fun row => row.1.2) (rows.filter p)).map .ofRow =
      (getRequiredNodesForProof ((2 ^ D + i : ℕ) : ℤ)).filterMap (lookupNode clItems tree) := by
  have hkeys : (getRequiredNodesForProof ((2 ^ D + i : ℕ) : ℤ)).Pairwise fun a b => b < a := by
    rw [getRequiredNodesForProof_leaf hi, List.pairwise_map]
    refine List.pairwise_lt_range.imp_of_mem ?_
    intro l m hl hm hlm
    exact Int.ofNat_lt.2 (wanted_lt hi hlm (by simpa [Nat.lt_succ_iff] using hm))
  rw [Select.distinctOn_orderByDesc
    (fun x => (clItems (tree, x)).map fun item => ((tree, x), item)) hkeys, List.map_filterMap]
  · simp only [Option.map_map]
    rfl
  · exact h.nodup_nodeIdx fun row hrow hpass => ((hp row hrow).1 hpass).2
  · intro x row hrow
    obtain ⟨item, -, rfl⟩ := Option.map_eq_some_iff.1 hrow
    rfl
  · intro row
    rw [List.mem_filter]
    constructor
    · rintro ⟨hmem, hpass⟩
      obtain ⟨hwanted, rfl⟩ := (hp row hmem).1 hpass
      exact ⟨row.1.2, hwanted, by rw [(h.mem_iff row.1.2 row.2).1 hmem]; rfl⟩
    · rintro ⟨x, hwanted, hrow⟩
      obtain ⟨item, hitem, rfl⟩ := Option.map_eq_some_iff.1 hrow
      have hmem := (h.mem_iff x item).2 hitem
      exact ⟨hmem, (hp _ hmem).2 ⟨hwanted, rfl⟩⟩

variable (h : Replicates D tree ws clItems)

include h in
theorem lookupNode_replica (n : ℕ) : lookupNode clItems tree n =
    (lastSeq D n ws).map fun _ => proofNode D ws n := by
  rw [lookupNode, h.row, Option.map_map]
  rcases hseq : lastSeq D n ws with _ | seq
  · rfl
  · simp [SimpleChangeLog.ofRow, nodeRow, proofNode, hseq]

include h in
/-- With empty nodes for absent rows, a replica has the wanted nodes of the current tree. -/
theorem nodesOrEmpty_replica (hi : i < 2 ^ D) :
    nodesOrEmpty (getRequiredNodesForProof ((2 ^ D + i : ℕ) : ℤ)) (lookupNode clItems tree) =
      (List.range (D + 1)).map fun l => proofNode D ws (wanted D i l) := by
  rw [nodesOrEmpty, getRequiredNodesForProof_leaf hi]
  ext1 l
  by_cases hl : l ≤ D
  · have hlog := wanted_log2 hi hl
    simp only [List.getElem?_map, List.getElem?_zipIdx, List.getElem?_range (Nat.lt_succ_of_le hl),
      Option.map_some, Nat.zero_add, lookupNode_replica h]
    rcases hseq : lastSeq D (wanted D i l) ws with _ | seq
    · have hnode := numbered_of_lastSeq_eq_none (wanted_pos hi hl)
        (hlog.trans_le (Nat.sub_le D l)) hseq
      simp [makeEmptyNode, proofNode, hseq, hnode, hlog, Nat.sub_sub_self hl]
    · rfl
  · simp [hl]

include h in
/-- Both loops build the wanted nodes from the rows of a replica. -/
theorem fillNodeList_replica [DecidableEq Node] (ε : Type) (hi : i < 2 ^ D) :
    fillNodeList (getRequiredNodesForProof ((2 ^ D + i : ℕ) : ℤ))
        ((getRequiredNodesForProof ((2 ^ D + i : ℕ) : ℤ)).filterMap (lookupNode clItems tree)) =
      (.ok ((List.range (D + 1)).map fun l => proofNode D ws (wanted D i l)) : Outcome ε _) := by
  rw [fillNodeList_eq, nodesOrEmpty_replica h hi]
  · intro l nin node hnin hnode
    rw [getRequiredNodesForProof_leaf hi, List.getElem?_map] at hnin
    obtain ⟨m, hm, rfl⟩ := Option.map_eq_some_iff.1 hnin
    obtain ⟨hlt, heq⟩ := List.getElem?_eq_some_iff.1 hm
    obtain rfl : l = m := by simpa using heq
    have hl : l ≤ D := by simpa [Nat.lt_succ_iff] using hlt
    rw [lookupNode_replica h] at hnode
    obtain ⟨seq, -, rfl⟩ := Option.map_eq_some_iff.1 hnode
    rw [proofNode, wanted_log2 hi hl, Nat.sub_sub_self hl]
  · intro nin node hnode
    obtain ⟨item, -, rfl⟩ := Option.map_eq_some_iff.1 hnode
    simp [SimpleChangeLog.ofRow, default]

omit [NodeHash Node] in
/-- The rows are all there when as many were found as were wanted. -/
theorem length_filterMap_lookupNode (hi : i < 2 ^ D) :
    ((getRequiredNodesForProof ((2 ^ D + i : ℕ) : ℤ)).filterMap (lookupNode clItems tree)).length =
        (getRequiredNodesForProof ((2 ^ D + i : ℕ) : ℤ)).length ↔
      ∀ l ≤ D, clItems (tree, (wanted D i l : ℤ)) ≠ none := by
  rw [List.filterMap_length_eq_length, getRequiredNodesForProof_leaf hi]
  simp [lookupNode, Option.isSome_iff_ne_none]

theorem numbered_wanted (T : ℕ → Node) {l : ℕ} (hi : i < 2 ^ D) (hl : l < D) :
    numbered hashv D T (wanted D i l) = MerkleTree.sibling hashv T i l := by
  rw [wanted, if_pos hl, MerkleTree.numbered_xor_one hashv hi hl]

/-- The wanted nodes are the siblings of the leaf, and then the root. -/
theorem hashes_proofNodes (ws : List (ℕ × Node)) (hi : i < 2 ^ D) :
    ((List.range (D + 1)).map fun l => proofNode D ws (wanted D i l)).map SimpleChangeLog.hash =
      (siblings D (treeAfter ws) i).map some ++ [some (MerkleTree.root hashv D (treeAfter ws))] := by
  rw [List.map_map, List.range_succ, List.map_append, siblings, List.map_map]
  congr 1
  · refine List.map_congr_left fun l hl => ?_
    exact congrArg some (numbered_wanted _ hi (List.mem_range.1 hl))
  · simp [proofNode, wanted, MerkleTree.numbered_one]

/-- The siblings of a leaf recompute the root. -/
theorem recompute_siblings (hD : D ≤ 32) (T : ℕ → Node) {index : UInt32} (hindex : index.toNat = i)
    (hi : i < 2 ^ D) {proof : Vector Node D} (hproof : proof.toList = siblings D T i) :
    recompute (T i) proof index = MerkleTree.root hashv D T := by
  rw [recompute_eq_climb _ _ _ hD, hindex, ← MerkleTree.climb_sibling_root hashv T hi]
  refine MerkleTree.climb_congr hashv fun l hl => ?_
  have hget : proof.toList[l]? = some (MerkleTree.sibling hashv T i l) := by
    simp [hproof, siblings, hl]
  rw [levels_of_lt proof hl]
  simpa [hl] using hget

end Replica

end Candyland.DigitalAssetTypes
