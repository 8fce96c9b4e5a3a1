import Candyland.DigitalAssetTypes.ChangeLogs
import Candyland.Sdk.Indexer.Queries
import Candyland.Sdk.Indexer.TreeRows

/-!
# Proofs from tables without a gap

A proof is put together from the newest rows of the siblings of a leaf.  When all events of a tree
up to some write are there, these are the nodes of the tree after this write.
-/

namespace Candyland.Sdk.Indexer

open ConcurrentMerkleTree (NodeHash CollisionFree NonzeroHash EMPTY hashv treeAfter siblings)
open DigitalAssetTypes (wanted wanted_pos wanted_log2 requiredNodesFrom requiredNodesFrom_number)
open MerkleTree (number numbered)
open NftIngester (OnPath lastSeq)

variable {Node Pubkey : Type} {D i : ℕ}

/-! ### The wanted nodes -/

/-- On numbers below `2 ^ 31` the loop is that of the other indexer. -/
theorem proofNodesFrom_eq (fuel : ℕ) {n : ℕ} (hn : n < 2 ^ 31) :
    proofNodesFrom fuel n = requiredNodesFrom fuel n := by
  induction fuel generalizing n with
  | zero => rfl
  | succ fuel ih =>
    have hhalf : n >>> 1 = n / 2 ^ 1 := Nat.shiftRight_eq_div_pow n 1
    have hlt : n / 2 ^ 1 < 2 ^ 31 := (Nat.div_le_self _ _).trans_lt hn
    have hpos : (n : ℤ) > 1 ↔ n > 1 := by norm_cast
    have heven : (n : ℤ) % 2 = 0 ↔ n % 2 = 0 := by omega
    rw [proofNodesFrom, requiredNodesFrom, shiftRight_eq hn (by norm_num), hhalf, ih hlt]
    simp only [hpos, heven]

/-- The siblings along the path of a leaf, and the root. -/
theorem proofNodesOf_leaf (hD : D < 31) (hi : i < 2 ^ D) :
    proofNodesOf ((2 ^ D + i : ℕ) : ℤ) =
      (List.range (D + 1)).map fun l => ((wanted D i l : ℕ) : ℤ) := by
  have hpow := Nat.pow_le_pow_right (n := 2) (by norm_num) (show D + 1 ≤ 31 by omega)
  rw [proofNodesOf, Int.toNat_natCast, proofNodesFrom_eq _ (by omega)]
  exact DigitalAssetTypes.getRequiredNodesForProof_leaf hi

/-! ### Hashing -/

variable [NodeHash Node]

theorem emptyNode_eq (l : ℕ) : (emptyNode l : Node) = ConcurrentMerkleTree.emptyNode l := by
  induction l with
  | zero => rfl
  | succ l ih => rw [emptyNode, ConcurrentMerkleTree.emptyNode, ih]

/-- `generateRoot` hashes upward from the leaf. -/
theorem generateRoot_eq (hD : D < 32) (hi : i < 2 ^ 31) (s : ℕ → Node)
    {proof : Proof Node Pubkey} (hproof : proof.proofNodes = (List.range D).map s)
    (hindex : proof.index = i) :
    generateRoot proof = MerkleTree.climb hashv proof.leaf s i D := by
  have hzip : ((List.range D).map s).zipIdx = (List.range D).map fun l => (s l, l) :=
    List.ext_getElem (by simp) (by simp)
  have hbit : ∀ l < D, (shiftRight i l).tmod 2 = 0 ↔ i.testBit l = false := by
    intro l hl
    rw [shiftRight_eq hi (by omega), Nat.testBit_eq_decide_div_mod_eq,
      Int.tmod_eq_emod_of_nonneg (Int.natCast_nonneg _)]
    simp only [decide_eq_false_iff_not]
    omega
  have hfold : ∀ k ≤ D, (List.range k).foldl (fun node l =>
      if (shiftRight i l).tmod 2 = 0 then hashv node (s l) else hashv (s l) node) proof.leaf =
        MerkleTree.climb hashv proof.leaf s i k := by
    intro k hk
    induction k with
    | zero => rfl
    | succ k ih =>
      rw [List.range_succ, List.foldl_append, List.foldl_cons, List.foldl_nil, ih (by omega),
        MerkleTree.climb_succ]
      simp only [hbit k hk]
      cases i.testBit k <;> simp
  rw [generateRoot, hproof, hzip, hindex, List.foldl_map]
  exact hfold D le_rfl

/-! ### The newest rows -/

/-- Among the events that are held, those with a number of at most `maxSequenceNumber` are the ones
of the writes `ws'`. -/
def UpTo (ws ws' : List (ℕ × Node)) (held : ℕ → Prop) (maxSequenceNumber : Option ℕ) : Prop :=
  ∀ ws'', ws'' <:+ ws → ws'' ≠ [] → (ws'' <:+ ws' ↔ held ws''.length ∧
    ∀ m, truthy maxSequenceNumber = some m → ws''.length ≤ m)

variable [DecidableEq Pubkey] {db : NFTDatabaseConnection Node Pubkey} {tree : Pubkey}
  {ws ws' : List (ℕ × Node)} {held : ℕ → Prop} {maxSequenceNumber : Option ℕ}

omit [NodeHash Node] in
/-- The rows among which the newest are taken. -/
theorem newestNodes_eq (db : NFTDatabaseConnection Node Pubkey) (nodes : List ℤ) (tree : Pubkey)
    (maxSequenceNumber : Option ℕ) : ∃ rows,
      db.newestNodes nodes tree maxSequenceNumber = Table.orderBy MerkleRow.level
        (Table.groupMax MerkleRow.nodeIdx MerkleRow.seq rows) ∧
      ∀ row, row ∈ rows ↔ row ∈ db.merkle ∧ (row.nodeIdx : ℤ) ∈ nodes ∧ row.treeId = tree ∧
        ∀ m, truthy maxSequenceNumber = some m → row.seq ≤ m := by
  refine ⟨_, rfl, ?_⟩
  intro row
  cases h : truthy maxSequenceNumber <;> simp [and_assoc]

omit [DecidableEq Pubkey] in
/-- The row that is found for a node is that of its last write in `ws'`; there is none when it was
not written, and then it is empty. -/
theorem lookup_newest (h : Holds db D tree ws held) (hbound : ∀ w ∈ ws, w.1 < 2 ^ D)
    (hws' : ws' <:+ ws) (hne : ws' ≠ []) (hupto : UpTo ws ws' held maxSequenceNumber)
    {nodes : List ℤ} {rows : List (MerkleRow Node Pubkey)}
    (hrows : ∀ row, row ∈ rows ↔ row ∈ db.merkle ∧ (row.nodeIdx : ℤ) ∈ nodes ∧ row.treeId = tree ∧
      ∀ m, truthy maxSequenceNumber = some m → row.seq ≤ m)
    {n : ℕ} (hn : (n : ℤ) ∈ nodes) (hpos : 0 < n) (hlog : n.log2 ≤ D) :
    (∃ row, Table.lookup MerkleRow.nodeIdx (Table.groupMax MerkleRow.nodeIdx MerkleRow.seq rows) n =
        some row ∧ row.nodeIdx = n ∧ row.level = D - n.log2 ∧
        row.hash = numbered hashv D (treeAfter ws') n) ∨
      Table.lookup MerkleRow.nodeIdx (Table.groupMax MerkleRow.nodeIdx MerkleRow.seq rows) n =
        none ∧ numbered hashv D (treeAfter ws') n = emptyNode (D - n.log2) ∧ n ≠ 1 := by
  -- every write on the path has a row
  have hrow : ∀ ws'', ws'' <:+ ws' → ws'' ≠ [] → OnPath D (Gummyroll.lastPosition ws'') n →
      ∃ row ∈ rows, row.nodeIdx = n ∧ row.seq = ws''.length := by
    intro ws'' hws'' hne'' hpath
    obtain ⟨hheld, hmax⟩ := (hupto ws'' (hws''.trans hws') hne'').1 hws''
    obtain ⟨row, hmem, hkey⟩ := h.mem_merkle ws'' (hws''.trans hws') hne'' hheld n hpath
    simp only [MerkleRow.key, Prod.mk.injEq] at hkey
    obtain ⟨htree, hseq, hidx⟩ := hkey
    exact ⟨row, (hrows row).2 ⟨hmem, by rw [hidx]; exact hn, htree, by rw [hseq]; exact hmax⟩, hidx,
      hseq⟩
  rcases Table.lookup_groupMax MerkleRow.nodeIdx MerkleRow.seq rows n with
    ⟨hnone, hno⟩ | ⟨row, hmem, hlookup, hidx, hmax⟩
  · -- the node was not written
    refine .inr ⟨hnone, ?_, ?_⟩
    · rw [emptyNode_eq]
      cases hlast : lastSeq D n ws' with
      | none => exact NftIngester.numbered_of_lastSeq_eq_none hpos hlog hlast
      | some seq =>
        obtain ⟨ws'', hws'', -, hpath, hnumbered, -⟩ := NftIngester.lastSeq_eq_some hlast
        cases ws'' with
        | nil =>
          rw [hnumbered, ConcurrentMerkleTree.emptyNode_eq_uniform]
          exact MerkleTree.node_const hashv EMPTY _ _
        | cons w ws'' =>
          obtain ⟨row, hmem, hidx, -⟩ := hrow _ hws'' (by simp) hpath
          exact absurd hidx (hno row hmem)
    · rintro rfl
      have hlast : lastSeq D 1 ws' = some ws'.length :=
        NftIngester.lastSeq_one fun w hw => hbound w (hws'.subset hw)
      obtain ⟨ws'', hws'', hlen, hpath, -⟩ := NftIngester.lastSeq_eq_some hlast
      obtain ⟨row, hmem, hidx, -⟩ := hrow ws'' hws'' (by
        rw [hws''.eq_of_length hlen]
        exact hne) hpath
      exact absurd hidx (hno row hmem)
  · refine .inl ⟨row, hlookup, hidx, ?_⟩
    obtain ⟨hmerkle, -, htree, hseq⟩ := (hrows row).1 hmem
    obtain ⟨ws₁, hws₁, hne₁, hheld₁, hpath₁, hseq₁, hlevel, hhash⟩ :=
      h.of_mem_merkle row hmerkle htree
    rw [hidx] at hpath₁ hlevel hhash
    have hsuffix : ws₁ <:+ ws' := (hupto ws₁ hws₁ hne₁).2 ⟨hheld₁, by rw [← hseq₁]; exact hseq⟩
    refine ⟨hlevel, ?_⟩
    cases hlast : lastSeq D n ws' with
    | none => exact absurd hpath₁ (NftIngester.lastSeq_eq_none.1 hlast ws₁ hsuffix)
    | some seq =>
      -- the last write on the path is that of the row
      obtain ⟨ws₂, hws₂, hlen₂, hpath₂, hnumbered, hmax₂⟩ := NftIngester.lastSeq_eq_some hlast
      have hle := hmax₂ ws₁ hsuffix hpath₁
      have hpos₁ := List.length_pos_iff.2 hne₁
      obtain ⟨row₂, hmem₂, hidx₂, hseq₂⟩ :=
        hrow ws₂ hws₂ (List.length_pos_iff.1 (by omega)) hpath₂
      have hle₂ := hmax row₂ hmem₂ hidx₂
      have heq : ws₁ = ws₂ :=
        (List.suffix_of_suffix_length_le hsuffix hws₂ (by omega)).eq_of_length (by omega)
      rw [hhash, hnumbered, heq]

omit [NodeHash Node] in
/-- Assigning at a level of a list that is given level by level. -/
theorem assignAt_map_range {k : ℕ} (hk : k < D) (f : ℕ → Node) (hash : Node) :
    assignAt ((List.range D).map f) k hash = (List.range D).map (Function.update f k hash) := by
  refine List.ext_getElem (by simp [assignAt]; omega) ?_
  intro l hl hl'
  have hlen : (((List.range D).map f).take k).length = k := by
    simp only [List.length_take, List.length_map, List.length_range]
    omega
  simp only [assignAt]
  rcases Nat.lt_trichotomy l k with hlt | rfl | hlt
  · rw [List.getElem_append_left (by omega)]
    simp [Function.update_of_ne hlt.ne]
  · rw [List.getElem_append_right (by omega)]
    simp [hlen]
  · rw [List.getElem_append_right (by omega), List.getElem_cons]
    simp only [hlen, List.getElem_drop, List.getElem_map, List.getElem_range]
    rw [dif_neg (by omega), Function.update_of_ne (by omega)]
    congr 1
    omega

omit [DecidableEq Pubkey] in
/-- Rows that are found for some levels replace the empty nodes. -/
theorem foldl_assignAt {found : ℕ → Option (MerkleRow Node Pubkey)} {val : ℕ → Node}
    (hfound : ∀ l < D, (∃ row, found l = some row ∧ row.level = l ∧ row.hash = val l) ∨
      found l = none ∧ val l = emptyNode l) :
    ((List.range D).filterMap found).foldl (fun proof node => assignAt proof node.level node.hash)
      ((List.range D).map emptyNode) = (List.range D).map val := by
  have hfold : ∀ k ≤ D, ((List.range k).filterMap found).foldl
      (fun proof node => assignAt proof node.level node.hash) ((List.range D).map emptyNode) =
        (List.range D).map fun l => if l < k then val l else emptyNode l := by
    intro k hk
    induction k with
    | zero => simp
    | succ k ih =>
      rw [List.range_succ, List.filterMap_append, List.foldl_append, ih (by omega)]
      rcases hfound k hk with ⟨row, hrow, hlevel, hhash⟩ | ⟨hnone, hempty⟩
      · simp only [List.filterMap_cons, hrow, List.filterMap_nil, List.foldl_cons, List.foldl_nil,
          hlevel, hhash, assignAt_map_range hk]
        refine List.map_congr_left fun l _ => ?_
        rcases Nat.lt_trichotomy l k with hlt | rfl | hlt
        · simp [Function.update_of_ne hlt.ne, hlt, Nat.lt_succ_of_lt hlt]
        · simp
        · rw [Function.update_of_ne hlt.ne', if_neg (by omega), if_neg (by omega)]
      · simp only [List.filterMap_cons, hnone, List.filterMap_nil, List.foldl_nil]
        refine List.map_congr_left fun l _ => ?_
        rcases Nat.lt_trichotomy l k with hlt | rfl | hlt
        · rw [if_pos hlt, if_pos (by omega)]
        · rw [if_neg (by omega), if_pos (by omega), hempty]
        · rw [if_neg (by omega), if_neg (by omega)]
  rw [hfold D le_rfl]
  refine List.map_congr_left fun l hl => ?_
  rw [if_pos (List.mem_range.1 hl)]

/-- The newest rows: those of the siblings that were written, level by level, and the root. -/
theorem newestNodes_leaf (h : Holds db D tree ws held) (hbound : ∀ w ∈ ws, w.1 < 2 ^ D)
    (hws' : ws' <:+ ws) (hne : ws' ≠ []) (hupto : UpTo ws ws' held maxSequenceNumber)
    (hD : D < 31) (hi : i < 2 ^ D) :
    ∃ (found : ℕ → Option (MerkleRow Node Pubkey)) (root : MerkleRow Node Pubkey),
      db.newestNodes (proofNodesOf ((2 ^ D + i : ℕ) : ℤ)) tree maxSequenceNumber =
        (List.range D).filterMap found ++ [root] ∧
      (∀ l < D, (∃ row, found l = some row ∧ row.level = l ∧
          row.hash = MerkleTree.sibling hashv (treeAfter ws') i l) ∨
        found l = none ∧ MerkleTree.sibling hashv (treeAfter ws') i l = emptyNode l) ∧
      root.nodeIdx = 1 ∧ root.level = D ∧
      root.hash = MerkleTree.root hashv D (treeAfter ws') := by
  obtain ⟨rows, hnewest, hrows⟩ := newestNodes_eq db (proofNodesOf ((2 ^ D + i : ℕ) : ℤ)) tree
    maxSequenceNumber
  rw [proofNodesOf_leaf hD hi] at hrows
  generalize hgroups : Table.groupMax MerkleRow.nodeIdx MerkleRow.seq rows = groups at hnewest
  have hfound : ∀ l ≤ D, (∃ row, Table.lookup MerkleRow.nodeIdx groups (wanted D i l) = some row ∧
      row.nodeIdx = wanted D i l ∧ row.level = l ∧
      row.hash = numbered hashv D (treeAfter ws') (wanted D i l)) ∨
      Table.lookup MerkleRow.nodeIdx groups (wanted D i l) = none ∧
      numbered hashv D (treeAfter ws') (wanted D i l) = emptyNode l ∧ wanted D i l ≠ 1 := by
    intro l hl
    have hlog := wanted_log2 hi hl
    have hmem : ((wanted D i l : ℕ) : ℤ) ∈
        (List.range (D + 1)).map fun l => ((wanted D i l : ℕ) : ℤ) :=
      List.mem_map.2 ⟨l, List.mem_range.2 (by omega), rfl⟩
    have hlookup := lookup_newest h hbound hws' hne hupto hrows hmem (wanted_pos hi hl) (by omega)
    rw [hgroups, hlog, Nat.sub_sub_self hl] at hlookup
    exact hlookup
  have hone : wanted D i D = 1 := by simp [wanted]
  obtain ⟨root, hroot, hidx, hlevel, hhash⟩ : ∃ row,
      Table.lookup MerkleRow.nodeIdx groups (wanted D i D) = some row ∧
      row.nodeIdx = wanted D i D ∧ row.level = D ∧
      row.hash = numbered hashv D (treeAfter ws') (wanted D i D) := by
    rcases hfound D le_rfl with hrow | ⟨-, -, hne⟩
    · exact hrow
    · exact absurd hone hne
  refine ⟨fun l => Table.lookup MerkleRow.nodeIdx groups (wanted D i l), root, ?_, ?_,
    hidx.trans hone, hlevel, ?_⟩
  · have hlist : (List.range (D + 1)).filterMap
        (fun l => Table.lookup MerkleRow.nodeIdx groups (wanted D i l)) =
        (List.range D).filterMap
          (fun l => Table.lookup MerkleRow.nodeIdx groups (wanted D i l)) ++ [root] := by
      rw [List.range_succ, List.filterMap_append]
      simp [hroot]
    rw [hnewest, ← hlist]
    refine Table.orderBy_eq ?_ ?_
    · have hnodup : ((List.range (D + 1)).map (wanted D i)).Nodup := by
        refine List.Nodup.map_on ?_ List.nodup_range
        intro l hl m hm heq
        rcases Nat.lt_trichotomy l m with hlt | rfl | hlt
        · exact absurd heq (DigitalAssetTypes.wanted_lt hi hlt
            (Nat.lt_succ_iff.1 (List.mem_range.1 hm))).ne'
        · rfl
        · exact absurd heq (DigitalAssetTypes.wanted_lt hi hlt
            (Nat.lt_succ_iff.1 (List.mem_range.1 hl))).ne
      have hnodupGroups : (groups.map MerkleRow.nodeIdx).Nodup :=
        hgroups ▸ Table.nodup_groupMax rows
      have hperm := Table.perm_filterMap_lookup hnodupGroups hnodup ?_
      · rw [List.filterMap_map] at hperm
        exact hperm
      · intro row hrow
        rw [← hgroups] at hrow
        have hmem := ((hrows row).1 (Table.mem_of_mem_groupMax hrow)).2.1
        obtain ⟨l, hl, heq⟩ := List.mem_map.1 hmem
        exact List.mem_map.2 ⟨l, hl, by exact_mod_cast heq⟩
    · -- the levels grow
      rw [List.pairwise_filterMap]
      refine List.pairwise_lt_range.imp_of_mem ?_
      intro l m hl hm hlt row hrow row' hrow'
      have hlevel : ∀ l ∈ List.range (D + 1), ∀ row,
          Table.lookup MerkleRow.nodeIdx groups (wanted D i l) = some row → row.level = l := by
        intro l hl row hrow
        rcases hfound l (Nat.lt_succ_iff.1 (List.mem_range.1 hl)) with
          ⟨row', hrow', -, hlevel, -⟩ | ⟨hnone, -⟩
        · rw [hrow] at hrow'
          obtain rfl := Option.some.inj hrow'
          exact hlevel
        · rw [hrow] at hnone
          cases hnone
      rw [hlevel l hl row hrow, hlevel m hm row' hrow']
      exact hlt
  · intro l hl
    have hsibling := DigitalAssetTypes.numbered_wanted (treeAfter ws') hi hl
    rcases hfound l hl.le with ⟨row, hrow, -, hlevel, hhash⟩ | ⟨hnone, hempty, -⟩
    · exact .inl ⟨row, hrow, hlevel, hhash.trans hsibling⟩
    · exact .inr ⟨hnone, hsibling.symm.trans hempty⟩
  · rw [hhash, hone, MerkleTree.numbered_one]

/-- A proof for a leaf of the tree after the writes `ws'`: the root is that of the tree, or the one
that the proof leads to. -/
theorem generateProof_leaf [DecidableEq Node] (h : Holds db D tree ws held)
    (hbound : ∀ w ∈ ws, w.1 < 2 ^ D) (hws' : ws' <:+ ws) (hne : ws' ≠ [])
    (hupto : UpTo ws ws' held maxSequenceNumber) (hD : D < 31) (hi : i < 2 ^ D)
    (hash dataHash creatorHash : Node) (nonce : ℕ) (owner delegate : Pubkey) (check : Bool) :
    let proof : Proof Node Pubkey := ⟨hash,
      if (truthy maxSequenceNumber).isSome then
        MerkleTree.climb hashv hash (MerkleTree.sibling hashv (treeAfter ws') i) i D
      else MerkleTree.root hashv D (treeAfter ws'),
      siblings D (treeAfter ws') i, i, nonce, dataHash, creatorHash, owner, delegate⟩
    db.generateProof tree ((2 ^ D + i : ℕ) : ℤ) hash dataHash creatorHash nonce owner delegate check
        maxSequenceNumber =
      if check && !verifyProof proof then none else some proof := by
  intro proof
  obtain ⟨found, root, hnewest, hfound, hidx, hlevel, hhash⟩ :=
    newestNodes_leaf h hbound hws' hne hupto hD hi
  have hpow := Nat.pow_lt_pow_right (a := 2) (by norm_num) hD
  have hindex : ((2 ^ D + i : ℕ) : ℤ) - shiftLeft 1 D = i := by
    rw [shiftLeft_one hD]
    push_cast
    ring
  have hroot : ∀ root, generateRoot (⟨hash, root, siblings D (treeAfter ws') i, i, nonce, dataHash,
      creatorHash, owner, delegate⟩ : Proof Node Pubkey) =
      MerkleTree.climb hashv hash (MerkleTree.sibling hashv (treeAfter ws') i) i D :=
    fun root => generateRoot_eq (by omega) (by omega) _ rfl rfl
  rw [NFTDatabaseConnection.generateProof, hnewest]
  simp only [List.getLast?_append, List.getLast?_singleton, Option.some_or, Option.bind_eq_bind,
    Option.bind_some, List.dropLast_concat, hidx, hlevel, hhash, foldl_assignAt hfound, hindex,
    ne_eq, not_true_eq_false, if_false]
  cases htruthy : truthy maxSequenceNumber with
  | none => simp [proof, htruthy, siblings]
  | some m =>
    have hgenerate := hroot (MerkleTree.root hashv D (treeAfter ws'))
    rw [siblings] at hgenerate
    simp [proof, htruthy, siblings, hgenerate]

/-! ### Proofs of live assets -/

section Proofs

open Bubblegum (LeafHash LeafSchema)

variable [DecidableEq Node] [LeafHash Node Pubkey]

omit [DecidableEq Pubkey] [DecidableEq Node] in
/-- A row with the hash of a schema is that of its nonce. -/
theorem nonce_of_leafHash (h : Holds db D tree ws held)
    (hnonce : ∀ w ∈ ws, ∀ s : LeafSchema Node Pubkey, w.2 = s.toNode → s.nonce.toNat = w.1)
    {row : LeafSchemaRow Node Pubkey} (hrow : row ∈ db.leafSchema) (htree : row.treeId = tree)
    {s : LeafSchema Node Pubkey} (hhash : row.leafHash = s.toNode) :
    row.nonce = s.nonce.toNat := by
  obtain ⟨ws', hws', hne, -, hlast, -, hleaf, -⟩ := h.of_mem_leafSchema row hrow htree
  cases ws' with
  | nil => exact absurd rfl hne
  | cons w ws' =>
    rw [hhash] at hleaf
    have hwrite : w.2 = s.toNode := (Function.update_self ..).symm.trans hleaf.symm
    rw [hlast, hnonce w (hws'.subset List.mem_cons_self) s hwrite]
    rfl

/-- When all writes are held, the leaf of a live asset is found once. -/
theorem join_eq_singleton (h : Holds db D tree ws held) (hbound : ∀ w ∈ ws, w.1 < 2 ^ D)
    (hnonce : ∀ w ∈ ws, ∀ s : LeafSchema Node Pubkey, w.2 = s.toNode → s.nonce.toNat = w.1)
    {s : LeafSchema Node Pubkey} (hs : treeAfter ws i = s.toNode) (hne : s.toNode ≠ EMPTY)
    (hheld : ∀ ws', ws' <:+ ws → ws' ≠ [] → held ws'.length) :
    ∃ m l, ((db.merkle ×ˢ db.leafSchema).filter fun (m, l) =>
      decide (m.hash = l.leafHash) && decide (m.treeId = l.treeId) && decide (m.seq = l.seq) &&
        (decide (m.hash = s.toNode) && decide (m.treeId = tree) && decide (m.level = 0))) =
      [(m, l)] ∧ m.nodeIdx = 2 ^ D + i ∧ l.nonce = i := by
  have hleaf : ∀ n, number D n 0 = 2 ^ D + n := by
    intro n
    simp [number]
  obtain ⟨ws', hws', hne', hlast, heq, hmax⟩ := exists_last_write
    (show treeAfter ws i ≠ EMPTY by rwa [hs])
  have hi : i < 2 ^ D := by
    rw [← hlast]
    exact lastPosition_lt hbound hws'
  -- the two rows of the last write
  have hpath : OnPath D (Gummyroll.lastPosition ws') (2 ^ D + i) := by
    rw [onPath_iff (lastPosition_lt hbound hws'), hlast]
    exact ⟨0, Nat.zero_le D, (hleaf i).symm⟩
  obtain ⟨m, hm, hmkey⟩ := h.mem_merkle ws' hws' hne' (hheld ws' hws' hne') _ hpath
  obtain ⟨l, hl, hlkey⟩ := h.mem_leafSchema ws' hws' hne' (hheld ws' hws' hne')
  simp only [MerkleRow.key, LeafSchemaRow.key, Prod.mk.injEq] at hmkey hlkey
  obtain ⟨hmtree, hmseq, hmidx⟩ := hmkey
  obtain ⟨hltree, hlnonce⟩ := hlkey
  -- what a row of the leaf says
  have hmrow : ∀ m' ∈ db.merkle, m'.treeId = tree → m'.seq = ws'.length → m'.level = 0 →
      m'.nodeIdx = 2 ^ D + i ∧ m'.hash = s.toNode := by
    intro m' hm' htree' hseq' hlevel'
    obtain ⟨ws'', hws'', -, -, hpath'', hseq'', hlevel'', hhash''⟩ :=
      h.of_mem_merkle m' hm' htree'
    have hwrites : ws'' = ws' :=
      (List.suffix_of_suffix_length_le hws'' hws' (by omega)).eq_of_length (by omega)
    rw [hwrites, onPath_iff (lastPosition_lt hbound hws'), hlast] at hpath''
    obtain ⟨k, hk, hidx⟩ := hpath''
    rw [hlevel', hidx, MerkleTree.number_log2 hi hk, Nat.sub_sub_self hk] at hlevel''
    rw [← hlevel''] at hidx
    rw [hhash'', hidx, hwrites, MerkleTree.numbered_number hashv hi (Nat.zero_le D), ← hs, ← heq,
      hleaf, pow_zero, Nat.div_one]
    exact ⟨rfl, rfl⟩
  have hlrow : ∀ l' ∈ db.leafSchema, l'.treeId = tree → l'.nonce = i →
      l'.seq = ws'.length ∧ l'.leafHash = s.toNode := by
    intro l' hl' htree' hnonce'
    obtain ⟨ws'', hws'', hne'', -, hlast'', hseq'', hhash'', hmax''⟩ :=
      h.of_mem_leafSchema l' hl' htree'
    have hle := hmax ws'' hws'' hne'' (by rw [← hlast'', hnonce'])
    have hle' := hmax'' ws' hws' hne' (hheld ws' hws' hne') (by rw [hlast, ← hlast'', hnonce'])
    have hwrites : ws'' = ws' :=
      (List.suffix_of_suffix_length_le hws'' hws' hle).eq_of_length (by omega)
    rw [hseq'', hhash'', hwrites, hlast, heq, hs]
    exact ⟨rfl, rfl⟩
  have hmlevel : m.level = 0 := by
    obtain ⟨-, -, -, -, -, -, hlevel, -⟩ := h.of_mem_merkle m hm hmtree
    rw [hlevel, hmidx, ← hleaf, MerkleTree.number_log2 hi (Nat.zero_le D), Nat.sub_zero,
      Nat.sub_self]
  obtain ⟨hlseq, hlhash⟩ := hlrow l hl hltree (hlnonce.trans hlast)
  have hmhash := (hmrow m hm hmtree hmseq hmlevel).2
  refine ⟨m, l, List.perm_singleton.1 ?_, hmidx, hlnonce.trans hlast⟩
  refine (List.perm_ext_iff_of_nodup ?_ (List.nodup_singleton _)).2 ?_
  · exact ((List.Nodup.of_map _ h.nodup_merkle).product (.of_map _ h.nodup_leafSchema)).filter _
  · rintro ⟨m', l'⟩
    simp only [List.mem_filter, List.mem_product, Bool.and_eq_true, decide_eq_true_eq,
      List.mem_singleton, Prod.mk.injEq]
    constructor
    · rintro ⟨⟨hm', hl'⟩, ⟨⟨hhash, htree⟩, hseq⟩, ⟨hhash', htree'⟩, hlevel'⟩
      have hltree' : l'.treeId = tree := htree.symm.trans htree'
      have hlnonce' : l'.nonce = l.nonce := by
        rw [nonce_of_leafHash h hnonce hl' hltree' (hhash.symm.trans hhash'),
          nonce_of_leafHash h hnonce hl hltree hlhash]
      have hl₁ : l' = l := by
        refine List.inj_on_of_nodup_map h.nodup_leafSchema hl' hl ?_
        rw [LeafSchemaRow.key, LeafSchemaRow.key, hltree', hltree, hlnonce']
      have hmseq' : m'.seq = ws'.length := by rw [hseq, hl₁, hlseq]
      refine ⟨List.inj_on_of_nodup_map h.nodup_merkle hm' hm ?_, hl₁⟩
      rw [MerkleRow.key, MerkleRow.key, htree', hmtree, hmseq', hmseq,
        (hmrow m' hm' htree' hmseq' hlevel').1, hmidx]
    · rintro ⟨rfl, rfl⟩
      exact ⟨⟨hm, hl⟩, ⟨⟨hmhash.trans hlhash.symm, hmtree.trans hltree.symm⟩,
        hmseq.trans hlseq.symm⟩, ⟨hmhash, hmtree⟩, hmlevel⟩

end Proofs

section Run

open Bubblegum (Executed LeafHash LeafSchema State Tree)

variable [DecidableEq Node] [LeafHash Node Pubkey] [Bubblegum.ProgramAddress Pubkey]
  [Gummyroll.Build] [CollisionFree Node] [NonzeroHash Node] [Bubblegum.CollisionFreeLeaf Node Pubkey]
  [Bubblegum.InjectiveAddress Pubkey] [SystemProgramId Pubkey] {st : State Node Pubkey}
  {slab : Pubkey} {history : List (Executed Node Pubkey)}
  {deliveries : List (Delivery Node Pubkey)}

/-- Once all events of a tree were ingested, in any order, every live asset has a proof for the
current root, which consists of the siblings of its leaf.  The numbers of the updates are
those of SQLite. -/
theorem getProof_live (h : Bubblegum.Reachable history st) {tree : Tree Node Pubkey}
    (htree : st.trees slab = some tree)
    (hseq : tree.slab.account.roll.sequenceNumber < 2 ^ 63)
    (hdeliveries : FromHistory deliveries slab history)
    (hall : ∀ seq, 1 ≤ seq → seq ≤ tree.slab.account.roll.sequenceNumber →
      Ingested deliveries slab seq)
    {i : ℕ} {s : LeafSchema Node Pubkey} (hlive : tree.leaf i = s.toNode) (check : Bool) :
    ∃ proof, (ingestAll deliveries).getProof (tree.leaf i) slab check = some proof ∧
      proof.leaf = tree.leaf i ∧ proof.nonce = s.nonce.toNat ∧ proof.index = s.nonce.toNat ∧
      proof.proofNodes = siblings tree.depth tree.leaf s.nonce.toNat ∧
      proof.root = tree.slab.account.roll.getChangeLog.root ∧ verifyProof proof = true := by
  have hlogged := h.logged htree hseq
  have hholds := holds_ingestAll h htree hlogged hdeliveries
  have hheld : ∀ ws', ws' <:+ tree.slab.writes → ws' ≠ [] →
      Ingested deliveries slab ws'.length := by
    intro ws' hws' hne
    refine hall _ (List.length_pos_iff.2 hne) ?_
    rw [hlogged.sequence_eq]
    exact hws'.length_le
  have hnonce : ∀ w ∈ tree.slab.writes, ∀ s : LeafSchema Node Pubkey, w.2 = s.toNode →
      s.nonce.toNat = w.1 := fun w hw s hs => h.nonce_of_write htree hw hs
  obtain ⟨m, l, hjoin, hidx, hlnonce⟩ := join_eq_singleton hholds hlogged.bound hnonce hlive
    s.toNode_ne_empty hheld
  obtain ⟨L, hrep, -⟩ := Bubblegum.Reachable.ledger h
  obtain ⟨lives, -, hshows⟩ := hrep.tree htree
  obtain rfl : s.nonce.toNat = i := (hshows.live hlive).2.1
  obtain ⟨ws', hws', hne, hlast, -⟩ := exists_last_write
    (show treeAfter tree.slab.writes s.nonce.toNat ≠ EMPTY from
      fun hempty => s.toNode_ne_empty (hlive.symm.trans hempty))
  have hi : s.nonce.toNat < 2 ^ tree.depth := by
    rw [← hlast]
    exact lastPosition_lt hlogged.bound hws'
  have hwrites : tree.slab.writes ≠ [] := fun hnil => hne (List.suffix_nil.1 (hnil ▸ hws'))
  have hupto : UpTo tree.slab.writes tree.slab.writes (Ingested deliveries slab) none := by
    intro ws'' hws'' hne''
    simp [hws'', hheld ws'' hws'' hne'']
  -- the siblings of the leaf lead to the root
  have hgenerate : ∀ proof : Proof Node Pubkey, proof.leaf = tree.leaf s.nonce.toNat →
      proof.index = s.nonce.toNat →
      proof.proofNodes = siblings tree.depth tree.leaf s.nonce.toNat →
      generateRoot proof = MerkleTree.root hashv tree.depth tree.leaf := by
    intro proof hleaf hindex hnodes
    have hD := hlogged.depth_lt
    have hpow := Nat.pow_lt_pow_right (a := 2) (by norm_num) hD
    rw [generateRoot_eq (by omega) (by omega) _ hnodes hindex, hleaf]
    exact MerkleTree.climb_sibling_root hashv tree.leaf hi
  have hproof := generateProof_leaf hholds hlogged.bound List.suffix_rfl hwrites hupto
    hlogged.depth_lt hi (tree.leaf s.nonce.toNat) l.dataHash l.creatorHash l.nonce l.owner
    l.delegate check
  have hverify : ∀ proof : Proof Node Pubkey, proof.leaf = tree.leaf s.nonce.toNat →
      proof.index = s.nonce.toNat →
      proof.proofNodes = siblings tree.depth tree.leaf s.nonce.toNat →
      proof.root = MerkleTree.root hashv tree.depth tree.leaf → verifyProof proof = true := by
    intro proof hleaf hindex hnodes hroot
    rw [verifyProof, hgenerate proof hleaf hindex hnodes, hroot]
    exact decide_eq_true rfl
  rw [← hlive] at hjoin
  refine ⟨⟨tree.leaf s.nonce.toNat, MerkleTree.root hashv tree.depth tree.leaf,
    siblings tree.depth tree.leaf s.nonce.toNat, s.nonce.toNat, l.nonce, l.dataHash, l.creatorHash,
    l.owner, l.delegate⟩, ?_, rfl, hlnonce, rfl, rfl, hlogged.inv.current_root.symm,
    hverify _ rfl rfl rfl rfl⟩
  rw [NFTDatabaseConnection.getProof]
  simp only [hjoin, hidx]
  rw [hproof]
  simp only [truthy_none, Option.isSome_none, Bool.false_eq_true, if_false]
  rw [hverify _ rfl rfl rfl rfl, Bool.not_true, Bool.and_false, if_neg Bool.false_ne_true]
  rfl

end Run

section Trace

open Bubblegum (Trace.minted Trace.mintHistory Trace.slab Trace.alice)

/-- The proof of the asset after its mint. -/
theorem getProof_live_minted :
    let deliveries := Trace.mintHistory.filterMap (deliveryOf 1 "mint")
    ∃ proof, (ingestAll deliveries).getProof (assetOf Trace.alice).toNode Trace.slab true =
      some proof ∧ proof.index = 0 ∧ proof.root = Trace.minted.root Trace.slab := by
  intro deliveries
  have hsome : (Trace.minted.trees Trace.slab).isSome = true := by decide +kernel
  obtain ⟨tree, htree⟩ := Option.isSome_iff_exists.1 hsome
  have hlive : tree.leaf 0 = (assetOf Trace.alice).toNode := by
    have hleaf : (Trace.minted.trees Trace.slab).map (fun tree => tree.leaf 0) =
        some (assetOf Trace.alice).toNode := by decide +kernel
    rw [htree] at hleaf
    exact Option.some.inj hleaf
  have hseq : tree.slab.account.roll.sequenceNumber = 1 := by
    have hseq : (Trace.minted.trees Trace.slab).map
        (fun tree => tree.slab.account.roll.sequenceNumber) = some 1 := by decide +kernel
    rw [htree] at hseq
    exact Option.some.inj hseq
  have hdeliveries : FromHistory deliveries Trace.slab Trace.mintHistory := by
    rintro d hd -
    obtain ⟨x, hx, hdelivery⟩ := List.mem_filterMap.1 hd
    refine ⟨x, hx, ?_, call_of_deliveryOf hdelivery⟩
    simp only [Trace.mintHistory, List.mem_cons, List.not_mem_nil, or_false] at hx
    rcases hx with rfl | rfl <;> rfl
  have hall : Ingested deliveries Trace.slab 1 := by
    unfold Ingested
    decide +kernel
  obtain ⟨proof, hproof, -, -, hindex, -, hroot, -⟩ := getProof_live Bubblegum.Trace.reachable_minted
    htree (by omega) hdeliveries (fun seq hpos hle => by
      obtain rfl : seq = 1 := by omega
      exact hall) hlive true
  rw [hlive] at hproof
  exact ⟨proof, hproof, hindex, by rw [hroot, Bubblegum.State.root, htree]⟩

end Trace

end Candyland.Sdk.Indexer
