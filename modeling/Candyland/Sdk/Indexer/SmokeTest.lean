import Candyland.Bubblegum.Availability
import Candyland.Sdk.Indexer.AssetsForOwner
import Candyland.Sdk.Indexer.InferredProofs

/-!
# Transfers with the answers of the server

The smoke test takes an asset from the list of a wallet, asks for the proof of its leaf, and sends
a transfer that consists of the two answers.  When the tables have all events of the trees, the
chain carries it out, also after instructions about other assets, as long as the buffer of the
tree holds their updates.  Afterwards the asset is in the list of the new owner.
-/

namespace Candyland.Sdk.Indexer

open Bubblegum
open ConcurrentMerkleTree (NodeHash CollisionFree NonzeroHash EMPTY hashv treeAfter siblings)
open Gummyroll (Build lastPosition)

variable {Node Pubkey : Type} [NodeHash Node] [DecidableEq Node] [DecidableEq Pubkey]

/-- The transfer of an asset from the list of `wallet`, with the proof that the server gave for its
leaf.  Of the nodes of the proof, those in the canopy are left out. -/
def transferOf (wallet : Pubkey) (asset : OwnedAsset Node Pubkey) (proof : Proof Node Pubkey)
    (newOwner : Pubkey) (maxDepth canopyDepth : ℕ) : Instruction Node Pubkey :=
  .transfer asset.treeId wallet proof.delegate newOwner proof.root proof.dataHash proof.creatorHash
    (UInt64.ofNat proof.nonce) (UInt32.ofNat proof.index.toNat)
    (proof.proofNodes.take (maxDepth - canopyDepth))

/-! ### The answer for a leaf -/

section Answer

variable {D : ℕ} {db : NFTDatabaseConnection Node Pubkey} {tree : Pubkey} {ws : List (ℕ × Node)}
  {held : ℕ → Prop}

/-- Without a gap nothing is inferred. -/
theorem getInferredProof_eq_getProof (h : Holds db D tree ws held)
    (hbound : ∀ w ∈ ws, w.1 < 2 ^ D) (hne : ws ≠ []) (hall : ∀ k, 1 ≤ k → k ≤ ws.length → held k)
    (hnone : ¬ held (ws.length + 1)) (hash : Node) (check : Bool) :
    db.getInferredProof hash tree check = db.getProof hash tree check := by
  have hpos := List.length_pos_iff.2 hne
  obtain ⟨latest, hlatest, hle⟩ := getMaxSeq_ge h hbound hpos le_rfl (hall _ hpos le_rfl)
  -- the largest number is that of a row
  have hge : latest ≤ ws.length := by
    obtain ⟨row, hrow, rfl⟩ := List.mem_map.1 (List.max?_mem hlatest)
    obtain ⟨hmem, htree⟩ := List.mem_filter.1 hrow
    exact (seq_of_row h hmem (of_decide_eq_true htree)).2.1
  have hgap := gapIndex_eq h hbound hpos le_rfl hall hnone
  rw [NFTDatabaseConnection.getInferredProof, hlatest, truthy_some (by omega), hgap]
  exact if_neg (by omega)

variable [LeafHash Node Pubkey] [CollisionFreeLeaf Node Pubkey]

/-- The proof for a live leaf has the columns of its row. -/
theorem getProof_eq (h : Holds db D tree ws held) (hbound : ∀ w ∈ ws, w.1 < 2 ^ D)
    (hnonce : ∀ w ∈ ws, ∀ s : LeafSchema Node Pubkey, w.2 = s.toNode → s.nonce.toNat = w.1)
    (hall : ∀ k, 1 ≤ k → k ≤ ws.length → held k) (hD : D < 31) {i : ℕ}
    {s : LeafSchema Node Pubkey} (hs : treeAfter ws i = s.toNode) :
    ∃ row ∈ db.leafSchema, row.treeId = tree ∧ row.nonce = i ∧
      db.getProof s.toNode tree false = some ⟨s.toNode, MerkleTree.root hashv D (treeAfter ws),
        siblings D (treeAfter ws) i, i, row.nonce, row.dataHash, row.creatorHash, row.owner,
        row.delegate⟩ := by
  have hheld : ∀ ws', ws' <:+ ws → ws' ≠ [] → held ws'.length := fun ws' hws' hne =>
    hall _ (List.length_pos_iff.2 hne) hws'.length_le
  obtain ⟨m, l, hjoin, hidx, hlnonce⟩ :=
    join_eq_singleton h hbound hnonce hs s.toNode_ne_empty hheld
  obtain ⟨ws', hws', hne, hlast, -⟩ := exists_last_write
    (show treeAfter ws i ≠ EMPTY from fun hempty => s.toNode_ne_empty (hs.symm.trans hempty))
  have hi : i < 2 ^ D := by
    rw [← hlast]
    exact lastPosition_lt hbound hws'
  have hupto : UpTo ws ws held none := by
    intro ws'' hws'' hne''
    simp [hws'', hheld ws'' hws'' hne'']
  have hmem := List.mem_singleton.2 (rfl : (m, l) = (m, l))
  rw [← hjoin] at hmem
  simp only [List.mem_filter, List.mem_product, Bool.and_eq_true, decide_eq_true_eq] at hmem
  obtain ⟨⟨-, hl⟩, ⟨⟨-, htree⟩, -⟩, ⟨-, htree'⟩, -⟩ := hmem
  refine ⟨l, hl, htree.symm.trans htree', hlnonce, ?_⟩
  have hwrites : ws ≠ [] := fun hnil => hne (List.suffix_nil.1 (hnil ▸ hws'))
  have hproof := generateProof_leaf h hbound List.suffix_rfl hwrites hupto hD hi s.toNode l.dataHash
    l.creatorHash l.nonce l.owner l.delegate false
  rw [NFTDatabaseConnection.getProof]
  simp only [hjoin, hidx]
  rw [hproof]
  rfl

end Answer

/-! ### The transfer -/

section Run

variable [LeafHash Node Pubkey] [ProgramAddress Pubkey] [Build] [CollisionFree Node]
  [NonzeroHash Node] [CollisionFreeLeaf Node Pubkey] [InjectiveAddress Pubkey]
  [SystemProgramId Pubkey] {st : State Node Pubkey} {slab : Pubkey}
  {history : List (Executed Node Pubkey)} {deliveries : List (Delivery Node Pubkey)}
  {tree : Tree Node Pubkey}

omit [SystemProgramId Pubkey] in
/-- What is ingested was written. -/
theorem le_length_of_ingested (h : Reachable history st) (htree : st.trees slab = some tree)
    (hlogged : tree.Logged slab) (hdeliveries : FromHistory deliveries slab history) {seq : ℕ}
    (hseq : Ingested deliveries slab seq) : seq ≤ tree.slab.writes.length := by
  obtain ⟨d, hd, hid, rfl⟩ := hseq
  obtain ⟨x, hx, hname, hcall⟩ := hdeliveries d hd hid
  obtain ⟨ws, hws, hevent, -⟩ := h.call_eq hx hname hcall htree hlogged
  rw [hevent]
  exact hws.length_le

/-- The server answers for a live leaf with its proof and its schema. -/
theorem getInferredProof_live (h : Reachable history st) (htree : st.trees slab = some tree)
    (hcomplete : Complete deliveries slab tree) (hdeliveries : FromHistory deliveries slab history)
    {s : LeafSchema Node Pubkey} (hlive : tree.leaf s.nonce.toNat = s.toNode) :
    (ingestAll deliveries).getInferredProof s.toNode slab false = some ⟨s.toNode, tree.root,
      siblings tree.depth tree.leaf s.nonce.toNat, s.nonce.toNat, s.nonce.toNat, s.dataHash,
      s.creatorHash, s.owner, s.delegate⟩ := by
  have hlogged := h.logged htree hcomplete.sequence_lt
  have hholds := holds_ingestAll h htree hlogged hdeliveries
  have hnonce : ∀ w ∈ tree.slab.writes, ∀ s : LeafSchema Node Pubkey, w.2 = s.toNode →
      s.nonce.toNat = w.1 := fun w hw s hs => h.nonce_of_write htree hw hs
  have hall : ∀ k, 1 ≤ k → k ≤ tree.slab.writes.length → Ingested deliveries slab k := by
    intro k hpos hk
    exact hcomplete.ingested k hpos (by rwa [hlogged.sequence_eq])
  have hne : tree.slab.writes ≠ [] := by
    intro hnil
    have hempty : tree.leaf s.nonce.toNat = EMPTY := by
      rw [Tree.leaf, hnil]
      rfl
    exact s.toNode_ne_empty (hlive.symm.trans hempty)
  have hnone : ¬ Ingested deliveries slab (tree.slab.writes.length + 1) := fun hingested =>
    absurd (le_length_of_ingested h htree hlogged hdeliveries hingested) (by omega)
  obtain ⟨row, hrow, hid, hrowNonce, hproof⟩ :=
    getProof_eq hholds hlogged.bound hnonce hall hlogged.depth_lt hlive
  -- the row shows the schema on record
  obtain ⟨n, call, leafSchema, hn, hhead, hschema, -, hshows⟩ :=
    exists_newest_of_row h htree hcomplete hdeliveries hrow hid
  obtain rfl := UInt64.toNat_inj.1 (hrowNonce.symm.trans hn)
  obtain ⟨L, l, s', metadata, hrep, -, -, hrecorded, hschema', -⟩ :=
    exists_recorded_of_head? h hhead
  obtain rfl := Option.some.inj (hschema.symm.trans hschema')
  have hleaf : st.leaf slab s.nonce.toNat = some s.toNode := by
    rw [State.leaf, htree, Option.map_some, hlive]
  obtain rfl : s' = s := hrecorded.record.unique (.holds h (.inl hleaf))
  rw [getInferredProof_eq_getProof hholds hlogged.bound hne hall hnone, hproof, hrowNonce,
    hshows.dataHash_eq, hshows.creatorHash_eq, hshows.owner_eq, hshows.delegate_eq]
  congr
  exact hlogged.inv.current_root.symm

omit [DecidableEq Node] [DecidableEq Pubkey] [Build] [CollisionFree Node] [NonzeroHash Node]
  [CollisionFreeLeaf Node Pubkey] [InjectiveAddress Pubkey] [SystemProgramId Pubkey] in
/-- The transfer that is made of the answers is the one of a holder who looks at the tree. -/
theorem transferOf_eq (a : OwnedAsset Node Pubkey) (tree : Tree Node Pubkey)
    (s : LeafSchema Node Pubkey) (newOwner : Pubkey) :
    transferOf s.owner a ⟨s.toNode, tree.root, siblings tree.depth tree.leaf s.nonce.toNat,
        s.nonce.toNat, s.nonce.toNat, s.dataHash, s.creatorHash, s.owner, s.delegate⟩ newOwner
        tree.depth tree.cached =
      (Request.transfer newOwner).instruction a.treeId tree s := by
  rw [transferOf, Request.instruction, UInt64.ofNat_toNat, Int.toNat_natCast]
  rfl

/-- When all events were ingested, in any order, a wallet that follows the server can transfer every
live asset of its list, also after instructions about other assets that make fewer updates than
the buffer of the tree holds.  Once the events up to the transfer were ingested, the asset is in
the list of the new owner. -/
theorem listed_asset_transfers (h : Reachable history st)
    (hdeliveries : ∀ slab, FromHistory deliveries slab history) {wallet : Pubkey}
    {treeId : Option Pubkey} (hcomplete : ∀ slab tree, Selected treeId slab →
      st.trees slab = some tree → Complete deliveries slab tree)
    {a : OwnedAsset Node Pubkey}
    (ha : a ∈ (ingestAll deliveries).getAssetsForOwner wallet treeId) (hlive : a.leafHash ≠ EMPTY) :
    ∃ tree proof, st.trees a.treeId = some tree ∧
      (ingestAll deliveries).getInferredProof a.leafHash a.treeId false = some proof ∧
      ∀ newOwner xs st', Steps Executed.Takes st xs st' →
        (∀ x ∈ xs, ¬ x.instruction.Concerns a.treeId (UInt64.ofNat a.nonce)) →
        updates a.treeId xs < tree.bufferSize →
        ∃ events st'', Executed.Takes st'
            ⟨[wallet], transferOf wallet a proof newOwner tree.depth tree.cached, events⟩ st'' ∧
          (∀ i, i ≠ a.nonce → st''.leaf a.treeId i = st'.leaf a.treeId i) ∧
          ∀ later, (∀ slab, FromHistory later slab (⟨[wallet], transferOf wallet a proof newOwner
              tree.depth tree.cached, events⟩ :: (xs ++ history))) →
            (∀ slab tree, Selected treeId slab → st''.trees slab = some tree →
              Complete later slab tree) →
            ∃ a' ∈ (ingestAll later).getAssetsForOwner newOwner treeId,
              a'.treeId = a.treeId ∧ a'.nonce = a.nonce := by
  obtain ⟨howner, hselected, n, s, metadata, hdesc⟩ := describes_of_mem h hdeliveries hcomplete ha
  have hleafHash := leaf_of_record h hdesc.record hdesc.leaf_eq hlive
  have hleaf : st.leaf a.treeId n.toNat = some s.toNode := hleafHash ▸ hdesc.leaf_eq
  obtain ⟨tree, htree, htreeLeaf⟩ := Option.map_eq_some_iff.1 hleaf
  obtain ⟨L, hrep, -⟩ := Reachable.ledger h
  obtain ⟨lives, -, hshows⟩ := hrep.tree htree
  obtain rfl : s.nonce = n := UInt64.toNat_inj.1 (hshows.live htreeLeaf).2.1
  have hproof := getInferredProof_live h htree (hcomplete _ _ hselected htree) (hdeliveries _)
    htreeLeaf
  obtain rfl : wallet = s.owner := howner.symm.trans hdesc.owner_eq
  rw [hleafHash]
  refine ⟨tree, _, htree, hproof, ?_⟩
  intro newOwner xs st' hsteps hothers hfew
  rw [hdesc.nonce_eq, UInt64.ofNat_toNat] at hothers
  rw [transferOf_eq a tree s newOwner]
  have hallowed : (Request.transfer newOwner).Allowed st a.treeId [s.owner] s :=
    ⟨hleaf, .inl List.mem_cons_self⟩
  obtain ⟨events, st'', htakes, hleaves⟩ :=
    hrep.exists_takes htree hallowed hsteps hothers hfew
  refine ⟨events, st'', htakes, ?_, ?_⟩
  · intro i hi
    rw [hleaves, if_neg (by rwa [hdesc.nonce_eq] at hi)]
  · intro later hlater hcomplete'
    have hreach : Reachable (_ :: (xs ++ history)) st'' := .step (h.trans hsteps) htakes
    have hnew : st''.leaf a.treeId s.nonce.toNat =
        some (⟨s.id, newOwner, newOwner, s.nonce, s.dataHash, s.creatorHash⟩ :
          LeafSchema Node Pubkey).toNode := by
      rw [hleaves, if_pos rfl]
      rfl
    rw [hdesc.nonce_eq]
    exact exists_mem_of_record hreach hlater hcomplete' hselected (.holds hreach (.inl hnew)) rfl

end Run

section Trace

open Bubblegum (Trace.minted Trace.mintedTwice Trace.mintHistory Trace.slab Trace.alice Trace.bob)

/-- The owner transfers the asset of the first mint after the second. -/
theorem listed_asset_transfers_minted :
    let db := ingestAll (Trace.mintHistory.filterMap (deliveryOf 1 "mint"))
    ∃ a ∈ db.getAssetsForOwner Trace.alice (some Trace.slab), ∃ tree proof events st'',
      Trace.minted.trees a.treeId = some tree ∧
      db.getInferredProof a.leafHash a.treeId false = some proof ∧
      Executed.Takes Trace.mintedTwice ⟨[Trace.alice],
        transferOf Trace.alice a proof Trace.bob tree.depth tree.cached, events⟩ st'' := by
  intro db
  have hreach := Bubblegum.Trace.reachable_minted
  have hleaf : Trace.minted.leaf Trace.slab 0 = some (assetOf Trace.alice).toNode := by
    decide +kernel
  obtain ⟨a, ha, htreeId, hnonce⟩ : ∃ a ∈ db.getAssetsForOwner Trace.alice (some Trace.slab),
      a.treeId = Trace.slab ∧ a.nonce = (0 : UInt64).toNat :=
    exists_mem_of_record hreach fromHistory_minted (fun _ _ => complete_minted)
      (fun t ht => Option.some.inj ht) (.holds hreach (.inl hleaf)) rfl
  have hlive : a.leafHash ≠ EMPTY := by
    obtain ⟨-, -, n, s, metadata, hdesc⟩ :=
      describes_of_mem hreach fromHistory_minted (fun _ _ => complete_minted) ha
    have hsame := hdesc.leaf_eq
    rw [htreeId, ← hdesc.nonce_eq, hnonce] at hsame
    rw [← Option.some.inj (hleaf.symm.trans hsame)]
    exact (assetOf Trace.alice).toNode_ne_empty
  obtain ⟨tree, proof, htree, hproof, htransfers⟩ := listed_asset_transfers hreach
    fromHistory_minted (fun _ _ => complete_minted) ha hlive
  have hsize : (Trace.minted.trees Trace.slab).map Tree.bufferSize = some 8 := by decide +kernel
  rw [htreeId] at htree
  rw [htree] at hsize
  have hothers : ∀ x ∈ [Bubblegum.Trace.mintAgain],
      ¬ x.instruction.Concerns a.treeId (UInt64.ofNat a.nonce) := by
    intro x hx
    obtain rfl := List.mem_singleton.1 hx
    exact id
  have hfew : updates a.treeId [Bubblegum.Trace.mintAgain] < tree.bufferSize := by
    rw [htreeId, Option.some.inj hsize]
    decide
  obtain ⟨events, st'', htakes, -⟩ := htransfers Trace.bob _ _
    (.step .refl Bubblegum.Trace.takes_mintAgain) hothers hfew
  exact ⟨a, ha, tree, proof, events, st'', htreeId ▸ htree, hproof, htakes⟩

end Trace

end Candyland.Sdk.Indexer
