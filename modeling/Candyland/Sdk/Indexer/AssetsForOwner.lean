import Candyland.Sdk.Indexer.AssetCalls
import Candyland.Sdk.Indexer.TreeRows

/-!
# The assets of an owner

The list that the server gives for a wallet: the rows of the leaves of the owner, joined with the
metadata of the mints.  Once the events of the trees were ingested, in any order, the list has
every asset that the chain has on record for the owner, once and as the chain has it.  Assets that
were burned or decompressed stay in the list, under the owner that they had last.
-/

namespace Candyland.Sdk.Indexer

open Bubblegum
open ConcurrentMerkleTree (NodeHash CollisionFree NonzeroHash treeAfter)
open Gummyroll (Build lastPosition)
open NftIngester (OnRecord)

variable {Node Pubkey : Type}

/-! ### The query -/

/-- An entry of the list. -/
structure OwnedAsset (Node Pubkey : Type) where
  nonce : ℕ
  treeId : Pubkey
  assetId : Pubkey
  uri : String
  name : String
  symbol : String
  sellerFeeBasisPoints : UInt16
  owner : Pubkey
  delegate : Pubkey
  leafHash : Node
  creators : List (Creator Pubkey)
  txId : String
  isCompressed : Bool
deriving DecidableEq

variable [DecidableEq Pubkey] [SystemProgramId Pubkey]

omit [DecidableEq Pubkey] in
/-- The row of `nft` for the metadata of an asset. -/
def NftRow.ofMetadata (metadata : MetadataArgs Pubkey) (assetId : Pubkey) : NftRow Pubkey :=
  ⟨assetId, metadata.uri, metadata.name, metadata.symbol, metadata.primarySaleHappened,
    metadata.sellerFeeBasisPoints, metadata.isMutable, (List.range 5).map fun i =>
      metadata.creators[i]?.getD ⟨SystemProgramId.programId, false, 0⟩⟩

/-- `getAssetsForOwner(owner, treeId)`.  Creators that are the system program are missing ones. -/
def NFTDatabaseConnection.getAssetsForOwner (self : NFTDatabaseConnection Node Pubkey)
    (owner : Pubkey) (treeId : Option Pubkey) : List (OwnedAsset Node Pubkey) :=
  ((self.leafSchema ×ˢ self.nft).filter fun (ls, n) =>
    decide (ls.assetId = n.assetId) && decide (ls.owner = owner) &&
      match treeId with
      | none => true
      | some treeId => decide (ls.treeId = treeId)).map fun (ls, n) =>
    ⟨ls.nonce, ls.treeId, n.assetId, n.uri, n.name, n.symbol, n.sellerFeeBasisPoints, ls.owner,
      ls.delegate, ls.leafHash,
      n.creators.filter fun creator => creator.address ≠ SystemProgramId.programId,
      ls.transactionId, ls.compressed⟩

/-- The creators that come back are the first five of the metadata. -/
theorem creators_ofMetadata (metadata : MetadataArgs Pubkey) (assetId : Pubkey) :
    ((NftRow.ofMetadata metadata assetId).creators.filter fun creator =>
        creator.address ≠ SystemProgramId.programId) =
      (metadata.creators.take 5).filter fun creator =>
        creator.address ≠ SystemProgramId.programId := by
  have hrange (k : ℕ) (creators : List (Creator Pubkey)) :
      (((List.range k).map fun i =>
          creators[i]?.getD ⟨SystemProgramId.programId, false, 0⟩).filter fun creator =>
        creator.address ≠ SystemProgramId.programId) =
      (creators.take k).filter fun creator => creator.address ≠ SystemProgramId.programId := by
    induction k generalizing creators with
    | zero => rfl
    | succ k ih =>
      rw [List.range_succ_eq_map, List.map_cons, List.map_map]
      cases creators with
      | nil =>
        have hnil := ih []
        simp only [List.getElem?_nil, Option.getD_none, List.take_nil] at hnil ⊢
        rw [List.filter_cons_of_neg (by simp)]
        exact hnil
      | cons creator creators =>
        have htail := ih creators
        rw [List.take_succ_cons, List.filter_cons, List.filter_cons, ← htail]
        rfl
  exact hrange 5 metadata.creators

/-! ### The rows of metadata -/

omit [DecidableEq Pubkey] in
/-- The row for `nft`, if the call writes one. -/
def Delivery.nftRow? (self : Delivery Node Pubkey) : Option (NftRow Pubkey) :=
  match self.call with
  | .mint _ newLeafData leafSchema =>
    if self.succeeds then some (.ofMetadata newLeafData.metadata leafSchema.schema.id) else none
  | _ => none

theorem deliver_nft (db : NFTDatabaseConnection Node Pubkey) (d : Delivery Node Pubkey) :
    (deliver db d).nft =
      d.nftRow?.toList.foldl (Table.upsert NftRow.assetId NftRow.merge) db.nft := by
  have hchange (db : NFTDatabaseConnection Node Pubkey) (changeLog txId slot treeId) :
      (db.updateChangeLogs changeLog txId slot treeId).nft = db.nft := by
    rw [NFTDatabaseConnection.updateChangeLogs]
    split_ifs <;> rfl
  obtain ⟨call, slot, txId, hpath⟩ := d
  cases call with
  | createTree changeLog =>
    simp [deliver, IngestCall.ingest, ingestBubblegumCreateTree, hchange, Delivery.nftRow?]
  | mint changeLog newLeafData leafSchema =>
    obtain ⟨leaf, path, hpath'⟩ := List.exists_cons_of_ne_nil hpath
    replace hpath' : changeLog.path = leaf :: path := hpath'
    cases hnonce : toNumber leafSchema.schema.nonce.toNat with
    | none =>
      simp [deliver, IngestCall.ingest, ingestBubblegumMint, hnonce, Delivery.nftRow?,
        Delivery.succeeds, Delivery.leafRow?, Delivery.leafRowOf]
    | some nonce =>
      simp [deliver, IngestCall.ingest, ingestBubblegumMint, hnonce, hpath', hchange,
        NFTDatabaseConnection.updateLeafSchema, NFTDatabaseConnection.updateNFTMetadata,
        Delivery.nftRow?, Delivery.succeeds, Delivery.leafRow?, Delivery.leafRowOf,
        IngestCall.changeLog, NftRow.ofMetadata]
  | replaceLeaf changeLog leafSchema compressed =>
    obtain ⟨leaf, path, hpath'⟩ := List.exists_cons_of_ne_nil hpath
    replace hpath' : changeLog.path = leaf :: path := hpath'
    cases hnonce : toNumber leafSchema.schema.nonce.toNat with
    | none =>
      simp [deliver, IngestCall.ingest, ingestBubblegumReplaceLeaf, hnonce, hpath',
        NFTDatabaseConnection.updateLeafSchema, Delivery.nftRow?]
    | some nonce =>
      simp [deliver, IngestCall.ingest, ingestBubblegumReplaceLeaf, hnonce, hpath', hchange,
        NFTDatabaseConnection.updateLeafSchema, Delivery.nftRow?]

theorem ingestAll_nft (l : List (Delivery Node Pubkey)) :
    (ingestAll l).nft =
      (l.filterMap Delivery.nftRow?).foldl (Table.upsert NftRow.assetId NftRow.merge) [] := by
  induction l using List.reverseRecOn with
  | nil => rfl
  | append_singleton l d ih =>
    have hrow : [d].filterMap Delivery.nftRow? = d.nftRow?.toList := by
      cases h : d.nftRow? <;> simp [h]
    rw [List.filterMap_append, List.foldl_append, hrow, ← ih, ingestAll, List.foldl_append]
    exact deliver_nft _ d

section Rows

variable {l : List (Delivery Node Pubkey)}

omit [DecidableEq Pubkey] [SystemProgramId Pubkey] in
theorem NftRow.assetId_merge (old row : NftRow Pubkey) (_ : old.assetId = row.assetId) :
    (old.merge row).assetId = row.assetId := rfl

/-- `nft` has one row for an asset. -/
theorem nodup_nft (l : List (Delivery Node Pubkey)) :
    ((ingestAll l).nft.map NftRow.assetId).Nodup := by
  rw [ingestAll_nft]
  exact Table.nodup_foldl_upsert NftRow.assetId_merge _

/-- Every row of `nft` is that of a mint. -/
theorem exists_of_mem_nft {row : NftRow Pubkey} (h : row ∈ (ingestAll l).nft) :
    ∃ d ∈ l, d.nftRow? = some row := by
  rw [ingestAll_nft] at h
  exact List.mem_filterMap.1 (Table.mem_of_mem_foldl_upsert (fun _ _ _ => .inr rfl) h)

/-- Every mint has a row. -/
theorem exists_mem_nft {d : Delivery Node Pubkey} (hd : d ∈ l) {row : NftRow Pubkey}
    (hrow : d.nftRow? = some row) : ∃ row' ∈ (ingestAll l).nft, row'.assetId = row.assetId := by
  rw [ingestAll_nft, ← List.mem_map, Table.mem_map_key_foldl_upsert NftRow.assetId_merge]
  exact List.mem_map.2 ⟨row, List.mem_filterMap.2 ⟨d, hd, hrow⟩, rfl⟩

end Rows

/-! ### The rows after a run -/

omit [SystemProgramId Pubkey] in
/-- What is delivered for a tree is a call for it. -/
theorem FromHistory.call_mem {slab : Pubkey} {history : List (Executed Node Pubkey)}
    {deliveries : List (Delivery Node Pubkey)} (h : FromHistory deliveries slab history)
    {d : Delivery Node Pubkey} (hd : d ∈ deliveries) (hid : d.call.changeLog.id = slab) :
    d.call ∈ callsOf slab history := by
  obtain ⟨x, hx, hname, hcall⟩ := h d hd hid
  exact mem_callsOf.2 ⟨x, hx, hname, hcall⟩

/-- The row has the columns that come from a schema. -/
structure LeafSchemaRow.Shows (row : LeafSchemaRow Node Pubkey)
    (schema : LeafSchema Node Pubkey) : Prop where
  nonce_eq : row.nonce = schema.nonce.toNat
  assetId_eq : row.assetId = schema.id
  owner_eq : row.owner = schema.owner
  delegate_eq : row.delegate = schema.delegate
  dataHash_eq : row.dataHash = schema.dataHash
  creatorHash_eq : row.creatorHash = schema.creatorHash

omit [DecidableEq Pubkey] [SystemProgramId Pubkey] in
/-- What the row of a leaf takes from the event of the leaf. -/
theorem Delivery.of_leafRow? {d : Delivery Node Pubkey} {row : LeafSchemaRow Node Pubkey}
    (h : d.leafRow? = some row) : ∃ leafSchema, d.call.leafSchema? = some leafSchema ∧
      d.call.compressed? = some row.compressed ∧ row.Shows leafSchema.schema := by
  have hrow : ∀ leafSchema compressed, d.leafRowOf leafSchema compressed = some row →
      compressed = row.compressed ∧ row.Shows leafSchema.schema := by
    intro leafSchema compressed h
    simp only [leafRowOf, Option.bind_eq_bind, Option.bind_eq_some_iff, Option.some.injEq] at h
    obtain ⟨nonce, hnonce, leaf, -, rfl⟩ := h
    rw [toNumber] at hnonce
    split_ifs at hnonce
    exact ⟨rfl, (Option.some.inj hnonce).symm, rfl, rfl, rfl, rfl, rfl⟩
  rw [leafRow?] at h
  cases hcall : d.call with
  | createTree changeLog =>
    rw [hcall] at h
    cases h
  | mint changeLog newLeafData leafSchema =>
    rw [hcall] at h
    obtain ⟨hcompressed, hshows⟩ := hrow leafSchema true h
    exact ⟨leafSchema, rfl, congrArg some hcompressed, hshows⟩
  | replaceLeaf changeLog leafSchema compressed =>
    rw [hcall] at h
    obtain ⟨hcompressed, hshows⟩ := hrow leafSchema compressed h
    exact ⟨leafSchema, rfl, congrArg some hcompressed, hshows⟩

section Run

variable [NodeHash Node] [LeafHash Node Pubkey] [ProgramAddress Pubkey] [DecidableEq Node] [Build]
  {st : State Node Pubkey} {slab : Pubkey} {n : UInt64} {history : List (Executed Node Pubkey)}
  {deliveries : List (Delivery Node Pubkey)} {tree : Tree Node Pubkey}
  {call : IngestCall Node Pubkey}

omit [DecidableEq Pubkey] [SystemProgramId Pubkey] [LeafHash Node Pubkey] [ProgramAddress Pubkey]
  [DecidableEq Node] [Build] in
/-- The leaf is that of the last write to its position. -/
theorem treeAfter_last_write {ws ws' : List (ℕ × Node)} (hws : ws' <:+ ws) (hne : ws' ≠ [])
    (hmax : ∀ ws'', ws'' <:+ ws → ws'' ≠ [] → lastPosition ws'' = lastPosition ws' →
      ws''.length ≤ ws'.length) :
    treeAfter ws' (lastPosition ws') = treeAfter ws (lastPosition ws') := by
  induction ws with
  | nil => exact absurd (List.suffix_nil.1 hws) hne
  | cons w ws ih =>
    rcases List.suffix_cons_iff.1 hws with rfl | hws'
    · rfl
    · have hw : lastPosition ws' ≠ w.1 := by
        intro heq
        have hle := hmax (w :: ws) List.suffix_rfl (by simp) heq.symm
        have hlt := hws'.length_le
        rw [List.length_cons] at hle
        omega
      rw [ih hws' fun ws'' hws'' => hmax ws'' (hws''.trans (List.suffix_cons _ _))]
      exact (Function.update_of_ne hw ..).symm

/-- All events of a tree were ingested.  The numbers of its updates are those of SQLite. -/
structure Complete (deliveries : List (Delivery Node Pubkey)) (slab : Pubkey)
    (tree : Tree Node Pubkey) : Prop where
  sequence_lt : tree.slab.account.roll.sequenceNumber < 2 ^ 63
  ingested : ∀ seq, 1 ≤ seq → seq ≤ tree.slab.account.roll.sequenceNumber →
    Ingested deliveries slab seq

variable [CollisionFree Node] [NonzeroHash Node] [CollisionFreeLeaf Node Pubkey]
  [InjectiveAddress Pubkey]

omit [SystemProgramId Pubkey] in
/-- Every call for an asset was delivered, and did not throw. -/
theorem exists_delivery (h : Reachable history st) (htree : st.trees slab = some tree)
    (hcomplete : Complete deliveries slab tree) (hdeliveries : FromHistory deliveries slab history)
    (hcall : call ∈ callsFor slab n history) :
    ∃ d ∈ deliveries, d.call = call ∧
      ∃ row, d.leafRow? = some row ∧ row.key = (slab, n.toNat) ∧ row.seq = call.changeLog.seq := by
  have hlogged := h.logged htree hcomplete.sequence_lt
  obtain ⟨hmem, hnonce⟩ := mem_callsFor.1 hcall
  obtain ⟨x, hx, hname, hcallOf⟩ := mem_callsOf.1 hmem
  obtain ⟨ws, hws, hevent, hmatch⟩ := h.call_eq hx hname hcallOf htree hlogged
  obtain ⟨leafSchema, hschema, hn⟩ := Option.map_eq_some_iff.1 hnonce
  rw [hschema] at hmatch
  obtain ⟨hne, hlast⟩ := hmatch
  have hseq : call.changeLog.seq = ws.length := by rw [hevent, Gummyroll.eventAfter]
  have hlen := hws.length_le
  obtain ⟨d, hd, hid, hdseq⟩ := hcomplete.ingested ws.length (List.length_pos_iff.2 hne)
    (by rw [hlogged.sequence_eq]; exact hlen)
  have heq : d.call = call := call_unique (callsOf_pairwise h htree hlogged)
    (hdeliveries.call_mem hd hid) hmem (hdseq.trans hseq.symm)
  have hwrites := writes_of_event hlogged.depth_lt (lastPosition_lt hlogged.bound hws) hne
    (heq ▸ hevent) (heq ▸ hschema) hlast
  obtain ⟨row, hrow, htreeId, hrowNonce, hrowSeq, -⟩ := hwrites.leafRow
  refine ⟨d, hd, heq, row, hrow, ?_, hrowSeq.trans hseq.symm⟩
  rw [LeafSchemaRow.key, htreeId, hrowNonce, hlast, hn]

/-- The row of a leaf is that of the newest call for its asset. -/
theorem exists_newest_of_row (h : Reachable history st) (htree : st.trees slab = some tree)
    (hcomplete : Complete deliveries slab tree) (hdeliveries : FromHistory deliveries slab history)
    {row : LeafSchemaRow Node Pubkey} (hrow : row ∈ (ingestAll deliveries).leafSchema)
    (hid : row.treeId = slab) : ∃ n call leafSchema, row.nonce = n.toNat ∧
      (callsFor slab n history).head? = some call ∧ call.leafSchema? = some leafSchema ∧
      call.compressed? = some row.compressed ∧ row.Shows leafSchema.schema := by
  obtain ⟨d, hd, row₁, hrow₁, hcolumns, hmax⟩ := exists_of_mem_leafSchema hrow
  obtain ⟨leafSchema, hschema, hcompressed, hshows⟩ := Delivery.of_leafRow? hrow₁
  simp only [LeafSchemaRow.columns, LeafSchemaRow.mk.injEq] at hcolumns
  obtain ⟨hasset, hnonce, htreeId, hseq, -, -, howner, hdelegate, hdata, hcreators, -,
    hcompressed'⟩ := hcolumns
  obtain ⟨hid₁, hseq₁⟩ := Delivery.of_leafRow hrow₁
  have hmem : d.call ∈ callsFor slab leafSchema.schema.nonce history :=
    mem_callsFor.2 ⟨hdeliveries.call_mem hd (by rw [← hid₁, ← htreeId, hid]), by
      simp [IngestCall.nonce?, hschema]⟩
  obtain ⟨newest, calls, hcalls⟩ := List.exists_cons_of_ne_nil (List.ne_nil_of_mem hmem)
  have hhead : (callsFor slab leafSchema.schema.nonce history).head? = some newest := by
    rw [hcalls, List.head?_cons]
  have hsorted := callsOf_pairwise h htree (h.logged htree hcomplete.sequence_lt)
  have hnewest : newest ∈ callsFor slab leafSchema.schema.nonce history := by
    rw [hcalls]
    exact List.mem_cons_self
  -- the newest call was delivered as well, and its number is not larger
  obtain ⟨d', hd', rfl, row', hrow', hkey, hseq'⟩ :=
    exists_delivery h htree hcomplete hdeliveries hnewest
  have hle := hmax d' hd' row' hrow' (by rw [hkey, LeafSchemaRow.key, hid, hnonce, hshows.nonce_eq])
  have hge := seq_le_of_head? hsorted hhead hmem
  have heq : d'.call = d.call := by
    refine call_unique hsorted (mem_callsFor.1 hnewest).1 (mem_callsFor.1 hmem).1 ?_
    omega
  refine ⟨leafSchema.schema.nonce, d'.call, leafSchema, hnonce.trans hshows.nonce_eq, hhead,
    heq ▸ hschema, ?_, hnonce.trans hshows.nonce_eq, hasset.trans hshows.assetId_eq,
    howner.trans hshows.owner_eq, hdelegate.trans hshows.delegate_eq,
    hdata.trans hshows.dataHash_eq, hcreators.trans hshows.creatorHash_eq⟩
  rw [heq, hcompressed, hcompressed']

omit [SystemProgramId Pubkey] in
/-- A tree with a call is there. -/
theorem exists_tree_of_call (h : Reachable history st) (hcall : call ∈ callsOf slab history) :
    ∃ tree, st.trees slab = some tree := by
  obtain ⟨x, hx, hname, hcall⟩ := mem_callsOf.1 hcall
  obtain ⟨tree, -, htree, -⟩ := h.call_suffix hx hname hcall
  exact ⟨tree, htree⟩

/-- The row of `nft` for an asset has the metadata of its mint. -/
theorem metadata_of_row (h : Reachable history st)
    (hdeliveries : ∀ slab, FromHistory deliveries slab history) {metadata : MetadataArgs Pubkey}
    (hmints : (callsFor slab n history).filterMap IngestCall.metadata? = [metadata])
    {row : NftRow Pubkey} (hrow : row ∈ (ingestAll deliveries).nft)
    (hid : row.assetId = getAssetId slab n) :
    row = .ofMetadata metadata (getAssetId slab n) := by
  obtain ⟨d, hd, hrow⟩ := exists_of_mem_nft hrow
  rw [Delivery.nftRow?] at hrow
  split at hrow
  · rename_i changeLog newLeafData leafSchema hcall
    split_ifs at hrow
    obtain rfl := Option.some.inj hrow
    obtain ⟨x, hx, hname, hxcall⟩ := hdeliveries d.call.changeLog.id d hd rfl
    obtain ⟨slab', _, _, _, hins, -, hid'⟩ :=
      of_mint_call h hx (hxcall.trans (congrArg some hcall))
    obtain ⟨rfl, hn⟩ := InjectiveAddress.asset_inj (hid'.symm.trans hid)
    have hmem : d.call ∈ callsFor slab' n history := mem_callsFor.2
      ⟨mem_callsOf.2 ⟨x, hx, by rw [hins]; rfl, hxcall⟩, by
        rw [hcall]
        exact congrArg some hn⟩
    have hmetadata : newLeafData.metadata ∈ [metadata] := by
      rw [← hmints]
      exact List.mem_filterMap.2 ⟨d.call, hmem, by rw [hcall]; rfl⟩
    rw [List.mem_singleton.1 hmetadata, hid', hn]
  · cases hrow

/-- There is a row of `nft` for every asset. -/
theorem exists_metadata_row (h : Reachable history st) (htree : st.trees slab = some tree)
    (hcomplete : Complete deliveries slab tree) (hdeliveries : FromHistory deliveries slab history)
    {metadata : MetadataArgs Pubkey}
    (hmints : (callsFor slab n history).filterMap IngestCall.metadata? = [metadata]) :
    ∃ row ∈ (ingestAll deliveries).nft, row.assetId = getAssetId slab n := by
  have hmem : metadata ∈ (callsFor slab n history).filterMap IngestCall.metadata? := by
    rw [hmints]
    exact List.mem_cons_self
  obtain ⟨call, hcall, hmetadata⟩ := List.mem_filterMap.1 hmem
  obtain ⟨d, hd, rfl, row, hrow, -⟩ := exists_delivery h htree hcomplete hdeliveries hcall
  obtain ⟨hof, hnonce⟩ := mem_callsFor.1 hcall
  obtain ⟨x, hx, hname, hxcall⟩ := mem_callsOf.1 hof
  cases hmint : d.call with
  | createTree => simp [hmint, IngestCall.metadata?] at hmetadata
  | replaceLeaf => simp [hmint, IngestCall.metadata?] at hmetadata
  | mint changeLog newLeafData leafSchema =>
    rw [hmint] at hxcall hnonce
    obtain ⟨slab', _, _, _, hins, -, hid⟩ := of_mint_call h hx hxcall
    rw [hins] at hname
    obtain rfl : slab' = slab := Option.some.inj hname
    have hn : leafSchema.schema.nonce = n := Option.some.inj hnonce
    have hsucceeds : d.succeeds = true := by
      rw [Delivery.succeeds, hmint]
      simp [hrow]
    have hnft : d.nftRow? =
        some (.ofMetadata newLeafData.metadata leafSchema.schema.id) := by
      simp [Delivery.nftRow?, hmint, hsucceeds]
    obtain ⟨row', hrow', hasset⟩ := exists_mem_nft hd hnft
    refine ⟨row', hrow', hasset.trans ?_⟩
    rw [← hn]
    exact hid

/-! ### The list -/

omit [DecidableEq Pubkey] [SystemProgramId Pubkey] [NodeHash Node] [LeafHash Node Pubkey]
  [ProgramAddress Pubkey] [DecidableEq Node] [Build] [CollisionFree Node] [NonzeroHash Node]
  [CollisionFreeLeaf Node Pubkey] [InjectiveAddress Pubkey] in
/-- The trees of which assets are asked for. -/
def Selected (treeId : Option Pubkey) (slab : Pubkey) : Prop := ∀ t ∈ treeId, slab = t

/-- The entry says what the chain has on record of an asset, with the metadata of its mint.  The
asset counts as compressed while it is in the tree, and again once it is burned. -/
structure OwnedAsset.Describes (a : OwnedAsset Node Pubkey) (st : State Node Pubkey)
    (history : List (Executed Node Pubkey)) (n : UInt64) (s : LeafSchema Node Pubkey)
    (metadata : MetadataArgs Pubkey) : Prop where
  record : OnRecord a.treeId n history s
  dataHash_eq : s.dataHash = LeafHash.hashMetadata metadata
  creatorHash_eq : s.creatorHash =
    LeafHash.hashCreators (metadata.creators.map fun c => (c.address, c.share))
  nonce_eq : a.nonce = n.toNat
  assetId_eq : a.assetId = getAssetId a.treeId n
  owner_eq : a.owner = s.owner
  delegate_eq : a.delegate = s.delegate
  leaf_eq : st.leaf a.treeId n.toNat = some a.leafHash
  isCompressed_iff : a.isCompressed = true ↔
    st.InStage history a.treeId n .live ∨ st.InStage history a.treeId n .burned
  texts_eq : (a.uri, a.name, a.symbol) = (metadata.uri, metadata.name, metadata.symbol)
  fee_eq : a.sellerFeeBasisPoints = metadata.sellerFeeBasisPoints
  creators_eq : a.creators = (metadata.creators.take 5).filter fun creator =>
    creator.address ≠ SystemProgramId.programId

omit [NodeHash Node] [LeafHash Node Pubkey] [ProgramAddress Pubkey] [DecidableEq Node] [Build]
  [CollisionFree Node] [NonzeroHash Node] [CollisionFreeLeaf Node Pubkey]
  [InjectiveAddress Pubkey] in
/-- An entry comes from a row of its leaf and a row of its metadata. -/
theorem mem_getAssetsForOwner {db : NFTDatabaseConnection Node Pubkey} {owner : Pubkey}
    {treeId : Option Pubkey} {a : OwnedAsset Node Pubkey} :
    a ∈ db.getAssetsForOwner owner treeId ↔ ∃ ls ∈ db.leafSchema, ∃ n ∈ db.nft,
      ls.assetId = n.assetId ∧ ls.owner = owner ∧ Selected treeId ls.treeId ∧
      a = ⟨ls.nonce, ls.treeId, n.assetId, n.uri, n.name, n.symbol, n.sellerFeeBasisPoints,
        ls.owner, ls.delegate, ls.leafHash,
        n.creators.filter fun creator => creator.address ≠ SystemProgramId.programId,
        ls.transactionId, ls.compressed⟩ := by
  simp only [NFTDatabaseConnection.getAssetsForOwner, List.mem_map, List.mem_filter,
    List.mem_product, Prod.exists, Bool.and_eq_true, decide_eq_true_eq, Selected]
  constructor
  · rintro ⟨ls, n, ⟨⟨hls, hn⟩, ⟨hid, howner⟩, htree⟩, rfl⟩
    refine ⟨ls, hls, n, hn, hid, howner, ?_, rfl⟩
    cases treeId with
    | none => exact fun t ht => absurd ht (by simp)
    | some treeId =>
      rintro t ⟨⟩
      exact of_decide_eq_true htree
  · rintro ⟨ls, hls, n, hn, hid, howner, htree, rfl⟩
    refine ⟨ls, n, ⟨⟨hls, hn⟩, ⟨hid, howner⟩, ?_⟩, rfl⟩
    cases treeId with
    | none => rfl
    | some treeId => exact decide_eq_true (htree treeId rfl)

omit [CollisionFree Node] [NonzeroHash Node] [CollisionFreeLeaf Node Pubkey]
  [InjectiveAddress Pubkey] [NodeHash Node] [LeafHash Node Pubkey] [ProgramAddress Pubkey]
  [DecidableEq Node] [Build] in
/-- An asset is listed once. -/
theorem nodup_getAssetsForOwner (deliveries : List (Delivery Node Pubkey)) (owner : Pubkey)
    (treeId : Option Pubkey) : (((ingestAll deliveries).getAssetsForOwner owner treeId).map
      fun a => (a.treeId, a.nonce)).Nodup := by
  rw [NFTDatabaseConnection.getAssetsForOwner, List.map_map]
  refine List.Nodup.map_on ?_ (((List.Nodup.of_map _ (nodup_leafSchema deliveries)).product
    (.of_map _ (nodup_nft deliveries))).filter _)
  rintro ⟨ls, n⟩ h ⟨ls', n'⟩ h' heq
  simp only [List.mem_filter, List.mem_product, Bool.and_eq_true, decide_eq_true_eq] at h h'
  obtain rfl : ls = ls' :=
    List.inj_on_of_nodup_map (nodup_leafSchema deliveries) h.1.1 h'.1.1 heq
  obtain rfl : n = n' := List.inj_on_of_nodup_map (nodup_nft deliveries) h.1.2 h'.1.2
    (h.2.1.1.symm.trans h'.2.1.1)
  rfl

/-- The row of a leaf has the leaf of the tree. -/
theorem leafHash_of_row (h : Reachable history st) (htree : st.trees slab = some tree)
    (hcomplete : Complete deliveries slab tree) (hdeliveries : FromHistory deliveries slab history)
    {row : LeafSchemaRow Node Pubkey} (hrow : row ∈ (ingestAll deliveries).leafSchema)
    (hid : row.treeId = slab) : st.leaf slab row.nonce = some row.leafHash := by
  have hlogged := h.logged htree hcomplete.sequence_lt
  obtain ⟨ws, hws, hne, -, hnonce, -, hleaf, hmax⟩ :=
    (holds_ingestAll h htree hlogged hdeliveries).of_mem_leafSchema row hrow hid
  have hlast := treeAfter_last_write hws hne fun ws' hws' hne' => hmax ws' hws' hne' (by
    have hlen := hws'.length_le
    refine hcomplete.ingested _ (List.length_pos_iff.2 hne') ?_
    rw [hlogged.sequence_eq]
    exact hlen)
  rw [State.leaf, htree, Option.map_some, Tree.leaf, hnonce, hleaf, hlast]

section List

variable (h : Reachable history st)
  (hdeliveries : ∀ slab, FromHistory deliveries slab history) {owner : Pubkey}
  {treeId : Option Pubkey} (hcomplete : ∀ slab tree, Selected treeId slab →
    st.trees slab = some tree → Complete deliveries slab tree)

include h hdeliveries hcomplete

/-- An entry says what the chain has on record of its asset. -/
theorem describes_of_mem {a : OwnedAsset Node Pubkey}
    (ha : a ∈ (ingestAll deliveries).getAssetsForOwner owner treeId) :
    a.owner = owner ∧ Selected treeId a.treeId ∧
      ∃ n s metadata, a.Describes st history n s metadata := by
  obtain ⟨ls, hls, m, hm, hid, howner, hselected, rfl⟩ := mem_getAssetsForOwner.1 ha
  refine ⟨howner, hselected, ?_⟩
  obtain ⟨d, hd, row, hrow, hcolumns, -⟩ := exists_of_mem_leafSchema hls
  have hdid : d.call.changeLog.id = ls.treeId :=
    (Delivery.of_leafRow hrow).1.symm.trans (LeafSchemaRow.of_columns_eq hcolumns).1.symm
  obtain ⟨tree, htree⟩ := exists_tree_of_call h ((hdeliveries ls.treeId).call_mem hd hdid)
  obtain ⟨n, call, leafSchema, hnonce, hhead, hschema, hcompressed, hshows⟩ :=
    exists_newest_of_row h htree (hcomplete _ tree hselected htree) (hdeliveries _) hls rfl
  obtain ⟨L, l, s, metadata, hrep, hrecords, hl, hrecorded, hschema', hcompressed'⟩ :=
    exists_recorded_of_head? h hhead
  obtain rfl := Option.some.inj (hschema.symm.trans hschema')
  have hassetId : m.assetId = getAssetId ls.treeId n :=
    hid.symm.trans (hshows.assetId_eq.trans hrecorded.id_eq)
  have hmetadata := metadata_of_row h hdeliveries hrecorded.mints hm hassetId
  have hstage := hrep.inStage_iff hrecords hl
  refine ⟨n, s, metadata, hrecorded.record, hrecorded.dataHash_eq, hrecorded.creatorHash_eq,
    hnonce, hassetId, hshows.owner_eq, hshows.delegate_eq, ?_, ?_, ?_, ?_, ?_⟩
  · show st.leaf ls.treeId n.toNat = some ls.leafHash
    rw [← hnonce]
    exact leafHash_of_row h htree (hcomplete _ tree hselected htree) (hdeliveries _) hls rfl
  · show ls.compressed = true ↔ _
    rw [Option.some.inj (hcompressed.symm.trans hcompressed'), hstage, hstage]
    cases l <;> simp [compressedColumn, Life.stage]
  · show (m.uri, m.name, m.symbol) = _
    rw [hmetadata]
    rfl
  · show m.sellerFeeBasisPoints = _
    rw [hmetadata]
    rfl
  · show (m.creators.filter fun creator => creator.address ≠ SystemProgramId.programId) = _
    rw [hmetadata]
    exact creators_ofMetadata metadata _

/-- What is on record for the owner has an entry. -/
theorem exists_mem_of_record {s : LeafSchema Node Pubkey} (hselected : Selected treeId slab)
    (hrecord : OnRecord slab n history s) (howner : s.owner = owner) :
    ∃ a ∈ (ingestAll deliveries).getAssetsForOwner owner treeId,
      a.treeId = slab ∧ a.nonce = n.toNat := by
  obtain ⟨call, calls, hcalls⟩ := List.exists_cons_of_ne_nil (callsFor_ne_nil hrecord)
  have hhead : (callsFor slab n history).head? = some call := by rw [hcalls, List.head?_cons]
  have hcall : call ∈ callsFor slab n history := List.mem_of_mem_head? hhead
  obtain ⟨L, l, s', metadata, -, -, hl, hrecorded, hschema, -⟩ := exists_recorded_of_head? h hhead
  obtain rfl := hrecord.unique hrecorded.record
  obtain ⟨tree, htree⟩ := exists_tree_of_call h (mem_callsFor.1 hcall).1
  have htreeComplete := hcomplete slab tree hselected htree
  obtain ⟨d, hd, rfl, row, hrow, hkey, -⟩ :=
    exists_delivery h htree htreeComplete (hdeliveries slab) hcall
  -- the row for the key is that of the newest call
  obtain ⟨ls, hls, hlskey⟩ := exists_mem_leafSchema hd hrow
  obtain ⟨hlsid, hlsnonce⟩ := Prod.mk.inj (hlskey.trans hkey)
  obtain ⟨n', call', leafSchema, hnonce, hhead', hschema', -, hshows⟩ :=
    exists_newest_of_row h htree htreeComplete (hdeliveries slab) hls hlsid
  obtain rfl : n = n' := UInt64.toNat_inj.1 (hlsnonce.symm.trans hnonce)
  obtain rfl := Option.some.inj (hhead.symm.trans hhead')
  obtain rfl := Option.some.inj (hschema.symm.trans hschema')
  obtain ⟨m, hm, hmid⟩ :=
    exists_metadata_row h htree htreeComplete (hdeliveries slab) hrecorded.mints
  refine ⟨_, mem_getAssetsForOwner.2 ⟨ls, hls, m, hm, ?_, hshows.owner_eq.trans howner,
    hlsid ▸ hselected, rfl⟩, hlsid, hlsnonce⟩
  exact hshows.assetId_eq.trans (hrecorded.id_eq.trans hmid.symm)

end List

/-- Once all events of the trees were ingested, in any order, the list for an owner says of every
asset what the chain has on record for it, and lists each of them once. -/
theorem assets_of_owner (h : Reachable history st)
    (hdeliveries : ∀ slab, FromHistory deliveries slab history) (owner : Pubkey)
    (treeId : Option Pubkey)
    (hcomplete : ∀ slab tree, Selected treeId slab → st.trees slab = some tree →
      Complete deliveries slab tree) :
    let assets := (ingestAll deliveries).getAssetsForOwner owner treeId
    (assets.map fun a => (a.treeId, a.nonce)).Nodup ∧
    (∀ a ∈ assets, a.owner = owner ∧ Selected treeId a.treeId ∧
      ∃ n s metadata, a.Describes st history n s metadata) ∧
    ∀ slab n s, Selected treeId slab → OnRecord slab n history s → s.owner = owner →
      ∃ a ∈ assets, a.treeId = slab ∧ a.nonce = n.toNat := by
  intro assets
  refine ⟨nodup_getAssetsForOwner deliveries owner treeId, ?_, ?_⟩
  · intro a ha
    exact describes_of_mem h hdeliveries hcomplete ha
  · intro slab n s hselected hrecord howner
    exact exists_mem_of_record h hdeliveries hcomplete hselected hrecord howner

end Run

section Trace

open Bubblegum (Trace.minted Trace.mintHistory Trace.slab Trace.alice)
open ConcurrentMerkleTree (Term)

/-- The events of the mint all come from the history. -/
theorem fromHistory_minted (slab : Key) :
    FromHistory (Trace.mintHistory.filterMap (deliveryOf 1 "mint")) slab Trace.mintHistory := by
  have hid : ∀ d ∈ Trace.mintHistory.filterMap (deliveryOf 1 "mint"),
      d.call.changeLog.id = Trace.slab := by decide +kernel
  rintro d hd rfl
  obtain ⟨x, hx, hdelivery⟩ := List.mem_filterMap.1 hd
  refine ⟨x, hx, ?_, call_of_deliveryOf hdelivery⟩
  rw [hid d hd]
  simp only [Trace.mintHistory, List.mem_cons, List.not_mem_nil, or_false] at hx
  rcases hx with rfl | rfl <;> rfl

/-- All events of the tree are there after the mint. -/
theorem complete_minted {slab : Key} {tree : Tree Term Key}
    (hselected : Selected (some Trace.slab) slab) (htree : Trace.minted.trees slab = some tree) :
    Complete (Trace.mintHistory.filterMap (deliveryOf 1 "mint")) slab tree := by
  obtain rfl := hselected Trace.slab rfl
  have hseq : (Trace.minted.trees Trace.slab).map
      (fun tree => tree.slab.account.roll.sequenceNumber) = some 1 := by decide +kernel
  rw [htree] at hseq
  have hone : tree.slab.account.roll.sequenceNumber = 1 := Option.some.inj hseq
  refine ⟨by omega, fun seq hpos hle => ?_⟩
  obtain rfl : seq = 1 := by omega
  unfold Ingested
  decide +kernel

-- the other wallet has no asset
example : ((ingestAll (Trace.mintHistory.filterMap (deliveryOf 1 "mint"))).getAssetsForOwner
    Bubblegum.Trace.bob (some Trace.slab)).length = 0 := by
  decide +kernel

/-- The asset of the owner after its mint. -/
theorem assets_of_owner_minted :
    let deliveries := Trace.mintHistory.filterMap (deliveryOf 1 "mint")
    ∃ a ∈ (ingestAll deliveries).getAssetsForOwner Trace.alice (some Trace.slab),
      a.treeId = Trace.slab ∧ a.nonce = 0 := by
  intro deliveries
  have hleaf : Trace.minted.leaf Trace.slab 0 = some (assetOf Trace.alice).toNode := by
    decide +kernel
  exact (assets_of_owner Bubblegum.Trace.reachable_minted fromHistory_minted Trace.alice
    (some Trace.slab) (fun _ _ => complete_minted)).2.2 Trace.slab 0 (assetOf Trace.alice)
    (fun t ht => Option.some.inj ht) (.holds Bubblegum.Trace.reachable_minted (.inl hleaf)) rfl

end Trace

end Candyland.Sdk.Indexer
