import Candyland.Bubblegum.Symbolic
import Candyland.Sdk.Indexer.Database

/-!
# The order in which events arrive

Live logs, the filling of gaps and the history feed the same tables, so that an event comes late
or twice.  The rows of nodes and the rows of leaves are the same for every order.
-/

namespace Candyland.Sdk.Indexer

open Bubblegum (LeafSchemaEvent)

/-- A call of one of the three functions with the slot and the transaction of its event.  The
event of gummyroll lists at least the leaf. -/
structure Delivery (Node Pubkey : Type) where
  call : IngestCall Node Pubkey
  slot : ℕ
  txId : String
  path_ne : call.changeLog.path ≠ []
deriving DecidableEq

variable {Node Pubkey : Type} [DecidableEq Pubkey]

/-- The columns of a row but `slot`. -/
def LeafSchemaRow.columns (self : LeafSchemaRow Node Pubkey) : LeafSchemaRow Node Pubkey :=
  { self with slot := 0 }

omit [DecidableEq Pubkey] in
@[simp] theorem LeafSchemaRow.key_columns (row : LeafSchemaRow Node Pubkey) :
    row.columns.key = row.key := rfl

omit [DecidableEq Pubkey] in
/-- Rows that differ at most in `slot`. -/
theorem LeafSchemaRow.of_columns_eq {row row' : LeafSchemaRow Node Pubkey}
    (h : row.columns = row'.columns) : row.treeId = row'.treeId ∧ row.nonce = row'.nonce ∧
      row.seq = row'.seq ∧ row.leafHash = row'.leafHash := by
  simp only [columns, LeafSchemaRow.mk.injEq] at h
  simp [h]

omit [DecidableEq Pubkey] in
theorem LeafSchemaRow.key_merge (old row : LeafSchemaRow Node Pubkey) (h : old.key = row.key) :
    (old.merge row).key = row.key := by
  rw [merge]
  split_ifs <;> exact h

omit [DecidableEq Pubkey] in
theorem LeafSchemaRow.seq_merge (old row : LeafSchemaRow Node Pubkey) :
    (old.merge row).seq = max old.seq row.seq := by
  rw [merge]
  split_ifs with hle
  · exact (max_eq_right hle).symm
  · exact (max_eq_left (not_le.1 hle).le).symm

omit [DecidableEq Pubkey] in
theorem LeafSchemaRow.columns_merge (old row : LeafSchemaRow Node Pubkey)
    (h : old.key = row.key) :
    (old.merge row).columns = if old.seq ≤ row.seq then row.columns else old.columns := by
  obtain ⟨htree, hnonce⟩ := Prod.mk.inj h
  rw [merge]
  split_ifs <;> simp [columns, htree, hnonce]

omit [DecidableEq Pubkey] in
theorem MerkleRow.merge_eq (old row : MerkleRow Node Pubkey) (h : old.key = row.key) :
    old.merge row = row := by
  simp only [key, Prod.mk.injEq] at h
  simp [merge, h]

omit [DecidableEq Pubkey] in
theorem MerkleRow.key_merge (old row : MerkleRow Node Pubkey) (h : old.key = row.key) :
    (old.merge row).key = row.key := by
  rw [merge_eq old row h]

/-! ### What a delivery writes -/

namespace Delivery

variable (self : Delivery Node Pubkey)

omit [DecidableEq Pubkey] in
/-- The row for a leaf that one of the functions is called with. -/
def leafRowOf (leafSchema : LeafSchemaEvent Node Pubkey) (compressed : Bool) :
    Option (LeafSchemaRow Node Pubkey) := do
  let nonce ← toNumber leafSchema.schema.nonce.toNat
  let leaf ← self.call.changeLog.path.head?
  some ⟨leafSchema.schema.id, nonce, self.call.changeLog.id, self.call.changeLog.seq, self.txId,
    self.slot, leafSchema.schema.owner, leafSchema.schema.delegate, leafSchema.schema.dataHash,
    leafSchema.schema.creatorHash, leaf.node, compressed⟩

omit [DecidableEq Pubkey] in
/-- The row for `leaf_schema`, if the call writes one. -/
def leafRow? : Option (LeafSchemaRow Node Pubkey) :=
  match self.call with
  | .createTree _ => none
  | .mint _ _ leafSchema => self.leafRowOf leafSchema true
  | .replaceLeaf _ leafSchema compressed => self.leafRowOf leafSchema compressed

omit [DecidableEq Pubkey] in
/-- The call does not throw. -/
def succeeds : Bool :=
  match self.call with
  | .createTree _ => true
  | _ => self.leafRow?.isSome

omit [DecidableEq Pubkey] in
/-- The rows for `merkle`. -/
def nodeRows : List (MerkleRow Node Pubkey) :=
  if self.succeeds ∧ self.call.changeLog.seq ≠ 0 then
    NFTDatabaseConnection.merkleRows self.call.changeLog self.txId self.slot
      self.call.changeLog.id
  else []

variable {self}

omit [DecidableEq Pubkey] in
theorem of_leafRow {row : LeafSchemaRow Node Pubkey} (h : self.leafRow? = some row) :
    row.treeId = self.call.changeLog.id ∧ row.seq = self.call.changeLog.seq := by
  have hrow : ∀ leafSchema compressed, self.leafRowOf leafSchema compressed = some row →
      row.treeId = self.call.changeLog.id ∧ row.seq = self.call.changeLog.seq := by
    intro leafSchema compressed h
    simp only [leafRowOf, Option.bind_eq_bind, Option.bind_eq_some_iff, Option.some.injEq] at h
    obtain ⟨nonce, -, leaf, -, rfl⟩ := h
    exact ⟨rfl, rfl⟩
  rw [leafRow?] at h
  split at h
  · cases h
  · exact hrow _ _ h
  · exact hrow _ _ h

omit [DecidableEq Pubkey] in
theorem of_mem_nodeRows {row : MerkleRow Node Pubkey} (h : row ∈ self.nodeRows) :
    row.treeId = self.call.changeLog.id ∧ row.seq = self.call.changeLog.seq := by
  rw [nodeRows] at h
  split_ifs at h
  · obtain ⟨x, -, rfl⟩ := List.mem_map.1 h
    exact ⟨rfl, rfl⟩
  · cases h

end Delivery

variable [SystemProgramId Pubkey]

/-- Ingests an event.  When the call throws, the transaction is dropped. -/
def deliver (db : NFTDatabaseConnection Node Pubkey) (d : Delivery Node Pubkey) :
    NFTDatabaseConnection Node Pubkey :=
  (d.call.ingest db d.slot ⟨d.txId, none, none⟩).getD db

/-- Ingests events into new tables. -/
def ingestAll (deliveries : List (Delivery Node Pubkey)) : NFTDatabaseConnection Node Pubkey :=
  deliveries.foldl deliver .empty

section Writes

variable (db : NFTDatabaseConnection Node Pubkey) (d : Delivery Node Pubkey)

omit [SystemProgramId Pubkey] in
theorem merkle_updateChangeLogs (changeLog : Gummyroll.ChangeLogEvent Node Pubkey) (txId : String)
    (slot : ℕ) (treeId : Pubkey) : (db.updateChangeLogs changeLog txId slot treeId).merkle =
      (if changeLog.seq = 0 then []
        else NFTDatabaseConnection.merkleRows changeLog txId slot treeId).foldl
        (Table.upsert MerkleRow.key MerkleRow.merge) db.merkle := by
  rw [NFTDatabaseConnection.updateChangeLogs]
  split_ifs <;> rfl

omit [SystemProgramId Pubkey] in
@[simp] theorem leafSchema_updateChangeLogs (changeLog : Gummyroll.ChangeLogEvent Node Pubkey)
    (txId : String) (slot : ℕ) (treeId : Pubkey) :
    (db.updateChangeLogs changeLog txId slot treeId).leafSchema = db.leafSchema := by
  rw [NFTDatabaseConnection.updateChangeLogs]
  split_ifs <;> rfl

/-- What a delivery writes. -/
theorem deliver_eq :
    (deliver db d).merkle = d.nodeRows.foldl (Table.upsert MerkleRow.key MerkleRow.merge)
      db.merkle ∧
    (deliver db d).leafSchema = d.leafRow?.toList.foldl
      (Table.upsert LeafSchemaRow.key LeafSchemaRow.merge) db.leafSchema := by
  obtain ⟨call, slot, txId, hpath⟩ := d
  cases call with
  | createTree changeLog =>
    by_cases hseq : changeLog.seq = 0 <;>
      simp [deliver, IngestCall.ingest, ingestBubblegumCreateTree, merkle_updateChangeLogs,
        Delivery.nodeRows, Delivery.succeeds, Delivery.leafRow?, IngestCall.changeLog, hseq]
  | mint changeLog newLeafData leafSchema =>
    cases hnonce : toNumber leafSchema.schema.nonce.toNat with
    | none =>
      simp [deliver, IngestCall.ingest, ingestBubblegumMint, hnonce, Delivery.nodeRows,
        Delivery.succeeds, Delivery.leafRow?, Delivery.leafRowOf]
    | some nonce =>
      obtain ⟨leaf, path, hpath'⟩ := List.exists_cons_of_ne_nil hpath
      replace hpath' : changeLog.path = leaf :: path := hpath'
      by_cases hseq : changeLog.seq = 0 <;>
        simp [deliver, IngestCall.ingest, ingestBubblegumMint, hnonce, hpath', hseq,
          NFTDatabaseConnection.updateLeafSchema, NFTDatabaseConnection.updateNFTMetadata,
          merkle_updateChangeLogs, Delivery.nodeRows, Delivery.succeeds, Delivery.leafRow?,
          Delivery.leafRowOf, IngestCall.changeLog]
  | replaceLeaf changeLog leafSchema compressed =>
    obtain ⟨leaf, path, hpath'⟩ := List.exists_cons_of_ne_nil hpath
    replace hpath' : changeLog.path = leaf :: path := hpath'
    cases hnonce : toNumber leafSchema.schema.nonce.toNat with
    | none =>
      simp [deliver, IngestCall.ingest, ingestBubblegumReplaceLeaf, hnonce, hpath',
        NFTDatabaseConnection.updateLeafSchema, Delivery.nodeRows, Delivery.succeeds,
        Delivery.leafRow?, Delivery.leafRowOf]
    | some nonce =>
      by_cases hseq : changeLog.seq = 0 <;>
        simp [deliver, IngestCall.ingest, ingestBubblegumReplaceLeaf, hnonce, hpath', hseq,
          NFTDatabaseConnection.updateLeafSchema, merkle_updateChangeLogs, Delivery.nodeRows,
          Delivery.succeeds, Delivery.leafRow?, Delivery.leafRowOf, IngestCall.changeLog]

end Writes

/-- The tables after events have been ingested. -/
theorem ingestAll_eq (l : List (Delivery Node Pubkey)) :
    (ingestAll l).merkle = (l.flatMap Delivery.nodeRows).foldl
      (Table.upsert MerkleRow.key MerkleRow.merge) [] ∧
    (ingestAll l).leafSchema = (l.filterMap Delivery.leafRow?).foldl
      (Table.upsert LeafSchemaRow.key LeafSchemaRow.merge) [] := by
  induction l using List.reverseRecOn with
  | nil => exact ⟨rfl, rfl⟩
  | append_singleton l d ih =>
    have hfold : ingestAll (l ++ [d]) = deliver (ingestAll l) d := by simp [ingestAll]
    have hrow : [d].filterMap Delivery.leafRow? = d.leafRow?.toList := by
      cases h : d.leafRow? <;> simp [h]
    obtain ⟨hmerkle, hleaf⟩ := deliver_eq (ingestAll l) d
    rw [hfold, hmerkle, hleaf, ih.1, ih.2, List.flatMap_append, List.filterMap_append, hrow,
      List.foldl_append, List.foldl_append]
    simp

/-! ### Orders -/

section Orders

variable {l l' : List (Delivery Node Pubkey)}

/-- `merkle` has one row for a key. -/
theorem nodup_merkle (l : List (Delivery Node Pubkey)) :
    ((ingestAll l).merkle.map MerkleRow.key).Nodup := by
  rw [(ingestAll_eq l).1]
  exact Table.nodup_foldl_upsert MerkleRow.key_merge _

/-- `leaf_schema` has one row for a key. -/
theorem nodup_leafSchema (l : List (Delivery Node Pubkey)) :
    ((ingestAll l).leafSchema.map LeafSchemaRow.key).Nodup := by
  rw [(ingestAll_eq l).2]
  exact Table.nodup_foldl_upsert LeafSchemaRow.key_merge _

/-- What an event writes for a node is what is found. -/
theorem lookup_merkle_of_mem (hone : ∀ d ∈ l, ∀ d' ∈ l,
      d.call.changeLog.id = d'.call.changeLog.id → d.call.changeLog.seq = d'.call.changeLog.seq →
      d = d') {d : Delivery Node Pubkey} (hd : d ∈ l) {k : Pubkey × ℕ × ℕ}
    (hk : k ∈ d.nodeRows.map MerkleRow.key) :
    Table.lookup MerkleRow.key (ingestAll l).merkle k =
      (d.nodeRows.filter fun row => row.key = k).getLast? := by
  rw [(ingestAll_eq l).1]
  refine Table.lookup_foldl_upsert_flatMap MerkleRow.key_merge MerkleRow.merge_eq hd hk ?_
  intro d' hd' hk'
  obtain ⟨row, hrow, rfl⟩ := List.mem_map.1 hk
  obtain ⟨row', hrow', heq⟩ := List.mem_map.1 hk'
  simp only [MerkleRow.key, Prod.mk.injEq] at heq
  obtain ⟨htree, hseq⟩ := Delivery.of_mem_nodeRows hrow
  obtain ⟨htree', hseq'⟩ := Delivery.of_mem_nodeRows hrow'
  rw [hone d' hd' d hd (by rw [← htree', ← htree, heq.1]) (by rw [← hseq', ← hseq, heq.2.1])]

/-- What no event writes is not found. -/
theorem lookup_merkle_eq_none {k : Pubkey × ℕ × ℕ}
    (hk : ∀ d ∈ l, k ∉ d.nodeRows.map MerkleRow.key) :
    Table.lookup MerkleRow.key (ingestAll l).merkle k = none := by
  rw [(ingestAll_eq l).1, Table.lookup_foldl_upsert_last MerkleRow.key_merge MerkleRow.merge_eq,
    Table.lookup_nil, Option.or_none, List.getLast?_eq_none_iff, List.filter_eq_nil_iff]
  intro row hrow
  obtain ⟨d, hd, hrow⟩ := List.mem_flatMap.1 hrow
  simp only [decide_eq_true_eq]
  rintro rfl
  exact hk d hd (List.mem_map.2 ⟨row, hrow, rfl⟩)

/-- Every row of `merkle` is that of an event. -/
theorem exists_of_mem_merkle {row : MerkleRow Node Pubkey} (h : row ∈ (ingestAll l).merkle) :
    ∃ d ∈ l, row ∈ d.nodeRows := by
  rw [(ingestAll_eq l).1] at h
  exact List.mem_flatMap.1
    (Table.mem_of_mem_foldl_upsert (fun old row hkey => .inr (MerkleRow.merge_eq old row hkey)) h)

/-- Every node of an event has a row. -/
theorem exists_mem_merkle {d : Delivery Node Pubkey} (hd : d ∈ l) {row : MerkleRow Node Pubkey}
    (hrow : row ∈ d.nodeRows) : ∃ row' ∈ (ingestAll l).merkle, row'.key = row.key := by
  rw [(ingestAll_eq l).1, ← List.mem_map, Table.mem_map_key_foldl_upsert MerkleRow.key_merge]
  exact List.mem_map.2 ⟨row, List.mem_flatMap.2 ⟨d, hd, hrow⟩, rfl⟩

/-- Every row of `leaf_schema` is that of the event with the largest number for its leaf. -/
theorem exists_of_mem_leafSchema {row : LeafSchemaRow Node Pubkey}
    (h : row ∈ (ingestAll l).leafSchema) :
    ∃ d ∈ l, ∃ row₁, d.leafRow? = some row₁ ∧ row.columns = row₁.columns ∧
      ∀ d' ∈ l, ∀ row', d'.leafRow? = some row' → row'.key = row.key → row'.seq ≤ row.seq := by
  have hlookup := (Table.lookup_eq_some_iff (nodup_leafSchema l)).2 ⟨h, rfl⟩
  rw [(ingestAll_eq l).2] at hlookup
  rcases Table.lookup_foldl_upsert_newest LeafSchemaRow.key_merge LeafSchemaRow.seq_merge
    LeafSchemaRow.columns_merge (l.filterMap Delivery.leafRow?) row.key with
    ⟨hnone, -⟩ | ⟨row₁, hrow₁, -, hmax, r, hr, hview, hseq⟩
  · rw [hlookup] at hnone
    cases hnone
  · obtain rfl : row = r := Option.some.inj (hlookup.symm.trans hr)
    obtain ⟨d, hd, hrow₁⟩ := List.mem_filterMap.1 hrow₁
    refine ⟨d, hd, row₁, hrow₁, hview, ?_⟩
    intro d' hd' row' hrow' hkey
    rw [hseq]
    exact hmax row' (List.mem_filterMap.2 ⟨d', hd', hrow'⟩) hkey

/-- Every leaf of an event has a row. -/
theorem exists_mem_leafSchema {d : Delivery Node Pubkey} (hd : d ∈ l)
    {row : LeafSchemaRow Node Pubkey} (hrow : d.leafRow? = some row) :
    ∃ row' ∈ (ingestAll l).leafSchema, row'.key = row.key := by
  rw [(ingestAll_eq l).2, ← List.mem_map,
    Table.mem_map_key_foldl_upsert LeafSchemaRow.key_merge]
  exact List.mem_map.2 ⟨row, List.mem_filterMap.2 ⟨d, hd, hrow⟩, rfl⟩

/-- Once every event of a tree has a number of its own, neither the order of the events nor
repetitions matter for the rows of nodes and, but for `slot`, for the rows of leaves.  The row of
a leaf is that of the event with the largest number. -/
theorem ingestAll_perm (hmem : ∀ d, d ∈ l ↔ d ∈ l') (hone : ∀ d ∈ l, ∀ d' ∈ l,
      d.call.changeLog.id = d'.call.changeLog.id → d.call.changeLog.seq = d'.call.changeLog.seq →
      d = d') :
    (ingestAll l).merkle.Perm (ingestAll l').merkle ∧
    ((ingestAll l).leafSchema.map LeafSchemaRow.columns).Perm
      ((ingestAll l').leafSchema.map LeafSchemaRow.columns) ∧
    (∀ row ∈ (ingestAll l).leafSchema, ∃ d ∈ l, ∃ row₁, d.leafRow? = some row₁ ∧
      row.columns = row₁.columns ∧ ∀ d' ∈ l, ∀ row', d'.leafRow? = some row' →
        row'.key = row.key → row'.seq ≤ row.seq) ∧
    ∀ d ∈ l, ∀ row', d.leafRow? = some row' → ∃ row ∈ (ingestAll l).leafSchema,
      row.key = row'.key := by
  have hone' : ∀ d ∈ l', ∀ d' ∈ l', d.call.changeLog.id = d'.call.changeLog.id →
      d.call.changeLog.seq = d'.call.changeLog.seq → d = d' :=
    fun d hd d' hd' => hone d ((hmem d).2 hd) d' ((hmem d').2 hd')
  refine ⟨?_, ?_, fun row hrow => exists_of_mem_leafSchema hrow,
    fun d hd row' hrow' => exists_mem_leafSchema hd hrow'⟩
  · refine Table.perm_of_lookup (nodup_merkle l) (nodup_merkle l') fun k => ?_
    by_cases hk : ∃ d ∈ l, k ∈ d.nodeRows.map MerkleRow.key
    · obtain ⟨d, hd, hk⟩ := hk
      rw [lookup_merkle_of_mem hone hd hk, lookup_merkle_of_mem hone' ((hmem d).1 hd) hk]
    · have hk' : ∀ d ∈ l, k ∉ d.nodeRows.map MerkleRow.key := fun d hd h => hk ⟨d, hd, h⟩
      rw [lookup_merkle_eq_none hk', lookup_merkle_eq_none fun d hd => hk' d ((hmem d).2 hd)]
  · have hnodup : ∀ l : List (Delivery Node Pubkey),
        (((ingestAll l).leafSchema.map LeafSchemaRow.columns).map LeafSchemaRow.key).Nodup := by
      intro l
      simpa [Function.comp_def] using nodup_leafSchema l
    refine Table.perm_of_lookup (hnodup l) (hnodup l') fun k => ?_
    rw [Table.lookup_map LeafSchemaRow.key_columns, Table.lookup_map LeafSchemaRow.key_columns,
      (ingestAll_eq l).2, (ingestAll_eq l').2]
    refine Table.lookup_foldl_upsert_newest_congr LeafSchemaRow.key_merge LeafSchemaRow.seq_merge
      LeafSchemaRow.columns_merge ?_ ?_ k
    · intro row
      simp [List.mem_filterMap, hmem]
    · intro row hrow row' hrow' hkey hseq
      obtain ⟨d, hd, hrow⟩ := List.mem_filterMap.1 hrow
      obtain ⟨d', hd', hrow'⟩ := List.mem_filterMap.1 hrow'
      have heq : d = d' := by
        refine hone d hd d' hd' ?_ ?_
        · rw [← (Delivery.of_leafRow hrow).1, ← (Delivery.of_leafRow hrow').1]
          exact congrArg Prod.fst hkey
        · rw [← (Delivery.of_leafRow hrow).2, ← (Delivery.of_leafRow hrow').2, hseq]
      rw [heq, hrow'] at hrow
      exact (Option.some.inj hrow).symm

end Orders

/-! ### Two events -/

instance : SystemProgramId Bubblegum.Key := ⟨.user 8⟩

/-- The asset of the trace when `owner` owns it. -/
def assetOf (owner : Bubblegum.Key) :
    Bubblegum.LeafSchema ConcurrentMerkleTree.Term Bubblegum.Key :=
  .newV0 (Bubblegum.getAssetId Bubblegum.Trace.slab 0) owner owner 0 Bubblegum.Trace.dataHash
    Bubblegum.Trace.creatorHash

/-- The event of its leaf. -/
def leafOf (owner : Bubblegum.Key) : LeafSchemaEvent ConcurrentMerkleTree.Term Bubblegum.Key :=
  (assetOf owner).toEvent

/-- The mint. -/
def minted : Delivery ConcurrentMerkleTree.Term Bubblegum.Key where
  call := .mint ⟨Bubblegum.Trace.slab, [⟨(leafOf Bubblegum.Trace.alice).leafHash, 8⟩], 1, 0⟩
    ⟨.V1, Bubblegum.Trace.metadata, 0⟩ (leafOf Bubblegum.Trace.alice)
  slot := 1
  txId := "mint"
  path_ne := by simp [IngestCall.changeLog]

/-- A transfer after it. -/
def transferred : Delivery ConcurrentMerkleTree.Term Bubblegum.Key where
  call := .replaceLeaf ⟨Bubblegum.Trace.slab, [⟨(leafOf Bubblegum.Trace.bob).leafHash, 8⟩], 2, 0⟩
    (leafOf Bubblegum.Trace.bob) true
  slot := 2
  txId := "transfer"
  path_ne := by simp [IngestCall.changeLog]

/-- The transfer comes first, and once more after the mint. -/
theorem ingestAll_perm_transferred :
    ((ingestAll [minted, transferred]).leafSchema.map LeafSchemaRow.columns).Perm
      ((ingestAll [transferred, minted, transferred]).leafSchema.map LeafSchemaRow.columns) := by
  refine (ingestAll_perm ?_ ?_).2.1
  · intro d
    simp only [List.mem_cons, List.not_mem_nil, or_false]
    tauto
  · rintro d hd d' hd' - hseq
    have hne : minted.call.changeLog.seq ≠ transferred.call.changeLog.seq := by decide
    simp only [List.mem_cons, List.not_mem_nil, or_false] at hd hd'
    rcases hd with rfl | rfl <;> rcases hd' with rfl | rfl
    · rfl
    · exact absurd hseq hne
    · exact absurd hseq.symm hne
    · rfl

end Candyland.Sdk.Indexer
