import Candyland.Bubblegum.State
import Candyland.Lib.Table
import Candyland.Sdk.Accounts

/-!
# The database of the indexer

The tables of the TypeScript indexer and how its three functions for events write to them.  A
hash or a key stands for its base58 text.
-/

namespace Candyland.Sdk.Indexer

open Gummyroll (ChangeLogEvent PathNode)
open Bubblegum (Creator LeafSchema LeafSchemaEvent MetadataArgs NewNFTEvent)

/-! ### Tables -/

/-- A row of `merkle`. -/
structure MerkleRow (Node Pubkey : Type) where
  transactionId : String
  slot : ℕ
  treeId : Pubkey
  nodeIdx : ℕ
  seq : ℕ
  level : ℕ
  hash : Node
deriving DecidableEq

/-- A row of `leaf_schema`. -/
structure LeafSchemaRow (Node Pubkey : Type) where
  assetId : Pubkey
  nonce : ℕ
  treeId : Pubkey
  seq : ℕ
  transactionId : String
  slot : ℕ
  owner : Pubkey
  delegate : Pubkey
  dataHash : Node
  creatorHash : Node
  leafHash : Node
  compressed : Bool
deriving DecidableEq

/-- A row of `nft`. -/
structure NftRow (Pubkey : Type) where
  assetId : Pubkey
  uri : String
  name : String
  symbol : String
  primarySaleHappened : Bool
  sellerFeeBasisPoints : UInt16
  isMutable : Bool
  creators : List (Creator Pubkey)
deriving DecidableEq

/-- The tables that events are written to. -/
structure NFTDatabaseConnection (Node Pubkey : Type) where
  merkle : List (MerkleRow Node Pubkey)
  leafSchema : List (LeafSchemaRow Node Pubkey)
  nft : List (NftRow Pubkey)
deriving DecidableEq

/-- Tables without rows. -/
def NFTDatabaseConnection.empty {Node Pubkey : Type} : NFTDatabaseConnection Node Pubkey :=
  ⟨[], [], []⟩

/-- `SystemProgram.programId`. -/
class SystemProgramId (Pubkey : Type) where
  programId : Pubkey

variable {Node Pubkey : Type} [DecidableEq Pubkey]

/-- The primary key of `merkle`. -/
def MerkleRow.key (self : MerkleRow Node Pubkey) : Pubkey × ℕ × ℕ :=
  (self.treeId, self.seq, self.nodeIdx)

/-- `ON CONFLICT` in `merkle`. -/
def MerkleRow.merge (old excluded : MerkleRow Node Pubkey) : MerkleRow Node Pubkey :=
  { old with
    transactionId := excluded.transactionId
    slot := excluded.slot
    treeId := excluded.treeId
    level := excluded.level
    hash := excluded.hash }

/-- The primary key of `leaf_schema`. -/
def LeafSchemaRow.key (self : LeafSchemaRow Node Pubkey) : Pubkey × ℕ := (self.treeId, self.nonce)

/-- `ON CONFLICT` in `leaf_schema`, with its condition.  The column `slot` is not updated. -/
def LeafSchemaRow.merge (old excluded : LeafSchemaRow Node Pubkey) : LeafSchemaRow Node Pubkey :=
  if old.seq ≤ excluded.seq then
    { old with
      assetId := excluded.assetId
      seq := excluded.seq
      transactionId := excluded.transactionId
      owner := excluded.owner
      delegate := excluded.delegate
      dataHash := excluded.dataHash
      creatorHash := excluded.creatorHash
      leafHash := excluded.leafHash
      compressed := excluded.compressed }
  else old

/-- `ON CONFLICT` in `nft`, where all other columns are updated. -/
def NftRow.merge (_ excluded : NftRow Pubkey) : NftRow Pubkey := excluded

namespace NFTDatabaseConnection

variable (self : NFTDatabaseConnection Node Pubkey)

/-! ### Writes -/

omit [DecidableEq Pubkey] in
/-- The rows that `updateChangeLogs` inserts one after the other. -/
def merkleRows (changeLog : ChangeLogEvent Node Pubkey) (txId : String) (slot : ℕ)
    (treeId : Pubkey) : List (MerkleRow Node Pubkey) :=
  changeLog.path.zipIdx.map fun (pathNode, i) =>
    ⟨txId, slot, treeId, pathNode.index.toNat, changeLog.seq, i, pathNode.node⟩

/-- `updateChangeLogs(changeLog, txId, slot, treeId)`. -/
def updateChangeLogs (changeLog : ChangeLogEvent Node Pubkey) (txId : String) (slot : ℕ)
    (treeId : Pubkey) : NFTDatabaseConnection Node Pubkey :=
  if changeLog.seq = 0 then self
  else { self with
    merkle := (merkleRows changeLog txId slot treeId).foldl (Table.upsert MerkleRow.key
      MerkleRow.merge) self.merkle }

/-- `updateLeafSchema(leafSchemaRecord, leafHash, txId, slot, sequenceNumber, treeId, compressed)`,
which throws on a nonce that is no safe number. -/
def updateLeafSchema (leafSchemaRecord : LeafSchemaEvent Node Pubkey) (leafHash : Node)
    (txId : String) (slot sequenceNumber : ℕ) (treeId : Pubkey) (compressed : Bool) :
    Option (NFTDatabaseConnection Node Pubkey) := do
  let leafSchema := leafSchemaRecord.schema
  let nonce ← toNumber leafSchema.nonce.toNat
  some { self with
    leafSchema := Table.upsert LeafSchemaRow.key LeafSchemaRow.merge self.leafSchema
      ⟨leafSchema.id, nonce, treeId, sequenceNumber, txId, slot, leafSchema.owner,
        leafSchema.delegate, leafSchema.dataHash, leafSchema.creatorHash, leafHash, compressed⟩ }

/-- `updateNFTMetadata(newLeafEvent, assetId)`: the first five creators are stored, and missing
ones as the system program. -/
def updateNFTMetadata [SystemProgramId Pubkey] (newLeafEvent : NewNFTEvent Pubkey)
    (assetId : Pubkey) : NFTDatabaseConnection Node Pubkey :=
  let metadata := newLeafEvent.metadata
  let creators := (List.range 5).map fun i =>
    metadata.creators[i]?.getD ⟨SystemProgramId.programId, false, 0⟩
  { self with
    nft := Table.upsert NftRow.assetId NftRow.merge self.nft
      ⟨assetId, metadata.uri, metadata.name, metadata.symbol, metadata.primarySaleHappened,
        metadata.sellerFeeBasisPoints, metadata.isMutable, creators⟩ }

end NFTDatabaseConnection

/-! ### Ingestion -/

/-- `OptionalInfo`. -/
structure OptionalInfo where
  txId : String
  startSeq : Option ℕ
  endSeq : Option ℕ
deriving DecidableEq

/-- `skipTx(sequenceNumber, startSeq, endSeq)`. -/
def skipTx (sequenceNumber : ℕ) (startSeq endSeq : Option ℕ) : Bool :=
  let left := match startSeq with
    | some startSeq => decide (sequenceNumber ≤ startSeq)
    | none => false
  let right := match endSeq with
    | some endSeq => decide (sequenceNumber ≥ endSeq)
    | none => false
  left || right

theorem skipTx_eq_false_iff {seq start stop : ℕ} :
    skipTx seq (some start) (some stop) = false ↔ start < seq ∧ seq < stop := by
  simp [skipTx]

@[simp] theorem skipTx_none (seq : ℕ) : skipTx seq none none = false := rfl

section Ingest

variable [SystemProgramId Pubkey] (db : NFTDatabaseConnection Node Pubkey) (slot : ℕ)
  (optionalInfo : OptionalInfo)

/-- `ingestBubblegumMint(db, slot, optionalInfo, changeLog, newLeafData, leafSchema)`.  The events
of gummyroll have a path. -/
def ingestBubblegumMint (changeLog : ChangeLogEvent Node Pubkey)
    (newLeafData : NewNFTEvent Pubkey) (leafSchema : LeafSchemaEvent Node Pubkey) :
    Option (NFTDatabaseConnection Node Pubkey) := do
  let treeId := changeLog.id
  let sequenceNumber := changeLog.seq
  if skipTx sequenceNumber optionalInfo.startSeq optionalInfo.endSeq then
    some db
  else
    -- the message of the log is made from these two
    let _ ← toNumber leafSchema.schema.nonce.toNat
    let leaf ← changeLog.path.head?
    let db := db.updateNFTMetadata newLeafData leafSchema.schema.id
    let db ← db.updateLeafSchema leafSchema leaf.node optionalInfo.txId slot sequenceNumber treeId
      true
    some (db.updateChangeLogs changeLog optionalInfo.txId slot treeId)

/-- `ingestBubblegumReplaceLeaf(db, slot, optionalInfo, changeLog, leafSchema, compressed)`. -/
def ingestBubblegumReplaceLeaf (changeLog : ChangeLogEvent Node Pubkey)
    (leafSchema : LeafSchemaEvent Node Pubkey) (compressed : Bool) :
    Option (NFTDatabaseConnection Node Pubkey) := do
  let treeId := changeLog.id
  let sequenceNumber := changeLog.seq
  if skipTx sequenceNumber optionalInfo.startSeq optionalInfo.endSeq then
    some db
  else
    let leaf ← changeLog.path.head?
    let db ← db.updateLeafSchema leafSchema leaf.node optionalInfo.txId slot sequenceNumber treeId
      compressed
    some (db.updateChangeLogs changeLog optionalInfo.txId slot treeId)

omit [SystemProgramId Pubkey] in
/-- `ingestBubblegumCreateTree(db, slot, optionalInfo, changeLog)`. -/
def ingestBubblegumCreateTree (changeLog : ChangeLogEvent Node Pubkey) :
    Option (NFTDatabaseConnection Node Pubkey) :=
  let sequenceNumber := changeLog.seq
  if skipTx sequenceNumber optionalInfo.startSeq optionalInfo.endSeq then
    some db
  else
    some (db.updateChangeLogs changeLog optionalInfo.txId slot changeLog.id)

end Ingest

/-- A call of one of the three functions, with the data of its event. -/
inductive IngestCall (Node Pubkey : Type) where
  | createTree (changeLog : ChangeLogEvent Node Pubkey)
  | mint (changeLog : ChangeLogEvent Node Pubkey) (newLeafData : NewNFTEvent Pubkey)
      (leafSchema : LeafSchemaEvent Node Pubkey)
  | replaceLeaf (changeLog : ChangeLogEvent Node Pubkey) (leafSchema : LeafSchemaEvent Node Pubkey)
      (compressed : Bool)
deriving DecidableEq

namespace IngestCall

omit [DecidableEq Pubkey] in
/-- The event of gummyroll. -/
def changeLog : IngestCall Node Pubkey → ChangeLogEvent Node Pubkey
  | createTree changeLog => changeLog
  | mint changeLog .. => changeLog
  | replaceLeaf changeLog .. => changeLog

omit [DecidableEq Pubkey] in
/-- The event of the leaf that the call is about. -/
def leafSchema? : IngestCall Node Pubkey → Option (LeafSchemaEvent Node Pubkey)
  | createTree _ => none
  | mint _ _ leafSchema => some leafSchema
  | replaceLeaf _ leafSchema _ => some leafSchema

/-- Makes the call; the tables stay as they were before the statement that throws. -/
def ingest [SystemProgramId Pubkey] (call : IngestCall Node Pubkey)
    (db : NFTDatabaseConnection Node Pubkey) (slot : ℕ) (optionalInfo : OptionalInfo) :
    Option (NFTDatabaseConnection Node Pubkey) :=
  match call with
  | createTree changeLog => ingestBubblegumCreateTree db slot optionalInfo changeLog
  | mint changeLog newLeafData leafSchema =>
    ingestBubblegumMint db slot optionalInfo changeLog newLeafData leafSchema
  | replaceLeaf changeLog leafSchema compressed =>
    ingestBubblegumReplaceLeaf db slot optionalInfo changeLog leafSchema compressed

end IngestCall

end Candyland.Sdk.Indexer
