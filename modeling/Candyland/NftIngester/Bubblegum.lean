import Candyland.Bubblegum.Program
import Candyland.DigitalAssetTypes.Dao

/-!
# Handling the instructions of bubblegum

How the ingester keeps the rows of `asset`.  A handler runs in one transaction of the database,
so that an error leaves the tables as they were.  The events are those in the lines that the
instruction logged.
-/

namespace Candyland.NftIngester

open ConcurrentMerkleTree (NodeHash EMPTY)
open Gummyroll (ChangeLogEvent)
open Bubblegum
open DigitalAssetTypes (Asset)

/-- `IngesterError`, the variants of the handlers, without the texts of the database. -/
inductive IngesterError where
  | ChangeLogEventMalformed
  | CompressedAssetEventMalformed
  | StorageWriteError
deriving DecidableEq

/-- The tables of change logs, and the rows of `asset` by their `id`. -/
structure Storage (Node Pubkey : Type) where
  changes : Database Node Pubkey
  assets : Pubkey → Option (Asset Node Pubkey)

/-- `asset::ActiveModel` in an update: the columns that are `Set`. -/
structure ActiveModel (Node Pubkey : Type) where
  owner : Option Pubkey := none
  delegate : Option (Option Pubkey) := none
  supply : Option ℤ := none
  supplyMint : Option (Option Pubkey) := none
  compressed : Option Bool := none
  compressible : Option Bool := none
  leaf : Option (Option Node) := none
  burnt : Option Bool := none

variable {Node Pubkey : Type}

/-- Overwrites the columns that are set. -/
def ActiveModel.apply (self : ActiveModel Node Pubkey) (row : Asset Node Pubkey) :
    Asset Node Pubkey :=
  { row with
    owner := self.owner.getD row.owner
    delegate := self.delegate.getD row.delegate
    supply := self.supply.getD row.supply
    supplyMint := self.supplyMint.getD row.supplyMint
    compressed := self.compressed.getD row.compressed
    compressible := self.compressible.getD row.compressible
    leaf := self.leaf.getD row.leaf
    burnt := self.burnt.getD row.burnt }

/-- The row of `asset_data` for the metadata is accepted: `metadata_url` is a `varchar(200)`,
beyond which only blanks are cut off, and neither a text nor a `jsonb` takes the character zero. -/
def fitsAssetData (metadata : MetadataArgs Pubkey) : Bool :=
  (metadata.uri.toList.drop 200).all (· == ' ') &&
    [metadata.uri, metadata.name, metadata.symbol].all fun text => !text.toList.contains (Char.ofNat 0)

/-! ### Events -/

/-- `get_gummy_roll_events(logs)`. -/
def getGummyRollEvents (events : List (Event Node Pubkey)) :
    Outcome IngesterError (List (ChangeLogEvent Node Pubkey)) :=
  if events.isEmpty then .err .ChangeLogEventMalformed
  else .ok (events.filterMap fun | .changeLog event => some event | _ => none)

/-- `get_bubblegum_event::<T>(logs)`: the last event that is a `T`. -/
def getBubblegumEvent {T : Type} (parse : Event Node Pubkey → Option T)
    (events : List (Event Node Pubkey)) : Outcome IngesterError T :=
  match (events.filterMap parse).getLast? with
  | some event => .ok event
  | none => .err .CompressedAssetEventMalformed

/-- `get_leaf_event(logs)`. -/
def getLeafEvent (events : List (Event Node Pubkey)) :
    Outcome IngesterError (LeafSchemaEvent Node Pubkey) :=
  getBubblegumEvent (fun | .leafSchema event => some event | _ => none) events

/-- `get_decompress_event(logs)`. -/
def getDecompressEvent (events : List (Event Node Pubkey)) :
    Outcome IngesterError (NFTDecompressionEvent Pubkey) :=
  getBubblegumEvent (fun | .decompression event => some event | _ => none) events

/-! ### The columns of each instruction -/

section Models

variable [LeafHash Node Pubkey]

/-- `Transfer`. -/
def transferModel (leafEvent : LeafSchemaEvent Node Pubkey) : ActiveModel Node Pubkey where
  leaf := some (some leafEvent.schema.toNode)
  delegate := some none
  owner := some leafEvent.schema.owner

/-- `Burn`. -/
def burnModel (_ : LeafSchemaEvent Node Pubkey) : ActiveModel Node Pubkey where
  burnt := some true

/-- `Delegate`. -/
def delegateModel (leafEvent : LeafSchemaEvent Node Pubkey) : ActiveModel Node Pubkey where
  leaf := some (some leafEvent.schema.toNode)
  delegate := some (some leafEvent.schema.delegate)

/-- `Redeem`. -/
def redeemModel [NodeHash Node] (_ : LeafSchemaEvent Node Pubkey) : ActiveModel Node Pubkey where
  leaf := some (some EMPTY)

/-- `CancelRedeem`. -/
def cancelRedeemModel (leafEvent : LeafSchemaEvent Node Pubkey) : ActiveModel Node Pubkey where
  leaf := some (some leafEvent.schema.toNode)

/-- `DecompressV1`. -/
def decompressModel (event : NFTDecompressionEvent Pubkey) : ActiveModel Node Pubkey where
  leaf := some none
  compressed := some false
  compressible := some false
  supply := some 1
  supplyMint := some (some event.id)

/-- `MintV1`, the whole row. -/
def mintRow [DecidableEq Pubkey] (leafEvent : LeafSchemaEvent Node Pubkey)
    (merkleSlab owner delegate : Pubkey) : Asset Node Pubkey where
  owner := owner
  delegate := if owner = delegate then none else some delegate
  frozen := false
  supply := 1
  supplyMint := none
  compressed := true
  compressible := false
  treeId := some merkleSlab
  leaf := some leafEvent.schema.toNode
  nonce := asI64 leafEvent.schema.nonce.toNat
  burnt := false

end Models

/-! ### The handlers -/

variable [DecidableEq Pubkey]

/-- `save_changelog_events(gummy_roll_events, slot, txn)`. -/
def Storage.saveChangelogEvents (txn : Storage Node Pubkey) (slot : ℕ)
    (gummyRollEvents : List (ChangeLogEvent Node Pubkey)) : Storage Node Pubkey :=
  { txn with
    changes := NftIngester.saveChangelogEvents txn.changes
      (gummyRollEvents.map fun event => (event, slot)) }

/-- `update_asset(txn, id, model)`. -/
def updateAsset (txn : Storage Node Pubkey) (id : Pubkey) (model : ActiveModel Node Pubkey) :
    Outcome IngesterError (Storage Node Pubkey) :=
  match txn.assets id with
  | some row => .ok { txn with assets := Function.update txn.assets id (some (model.apply row)) }
  | none => .err .StorageWriteError

/-- `asset::ActiveModel { .. }.insert(txn)`. -/
def insertAsset (txn : Storage Node Pubkey) (id : Pubkey) (row : Asset Node Pubkey) :
    Outcome IngesterError (Storage Node Pubkey) :=
  match txn.assets id with
  | some _ => .err .StorageWriteError
  | none => .ok { txn with assets := Function.update txn.assets id (some row) }

/-- The arm of an instruction that logs the schema of a leaf and updates some columns. -/
def handleLeafEvent (slot : ℕ) (events : List (Event Node Pubkey)) (db : Storage Node Pubkey)
    (model : LeafSchemaEvent Node Pubkey → ActiveModel Node Pubkey) :
    Outcome IngesterError (Storage Node Pubkey) := do
  let gummyRollEvents ← getGummyRollEvents events
  let leafEvent ← getLeafEvent events
  updateAsset (db.saveChangelogEvents slot gummyRollEvents) leafEvent.schema.id (model leafEvent)

variable [NodeHash Node] [LeafHash Node Pubkey]

/-- `handle_bubblegum_instruction(instruction, slot, logs, keys, db, ..)`.  Of the tables beside
`asset` that `MintV1` writes, only `asset_data` can refuse a row. -/
def handleBubblegumInstruction (instruction : Instruction Node Pubkey) (slot : ℕ)
    (events : List (Event Node Pubkey)) (db : Storage Node Pubkey) :
    Outcome IngesterError (Storage Node Pubkey) :=
  match instruction with
  | .transfer .. => handleLeafEvent slot events db transferModel
  | .burn .. => handleLeafEvent slot events db burnModel
  | .delegate .. => handleLeafEvent slot events db delegateModel
  | .mintV1 merkleSlab _ owner delegate message => do
    let gummyRollEvents ← getGummyRollEvents events
    let leafEvent ← getLeafEvent events
    let txn := db.saveChangelogEvents slot gummyRollEvents
    if fitsAssetData message then
      insertAsset txn leafEvent.schema.id (mintRow leafEvent merkleSlab owner delegate)
    else .err .StorageWriteError
  | .redeem .. => handleLeafEvent slot events db redeemModel
  | .cancelRedeem .. => handleLeafEvent slot events db cancelRedeemModel
  | .decompressV1 .. => do
    let decompressEvent ← getDecompressEvent events
    updateAsset db decompressEvent.id (decompressModel decompressEvent)
  | .createTree .. => .ok db
  | .compress .. => .ok db

/-- A transaction with one instruction reaches the ingester, with its slot. -/
def handle (db : Storage Node Pubkey) (delivery : Executed Node Pubkey × ℕ) :
    Storage Node Pubkey :=
  match handleBubblegumInstruction delivery.1.instruction delivery.2 delivery.1.events db with
  | .ok db => db
  | _ => db

/-- Transactions reach the ingester one after the other. -/
def ingest (db : Storage Node Pubkey) (deliveries : List (Executed Node Pubkey × ℕ)) :
    Storage Node Pubkey := deliveries.foldl handle db

end Candyland.NftIngester
