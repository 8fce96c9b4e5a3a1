import Candyland.Bubblegum.State
import Candyland.Lib.Borsh

/-!
# Layouts of the events

How the programs write their events and how the indexer reads them, field by field in the order
of the declarations.  A node and a key are written as their 32 bytes; any layout of them will do
here.
-/

namespace Candyland.Sdk.Indexer

open Borsh (Layout)
open Bubblegum
open ConcurrentMerkleTree (NodeHash EMPTY)
open Gummyroll (ChangeLogEvent)

/-- The layout of a key. -/
class KeyLayout (Pubkey : Type) where
  pubkey : Layout Pubkey

/-- The layout of a node.  No node is shorter than the empty one: they have the same length. -/
class NodeLayout (Node : Type) [NodeHash Node] where
  node : Layout Node
  length_le {n : Node} {e e' : List UInt8} (h : node.encode EMPTY = some e)
    (h' : node.encode n = some e') : e.length ≤ e'.length

export KeyLayout (pubkey)
export NodeLayout (node)

variable {Node Pubkey : Type}

/-! ### Metadata -/

/-- `bool`. -/
def boolLayout : Layout Bool := .enum [false, true] (by decide)

def TokenProgramVersion.layout : Layout TokenProgramVersion :=
  .enum [.Original, .Token2022] (by decide)

def TokenStandard.layout : Layout TokenStandard :=
  .enum [.NonFungible, .FungibleAsset, .Fungible, .NonFungibleEdition] (by decide)

def UseMethod.layout : Layout UseMethod := .enum [.Burn, .Multiple, .Single] (by decide)

def Version.layout : Layout Version := .enum [.V1] (by decide)

def Uses.layout : Layout Uses :=
  (UseMethod.layout.pair (.pair .u64 .u64)).comap (Equiv.toPEquiv {
    toFun u := (u.useMethod, u.remaining, u.total)
    invFun p := ⟨p.1, p.2.1, p.2.2⟩ })

section Keys

variable [KeyLayout Pubkey]

def Creator.layout : Layout (Creator Pubkey) :=
  (pubkey.pair (.pair boolLayout .u8)).comap (Equiv.toPEquiv {
    toFun c := (c.address, c.verified, c.share)
    invFun p := ⟨p.1, p.2.1, p.2.2⟩ })

def Collection.layout : Layout (Collection Pubkey) :=
  (boolLayout.pair pubkey).comap (Equiv.toPEquiv {
    toFun c := (c.verified, c.key)
    invFun p := ⟨p.1, p.2⟩ })

def MetadataArgs.layout : Layout (MetadataArgs Pubkey) :=
  (Layout.pair .string <| .pair .string <| .pair .string <| .pair .u16 <| .pair boolLayout <|
    .pair boolLayout <| .pair (.option .u8) <| .pair (.option TokenStandard.layout) <|
    .pair (.option Collection.layout) <| .pair (.option Uses.layout) <|
    .pair TokenProgramVersion.layout (.vec Creator.layout)).comap (Equiv.toPEquiv {
      toFun m := (m.name, m.symbol, m.uri, m.sellerFeeBasisPoints, m.primarySaleHappened,
        m.isMutable, m.editionNonce, m.tokenStandard, m.collection, m.uses,
        m.tokenProgramVersion, m.creators)
      invFun := fun (name, symbol, uri, sellerFeeBasisPoints, primarySaleHappened, isMutable,
          editionNonce, tokenStandard, collection, uses, tokenProgramVersion, creators) =>
        ⟨name, symbol, uri, sellerFeeBasisPoints, primarySaleHappened, isMutable, editionNonce,
          tokenStandard, collection, uses, tokenProgramVersion, creators⟩ })

/-! ### Events -/

def NewNFTEvent.layout : Layout (NewNFTEvent Pubkey) :=
  (Version.layout.pair (.pair MetadataArgs.layout .u64)).comap (Equiv.toPEquiv {
    toFun e := (e.version, e.metadata, e.nonce)
    invFun p := ⟨p.1, p.2.1, p.2.2⟩ })

def NFTDecompressionEvent.layout : Layout (NFTDecompressionEvent Pubkey) :=
  (Version.layout.pair (.pair pubkey (.pair pubkey .u64))).comap (Equiv.toPEquiv {
    toFun e := (e.version, e.id, e.treeId, e.nonce)
    invFun p := ⟨p.1, p.2.1, p.2.2.1, p.2.2.2⟩ })

variable [NodeHash Node] [NodeLayout Node]

/-- A leaf is written as the number of its only variant and the fields. -/
def LeafSchema.layout : Layout (LeafSchema Node Pubkey) :=
  (Version.layout.pair <| .pair pubkey <| .pair pubkey <| .pair pubkey <| .pair .u64 <|
    .pair node node).comap (Equiv.toPEquiv {
      toFun s := (s.version, s.id, s.owner, s.delegate, s.nonce, s.dataHash, s.creatorHash)
      invFun := fun (_, id, owner, delegate, nonce, dataHash, creatorHash) =>
        ⟨id, owner, delegate, nonce, dataHash, creatorHash⟩ })

def LeafSchemaEvent.layout : Layout (LeafSchemaEvent Node Pubkey) :=
  (Version.layout.pair (.pair LeafSchema.layout node)).comap (Equiv.toPEquiv {
    toFun e := (e.version, e.schema, e.leafHash)
    invFun p := ⟨p.1, p.2.1, p.2.2⟩ })

omit [KeyLayout Pubkey] in
def PathNode.layout : Layout (Gummyroll.PathNode Node) :=
  (Layout.pair node .u32).comap (Equiv.toPEquiv {
    toFun n := (n.node, n.index)
    invFun p := ⟨p.1, p.2⟩ })

def ChangeLogEvent.layout : Layout (ChangeLogEvent Node Pubkey) :=
  (pubkey.pair <| .pair (.vec PathNode.layout) <| .pair (.uint 8) .u32).comap (Equiv.toPEquiv {
    toFun e := (e.id, e.path, e.seq, e.index)
    invFun p := ⟨p.1, p.2.1, p.2.2.1, p.2.2.2⟩ })

end Keys

end Candyland.Sdk.Indexer
