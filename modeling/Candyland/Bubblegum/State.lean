import Candyland.Gummyroll.Run
import Candyland.Lib.Steps

/-!
# Assets

The accounts of the bubblegum program and what a leaf commits to.  Keys are an arbitrary
type, with the derived addresses as functions; a hash of a leaf is a function of the parts
that are hashed.
-/

namespace Candyland.Bubblegum

open ConcurrentMerkleTree (NodeHash EMPTY BufferSize position)
open Gummyroll (Build GummyrollError ChangeLogEvent AccountState)

/-! ### Metadata -/

/-- `TokenProgramVersion`. -/
inductive TokenProgramVersion where
  | Original
  | Token2022
deriving DecidableEq

/-- `Creator`. -/
structure Creator (Pubkey : Type) where
  address : Pubkey
  verified : Bool
  share : UInt8
deriving DecidableEq

/-- `TokenStandard`. -/
inductive TokenStandard where
  | NonFungible
  | FungibleAsset
  | Fungible
  | NonFungibleEdition
deriving DecidableEq

/-- `UseMethod`. -/
inductive UseMethod where
  | Burn
  | Multiple
  | Single
deriving DecidableEq

/-- `Uses`. -/
structure Uses where
  useMethod : UseMethod
  remaining : UInt64
  total : UInt64
deriving DecidableEq

/-- `Collection`. -/
structure Collection (Pubkey : Type) where
  verified : Bool
  key : Pubkey
deriving DecidableEq

/-- `MetadataArgs`. -/
structure MetadataArgs (Pubkey : Type) where
  name : String
  symbol : String
  uri : String
  sellerFeeBasisPoints : UInt16
  primarySaleHappened : Bool
  isMutable : Bool
  editionNonce : Option UInt8
  tokenStandard : Option TokenStandard
  collection : Option (Collection Pubkey)
  uses : Option Uses
  tokenProgramVersion : TokenProgramVersion
  creators : List (Creator Pubkey)
deriving DecidableEq

/-! ### Hashes and addresses -/

/-- `Version`. -/
inductive Version where
  | V1
deriving DecidableEq

/-- `Version::to_bytes`. -/
def Version.toBytes : Version → UInt8
  | V1 => 1

/-- `LeafSchema`, of which there is one variant. -/
structure LeafSchema (Node Pubkey : Type) where
  id : Pubkey
  owner : Pubkey
  delegate : Pubkey
  nonce : UInt64
  dataHash : Node
  creatorHash : Node
deriving DecidableEq

/-- `LeafSchema::version`. -/
def LeafSchema.version {Node Pubkey : Type} (_ : LeafSchema Node Pubkey) : Version := .V1

/-- The uses of keccak: on the version and the fields of a leaf, on metadata, and on the
addresses and shares of creators. -/
class LeafHash (Node Pubkey : Type) where
  hashLeaf : UInt8 → LeafSchema Node Pubkey → Node
  hashMetadata : MetadataArgs Pubkey → Node
  hashCreators : List (Pubkey × UInt8) → Node

/-- The hash of a leaf has no collisions and is never all zeros. -/
class CollisionFreeLeaf (Node Pubkey : Type) [NodeHash Node] [LeafHash Node Pubkey] : Prop where
  hashLeaf_inj {v v' : UInt8} {s s' : LeafSchema Node Pubkey}
    (h : LeafHash.hashLeaf v s = LeafHash.hashLeaf v' s') : v = v' ∧ s = s'
  hashLeaf_ne_empty (v : UInt8) (s : LeafSchema Node Pubkey) : LeafHash.hashLeaf v s ≠ EMPTY

/-- The addresses of `find_program_address`: for the seeds of an authority, of a voucher and of
an asset. -/
class ProgramAddress (Pubkey : Type) where
  authority : Pubkey → Pubkey
  voucher : Pubkey → UInt64 → Pubkey
  asset : Pubkey → UInt64 → Pubkey

/-- Different seeds have different addresses. -/
class InjectiveAddress (Pubkey : Type) [ProgramAddress Pubkey] : Prop where
  authority_inj {a b : Pubkey} (h : ProgramAddress.authority a = ProgramAddress.authority b) : a = b
  voucher_inj {a b : Pubkey} {n m : UInt64}
    (h : ProgramAddress.voucher a n = ProgramAddress.voucher b m) : a = b ∧ n = m
  asset_inj {a b : Pubkey} {n m : UInt64}
    (h : ProgramAddress.asset a n = ProgramAddress.asset b m) : a = b ∧ n = m

/-- `get_asset_id(tree_id, nonce)`. -/
def getAssetId {Pubkey : Type} [ProgramAddress Pubkey] (treeId : Pubkey) (nonce : UInt64) :
    Pubkey := ProgramAddress.asset treeId nonce

variable {Node Pubkey : Type}

namespace LeafSchema

/-- `LeafSchema::new_v0(..)`. -/
def newV0 (id owner delegate : Pubkey) (nonce : UInt64) (dataHash creatorHash : Node) :
    LeafSchema Node Pubkey := ⟨id, owner, delegate, nonce, dataHash, creatorHash⟩

variable [LeafHash Node Pubkey]

/-- `LeafSchema::to_node`. -/
def toNode (self : LeafSchema Node Pubkey) : Node := LeafHash.hashLeaf self.version.toBytes self

variable [NodeHash Node] [CollisionFreeLeaf Node Pubkey]

theorem toNode_inj {s s' : LeafSchema Node Pubkey} (h : s.toNode = s'.toNode) : s = s' :=
  (CollisionFreeLeaf.hashLeaf_inj h).2

theorem toNode_ne_empty (s : LeafSchema Node Pubkey) : s.toNode ≠ EMPTY :=
  CollisionFreeLeaf.hashLeaf_ne_empty _ s

end LeafSchema

/-! ### Events -/

/-- `LeafSchemaEvent`. -/
structure LeafSchemaEvent (Node Pubkey : Type) where
  version : Version
  schema : LeafSchema Node Pubkey
  leafHash : Node
deriving DecidableEq

/-- `NewNFTEvent`. -/
structure NewNFTEvent (Pubkey : Type) where
  version : Version
  metadata : MetadataArgs Pubkey
  nonce : UInt64
deriving DecidableEq

/-- `NFTDecompressionEvent`. -/
structure NFTDecompressionEvent (Pubkey : Type) where
  version : Version
  id : Pubkey
  treeId : Pubkey
  nonce : UInt64
deriving DecidableEq

/-- An event among the log lines of an instruction. -/
inductive Event (Node Pubkey : Type) where
  | newNFT (event : NewNFTEvent Pubkey)
  | leafSchema (event : LeafSchemaEvent Node Pubkey)
  | decompression (event : NFTDecompressionEvent Pubkey)
  | changeLog (event : ChangeLogEvent Node Pubkey)
deriving DecidableEq

/-- `LeafSchema::to_event`. -/
def LeafSchema.toEvent [LeafHash Node Pubkey] (self : LeafSchema Node Pubkey) :
    LeafSchemaEvent Node Pubkey := ⟨self.version, self, self.toNode⟩

/-! ### Accounts -/

/-- `Voucher`. -/
structure Voucher (Node Pubkey : Type) where
  leafSchema : LeafSchema Node Pubkey
  index : UInt32
  merkleSlab : Pubkey
deriving DecidableEq

/-- An account of gummyroll, of any constants, with its writes and its events. -/
structure Tree (Node Pubkey : Type) where
  depth : ℕ
  bufferSize : ℕ
  size : BufferSize bufferSize
  slab : AccountState Node Pubkey depth bufferSize

instance (self : Tree Node Pubkey) : BufferSize self.bufferSize := self.size

/-- The leaf at a position. -/
def Tree.leaf [NodeHash Node] (self : Tree Node Pubkey) (i : ℕ) : Node :=
  ConcurrentMerkleTree.treeAfter self.slab.writes i

/-- The accounts by their addresses: the `Nonce`s, the trees, the open vouchers, and the mints
with the number of tokens that were minted. -/
structure State (Node Pubkey : Type) where
  nonces : Pubkey → Option UInt64
  trees : Pubkey → Option (Tree Node Pubkey)
  vouchers : Pubkey → Option (Voucher Node Pubkey)
  mints : Pubkey → Option ℕ

/-- No accounts. -/
def State.empty : State Node Pubkey :=
  ⟨fun _ => none, fun _ => none, fun _ => none, fun _ => none⟩

end Candyland.Bubblegum
