import Candyland.Bubblegum.State
import Candyland.GumballMachine.Program
import Candyland.Lib.Base58

/-!
# Creators and metadata

The creators that a machine is initialised with, and the metadata that a dispensed item is
minted with.
-/

namespace Candyland.GumballMachine

open Gummyroll (Build)
open Bubblegum (Creator MetadataArgs Uses Collection)

/-- `Pubkey::default()`, which is the id of the system program as well. -/
class ZeroKey (Pubkey : Type) where
  zero : Pubkey

variable {Pubkey ε : Type}

/-! ### Creators -/

/-- `NUM_CREATORS`. -/
def numCreators : ℕ := 5

/-- `creator_shares.iter().sum::<u8>()`. -/
def sumShares [Build] : List UInt8 → UInt8 → Outcome ε UInt8
  | [], sum => .ok sum
  | share :: shares, sum =>
    if Build.overflowChecks && decide (2 ^ 8 ≤ sum.toNat + share.toNat) then .panic
    else sumShares shares (sum + share)

namespace GumballCreatorAdapter

variable [ZeroKey Pubkey]

/-- `GumballCreatorAdapter::default()`. -/
def default : GumballCreatorAdapter Pubkey := ⟨ZeroKey.zero, 0, 0⟩

/-- `GumballCreatorAdapter::adapt`. -/
def adapt (self : GumballCreatorAdapter Pubkey) : Creator Pubkey :=
  ⟨self.address, self.verified == 1, self.share⟩

/-- `GumballCreatorAdapter::is_valid`. -/
def isValid [DecidableEq Pubkey] (self : GumballCreatorAdapter Pubkey) : Bool :=
  decide (self.address ≠ ZeroKey.zero) && decide (self.share > 0)

end GumballCreatorAdapter

section Creators

variable [ZeroKey Pubkey] [Build]

omit [Build] in
/-- The array of creators, with default ones behind those of the arguments. -/
def creatorArray (creatorKeys : List Pubkey) (creatorShares : List UInt8) :
    Vector (GumballCreatorAdapter Pubkey) 5 :=
  Vector.ofFn fun i =>
    match creatorKeys[i.val]?, creatorShares[i.val]? with
    | some address, some share => ⟨address, 1, share⟩
    | _, _ => .default

/-- The checks of the creators in `initialize_gumball_machine`, and the array of them. -/
def creatorsOf (creatorKeys : List Pubkey) (creatorShares : List UInt8) :
    Outcome ε (Vector (GumballCreatorAdapter Pubkey) 5) := do
  Outcome.assert (creatorKeys.length = creatorShares.length)
  Outcome.assert (creatorKeys.length < numCreators)
  let sum ← sumShares creatorShares 0
  Outcome.assert (sum ≤ 100)
  .ok (creatorArray creatorKeys creatorShares)

/-- `initialize_gumball_machine` up to the creation of the tree, with the other arguments in a
header. -/
def Machine.initializeWithCreators (header : GumballMachineHeader Pubkey)
    (creatorKeys : List Pubkey) (creatorShares : List UInt8) (configData : List UInt8) :
    Outcome ε (Machine Pubkey) := do
  let creators ← creatorsOf creatorKeys creatorShares
  Machine.initializeGumballMachine { header with creators := creators } configData

end Creators

/-! ### Metadata -/

/-- `EncodeMethod`. -/
inductive EncodeMethod where
  | UTF8
  | Base58Encode
deriving DecidableEq

/-- `EncodeMethod::from(v)`. -/
def EncodeMethod.ofU8 (v : UInt8) : Outcome ε EncodeMethod :=
  if v = 0 then .ok .UTF8 else if v = 1 then .ok .Base58Encode else .panic

/-- `std::str::from_utf8(bytes).unwrap()`. -/
def fromUtf8 (bytes : List UInt8) : Outcome ε String :=
  match String.fromUTF8? ⟨bytes.toArray⟩ with
  | some s => .ok s
  | none => .panic

/-- `s.trim_matches(c)`. -/
def trimMatches (c : Char) (s : String) : String :=
  .ofList (((s.toList.dropWhile (· == c)).reverse.dropWhile (· == c)).reverse)

/-- The text of a config line. -/
def configText (encodeMethod : EncodeMethod) (configLine : List UInt8) : Outcome ε String :=
  match encodeMethod with
  | .Base58Encode => .ok (String.ofList (Base58.encode configLine))
  | .UTF8 => fromUtf8 configLine

/-- `get_metadata_args(..)`. -/
def getMetadataArgs [DecidableEq Pubkey] [ZeroKey Pubkey] (urlBase : Vector UInt8 64)
    (nameBase : Vector UInt8 32) (symbol : Vector UInt8 8) (sellerFeeBasisPoints : UInt16)
    (isMutable : Bool) (collection : Pubkey) (uses : Option Uses)
    (creators : Vector (GumballCreatorAdapter Pubkey) 5) (index : ℕ) (configLine : List UInt8)
    (encodeMethod : EncodeMethod) : Outcome ε (MetadataArgs Pubkey) := do
  let zero := Char.ofNat 0
  let nameBase ← fromUtf8 nameBase.toList
  let symbol ← fromUtf8 symbol.toList
  let uriBase ← fromUtf8 urlBase.toList
  let config ← configText encodeMethod configLine
  .ok
    { name := trimMatches zero nameBase ++ " #" ++ toString index
      symbol := trimMatches zero symbol
      uri := trimMatches zero uriBase ++ "/" ++ config
      sellerFeeBasisPoints := sellerFeeBasisPoints
      primarySaleHappened := true
      isMutable := isMutable
      editionNonce := none
      tokenStandard := none
      collection := if collection = ZeroKey.zero then none else some ⟨true, collection⟩
      uses := uses
      tokenProgramVersion := .Token2022
      creators := (creators.toList.filter (·.isValid)).map (·.adapt) }

/-- The metadata that `fisher_yates_shuffle_and_fetch_nft_metadata` returns for an index and a
config line. -/
def metadataOf [DecidableEq Pubkey] [ZeroKey Pubkey] (header : GumballMachineHeader Pubkey)
    (nftIndex : ℕ) (configLine : List UInt8) : Outcome ε (MetadataArgs Pubkey) := do
  let encodeMethod ← EncodeMethod.ofU8 header.configLineEncodeMethod
  getMetadataArgs header.urlBase header.nameBase header.symbol header.sellerFeeBasisPoints
    (header.isMutable != 0) header.collectionKey none header.creators nftIndex configLine
    encodeMethod

end Candyland.GumballMachine
