import Candyland.GumballMachine.State

/-!
# The instructions of the gumball machine

An instruction that fails is undone, so only `Ok` carries an account.  What a dispensed item
is minted with, and whether that succeeds, is a parameter.
-/

namespace Candyland.GumballMachine

open Gummyroll (Build)

/-- `MAX_NUM_INDICES_TO_INIT_FOR_CHUNK`. -/
def maxNumIndicesToInitForChunk : UInt32 := 250000

/-- The optional arguments of `update_header_metadata`. -/
structure HeaderUpdate (Pubkey : Type) where
  urlBase : Option (Vector UInt8 64)
  nameBase : Option (Vector UInt8 32)
  symbol : Option (Vector UInt8 8)
  encodeMethod : Option UInt8
  sellerFeeBasisPoints : Option UInt16
  isMutable : Option Bool
  retainAuthority : Option Bool
  price : Option UInt64
  goLiveDate : Option Int64
  botWallet : Option Pubkey
  authority : Option Pubkey
  maxMintSize : Option UInt32

variable {Pubkey ε : Type} [DecidableEq Pubkey] [Build]

namespace Machine

/-- `initialize_gumball_machine`, after the checks of the creators and up to the creation of the
tree.  The new header has no items; `config_data` is the zeroed rest of the account. -/
def initializeGumballMachine (header : GumballMachineHeader Pubkey) (configData : List UInt8) :
    Outcome ε (Machine Pubkey) := do
  let size := header.maxItems.toNat
  let configSize ← usize (header.extensionLen.toNat * size)
  let dataSize ← usize (4 * size + configSize)
  Outcome.assert (configData.length = dataSize)
  .ok
    ⟨{ header with
        maxMintSize := min (max header.maxMintSize 1) header.maxItems
        remaining := 0
        totalItemsAdded := 0
        smallestUninitializedIndex := 0 }, configData⟩

variable (self : Machine Pubkey)

/-- `initialize_indices_chunk()`. -/
def initializeIndicesChunk (authority : Pubkey) : Outcome ε (Machine Pubkey) := do
  Outcome.assert (self.header.authority = authority)
  let size := self.header.maxItems.toNat
  Outcome.assert (4 * size ≤ self.configData.length)
  let first := self.header.smallestUninitializedIndex.toNat
  let sum ← addU32 self.header.smallestUninitializedIndex maxNumIndicesToInitForChunk
  let next := (min sum self.header.maxItems).toNat
  Outcome.assert (first ≤ next ∧ next ≤ size)
  let indices := self.indices.mapIdx fun i idx =>
    if first ≤ i ∧ i < next then UInt32.ofNat i else idx
  .ok
    ⟨{ self.header with
        smallestUninitializedIndex := UInt32.ofNat next
        remaining := if self.header.extensionLen = 0 then self.header.maxItems
          else self.header.remaining },
      Bytes.ofArray indices ++ self.configLinesData⟩

/-- `add_config_lines(new_config_lines_data)`.  The lines are written from byte `start_index` of
the config area on, not from line `start_index` on. -/
def addConfigLines (authority : Pubkey) (newConfigLinesData : List UInt8) :
    Outcome ε (Machine Pubkey) := do
  let size := self.header.maxItems.toNat
  let indexArraySize ← usize (4 * size)
  let lineSize := self.header.extensionLen.toNat
  Outcome.assert (lineSize ≠ 0)
  let numLines := newConfigLinesData.length / lineSize
  let startIndex := self.header.totalItemsAdded.toNat
  Outcome.assert (self.header.authority = authority)
  Outcome.assert (newConfigLinesData.length % lineSize = 0)
  let endIndex ← usize (startIndex + numLines)
  Outcome.assert (endIndex ≤ self.header.maxItems.toNat)
  Outcome.assert (indexArraySize ≤ self.configData.length)
  Outcome.assert (startIndex ≤ self.configLinesData.length)
  let configLinesData := Records.overwrite self.configLinesData startIndex newConfigLinesData
  let totalItemsAdded ← addU32 self.header.totalItemsAdded (UInt32.ofNat numLines)
  let remaining ← addU32 self.header.remaining (UInt32.ofNat numLines)
  .ok
    ⟨{ self.header with totalItemsAdded := totalItemsAdded, remaining := remaining },
      self.indicesData ++ configLinesData⟩

/-- `update_config_lines(starting_line, new_config_lines_data)`. -/
def updateConfigLines (authority : Pubkey) (startingLine : UInt64)
    (newConfigLinesData : List UInt8) : Outcome ε (Machine Pubkey) := do
  let size := self.header.maxItems.toNat
  let indexArraySize ← usize (4 * size)
  let configSize ← usize (self.header.extensionLen.toNat * size)
  let lineSize := self.header.extensionLen.toNat
  Outcome.assert (lineSize ≠ 0)
  let numLines := newConfigLinesData.length / lineSize
  Outcome.assert (self.header.authority = authority)
  Outcome.assert (newConfigLinesData.length % lineSize = 0)
  let dataSize ← usize (indexArraySize + configSize)
  Outcome.assert (self.configData.length = dataSize)
  let newSize ← usize (numLines * lineSize)
  Outcome.assert (newConfigLinesData.length = newSize)
  let endLine ← usize (startingLine.toNat + numLines)
  Outcome.assert (endLine ≤ self.header.totalItemsAdded.toNat)
  Outcome.assert (indexArraySize ≤ self.configData.length)
  let start ← usize (startingLine.toNat * lineSize)
  Outcome.assert (start ≤ self.configLinesData.length)
  .ok ⟨self.header,
    self.indicesData ++ Records.overwrite self.configLinesData start newConfigLinesData⟩

/-- `update_header_metadata(..)`. -/
def updateHeaderMetadata (authority : Pubkey) (update : HeaderUpdate Pubkey) :
    Outcome ε (Machine Pubkey) := do
  let header := self.header
  Outcome.assert (header.authority = authority)
  .ok
    { self with
      header := { header with
        urlBase := update.urlBase.getD header.urlBase
        nameBase := update.nameBase.getD header.nameBase
        symbol := update.symbol.getD header.symbol
        configLineEncodeMethod := update.encodeMethod.getD header.configLineEncodeMethod
        sellerFeeBasisPoints := update.sellerFeeBasisPoints.getD header.sellerFeeBasisPoints
        isMutable := (update.isMutable.map fun b => if b then 1 else 0).getD header.isMutable
        retainAuthority :=
          (update.retainAuthority.map fun b => if b then 1 else 0).getD header.retainAuthority
        price := update.price.getD header.price
        goLiveDate := update.goLiveDate.getD header.goLiveDate
        botWallet := update.botWallet.getD header.botWallet
        authority := update.authority.getD header.authority
        maxMintSize := (update.maxMintSize.map fun m =>
          min (max m 1) header.maxItems).getD header.maxMintSize } }

/-- `fisher_yates_shuffle_and_fetch_nft_metadata`, up to the index and the config line that the
metadata is made of.  `entropy` is taken from a hash of the slot hashes and `remaining`. -/
def fisherYatesShuffle (entropy : UInt32 → UInt32) (header : GumballMachineHeader Pubkey)
    (indices : List UInt32) (lineSize : ℕ) (configLinesData : List UInt8) :
    Outcome ε (GumballMachineHeader Pubkey × List UInt32 × ℕ × List UInt8) := do
  Outcome.assert (header.remaining ≠ 0)
  let selected := (entropy header.remaining % header.remaining).toNat
  let remaining ← subU32 header.remaining 1
  match indices[selected]?, indices[remaining.toNat]? with
  | some a, some b => do
    let indices := (indices.set selected b).set remaining.toNat a
    let zeroNftIndex := a.toNat
    let nftIndex ← usize (zeroNftIndex + 1)
    let randomConfigIndex ← usize (zeroNftIndex * lineSize)
    let header := { header with remaining := remaining }
    if configLinesData.length > 0 then do
      let lineEnd ← usize (randomConfigIndex + lineSize)
      Outcome.assert (randomConfigIndex ≤ lineEnd ∧ lineEnd ≤ configLinesData.length)
      .ok (header, indices, nftIndex, (configLinesData.drop randomConfigIndex).take lineSize)
    else .ok (header, indices, nftIndex, Bytes.le 8 nftIndex)
  | _, _ => .panic

/-- The loop of `find_and_mint_compressed_nfts`: `n` items are drawn and minted. -/
def mintItems (entropy : UInt32 → UInt32)
    (mint : GumballMachineHeader Pubkey → ℕ → List UInt8 → Outcome ε Unit) (lineSize : ℕ)
    (configLinesData : List UInt8) : ℕ → GumballMachineHeader Pubkey × List UInt32 →
      Outcome ε (GumballMachineHeader Pubkey × List UInt32)
  | 0, st => .ok st
  | n + 1, (header, indices) => do
    let (header, indices, nftIndex, configLine) ←
      fisherYatesShuffle entropy header indices lineSize configLinesData
    mint header nftIndex configLine
    mintItems entropy mint lineSize configLinesData n (header, indices)

/-- `find_and_mint_compressed_nfts(.., num_items)`: the account and the number of items.
`validTransaction` is the check of the single instruction. -/
def findAndMintCompressedNfts (validTransaction : Bool) (unixTimestamp : Int64)
    (entropy : UInt32 → UInt32)
    (mint : GumballMachineHeader Pubkey → ℕ → List UInt8 → Outcome ε Unit) (numItems : UInt32) :
    Outcome ε (Machine Pubkey × UInt32) := do
  Outcome.assert (validTransaction = true)
  Outcome.assert (self.header.maxItems = self.header.smallestUninitializedIndex)
  Outcome.assert (numItems ≤ self.header.maxMintSize)
  Outcome.assert (unixTimestamp > self.header.goLiveDate)
  let size := self.header.maxItems.toNat
  let indexArraySize ← usize (4 * size)
  let configSize ← usize (self.header.extensionLen.toNat * size)
  let dataSize ← usize (indexArraySize + configSize)
  Outcome.assert (self.configData.length = dataSize)
  Outcome.assert (indexArraySize ≤ self.configData.length)
  let numNftsToMint := min (max numItems 1) self.header.remaining
  Outcome.assert (0 < numNftsToMint)
  let (header, indices) ← mintItems entropy mint self.header.extensionLen.toNat
    self.configLinesData numNftsToMint.toNat (self.header, self.indices)
  .ok (⟨header, Bytes.ofArray indices ++ self.configLinesData⟩, numNftsToMint)

end Machine

end Candyland.GumballMachine
