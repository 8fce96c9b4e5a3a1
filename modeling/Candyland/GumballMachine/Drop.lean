import Candyland.Bubblegum.Program
import Candyland.GumballMachine.Drawing
import Candyland.GumballMachine.UnlistedItems
import Candyland.Lib.Steps

/-!
# A drop

A gumball machine mints what it hands out by calls of bubblegum, signed by its `willy_wonka`.
Here a sale runs on the accounts of both programs.  What it does to the machine is what the
machine does by itself, and what it does to bubblegum is a run of mints, one for each item.
-/

namespace Candyland.GumballMachine

open Bubblegum (Error Executed LeafHash MetadataArgs ProgramAddress)
open ConcurrentMerkleTree (NodeHash)
open Gummyroll (Build)
open Machine

/-- The account of a machine, and those of bubblegum. -/
structure Drop (Node Pubkey : Type) where
  machine : Machine Pubkey
  bubblegum : Bubblegum.State Node Pubkey

/-- An item that was handed out, and the instruction that minted it. -/
structure Sold (Node Pubkey : Type) where
  index : ℕ
  mint : Executed Node Pubkey

variable {Node Pubkey : Type} [NodeHash Node] [DecidableEq Node] [DecidableEq Pubkey] [Build]
  [LeafHash Node Pubkey] [ProgramAddress Pubkey] [ZeroKey Pubkey]

section Calls

variable (willyWonka payer merkleSlab : Pubkey) (entropy : UInt32 → UInt32)

/-- The loop of `find_and_mint_compressed_nfts`, with its calls of `mint_v1`.  The items are listed
with the last one first. -/
def mintSold (lineSize : ℕ) (configLinesData : List UInt8) :
    ℕ → GumballMachineHeader Pubkey × List UInt32 × Bubblegum.State Node Pubkey →
      Outcome Error (GumballMachineHeader Pubkey × List UInt32 × Bubblegum.State Node Pubkey ×
        List (Sold Node Pubkey))
  | 0, (header, indices, st) => .ok (header, indices, st, [])
  | n + 1, (header, indices, st) => do
    let (header, indices, nftIndex, configLine) ←
      fisherYatesShuffle entropy header indices lineSize configLinesData
    let message ← metadataOf header nftIndex configLine
    let (events, st) ← st.mintV1 [willyWonka] merkleSlab willyWonka payer payer message
    let (header, indices, st, sold) ←
      mintSold lineSize configLinesData n (header, indices, st)
    .ok (header, indices, st, sold ++ [⟨nftIndex - 1,
      ⟨[willyWonka], .mintV1 merkleSlab willyWonka payer payer message, events⟩⟩])

/-- `find_and_mint_compressed_nfts(.., num_items)` on both accounts: what it leaves and what it
sold.  The payment comes after it and can only undo it. -/
def Drop.findAndMintCompressedNfts (self : Drop Node Pubkey) (validTransaction : Bool)
    (unixTimestamp : Int64) (numItems : UInt32) :
    Outcome Error (Drop Node Pubkey × List (Sold Node Pubkey)) := do
  let gumballHeader := self.machine.header
  Outcome.assert (validTransaction = true)
  Outcome.assert (gumballHeader.maxItems = gumballHeader.smallestUninitializedIndex)
  Outcome.assert (numItems ≤ gumballHeader.maxMintSize)
  Outcome.assert (unixTimestamp > gumballHeader.goLiveDate)
  let size := gumballHeader.maxItems.toNat
  let indexArraySize ← usize (4 * size)
  let configSize ← usize (gumballHeader.extensionLen.toNat * size)
  let dataSize ← usize (indexArraySize + configSize)
  Outcome.assert (self.machine.configData.length = dataSize)
  Outcome.assert (indexArraySize ≤ self.machine.configData.length)
  let numNftsToMint := min (max numItems 1) gumballHeader.remaining
  Outcome.assert (0 < numNftsToMint)
  let (header, indices, st, sold) ← mintSold willyWonka payer merkleSlab entropy
    gumballHeader.extensionLen.toNat self.machine.configLinesData numNftsToMint.toNat
    (gumballHeader, self.machine.indices, self.bubblegum)
  .ok (⟨⟨header, Bytes.ofArray indices ++ self.machine.configLinesData⟩, st⟩, sold)

end Calls

/-! ### A sale -/

section Sale

variable {willyWonka payer merkleSlab : Pubkey} {entropy : UInt32 → UInt32}

omit [NodeHash Node] [DecidableEq Node] [DecidableEq Pubkey] [LeafHash Node Pubkey]
  [ProgramAddress Pubkey] [ZeroKey Pubkey] in
/-- The line of a draw is that of its item. -/
theorem fisherYatesShuffle_line {ε : Type} {header header' : GumballMachineHeader Pubkey}
    {indices indices' : List UInt32} {lineSize nftIndex : ℕ}
    {configLinesData configLine : List UInt8}
    (hfit : LinesFit header indices lineSize configLinesData)
    (h : fisherYatesShuffle entropy header indices lineSize configLinesData =
      (.ok (header', indices', nftIndex, configLine) : Outcome ε _)) :
    configLine = if configLinesData.length > 0 then
        (configLinesData.drop ((nftIndex - 1) * lineSize)).take lineSize
      else Bytes.le 8 nftIndex := by
  obtain ⟨-, hremaining, i, a, b, hi, ha, hb, -, rfl⟩ := fisherYatesShuffle_ok h
  have hroom : (a.toNat + 1) * lineSize ≤ configLinesData.length := by
    obtain ⟨hlt, rfl⟩ := List.getElem?_eq_some_iff.1 ha
    exact hfit.room _ (List.mem_take_iff_getElem.2 ⟨i, lt_min (by omega) hlt, rfl⟩)
  have hsize := hfit.size
  rw [Nat.add_mul, Nat.one_mul] at hroom
  rw [fisherYatesShuffle] at h
  obtain ⟨⟨⟩, -, h⟩ := Outcome.bind_eq_ok.1 h
  obtain ⟨remaining, -, h⟩ := Outcome.bind_eq_ok.1 h
  split at h
  case h_1 a' b' _ _ =>
    obtain ⟨nftIndex₁, hindex, h⟩ := Outcome.bind_eq_ok.1 h
    obtain ⟨randomConfigIndex, hstart, h⟩ := Outcome.bind_eq_ok.1 h
    have hlt := a'.toNat_lt
    rw [usize_of_lt (by omega)] at hindex
    obtain rfl := Outcome.ok.inj hindex
    dsimp only at h
    split_ifs at h ⊢ with hlines
    · obtain ⟨lineEnd, -, h⟩ := Outcome.bind_eq_ok.1 h
      obtain ⟨⟨⟩, -, h⟩ := Outcome.bind_eq_ok.1 h
      simp only [Outcome.ok.injEq, Prod.mk.injEq] at h
      obtain ⟨-, -, hnft, rfl⟩ := h
      rw [Nat.add_right_cancel hnft, usize_of_lt (by omega)] at hstart
      rw [← Outcome.ok.inj hstart, Nat.add_sub_cancel]
    · simp only [Outcome.ok.injEq, Prod.mk.injEq] at h
      obtain ⟨-, -, hnft, rfl⟩ := h
      rw [hnft]
  case h_2 => exact absurd h (by simp)

/-- The form of an item that was sold. -/
def Sold.OfItem (willyWonka payer merkleSlab : Pubkey)
    (metadata : ℕ → Outcome Error (MetadataArgs Pubkey)) (self : Sold Node Pubkey) : Prop :=
  ∃ message events, metadata self.index = .ok message ∧
    self.mint = ⟨[willyWonka], .mintV1 merkleSlab willyWonka payer payer message, events⟩

/-- The loop does to the machine what it does with mints that succeed, and it mints the drawn
items one after the other. -/
theorem mintSold_ok {machine : Machine Pubkey} {n : ℕ}
    {header header' : GumballMachineHeader Pubkey} {indices indices' : List UInt32}
    {st st' : Bubblegum.State Node Pubkey} {sold : List (Sold Node Pubkey)}
    (hheader : header = { machine.header with remaining := header.remaining })
    (hfit : LinesFit header indices machine.header.extensionLen.toNat machine.configLinesData)
    (h : mintSold willyWonka payer merkleSlab entropy machine.header.extensionLen.toNat
      machine.configLinesData n (header, indices, st) = .ok (header', indices', st', sold)) :
    mintItems entropy (fun _ _ _ => .ok ()) machine.header.extensionLen.toNat
        machine.configLinesData n (header, indices) = (.ok (header', indices') : Outcome Error _) ∧
      sold.map Sold.index = drawnItems Error entropy machine.header.extensionLen.toNat
        machine.configLinesData n (header, indices) ∧
      Steps Executed.Takes st (sold.map Sold.mint) st' ∧
      ∀ s ∈ sold, s.OfItem willyWonka payer merkleSlab machine.itemMetadata := by
  induction n generalizing header indices st sold with
  | zero =>
    simp only [mintSold, Outcome.ok.injEq, Prod.mk.injEq] at h
    obtain ⟨rfl, rfl, rfl, rfl⟩ := h
    exact ⟨rfl, rfl, .refl, fun s hs => absurd hs List.not_mem_nil⟩
  | succ n ih =>
    obtain ⟨⟨header₁, indices₁, nftIndex, configLine⟩, hdraw, h⟩ := Outcome.bind_eq_ok.1 h
    obtain ⟨message, hmessage, h⟩ := Outcome.bind_eq_ok.1 h
    obtain ⟨⟨events, st₁⟩, hmint, h⟩ := Outcome.bind_eq_ok.1 h
    obtain ⟨⟨header₂, indices₂, st₂, sold₁⟩, hitems, h⟩ := Outcome.bind_eq_ok.1 h
    simp only [Outcome.ok.injEq, Prod.mk.injEq] at h
    obtain ⟨rfl, rfl, rfl, rfl⟩ := h
    obtain ⟨hheader₁, -, -, a, -, -, -, -, -, rfl⟩ := fisherYatesShuffle_ok hdraw
    have hheader' : header₁ = { machine.header with remaining := header₁.remaining } := by
      rw [hheader₁, hheader]
    obtain ⟨hmachine, hindices, hsteps, hsold⟩ := ih hheader' (hfit.draw hdraw) hitems
    refine ⟨?_, ?_, ?_, ?_⟩
    · rw [mintItems, hdraw]
      exact hmachine
    · rw [List.map_append, hindices, drawnItems, hdraw]
      rfl
    · rw [List.map_append]
      exact Steps.trans (.step .refl ⟨trivial, hmint⟩) hsteps
    · intro s hs
      rcases List.mem_append.1 hs with hs | hs
      · exact hsold s hs
      · obtain rfl := List.mem_singleton.1 hs
        refine ⟨message, events, ?_, rfl⟩
        rw [← hmessage, fisherYatesShuffle_line hfit hdraw, hheader']
        rfl

/-- The instruction of the machine alone. -/
def saleOf (validTransaction : Bool) (unixTimestamp : Int64) (entropy : UInt32 → UInt32)
    (numItems : UInt32) : Instruction Pubkey Error :=
  .dispense validTransaction unixTimestamp entropy (fun _ _ _ => .ok ()) numItems

/-- A sale is one of the machine, and a run of mints of what it draws. -/
theorem findAndMintCompressedNfts_sold {drop drop' : Drop Node Pubkey} {validTransaction : Bool}
    {unixTimestamp : Int64} {numItems : UInt32} {sold : List (Sold Node Pubkey)}
    (hfit : LinesFit drop.machine.header drop.machine.indices
      drop.machine.header.extensionLen.toNat drop.machine.configLinesData)
    (h : drop.findAndMintCompressedNfts willyWonka payer merkleSlab entropy validTransaction
      unixTimestamp numItems = .ok (drop', sold)) :
    (saleOf validTransaction unixTimestamp entropy numItems).exec drop.machine =
        .ok drop'.machine ∧
      sold.map Sold.index =
        (saleOf validTransaction unixTimestamp entropy numItems).drawn drop.machine ∧
      Steps Executed.Takes drop.bubblegum (sold.map Sold.mint) drop'.bubblegum ∧
      ∀ s ∈ sold, s.OfItem willyWonka payer merkleSlab drop.machine.itemMetadata := by
  obtain ⟨⟨⟩, hvalid, h⟩ := Outcome.bind_eq_ok.1 h
  obtain ⟨⟨⟩, hinitialized, h⟩ := Outcome.bind_eq_ok.1 h
  obtain ⟨⟨⟩, hmax, h⟩ := Outcome.bind_eq_ok.1 h
  obtain ⟨⟨⟩, hlive, h⟩ := Outcome.bind_eq_ok.1 h
  obtain ⟨indexArraySize, hindexArraySize, h⟩ := Outcome.bind_eq_ok.1 h
  obtain ⟨configSize, hconfigSize, h⟩ := Outcome.bind_eq_ok.1 h
  obtain ⟨dataSize, hdataSize, h⟩ := Outcome.bind_eq_ok.1 h
  obtain ⟨⟨⟩, hsize, h⟩ := Outcome.bind_eq_ok.1 h
  obtain ⟨⟨⟩, hroom, h⟩ := Outcome.bind_eq_ok.1 h
  obtain ⟨⟨⟩, hleft, h⟩ := Outcome.bind_eq_ok.1 h
  obtain ⟨⟨header, indices, st, sold₁⟩, hitems, h⟩ := Outcome.bind_eq_ok.1 h
  simp only [Outcome.ok.injEq, Prod.mk.injEq] at h
  obtain ⟨rfl, rfl⟩ := h
  obtain ⟨hmachine, hindices, hsteps, hsold⟩ := mintSold_ok rfl hfit hitems
  refine ⟨?_, hindices, hsteps, hsold⟩
  rw [saleOf, Instruction.exec, Machine.findAndMintCompressedNfts, hvalid, Outcome.ok_bind,
    hinitialized, Outcome.ok_bind, hmax, Outcome.ok_bind, hlive, Outcome.ok_bind]
  simp only [hindexArraySize, hconfigSize, hdataSize, hsize, hroom, hleft, hmachine,
    Outcome.ok_bind]

end Sale

end Candyland.GumballMachine
