import Candyland.Bubblegum.Mints
import Candyland.GumballMachine.Drop
import Candyland.GumballMachine.Royalties
import Candyland.Sdk.Indexer.AssetCalls

/-!
# Runs of a drop

A machine whose indices are initialised sells its items, while its authority changes lines and the
header and others use bubblegum.  Only the machine signs for its `willy_wonka`, so what is in its
tree are the items that it sold, each of them once.
-/

namespace Candyland.GumballMachine

open Bubblegum
open ConcurrentMerkleTree (Term NodeHash CollisionFree NonzeroHash)
open Gummyroll (Build)
open Machine
open NftIngester (Mints OnRecord minted? minted_iff)
open Sdk.Indexer (exists_mint_of_record exists_recorded)

variable {Node Pubkey ε : Type}

/-! ### Steps -/

/-- What happens to the accounts of a drop. -/
inductive DropEvent (Node Pubkey : Type) where
  | bubblegum (x : Executed Node Pubkey)
  | managed
  | sale (sold : List (Sold Node Pubkey))

/-- The instructions of bubblegum, the last one first. -/
def DropEvent.executed : DropEvent Node Pubkey → List (Executed Node Pubkey)
  | bubblegum x => [x]
  | managed => []
  | sale sold => sold.map Sold.mint

/-- The items that were sold. -/
def DropEvent.sold : DropEvent Node Pubkey → List (Sold Node Pubkey)
  | sale sold => sold
  | _ => []

/-- The instructions of bubblegum in a run, newest first. -/
def executedIn (events : List (DropEvent Node Pubkey)) : List (Executed Node Pubkey) :=
  events.flatMap DropEvent.executed

/-- The items that were sold in a run, the last one first. -/
def soldIn (events : List (DropEvent Node Pubkey)) : List (Sold Node Pubkey) :=
  events.flatMap DropEvent.sold

/-- The instruction changes lines or the header. -/
def Instruction.Manages : Instruction Pubkey ε → Prop
  | updateConfigLines .. => True
  | updateHeaderMetadata .. => True
  | _ => False

section Runs

variable [NodeHash Node] [DecidableEq Node] [DecidableEq Pubkey] [Build] [LeafHash Node Pubkey]
  [ProgramAddress Pubkey] [ZeroKey Pubkey]

/-- The steps of a drop.  `willy_wonka` signs in the sales only. -/
inductive Drop.Step (willyWonka : Pubkey) :
    Drop Node Pubkey → DropEvent Node Pubkey → Drop Node Pubkey → Prop
  | bubblegum {drop : Drop Node Pubkey} {x : Executed Node Pubkey} {st : State Node Pubkey}
      (hsigners : willyWonka ∉ x.signers) (hx : x.Takes drop.bubblegum st) :
      Step willyWonka drop (.bubblegum x) { drop with bubblegum := st }
  | managed {drop : Drop Node Pubkey} {ins : Instruction Pubkey Error} {machine : Machine Pubkey}
      (hmanages : ins.Manages) (hdata : ins.data.length < 2 ^ 32)
      (hexec : ins.exec drop.machine = .ok machine) :
      Step willyWonka drop .managed { drop with machine := machine }
  | sale {drop drop' : Drop Node Pubkey} {payer merkleSlab : Pubkey} {entropy : UInt32 → UInt32}
      {validTransaction : Bool} {unixTimestamp : Int64} {numItems : UInt32}
      {sold : List (Sold Node Pubkey)}
      (h : drop.findAndMintCompressedNfts willyWonka payer merkleSlab entropy validTransaction
        unixTimestamp numItems = .ok (drop', sold)) :
      Step willyWonka drop (.sale sold) drop'

/-- The item has metadata of its index in a machine on the way. -/
def Sold.IsItem (base : Machine Pubkey) (self : Sold Node Pubkey)
    (message : MetadataArgs Pubkey) : Prop :=
  ∃ machine handed, Sales Error base machine handed ∧
    machine.itemMetadata self.index = (.ok message : Outcome Error _)

variable {willyWonka slab : Pubkey} {n : UInt64} {base : Machine Pubkey} {drop : Drop Node Pubkey}
  {st : State Node Pubkey} {history : List (Executed Node Pubkey)}
  {events : List (DropEvent Node Pubkey)}

omit [NodeHash Node] [DecidableEq Node] [DecidableEq Pubkey] [LeafHash Node Pubkey]
  [ProgramAddress Pubkey] [ZeroKey Pubkey] in
theorem Instruction.Manages.leavesPool {ins : Instruction Pubkey ε} (h : ins.Manages)
    (machine : Machine Pubkey) : ins.LeavesPool ∧ ins.drawn machine = [] := by
  cases ins with
  | updateConfigLines | updateHeaderMetadata => exact ⟨trivial, rfl⟩
  | initializeIndicesChunk | addConfigLines | dispense => exact h.elim

/-- A run of a drop is a run of the machine and a run of bubblegum, and what `willy_wonka` signed
are the mints of the items. -/
structure Drop.Ran (willyWonka : Pubkey) (base : Machine Pubkey) (st : State Node Pubkey)
    (events : List (DropEvent Node Pubkey)) (drop : Drop Node Pubkey) : Prop where
  sales : Sales Error base drop.machine ((soldIn events).map Sold.index)
  steps : Steps Executed.Takes st (executedIn events) drop.bubblegum
  items : ∀ s ∈ soldIn events, ∃ payer merkleSlab message mintEvents, s.IsItem base message ∧
    s.mint = ⟨[willyWonka], .mintV1 merkleSlab willyWonka payer payer message, mintEvents⟩
  signed : ∀ x ∈ executedIn events, willyWonka ∈ x.signers → ∃ s ∈ soldIn events, s.mint = x
  sublist : ((soldIn events).map Sold.mint).Sublist (executedIn events)

theorem Drop.ran (hready : Ready Error base)
    (h : Steps (Drop.Step willyWonka) ⟨base, st⟩ events drop) :
    Drop.Ran willyWonka base st events drop := by
  induction h with
  | refl => exact ⟨.start, .refl, fun s hs => absurd hs List.not_mem_nil,
      fun x hx => absurd hx List.not_mem_nil, .slnil⟩
  | @step events drop drop' event _ hstep ih =>
    cases hstep with
    | @bubblegum x st' hsigners hx =>
      refine ⟨ih.sales, .step ih.steps hx, ih.items, ?_, ih.sublist.cons x⟩
      intro y hy hsigned
      rcases List.mem_cons.1 hy with rfl | hy
      · exact absurd hsigned hsigners
      · exact ih.signed y hy hsigned
    | @managed ins machine hmanages hdata hexec =>
      obtain ⟨hleaves, hdrawn⟩ := hmanages.leavesPool drop.machine
      have hsales := ih.sales.step hdata hleaves hexec
      rw [hdrawn] at hsales
      exact ⟨hsales, ih.steps, ih.items, ih.signed, ih.sublist⟩
    | @sale _ payer merkleSlab entropy validTransaction unixTimestamp numItems sold h =>
      have hinit := ih.sales.initialized hready
      have hfit := linesFit (ih.sales.run hready).inv (ih.sales.sizes hready) hinit
      obtain ⟨hexec, hindices, hsteps, hsold⟩ := findAndMintCompressedNfts_sold hfit h
      have hdata : (saleOf validTransaction unixTimestamp entropy numItems :
          Instruction Pubkey Error).data.length < 2 ^ 32 := Nat.two_pow_pos 32
      have hsales := ih.sales.step hdata trivial hexec
      rw [← hindices, ← List.map_append] at hsales
      refine ⟨hsales, ih.steps.trans hsteps, ?_, ?_, ?_⟩
      · intro s hs
        rcases List.mem_append.1 hs with hs | hs
        · obtain ⟨message, mintEvents, hmessage, hmint⟩ := hsold s hs
          exact ⟨payer, merkleSlab, message, mintEvents, ⟨_, _, ih.sales, hmessage⟩, hmint⟩
        · exact ih.items s hs
      · intro x hx hsigned
        rcases List.mem_append.1 hx with hx | hx
        · obtain ⟨s, hs, rfl⟩ := List.mem_map.1 hx
          exact ⟨s, List.mem_append_left _ hs, rfl⟩
        · obtain ⟨s, hs, heq⟩ := ih.signed x hx hsigned
          exact ⟨s, List.mem_append_right _ hs, heq⟩
      · show ((sold ++ soldIn events).map Sold.mint).Sublist
          (sold.map Sold.mint ++ executedIn events)
        rw [List.map_append]
        exact (List.Sublist.refl _).append ih.sublist

/-! ### The trees of the machine -/

variable [CollisionFree Node] [NonzeroHash Node] [CollisionFreeLeaf Node Pubkey]
  [InjectiveAddress Pubkey] {tree : Tree Node Pubkey} {x : Executed Node Pubkey}

omit [ZeroKey Pubkey] [CollisionFree Node] [NonzeroHash Node] [CollisionFreeLeaf Node Pubkey]
  [InjectiveAddress Pubkey] [DecidableEq Node] [DecidableEq Pubkey] [Build] [LeafHash Node Pubkey]
  [ProgramAddress Pubkey] in
/-- Before its sales `willy_wonka` has minted nothing. -/
def NothingMinted (willyWonka : Pubkey) (history : List (Executed Node Pubkey)) : Prop :=
  ∀ x ∈ history, willyWonka ∈ x.signers → minted? x = none

omit [ZeroKey Pubkey] in
/-- What was minted is on record. -/
theorem exists_record_of_mint (h : Reachable history st) (hx : x ∈ history)
    (hmint : Mints slab n x) : ∃ schema, OnRecord slab n history schema := by
  obtain ⟨L, hrep, -, hminted⟩ := h.minted
  obtain ⟨L', hrep', -, hlives⟩ := exists_recorded h
  obtain ⟨l, hl⟩ := hminted slab n (List.mem_filterMap.2 ⟨x, hx, hmint⟩)
  obtain ⟨l', hl'⟩ := (minted_iff hrep').1 ((minted_iff hrep).2 ⟨l, hl⟩)
  have hlife := hlives slab n
  rw [hl'] at hlife
  obtain ⟨schema, message, hrecorded⟩ := hlife
  exact ⟨schema, hrecorded.record⟩

/-- What is minted into a tree of the machine was sold. -/
theorem Drop.Ran.mint_sold (h : Drop.Ran willyWonka base st events drop)
    (hbefore : NothingMinted willyWonka history)
    (hreach : Reachable (executedIn events ++ history) drop.bubblegum)
    (htree : drop.bubblegum.trees slab = some tree) (hauthority : tree.appendAuthority = willyWonka)
    (hx : x ∈ executedIn events ++ history) (hmint : Mints slab n x) :
    ∃ s ∈ soldIn events, s.mint = x := by
  obtain ⟨mintAuthority, owner, leafDelegate, message, hins⟩ := exists_instruction_of_mints hmint
  obtain ⟨tree', htree', hsigned⟩ := hreach.mint_signed hx hins
  obtain rfl := Option.some.inj (htree.symm.trans htree')
  rw [hauthority] at hsigned
  rcases List.mem_append.1 hx with hx | hx
  · exact h.signed x hx hsigned
  · exact absurd ((hbefore x hx hsigned).symm.trans hmint) (by simp)

/-- What is on record in a tree of the machine was minted with the metadata of an item. -/
theorem Drop.Ran.record_sold (h : Drop.Ran willyWonka base st events drop)
    (hbefore : NothingMinted willyWonka history)
    (hreach : Reachable (executedIn events ++ history) drop.bubblegum)
    (htree : drop.bubblegum.trees slab = some tree) (hauthority : tree.appendAuthority = willyWonka)
    {earlier later : List (Executed Node Pubkey)} {st' : State Node Pubkey}
    (hevents : executedIn events ++ history = later ++ earlier) (hreach' : Reachable earlier st')
    {schema : LeafSchema Node Pubkey} (hrecord : OnRecord slab n earlier schema) :
    ∃ s ∈ soldIn events, Mints slab n s.mint ∧
      ∃ message, s.IsItem base message ∧ schema.dataHash = LeafHash.hashMetadata message := by
  obtain ⟨x, hx, hmint, mintAuthority, owner, delegate, message, hins, hhash⟩ :=
    exists_mint_of_record hreach' hrecord
  obtain ⟨s, hs, rfl⟩ := h.mint_sold hbefore hreach htree hauthority
    (hevents ▸ List.mem_append_right later hx) hmint
  obtain ⟨payer, merkleSlab, message', mintEvents, hitem, hsold⟩ := h.items s hs
  rw [hsold] at hins
  obtain ⟨-, -, -, -, rfl⟩ := Instruction.mintV1.inj hins
  exact ⟨s, hs, hmint, message', hitem, hhash⟩

/-- Every sold item is an asset of its own. -/
theorem Drop.Ran.sold_record (h : Drop.Ran willyWonka base st events drop)
    (hreach : Reachable (executedIn events ++ history) drop.bubblegum) {s : Sold Node Pubkey}
    (hs : s ∈ soldIn events) :
    ∃ slab n schema message, Mints slab n s.mint ∧
      OnRecord slab n (executedIn events ++ history) schema ∧ s.IsItem base message ∧
      schema.dataHash = LeafHash.hashMetadata message := by
  obtain ⟨payer, slab, message, mintEvents, hitem, hsold⟩ := h.items s hs
  have hx : s.mint ∈ executedIn events ++ history :=
    List.mem_append_left _ (h.sublist.subset (List.mem_map_of_mem hs))
  obtain ⟨n, hmint⟩ := hreach.exists_minted hx (congrArg Executed.instruction hsold)
  obtain ⟨schema, hrecord⟩ := exists_record_of_mint hreach hx hmint
  obtain ⟨y, hy, hmint', mintAuthority, owner, delegate, message', hins, hhash⟩ :=
    exists_mint_of_record hreach hrecord
  obtain rfl := hreach.mint_unique hx hy hmint hmint'
  rw [hsold] at hins
  obtain ⟨-, -, -, -, rfl⟩ := Instruction.mintV1.inj hins
  exact ⟨slab, n, schema, message, hmint, hrecord, hitem, hhash⟩

/-- Different items are different assets. -/
theorem Drop.Ran.minted_nodup (h : Drop.Ran willyWonka base st events drop)
    (hreach : Reachable (executedIn events ++ history) drop.bubblegum) :
    ((soldIn events).map fun s => minted? s.mint).Nodup := by
  obtain ⟨-, -, hnodup, -⟩ := hreach.minted
  have hpairwise := (List.pairwise_filterMap.1 hnodup).sublist
    (h.sublist.trans (List.sublist_append_left _ history))
  refine List.pairwise_map.2 ((List.pairwise_map.1 hpairwise).imp_of_mem ?_)
  intro s s' hs _ hne heq
  obtain ⟨slab, n, schema, message, hmint, -⟩ := h.sold_record hreach hs
  exact hne _ hmint _ (heq.symm.trans hmint) rfl

/-! ### Sold and minted -/

omit [NodeHash Node] [DecidableEq Node] [LeafHash Node Pubkey] [ProgramAddress Pubkey]
  [CollisionFree Node] [NonzeroHash Node] [CollisionFreeLeaf Node Pubkey]
  [InjectiveAddress Pubkey] in
/-- Items are for the newer token program. -/
theorem Sold.IsItem.tokenProgramVersion_eq {s : Sold Node Pubkey} {message : MetadataArgs Pubkey}
    (h : s.IsItem base message) : message.tokenProgramVersion = .Token2022 := by
  obtain ⟨machine, handed, -, hmessage⟩ := h
  obtain ⟨encodeMethod, -, hmessage⟩ := Outcome.bind_eq_ok.1 hmessage
  obtain ⟨nameBase, -, hmessage⟩ := Outcome.bind_eq_ok.1 hmessage
  obtain ⟨symbol, -, hmessage⟩ := Outcome.bind_eq_ok.1 hmessage
  obtain ⟨uriBase, -, hmessage⟩ := Outcome.bind_eq_ok.1 hmessage
  obtain ⟨config, -, hmessage⟩ := Outcome.bind_eq_ok.1 hmessage
  obtain rfl := Outcome.ok.inj hmessage
  rfl

omit [NodeHash Node] [Build] [CollisionFree Node] [NonzeroHash Node]
  [CollisionFreeLeaf Node Pubkey] [InjectiveAddress Pubkey] [ZeroKey Pubkey] in
/-- A decompression is for the older one. -/
theorem original_of_decompressV1 {st' : State Node Pubkey} {signers : List Pubkey}
    {voucherKey owner : Pubkey} {metadata : MetadataArgs Pubkey} {tokenCalls : Bool}
    {mintEvents : List (Event Node Pubkey)}
    (h : st.decompressV1 signers voucherKey owner metadata tokenCalls = .ok (mintEvents, st')) :
    metadata.tokenProgramVersion = .Original := by
  obtain ⟨voucher, -, h⟩ := Outcome.bind_eq_ok.1 h
  obtain ⟨⟨⟩, -, h⟩ := Outcome.bind_eq_ok.1 h
  obtain ⟨⟨⟩, -, h⟩ := Outcome.bind_eq_ok.1 h
  cases hversion : metadata.tokenProgramVersion with
  | Original => rfl
  | Token2022 =>
    simp only [hversion] at h
    split_ifs at h

end Runs

/-! ### One item -/

section OneItem

/-- A machine for one item without lines. -/
def singleItem : Machine Key where
  header := { blankHeader with authority := Trace.bob, maxItems := 1 }
  configData := List.replicate 4 0

/-- The machine with its index. -/
def forSale : Machine Key where
  header := { singleItem.header with remaining := 1, smallestUninitializedIndex := 1 }
  configData := singleItem.configData

theorem ready_forSale : Ready Error forSale where
  run := by
    have hinit : Machine.initializeGumballMachine singleItem.header singleItem.configData =
        (.ok singleItem : Outcome Error (Machine Key)) := by decide
    have hstep : (Instruction.initializeIndicesChunk Trace.bob : Instruction Key Error).exec
        singleItem = .ok forSale := by decide
    exact .step (.init (by decide) hinit) (by decide) (by decide) hstep
  initialized := rfl

/-- The creation of the tree, which `willy_wonka` signed. -/
def treeHistory : List (Executed Term Key) :=
  [State.empty.executed [Trace.creator] Trace.createTree]

theorem reachable_created : Reachable treeHistory Trace.created :=
  .step .refl (State.takes_after ⟨rfl, 0, Trace.fresh_zeroed⟩ (by decide +kernel))

theorem nothingMinted_treeHistory : NothingMinted Trace.creator treeHistory := by
  intro x hx _
  obtain rfl := List.mem_singleton.1 hx
  rfl

/-- Sells one item to the first owner. -/
def Drop.sellOne (self : Drop Term Key) : Outcome Error (Drop Term Key × List (Sold Term Key)) :=
  self.findAndMintCompressedNfts Trace.creator Trace.alice Trace.slab (fun _ => 0) true 1 1

/-- The accounts after the sale, and what was sold. -/
def oneSold : Drop Term Key × List (Sold Term Key) :=
  match Drop.sellOne ⟨forSale, Trace.created⟩ with
  | .ok res => res
  | _ => (⟨forSale, Trace.created⟩, [])

theorem steps_oneSold : Steps (Drop.Step Trace.creator) ⟨forSale, Trace.created⟩
    [.sale oneSold.2] oneSold.1 := by
  have hok : (Drop.sellOne ⟨forSale, Trace.created⟩ matches .ok _) = true := by decide +kernel
  have hsell : Drop.sellOne ⟨forSale, Trace.created⟩ = .ok oneSold := by
    rw [oneSold]
    split at hok
    · rename_i res hres
      rw [hres]
    · cases hok
  exact .step .refl (.sale hsell)

-- there is nothing left to sell
example : (Drop.sellOne oneSold.1 matches .ok _) = false := by
  decide +kernel

/-- Metadata for the other token program that hash the same. -/
def otherMetadata : MetadataArgs Key := { Trace.metadata with sellerFeeBasisPoints := 0 }

/-- The owner redeems the item. -/
def redeemItem : Bubblegum.Instruction Term Key :=
  .redeem Trace.slab Trace.alice Trace.alice (oneSold.1.bubblegum.root Trace.slab)
    (LeafHash.hashMetadata otherMetadata) Trace.creatorHash 0 0 []

/-- The owner decompresses it. -/
def decompressItem : Bubblegum.Instruction Term Key :=
  .decompressV1 (ProgramAddress.voucher Trace.slab 0) Trace.alice otherMetadata true

end OneItem

end Candyland.GumballMachine
