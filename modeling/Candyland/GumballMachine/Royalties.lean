import Candyland.GumballMachine.Effects
import Candyland.GumballMachine.Metadata
import Candyland.SugarShack.Payments

/-!
# Royalties

The shares that a machine is initialised with are those that a purchase of one of its items
pays.  The machine bounds their sum as a byte, and the marketplace relies on the sum as a
number.
-/

namespace Candyland.GumballMachine

open ConcurrentMerkleTree (NodeHash)
open Gummyroll (Build)
open Bubblegum (LeafHash ProgramAddress MetadataArgs)
open SugarShack (totalShares MarketAddress SafeMath LawfulSafeMath SystemProgram ProofAccount
  MarketplaceProperties)

variable {Pubkey ε : Type}

/-! ### The sum of the shares -/

section Sum

variable [Build]

/-- The sum is taken modulo 256, or it panics. -/
theorem sumShares_eq (shares : List UInt8) (sum : UInt8) :
    (sumShares shares sum : Outcome ε UInt8) =
      if Build.overflowChecks = true ∧ 2 ^ 8 ≤ sum.toNat + totalShares shares then .panic
      else .ok (UInt8.ofNat (sum.toNat + totalShares shares)) := by
  induction shares generalizing sum with
  | nil =>
    have hsum := sum.toNat_lt
    rw [sumShares, SugarShack.totalShares_nil, Nat.add_zero, if_neg (by omega), UInt8.ofNat_toNat]
  | cons share shares ih =>
    rw [sumShares, SugarShack.totalShares_cons, ih]
    cases hbuild : Build.overflowChecks with
    | true =>
      simp only [Bool.true_and, decide_eq_true_eq, true_and]
      by_cases hlt : sum.toNat + share.toNat < 2 ^ 8
      · have hadd : (sum + share).toNat = sum.toNat + share.toNat := by
          rw [UInt8.toNat_add]
          exact Nat.mod_eq_of_lt hlt
        rw [if_neg (by omega), hadd, Nat.add_assoc]
      · rw [if_pos (by omega), if_pos (by omega)]
    | false =>
      simp only [Bool.false_and, Bool.false_eq_true, if_false, false_and]
      congr 1
      rw [← UInt8.toNat_inj]
      simp only [UInt8.toNat_ofNat', UInt8.toNat_add]
      omega

variable [ZeroKey Pubkey]

/-- The creators that a machine is initialised with. -/
theorem creatorsOf_eq_ok {creatorKeys : List Pubkey} {creatorShares : List UInt8}
    {creators : Vector (GumballCreatorAdapter Pubkey) 5} :
    (creatorsOf creatorKeys creatorShares : Outcome ε _) = .ok creators ↔
      creatorKeys.length = creatorShares.length ∧ creatorKeys.length < numCreators ∧
        ¬ (Build.overflowChecks = true ∧ 256 ≤ totalShares creatorShares) ∧
        totalShares creatorShares % 256 ≤ 100 ∧
        creators = creatorArray creatorKeys creatorShares := by
  have hsum : (UInt8.ofNat (totalShares creatorShares) ≤ 100) ↔
      totalShares creatorShares % 256 ≤ 100 := by
    rw [UInt8.le_iff_toNat_le, UInt8.toNat_ofNat']
    rfl
  constructor
  · intro h
    obtain ⟨⟨⟩, hlen, h⟩ := Outcome.bind_eq_ok.1 h
    obtain ⟨⟨⟩, hlt, h⟩ := Outcome.bind_eq_ok.1 h
    obtain ⟨sum, hsum', h⟩ := Outcome.bind_eq_ok.1 h
    obtain ⟨⟨⟩, hle, h⟩ := Outcome.bind_eq_ok.1 h
    have hle := Outcome.assert_eq_ok.1 hle
    have hcreators := Outcome.ok.inj h
    rw [sumShares_eq] at hsum'
    split_ifs at hsum' with hover
    rw [← Outcome.ok.inj hsum'] at hle
    simp only [UInt8.toNat_zero, Nat.zero_add] at hle hover
    exact ⟨Outcome.assert_eq_ok.1 hlen, Outcome.assert_eq_ok.1 hlt, hover, hsum.1 hle,
      hcreators.symm⟩
  · rintro ⟨hlen, hlt, hover, hle, rfl⟩
    rw [creatorsOf, Outcome.assert_of hlen, Outcome.ok_bind, Outcome.assert_of hlt,
      Outcome.ok_bind, sumShares_eq, if_neg (by simpa using hover), Outcome.ok_bind,
      Outcome.assert_of (by simpa using hsum.2 hle), Outcome.ok_bind]

omit [Build] in
/-- The shares of the array are those of the arguments. -/
theorem totalShares_creatorArray {creatorKeys : List Pubkey} {creatorShares : List UInt8}
    (hlen : creatorKeys.length = creatorShares.length) (hlt : creatorKeys.length < numCreators) :
    totalShares ((creatorArray creatorKeys creatorShares).toList.map (·.share)) =
      totalShares creatorShares := by
  have hshares : (creatorArray creatorKeys creatorShares).toList.map (·.share) =
      creatorShares ++ List.replicate (5 - creatorShares.length) 0 := by
    rw [numCreators] at hlt
    refine List.ext_getElem (by simp; omega) fun i hi _ => ?_
    simp only [List.length_map, Vector.length_toList] at hi
    simp only [creatorArray, List.getElem_map, Vector.getElem_toList, Vector.getElem_ofFn]
    rcases Nat.lt_or_ge i creatorShares.length with hin | hout
    · rw [List.getElem_append_left hin, List.getElem?_eq_getElem hin,
        List.getElem?_eq_getElem (hlen ▸ hin)]
    · rw [List.getElem_append_right hout, List.getElem_replicate,
        List.getElem?_eq_none (hlen ▸ hout)]
      rfl
  rw [hshares, totalShares, totalShares]
  simp

omit [Build] [ZeroKey Pubkey] in
/-- Filtering creators does not raise the sum. -/
theorem totalShares_filter_le (p : GumballCreatorAdapter Pubkey → Bool)
    (creators : List (GumballCreatorAdapter Pubkey)) :
    totalShares ((creators.filter p).map (·.share)) ≤ totalShares (creators.map (·.share)) := by
  rw [totalShares, totalShares]
  exact List.Sublist.sum_le_sum ((List.filter_sublist.map _).map _) fun _ _ => Nat.zero_le _

end Sum

/-! ### The creators of a machine -/

section Machines

variable [DecidableEq Pubkey] [Build]

/-- A successful instruction; a `Vec` has at most `isize::MAX` bytes. -/
def Instruction.Runs (machine : Machine Pubkey) (ins : Instruction Pubkey ε)
    (machine' : Machine Pubkey) : Prop :=
  ins.data.length < 2 ^ 63 ∧ ins.exec machine = .ok machine'

/-- No instruction changes the creators. -/
theorem Instruction.Runs.creators {machine machine' : Machine Pubkey} {ins : Instruction Pubkey ε}
    (h : ins.Runs machine machine') : machine'.header.creators = machine.header.creators := by
  obtain ⟨hdata, h⟩ := h
  cases ins with
  | initializeIndicesChunk authority => rw [(Machine.initializeIndicesChunk_ok h).header_eq]
  | addConfigLines authority data =>
    rw [(Machine.addConfigLines_ok hdata h).made.header_eq, Machine.addedHeader]
  | updateConfigLines authority startingLine data => rw [(Machine.updateConfigLines_frame h).1]
  | updateHeaderMetadata authority update =>
    obtain ⟨⟨⟩, -, h⟩ := Outcome.bind_eq_ok.1 h
    obtain rfl := Outcome.ok.inj h
    rfl
  | dispense validTransaction unixTimestamp entropy mint numItems =>
    rw [(Instruction.exec_dispense h).header_eq]

theorem creators_of_steps {machine machine' : Machine Pubkey}
    {instructions : List (Instruction Pubkey ε)}
    (h : Steps (fun machine ins machine' => Instruction.Runs machine ins machine') machine
      instructions machine') : machine'.header.creators = machine.header.creators := by
  refine h.invariant (I := fun _ m => m.header.creators = machine.header.creators) rfl ?_
  intro as t a t' _ ih hruns
  exact hruns.creators.trans ih

variable [ZeroKey Pubkey]

omit [DecidableEq Pubkey] in
/-- A machine has the creators of its initialisation. -/
theorem Machine.initializeWithCreators_ok {header : GumballMachineHeader Pubkey}
    {creatorKeys : List Pubkey} {creatorShares configData : List UInt8}
    {machine : Machine Pubkey} (h : Machine.initializeWithCreators header creatorKeys creatorShares
      configData = (.ok machine : Outcome ε _)) :
    creatorsOf creatorKeys creatorShares = (.ok machine.header.creators : Outcome ε _) := by
  obtain ⟨creators, hcreators, h⟩ := Outcome.bind_eq_ok.1 h
  obtain ⟨configSize, -, h⟩ := Outcome.bind_eq_ok.1 h
  obtain ⟨dataSize, -, h⟩ := Outcome.bind_eq_ok.1 h
  obtain ⟨⟨⟩, -, h⟩ := Outcome.bind_eq_ok.1 h
  obtain rfl := Outcome.ok.inj h
  exact hcreators

omit [Build] in
/-- The creators of the metadata are the valid ones of the machine. -/
theorem metadataOf_creators {header : GumballMachineHeader Pubkey} {nftIndex : ℕ}
    {configLine : List UInt8} {metadata : MetadataArgs Pubkey}
    (h : metadataOf header nftIndex configLine = (.ok metadata : Outcome ε _)) :
    metadata.creators = (header.creators.toList.filter (·.isValid)).map (·.adapt) := by
  obtain ⟨encodeMethod, -, h⟩ := Outcome.bind_eq_ok.1 h
  obtain ⟨nameBase, -, h⟩ := Outcome.bind_eq_ok.1 h
  obtain ⟨symbol, -, h⟩ := Outcome.bind_eq_ok.1 h
  obtain ⟨uriBase, -, h⟩ := Outcome.bind_eq_ok.1 h
  obtain ⟨config, -, h⟩ := Outcome.bind_eq_ok.1 h
  obtain rfl := Outcome.ok.inj h
  rfl

/-- A header without items. -/
def blankHeader : GumballMachineHeader Pubkey where
  urlBase := Vector.replicate 64 0
  nameBase := Vector.replicate 32 0
  symbol := Vector.replicate 8 0
  sellerFeeBasisPoints := 0
  isMutable := 0
  retainAuthority := 0
  configLineEncodeMethod := 1
  creators := Vector.replicate 5 .default
  price := 0
  goLiveDate := 0
  mint := ZeroKey.zero
  botWallet := ZeroKey.zero
  receiver := ZeroKey.zero
  authority := ZeroKey.zero
  collectionKey := ZeroKey.zero
  extensionLen := 0
  maxMintSize := 1
  remaining := 0
  maxItems := 0
  totalItemsAdded := 0
  smallestUninitializedIndex := 0

omit [DecidableEq Pubkey] in
/-- A machine without items is initialised with any accepted creators. -/
theorem exists_machine {creatorKeys : List Pubkey} {creatorShares : List UInt8}
    {creators : Vector (GumballCreatorAdapter Pubkey) 5}
    (h : creatorsOf creatorKeys creatorShares = (.ok creators : Outcome ε _)) :
    ∃ machine, Machine.initializeWithCreators blankHeader creatorKeys creatorShares [] =
      (.ok machine : Outcome ε _) := by
  have hzero : (usize 0 : Outcome ε ℕ) = .ok 0 := usize_of_lt (by norm_num)
  refine ⟨⟨{ blankHeader with creators := creators, maxMintSize := 0 }, []⟩, ?_⟩
  rw [Machine.initializeWithCreators, h, Outcome.ok_bind]
  exact Outcome.bind_eq_ok.2 ⟨0, hzero, Outcome.bind_eq_ok.2 ⟨0, hzero,
    Outcome.bind_eq_ok.2 ⟨(), rfl, rfl⟩⟩⟩

end Machines

/-! ### Purchases of items -/

section Purchase

variable {Node : Type} [NodeHash Node] [DecidableEq Node] [DecidableEq Pubkey] [Build]
  [LeafHash Node Pubkey] [ProgramAddress Pubkey] [MarketAddress Pubkey] [SafeMath]
  [SystemProgram Pubkey] [ProofAccount Node Pubkey] [ZeroKey Pubkey]

/-- The shares of the machine add up to at most 100, and a purchase of one of its items with the
creators of the item does not fail in its arithmetic. -/
def Payable (Node ε : Type) [NodeHash Node] [DecidableEq Node] [LeafHash Node Pubkey]
    [ProofAccount Node Pubkey] (creatorShares : List UInt8) (machine : Machine Pubkey) : Prop :=
  totalShares creatorShares ≤ 100 ∧
    ∀ (instructions : List (Instruction Pubkey ε)) machine',
      Steps (fun machine ins machine' => Instruction.Runs machine ins machine') machine
        instructions machine' →
    ∀ nftIndex configLine metadata,
      metadataOf machine'.header nftIndex configLine = (.ok metadata : Outcome ε _) →
    ∀ (st : SugarShack.State Node Pubkey) (props : MarketplaceProperties Pubkey),
      st.marketplaceProps = some props → props.share ≤ 10000 →
    ∀ signers formerOwner purchaser merkleSlab price dataHash nonce index root proof,
      st.purchase signers formerOwner purchaser merkleSlab price dataHash nonce index root
        (metadata.creators.map (·.share)) (metadata.creators.map (·.address) ++ proof) ≠
          .err .safeMath

variable [LawfulSafeMath]

/-- Shares of at most 100 are payable. -/
theorem payable_of_le {creatorKeys : List Pubkey} {creatorShares : List UInt8}
    {machine : Machine Pubkey} (hcreators : creatorsOf creatorKeys creatorShares =
      (.ok machine.header.creators : Outcome ε _))
    (hle : totalShares creatorShares ≤ 100) : Payable Node ε creatorShares machine := by
  refine ⟨hle, ?_⟩
  intro instructions machine' hsteps nftIndex configLine metadata hmetadata st props hprops hshare
    signers formerOwner purchaser merkleSlab price dataHash nonce index root proof
  obtain ⟨hlen, hlt, -, -, hcreators⟩ := creatorsOf_eq_ok.1 hcreators
  refine SugarShack.purchase_ne_safeMath hprops hshare (le_trans ?_ hle) _ _ _ _ _ _ _ _
    _ _
  have hshares : metadata.creators.map (·.share) =
      (machine.header.creators.toList.filter (·.isValid)).map (·.share) := by
    rw [metadataOf_creators hmetadata, creators_of_steps hsteps, List.map_map]
    rfl
  rw [hshares, ← totalShares_creatorArray hlen hlt, ← hcreators]
  exact totalShares_filter_le _ _

/-- Every machine that is initialised with some creators has payable shares, unless the sum of
the shares wraps around to at most 100. -/
theorem royalties_payable_iff (creatorKeys : List Pubkey) (creatorShares : List UInt8) :
    (∀ header configData machine, Machine.initializeWithCreators header creatorKeys creatorShares
        configData = (.ok machine : Outcome ε _) → Payable Node ε creatorShares machine) ↔
      (Build.overflowChecks = true ∨ creatorKeys.length ≠ creatorShares.length ∨
        numCreators ≤ creatorKeys.length ∨ totalShares creatorShares < 256 ∨
        100 < totalShares creatorShares % 256) := by
  constructor
  · intro h
    by_contra hnot
    simp only [not_or, not_lt, not_le, not_not] at hnot
    obtain ⟨hbuild, hlen, hlt, hge, hwrap⟩ := hnot
    have hcreators : creatorsOf creatorKeys creatorShares =
        (.ok (creatorArray creatorKeys creatorShares) : Outcome ε _) :=
      creatorsOf_eq_ok.2 ⟨hlen, hlt, fun hover => hbuild hover.1, hwrap, rfl⟩
    obtain ⟨machine, hmachine⟩ := exists_machine hcreators
    have hle := (h _ _ _ hmachine).1
    omega
  · intro hcond header configData machine hmachine
    have hcreators := Machine.initializeWithCreators_ok hmachine
    refine payable_of_le hcreators ?_
    obtain ⟨hlen, hlt, hover, hwrap, -⟩ := creatorsOf_eq_ok.1 hcreators
    rcases hcond with hbuild | hne | hge | hsmall | hbig
    · have hsmall : ¬ 256 ≤ totalShares creatorShares := fun hge => hover ⟨hbuild, hge⟩
      omega
    · exact absurd hlen hne
    · omega
    · omega
    · omega

end Purchase

section Wrapped

open ConcurrentMerkleTree (Term)
open Bubblegum (Key)

instance : ZeroKey Key := ⟨.user 9⟩

/-- A machine without items, with creators who get 60 and 40 per cent. -/
def sixtyForty : Machine Key :=
  ⟨{ blankHeader with
      creators := creatorArray [Key.user 2, .user 3] [60, 40]
      maxMintSize := 0 }, []⟩

theorem royalties_payable_sixty :
    Machine.initializeWithCreators blankHeader [Key.user 2, .user 3] [60, 40] [] =
        (.ok sixtyForty : Outcome Unit _) ∧
      Payable Term Unit [60, 40] sixtyForty := by
  have hmachine : Machine.initializeWithCreators blankHeader [Key.user 2, .user 3] [60, 40] [] =
      (.ok sixtyForty : Outcome Unit _) := by decide +kernel
  exact ⟨hmachine, (royalties_payable_iff [Key.user 2, .user 3] [60, 40]).2
    (.inr (.inr (.inr (.inl (by decide))))) _ _ _ hmachine⟩

/-- A header for one item without a config line. -/
def oneItem : GumballMachineHeader Key :=
  { blankHeader with maxItems := 1, authority := .user 1, goLiveDate := -1 }

/-- A machine after its initialisation, with creators who get 200 and 56 per cent. -/
def wrapped : Machine Key :=
  ⟨{ oneItem with creators := creatorArray [Key.user 2, .user 3] [200, 56] }, [0, 0, 0, 0]⟩

/-- The machine with its indices. -/
def chunked : Machine Key :=
  { wrapped with
    header := { wrapped.header with smallestUninitializedIndex := 1, remaining := 1 } }

/-- The machine after the sale. -/
def dispensed : Machine Key := { chunked with header := { chunked.header with remaining := 0 } }

/-- The first chunk of the indices, and the item. -/
def sale : List (Instruction Key Unit) :=
  [.dispense true 0 (fun _ => 0) (fun header nftIndex configLine => do
      let _ ← metadataOf header nftIndex configLine
      .ok ()) 1,
    .initializeIndicesChunk (.user 1)]

/-- The metadata of the item. -/
def wrappedMetadata : MetadataArgs Key where
  name := " #1"
  symbol := ""
  uri := "/Ahg1opVcGX"
  sellerFeeBasisPoints := 0
  primarySaleHappened := true
  isMutable := false
  editionNonce := none
  tokenStandard := none
  collection := none
  uses := none
  tokenProgramVersion := .Token2022
  creators := [⟨.user 2, true, 200⟩, ⟨.user 3, true, 56⟩]

/-- The sum of 200 and 56 is 0 as a byte: the machine takes the creators and sells the item, and
its purchase for 10000 lamports fails at the payments of the creators. -/
theorem shares_wrap :
    Machine.initializeWithCreators oneItem [Key.user 2, .user 3] [200, 56] [0, 0, 0, 0] =
      (.ok wrapped : Outcome Unit _) ∧ totalShares [200, 56] = 256 ∧
    (∃ machine', Steps (fun machine ins machine' => Instruction.Runs machine ins machine') wrapped
      sale machine' ∧ metadataOf machine'.header 1 (Bytes.le 8 1) =
        (.ok wrappedMetadata : Outcome Unit _)) ∧
    (SugarShack.marketplace 0).purchase [.user 3] (.user 2) (.user 3) (.user 0) 10000
      (.leaf 0) 0 0 (.leaf 0) (wrappedMetadata.creators.map (·.share))
      (wrappedMetadata.creators.map (·.address)) = .err .safeMath := by
  have hchunk : (Instruction.initializeIndicesChunk (Key.user 1) : Instruction Key Unit).exec
      wrapped = .ok chunked := by decide +kernel
  refine ⟨by decide +kernel, by decide, ?_, rfl⟩
  refine ⟨dispensed, .step (.step .refl ⟨by decide, hchunk⟩) ⟨by decide, ?_⟩, ?_⟩
  · decide +kernel
  · decide +kernel

end Wrapped

end Candyland.GumballMachine
