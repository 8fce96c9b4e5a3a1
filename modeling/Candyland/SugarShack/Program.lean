import Candyland.SugarShack.State

/-!
# The instructions of the marketplace

An instruction that fails is undone, so only `Ok` carries accounts.  The marketplace changes
assets only through calls of bubblegum, for which it signs with the address of a price when an
asset is bought.
-/

namespace Candyland.SugarShack

open ConcurrentMerkleTree (NodeHash)
open Gummyroll (Build)
open Bubblegum (LeafHash ProgramAddress)

variable {Node Pubkey : Type} [NodeHash Node] [DecidableEq Node] [DecidableEq Pubkey] [Build]
  [LeafHash Node Pubkey] [ProgramAddress Pubkey] [MarketAddress Pubkey] [SafeMath]
  [SystemProgram Pubkey] [ProofAccount Node Pubkey]

/-- The first part of `purchase`: the lamports after the fee of the marketplace was paid, and what
is left of the price. -/
def payMarketplace (purchaser : Pubkey) (price : UInt64) (share : UInt16)
    (lamports : Lamports Pubkey) : Outcome Error (Lamports Pubkey × UInt64) := do
  let basisPointOfPrice ← safe (SafeMath.safeDiv price 10000)
  let amountToPayMarketplace ← safe (SafeMath.safeMul basisPointOfPrice share.toUInt64)
  let lamports ← pay lamports purchaser MarketAddress.marketplaceProps amountToPayMarketplace
  let remaining ← safe (SafeMath.safeSub price amountToPayMarketplace)
  .ok (lamports, remaining)

/-- The loop of `purchase` over the creators: the lamports and the amount that was paid. -/
def payCreators (purchaser : Pubkey) (basisPoint : UInt64) :
    List (Pubkey × UInt8) → Lamports Pubkey → UInt64 → Outcome Error (Lamports Pubkey × UInt64)
  | [], lamports, paid => .ok (lamports, paid)
  | (creator, share) :: creators, lamports, paid => do
    let percent ← safe (SafeMath.safeMul share.toUInt64 100)
    let amount ← safe (SafeMath.safeMul basisPoint percent)
    let lamports ← pay lamports purchaser creator amount
    let paid ← safe (SafeMath.safeAdd paid amount)
    payCreators purchaser basisPoint creators lamports paid

namespace State

variable (self : State Node Pubkey) (signers : List Pubkey)

omit [NodeHash Node] [DecidableEq Node] [DecidableEq Pubkey] [Build] [LeafHash Node Pubkey]
  [ProgramAddress Pubkey] [MarketAddress Pubkey] [SafeMath] [SystemProgram Pubkey]
  [ProofAccount Node Pubkey] in
/-- The account of the properties. -/
def props : Outcome Error (MarketplaceProperties Pubkey) :=
  match self.marketplaceProps with
  | some props => .ok props
  | none => .err .constraint

omit [NodeHash Node] [DecidableEq Node] [DecidableEq Pubkey] [Build] [LeafHash Node Pubkey]
  [ProgramAddress Pubkey] [MarketAddress Pubkey] [SafeMath] [SystemProgram Pubkey]
  [ProofAccount Node Pubkey] in
@[simp] theorem props_eq_ok {self : State Node Pubkey} {props : MarketplaceProperties Pubkey} :
    self.props = .ok props ↔ self.marketplaceProps = some props := by
  rw [State.props]
  cases self.marketplaceProps <;> simp

/-- Calls bubblegum with the keys that sign. -/
def invoke (call : List Pubkey × Bubblegum.Instruction Node Pubkey) :
    Outcome Error (State Node Pubkey) := do
  let (_, bubblegum) ← ofBubblegum (call.2.exec call.1 self.bubblegum)
  .ok { self with bubblegum := bubblegum }

/-- `initialize_marketplace(royalty_share, authority)`. -/
def initializeMarketplace (payer : Pubkey) (royaltyShare : UInt16) (authority : Pubkey) :
    Outcome Error (State Node Pubkey) := do
  constraint (payer ∈ signers)
  constraint (self.marketplaceProps = none)
  Outcome.assert (royaltyShare ≤ 10000)
  .ok { self with marketplaceProps := some ⟨authority, royaltyShare, MarketAddress.bump Pubkey⟩ }

/-- `update_marketplace_properties(authority, share)`, signed by `signer`. -/
def updateMarketplaceProperties (signer : Pubkey) (authority : Option Pubkey)
    (share : Option UInt16) : Outcome Error (State Node Pubkey) := do
  constraint (signer ∈ signers)
  let props ← self.props
  Outcome.assert (signer = props.authority)
  .ok { self with marketplaceProps := some { props with
    authority := authority.getD props.authority
    share := share.getD props.share } }

/-- `purchase(price, data_hash, nonce, index, root, creator_shares)`.  The remaining accounts are
the creators and behind them the proof. -/
def purchase (formerOwner purchaser merkleSlab : Pubkey) (price : UInt64) (dataHash : Node)
    (nonce : UInt64) (index : UInt32) (root : Node) (creatorShares : List UInt8)
    (remainingAccounts : List Pubkey) : Outcome Error (State Node Pubkey) := do
  constraint (purchaser ∈ signers)
  let props ← self.props
  let (lamports, remaining) ← payMarketplace purchaser price props.share self.lamports
  let basisPointOfRemaining ← safe (SafeMath.safeDiv remaining 10000)
  Outcome.assert (creatorShares.length ≤ remainingAccounts.length)
  let creators := (remainingAccounts.take creatorShares.length).zip creatorShares
  let proof := (remainingAccounts.drop creatorShares.length).map ProofAccount.node
  let (lamports, paid) ← payCreators purchaser basisPointOfRemaining creators lamports 0
  let remaining ← safe (SafeMath.safeSub remaining paid)
  let lamports ← pay lamports purchaser formerOwner remaining
  let listingDelegate := MarketAddress.listing price
  { self with lamports := lamports }.invoke ([listingDelegate],
    .transfer merkleSlab formerOwner listingDelegate purchaser root dataHash
      (LeafHash.hashCreators creators) nonce index proof)

/-- `withdraw_fees(lamports_to_withdraw)`, signed by `signer`; `isExempt` is the check of the
rent. -/
def withdrawFees (feePayoutRecipient signer : Pubkey) (isExempt : UInt64 → Bool)
    (lamportsToWithdraw : UInt64) : Outcome Error (State Node Pubkey) := do
  constraint (signer ∈ signers)
  let props ← self.props
  Outcome.assert (signer = props.authority)
  let balance ← safe
    (SafeMath.safeSub (self.lamports MarketAddress.marketplaceProps) lamportsToWithdraw)
  Outcome.assert (isExempt balance = true)
  let lamports := Function.update self.lamports MarketAddress.marketplaceProps balance
  let received ← safe (SafeMath.safeAdd (lamports feePayoutRecipient) lamportsToWithdraw)
  .ok { self with lamports := Function.update lamports feePayoutRecipient received }

end State

/-! ### What a purchase does -/

/-- The call of bubblegum that a purchase makes, which the address of the price signs. -/
def purchaseCall (formerOwner purchaser merkleSlab : Pubkey) (price : UInt64) (dataHash : Node)
    (nonce : UInt64) (index : UInt32) (root : Node) (creatorShares : List UInt8)
    (remainingAccounts : List Pubkey) : List Pubkey × Bubblegum.Instruction Node Pubkey :=
  ([MarketAddress.listing price], .transfer merkleSlab formerOwner (MarketAddress.listing price)
    purchaser root dataHash
    (LeafHash.hashCreators ((remainingAccounts.take creatorShares.length).zip creatorShares)) nonce
    index ((remainingAccounts.drop creatorShares.length).map ProofAccount.node))

/-- A successful purchase pays, and then calls bubblegum. -/
theorem State.purchase_ok {st st' : State Node Pubkey} {signers : List Pubkey}
    {formerOwner purchaser merkleSlab : Pubkey} {price : UInt64} {dataHash : Node}
    {nonce : UInt64} {index : UInt32} {root : Node} {creatorShares : List UInt8}
    {remainingAccounts : List Pubkey}
    (h : st.purchase signers formerOwner purchaser merkleSlab price dataHash nonce index root
      creatorShares remainingAccounts = .ok st') :
    purchaser ∈ signers ∧ creatorShares.length ≤ remainingAccounts.length ∧
      ∃ lamports, State.invoke { st with lamports := lamports } (purchaseCall formerOwner purchaser
        merkleSlab price dataHash nonce index root creatorShares remainingAccounts) = .ok st' := by
  obtain ⟨⟨⟩, hsigner, h⟩ := Outcome.bind_eq_ok.1 h
  obtain ⟨props, -, h⟩ := Outcome.bind_eq_ok.1 h
  obtain ⟨⟨lamports, remaining⟩, -, h⟩ := Outcome.bind_eq_ok.1 h
  obtain ⟨basisPoint, -, h⟩ := Outcome.bind_eq_ok.1 h
  obtain ⟨⟨⟩, hlen, h⟩ := Outcome.bind_eq_ok.1 h
  obtain ⟨⟨lamports₁, paid⟩, -, h⟩ := Outcome.bind_eq_ok.1 h
  obtain ⟨rest, -, h⟩ := Outcome.bind_eq_ok.1 h
  obtain ⟨lamports₂, -, h⟩ := Outcome.bind_eq_ok.1 h
  exact ⟨constraint_eq_ok.1 hsigner, Outcome.assert_eq_ok.1 hlen, lamports₂, h⟩

omit [MarketAddress Pubkey] [SafeMath] [SystemProgram Pubkey] [ProofAccount Node Pubkey] in
/-- A call of bubblegum leaves the other accounts. -/
theorem State.invoke_ok {st st' : State Node Pubkey}
    {call : List Pubkey × Bubblegum.Instruction Node Pubkey} (h : st.invoke call = .ok st') :
    st'.marketplaceProps = st.marketplaceProps ∧
      ∃ events, call.2.exec call.1 st.bubblegum = .ok (events, st'.bubblegum) := by
  obtain ⟨⟨events, bubblegum⟩, hcall, h⟩ := Outcome.bind_eq_ok.1 h
  obtain rfl := Outcome.ok.inj h
  exact ⟨rfl, events, ofBubblegum_eq_ok.1 hcall⟩

/-! ### Runs -/

/-- An instruction of the marketplace or of bubblegum, with its arguments and its accounts. -/
inductive Instruction (Node Pubkey : Type) where
  | bubblegum (ins : Bubblegum.Instruction Node Pubkey)
  | initializeMarketplace (payer : Pubkey) (royaltyShare : UInt16) (authority : Pubkey)
  | updateMarketplaceProperties (signer : Pubkey) (authority : Option Pubkey)
      (share : Option UInt16)
  | createOrModifyListing (owner formerDelegate merkleSlab : Pubkey) (price : UInt64)
      (dataHash creatorHash : Node) (nonce : UInt64) (index : UInt32) (root : Node)
      (proof : List Node)
  | removeListing (owner formerDelegate newDelegate merkleSlab : Pubkey)
      (dataHash creatorHash : Node) (nonce : UInt64) (index : UInt32) (root : Node)
      (proof : List Node)
  | purchase (formerOwner purchaser merkleSlab : Pubkey) (price : UInt64) (dataHash : Node)
      (nonce : UInt64) (index : UInt32) (root : Node) (creatorShares : List UInt8)
      (remainingAccounts : List Pubkey)
  | withdrawFees (feePayoutRecipient signer : Pubkey) (isExempt : UInt64 → Bool)
      (lamportsToWithdraw : UInt64)

omit [NodeHash Node] [DecidableEq Node] [DecidableEq Pubkey] [Build] [LeafHash Node Pubkey]
  [ProgramAddress Pubkey] [MarketAddress Pubkey] [SafeMath] [SystemProgram Pubkey]
  [ProofAccount Node Pubkey] in
/-- `modify_compressed_nft_delegate(..)`: the call of bubblegum, which the owner signs. -/
def modifyCompressedNftDelegate (owner formerDelegate newDelegate merkleSlab : Pubkey)
    (dataHash creatorHash : Node) (nonce : UInt64) (index : UInt32) (root : Node)
    (proof : List Node) : List Pubkey × Bubblegum.Instruction Node Pubkey :=
  ([owner], .delegate merkleSlab owner formerDelegate newDelegate root dataHash creatorHash nonce
    index proof)

namespace Instruction

/-- Executes the instruction. -/
def exec (ins : Instruction Node Pubkey) (signers : List Pubkey) (st : State Node Pubkey) :
    Outcome Error (State Node Pubkey) :=
  match ins with
  | bubblegum ins => st.invoke (signers, ins)
  | initializeMarketplace payer royaltyShare authority =>
    st.initializeMarketplace signers payer royaltyShare authority
  | updateMarketplaceProperties signer authority share =>
    st.updateMarketplaceProperties signers signer authority share
  | createOrModifyListing owner formerDelegate merkleSlab price dataHash creatorHash nonce index
      root proof => do
    constraint (owner ∈ signers)
    st.invoke (modifyCompressedNftDelegate owner formerDelegate (MarketAddress.listing price)
      merkleSlab dataHash creatorHash nonce index root proof)
  | removeListing owner formerDelegate newDelegate merkleSlab dataHash creatorHash nonce index
      root proof => do
    constraint (owner ∈ signers)
    st.invoke (modifyCompressedNftDelegate owner formerDelegate newDelegate merkleSlab dataHash
      creatorHash nonce index root proof)
  | purchase formerOwner purchaser merkleSlab price dataHash nonce index root creatorShares
      remainingAccounts =>
    st.purchase signers formerOwner purchaser merkleSlab price dataHash nonce index root
      creatorShares remainingAccounts
  | withdrawFees feePayoutRecipient signer isExempt lamportsToWithdraw =>
    st.withdrawFees signers feePayoutRecipient signer isExempt lamportsToWithdraw

end Instruction

/-- An instruction with the keys that signed it. -/
structure Executed (Node Pubkey : Type) where
  signers : List Pubkey
  instruction : Instruction Node Pubkey

omit [DecidableEq Node] [DecidableEq Pubkey] [Build] [LeafHash Node Pubkey]
  [ProgramAddress Pubkey] [MarketAddress Pubkey] [SafeMath] [SystemProgram Pubkey]
  [ProofAccount Node Pubkey] in
/-- An account that `create_tree` is given holds nothing but zero bytes. -/
def Instruction.Allocated : Instruction Node Pubkey → Prop
  | bubblegum ins => ins.Allocated
  | _ => True

/-- The instruction takes one state to the other.  Nobody but the marketplace signs with the
address of a price. -/
structure Executed.Takes (st : State Node Pubkey) (x : Executed Node Pubkey)
    (st' : State Node Pubkey) : Prop where
  signers : ∀ price, MarketAddress.listing price ∉ x.signers
  allocated : x.instruction.Allocated
  exec : x.instruction.exec x.signers st = .ok st'

/-- The states that successful instructions reach from no accounts but lamports, newest first. -/
def Reachable (history : List (Executed Node Pubkey)) (st : State Node Pubkey) : Prop :=
  ∃ lamports, Steps Executed.Takes ⟨Bubblegum.State.empty, none, lamports⟩ history st

end Candyland.SugarShack
