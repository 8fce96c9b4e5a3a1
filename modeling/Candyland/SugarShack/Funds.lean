import Candyland.Lib.Postings
import Candyland.SugarShack.Listings
import Candyland.SugarShack.PurchaseSplit

/-!
# The funds of the marketplace

The fees are kept in the account of the properties, from where only `withdraw_fees` takes them.
A purchase is a list of postings of its purchaser, so along every run the account gains what
purchases pay into it and loses what the authority withdraws.  Rent that is paid for new accounts
never touches it once it exists.
-/

namespace Candyland.SugarShack

open ConcurrentMerkleTree (NodeHash)
open Gummyroll (Build)
open Bubblegum (LeafHash ProgramAddress)
open Posting (Moves)

/-- The lamports of an account as a number. -/
def balance {Pubkey : Type} (lamports : Lamports Pubkey) (key : Pubkey) : ℕ := (lamports key).toNat

/-- A transfer that succeeds takes the lamports from one account and gives them to the other. -/
class LawfulSystemProgram (Pubkey : Type) [DecidableEq Pubkey] [SystemProgram Pubkey] : Prop where
  transfer_moves {source recipient : Pubkey} {amount : UInt64}
    {lamports lamports' : Lamports Pubkey}
    (h : SystemProgram.transfer source recipient amount lamports = some lamports') :
    Moves (balance lamports) [⟨source, recipient, amount.toNat⟩] (balance lamports')

/-! ### Checked arithmetic that succeeds -/

section Arithmetic

variable [SafeMath] [LawfulSafeMath] {a b c : UInt64}

theorem safeAdd_ok (h : safe (SafeMath.safeAdd a b) = .ok c) : c.toNat = a.toNat + b.toNat := by
  rw [safe_eq_ok, LawfulSafeMath.safeAdd_eq] at h
  split_ifs at h with hlt
  obtain rfl := Option.some.inj h
  exact toNat_ofNat_of_lt hlt

theorem safeSub_ok (h : safe (SafeMath.safeSub a b) = .ok c) :
    b.toNat ≤ a.toNat ∧ c.toNat = a.toNat - b.toNat := by
  have ha := a.toNat_lt
  rw [safe_eq_ok, LawfulSafeMath.safeSub_eq] at h
  split_ifs at h with hle
  obtain rfl := Option.some.inj h
  exact ⟨hle, toNat_ofNat_of_lt (by omega)⟩

theorem safeMul_ok (h : safe (SafeMath.safeMul a b) = .ok c) : c.toNat = a.toNat * b.toNat := by
  rw [safe_eq_ok, LawfulSafeMath.safeMul_eq] at h
  split_ifs at h with hlt
  obtain rfl := Option.some.inj h
  exact toNat_ofNat_of_lt hlt

theorem safeDiv_tenThousand_ok (h : safe (SafeMath.safeDiv a 10000) = .ok c) :
    c.toNat = a.toNat / 10000 := by
  have ha := a.toNat_lt
  rw [safeDiv_tenThousand] at h
  obtain rfl := Outcome.ok.inj h
  exact toNat_ofNat_of_lt (by omega)

end Arithmetic

/-! ### Payments that succeed -/

section Payments

variable {Pubkey : Type} [MarketAddress Pubkey] [SafeMath] [SystemProgram Pubkey]
  [DecidableEq Pubkey] [LawfulSystemProgram Pubkey] {lamports lamports' : Lamports Pubkey}
  {source recipient purchaser : Pubkey} {amount basisPoint paid paid' price remaining : UInt64}
  {share : UInt16}

omit [MarketAddress Pubkey] [SafeMath] in
theorem pay_ok (h : pay lamports source recipient amount = .ok lamports') :
    Moves (balance lamports) [⟨source, recipient, amount.toNat⟩] (balance lamports') := by
  rw [pay] at h
  split at h
  · rename_i lamports₁ heq
    obtain rfl := Outcome.ok.inj h
    exact LawfulSystemProgram.transfer_moves heq
  · cases h

variable [LawfulSafeMath]

/-- The fee was at most the price. -/
theorem payMarketplace_ok
    (h : payMarketplace purchaser price share lamports = .ok (lamports', remaining)) :
    fee price share ≤ price.toNat ∧ remaining.toNat = price.toNat - fee price share ∧
      Moves (balance lamports) [⟨purchaser, MarketAddress.marketplaceProps, fee price share⟩]
        (balance lamports') := by
  obtain ⟨basisPoint, hbasis, h⟩ := Outcome.bind_eq_ok.1 h
  obtain ⟨amount, hamount, h⟩ := Outcome.bind_eq_ok.1 h
  obtain ⟨lamports₁, hpay, h⟩ := Outcome.bind_eq_ok.1 h
  obtain ⟨remaining₁, hrem, h⟩ := Outcome.bind_eq_ok.1 h
  obtain ⟨rfl, rfl⟩ := Prod.mk.inj (Outcome.ok.inj h)
  have hfee : amount.toNat = fee price share := by
    rw [safeMul_ok hamount, safeDiv_tenThousand_ok hbasis, UInt16.toNat_toUInt64, fee]
  obtain ⟨hle, hsub⟩ := safeSub_ok hrem
  rw [hfee] at hle hsub
  have hmoves := pay_ok hpay
  rw [hfee] at hmoves
  exact ⟨hle, hsub, hmoves⟩

/-- What a creator gets. -/
def creatorPosting (purchaser : Pubkey) (basisPoint : ℕ) (creator : Pubkey × UInt8) :
    Posting Pubkey :=
  ⟨purchaser, creator.1, basisPoint * 100 * creator.2.toNat⟩

omit [MarketAddress Pubkey] in
/-- The loop over the creators counts what it pays. -/
theorem payCreators_ok {creators : List (Pubkey × UInt8)}
    (h : payCreators purchaser basisPoint creators lamports paid = .ok (lamports', paid')) :
    paid'.toNat = paid.toNat + basisPoint.toNat * 100 * totalShares (creators.map Prod.snd) ∧
      Moves (balance lamports) (creators.map (creatorPosting purchaser basisPoint.toNat))
        (balance lamports') := by
  induction creators generalizing lamports paid with
  | nil =>
    obtain ⟨rfl, rfl⟩ := Prod.mk.inj (Outcome.ok.inj h)
    exact ⟨rfl, Moves.refl _⟩
  | cons c creators ih =>
    obtain ⟨creator, share⟩ := c
    obtain ⟨percent, hpercent, h⟩ := Outcome.bind_eq_ok.1 h
    obtain ⟨amount, hamount, h⟩ := Outcome.bind_eq_ok.1 h
    obtain ⟨lamports₁, hpay, h⟩ := Outcome.bind_eq_ok.1 h
    obtain ⟨paid₁, hadd, h⟩ := Outcome.bind_eq_ok.1 h
    obtain ⟨hpaid, hmoves⟩ := ih h
    have hvalue : amount.toNat = basisPoint.toNat * 100 * share.toNat := by
      rw [safeMul_ok hamount, safeMul_ok hpercent, UInt8.toNat_toUInt64,
        show (100 : UInt64).toNat = 100 from rfl]
      ring
    refine ⟨?_, ?_⟩
    · rw [hpaid, safeAdd_ok hadd, hvalue, List.map_cons, totalShares_cons]
      ring
    · have hfirst := pay_ok hpay
      rw [hvalue] at hfirst
      exact hfirst.trans hmoves

end Payments

/-! ### Purchases -/

section Purchase

variable {Node Pubkey : Type} [NodeHash Node] [DecidableEq Node] [DecidableEq Pubkey] [Build]
  [LeafHash Node Pubkey] [ProgramAddress Pubkey] [MarketAddress Pubkey] [SafeMath]
  [SystemProgram Pubkey] [ProofAccount Node Pubkey] {st st' : State Node Pubkey}

/-- The payments of a purchase. -/
def purchasePostings (share : UInt16) (formerOwner purchaser : Pubkey) (price : UInt64)
    (creatorShares : List UInt8) (remainingAccounts : List Pubkey) : List (Posting Pubkey) :=
  let remaining := price.toNat - fee price share
  let creators := (remainingAccounts.take creatorShares.length).zip creatorShares
  ⟨purchaser, MarketAddress.marketplaceProps, fee price share⟩ ::
    (creators.map (creatorPosting purchaser (remaining / 10000)) ++
      [⟨purchaser, formerOwner, remaining - remaining / 10000 * 100 * totalShares creatorShares⟩])

omit [MarketAddress Pubkey] [SafeMath] [SystemProgram Pubkey] [ProofAccount Node Pubkey] in
theorem State.invoke_lamports {call : List Pubkey × Bubblegum.Instruction Node Pubkey}
    (h : st.invoke call = .ok st') : st'.lamports = st.lamports := by
  obtain ⟨res, -, h⟩ := Outcome.bind_eq_ok.1 h
  obtain rfl := Outcome.ok.inj h
  rfl

omit [NodeHash Node] [DecidableEq Node] [DecidableEq Pubkey] [Build] [LeafHash Node Pubkey]
  [ProgramAddress Pubkey] [MarketAddress Pubkey] [SafeMath] [SystemProgram Pubkey]
  [ProofAccount Node Pubkey] in
/-- The creators together. -/
theorem sum_creatorPosting (purchaser : Pubkey) (basisPoint : ℕ)
    (creators : List (Pubkey × UInt8)) :
    ((creators.map (creatorPosting purchaser basisPoint)).map Posting.amount).sum =
      basisPoint * 100 * totalShares (creators.map Prod.snd) := by
  induction creators with
  | nil => rfl
  | cons c creators ih =>
    simp only [List.map_cons, List.sum_cons, totalShares_cons, creatorPosting] at ih ⊢
    rw [ih]
    ring

/-- A purchase makes its payments, whatever the shares are, and they add up to the price. -/
theorem State.purchase_moves [LawfulSafeMath] [LawfulSystemProgram Pubkey]
    {signers : List Pubkey} {formerOwner purchaser merkleSlab : Pubkey} {price : UInt64}
    {dataHash : Node} {nonce : UInt64} {index : UInt32} {root : Node} {creatorShares : List UInt8}
    {remainingAccounts : List Pubkey} {props : MarketplaceProperties Pubkey}
    (hprops : st.marketplaceProps = some props)
    (h : st.purchase signers formerOwner purchaser merkleSlab price dataHash nonce index root
      creatorShares remainingAccounts = .ok st') :
    let postings := purchasePostings props.share formerOwner purchaser price creatorShares
      remainingAccounts
    Moves (balance st.lamports) postings (balance st'.lamports) ∧
      (postings.map Posting.amount).sum = price.toNat := by
  obtain ⟨⟨⟩, -, h⟩ := Outcome.bind_eq_ok.1 h
  obtain ⟨props', hprops', h⟩ := Outcome.bind_eq_ok.1 h
  obtain rfl : props' = props :=
    Option.some.inj ((State.props_eq_ok.1 hprops').symm.trans hprops)
  obtain ⟨⟨lamports, remaining⟩, hfee, h⟩ := Outcome.bind_eq_ok.1 h
  obtain ⟨basisPoint, hbasis, h⟩ := Outcome.bind_eq_ok.1 h
  obtain ⟨⟨⟩, hlen, h⟩ := Outcome.bind_eq_ok.1 h
  obtain ⟨⟨lamports₁, paid⟩, hcreators, h⟩ := Outcome.bind_eq_ok.1 h
  obtain ⟨rest, hrest, h⟩ := Outcome.bind_eq_ok.1 h
  obtain ⟨lamports₂, hpay, h⟩ := Outcome.bind_eq_ok.1 h
  obtain ⟨hle, hremaining, hfee⟩ := payMarketplace_ok hfee
  obtain ⟨hpaid, hcreators⟩ := payCreators_ok hcreators
  have hbasis' := safeDiv_tenThousand_ok hbasis
  have hsnd := (zip_creators (Outcome.assert_eq_ok.1 hlen) UInt8.toUInt64).1
  obtain ⟨hpaid', hvalue⟩ := safeSub_ok hrest
  rw [hpaid, hsnd, UInt64.toNat_zero, zero_add, hbasis', hremaining] at hpaid' hvalue
  rw [hbasis', hremaining] at hcreators
  have hlast := pay_ok hpay
  rw [hvalue] at hlast
  rw [State.invoke_lamports h]
  refine ⟨hfee.trans (hcreators.trans hlast), ?_⟩
  rw [purchasePostings, List.map_cons, List.sum_cons, List.map_append, List.sum_append,
    sum_creatorPosting, hsnd, List.map_singleton, List.sum_singleton]
  dsimp only
  omega

/-! ### Instructions -/

/-- What the marketplace gets from an instruction at a share. -/
def Instruction.fee (share : UInt16) : Instruction Node Pubkey → ℕ
  | purchase _ _ _ price _ _ _ _ _ _ => SugarShack.fee price share
  | _ => 0

/-- The payments of an instruction at a share. -/
def Instruction.postings (share : UInt16) : Instruction Node Pubkey → List (Posting Pubkey)
  | purchase formerOwner purchaser _ price _ _ _ _ creatorShares remainingAccounts =>
    purchasePostings share formerOwner purchaser price creatorShares remainingAccounts
  | withdrawFees feePayoutRecipient _ _ lamportsToWithdraw =>
    [⟨MarketAddress.marketplaceProps, feePayoutRecipient, lamportsToWithdraw.toNat⟩]
  | _ => []

/-- The price of a purchase. -/
def Instruction.price? : Instruction Node Pubkey → Option UInt64
  | purchase _ _ _ price _ _ _ _ _ _ => some price
  | _ => none

/-- The instruction is not one of bubblegum, where accounts are opened and closed. -/
def Instruction.OfMarket : Instruction Node Pubkey → Prop
  | bubblegum _ => False
  | _ => True

/-- A withdrawal leaves at least this balance. -/
def Instruction.ChecksRent (minimum : ℕ) : Instruction Node Pubkey → Prop
  | withdrawFees _ _ isExempt _ => ∀ lamports, isExempt lamports = true → minimum ≤ lamports.toNat
  | _ => True

omit [NodeHash Node] [Build] [LeafHash Node Pubkey] [ProgramAddress Pubkey] [DecidableEq Node]
  [SafeMath] [SystemProgram Pubkey] [ProofAccount Node Pubkey] in
/-- The fee is paid into the account of the properties. -/
theorem Instruction.fee_le_received (ins : Instruction Node Pubkey) (share : UInt16) :
    ins.fee share ≤ Posting.received (ins.postings share) MarketAddress.marketplaceProps := by
  cases ins with
  | purchase =>
    rw [postings, purchasePostings, Posting.received_cons, if_pos rfl]
    exact Nat.le_add_right _ _
  | _ => exact Nat.zero_le _

/-- What an instruction does to the lamports and to the properties. -/
structure Executed.Books (st : State Node Pubkey) (x : Executed Node Pubkey)
    (props : MarketplaceProperties Pubkey) (st' : State Node Pubkey) : Prop where
  moves : Moves (balance st.lamports) (x.instruction.postings props.share) (balance st'.lamports)
  total : ∀ price ∈ x.instruction.price?,
    ((x.instruction.postings props.share).map Posting.amount).sum = price.toNat
  exists_props : ∃ props', st'.marketplaceProps = some props'
  /-- Without the authority, the properties stay and only signers pay. -/
  unsigned (h : props.authority ∉ x.signers) : st'.marketplaceProps = some props ∧
    ∀ p ∈ x.instruction.postings props.share, p.source ∈ x.signers
  /-- A payment out of the account of the properties leaves its rent. -/
  rent {minimum : ℕ} (h : x.instruction.ChecksRent minimum)
    (hpda : MarketAddress.marketplaceProps ∉ x.signers)
    (hmin : minimum ≤ balance st.lamports MarketAddress.marketplaceProps) :
    minimum ≤ balance st'.lamports MarketAddress.marketplaceProps

omit [MarketAddress Pubkey] [SafeMath] [SystemProgram Pubkey] [ProofAccount Node Pubkey] [Build]
  [NodeHash Node] [DecidableEq Node] [LeafHash Node Pubkey] [ProgramAddress Pubkey] in
theorem moves_of_eq (h : st'.lamports = st.lamports) :
    Moves (balance st.lamports) [] (balance st'.lamports) := by
  rw [h]
  exact Moves.refl _

omit [NodeHash Node] [DecidableEq Node] [Build] [LeafHash Node Pubkey] [ProgramAddress Pubkey]
  [MarketAddress Pubkey] [SafeMath] [SystemProgram Pubkey] [ProofAccount Node Pubkey] in
/-- Lamports that are moved without the system program, also to the same account. -/
theorem withdraw_moves {lamports : Lamports Pubkey} {source recipient : Pubkey}
    {amount rest received : UInt64} (hle : amount.toNat ≤ (lamports source).toNat)
    (hrest : rest.toNat = (lamports source).toNat - amount.toNat)
    (hreceived : received.toNat =
      (Function.update lamports source rest recipient).toNat + amount.toNat) :
    let lamports' := Function.update (Function.update lamports source rest) recipient received
    Moves (balance lamports) [⟨source, recipient, amount.toNat⟩] (balance lamports') ∧
      rest.toNat ≤ balance lamports' source := by
  simp only [Moves, balance, Posting.paid_cons, Posting.paid_nil, Posting.received_cons,
    Posting.received_nil, Function.update_apply] at hreceived ⊢
  refine ⟨fun key => ?_, ?_⟩
  · rcases eq_or_ne recipient source with rfl | hne
    · rcases eq_or_ne key recipient with rfl | hkey
      · simp only [if_true] at hreceived ⊢
        omega
      · simp only [if_neg hkey, if_neg hkey.symm]
    · rw [if_neg hne] at hreceived
      rcases eq_or_ne key recipient with rfl | hkey
      · simp only [if_true, if_neg hne.symm]
        omega
      · rcases eq_or_ne key source with rfl | hsource
        · simp only [if_true, if_neg hkey, if_neg hkey.symm]
          omega
        · simp only [if_neg hkey, if_neg hkey.symm, if_neg hsource, if_neg hsource.symm]
  · split_ifs with heq
    · rw [if_pos heq.symm] at hreceived
      omega
    · exact le_rfl

/-- What one instruction does once there are properties. -/
theorem Executed.Takes.books [LawfulSafeMath] [LawfulSystemProgram Pubkey]
    {x : Executed Node Pubkey} {props : MarketplaceProperties Pubkey} (hx : x.Takes st st')
    (hprops : st.marketplaceProps = some props) : x.Books st props st' := by
  have h := hx.exec
  obtain ⟨signers, instruction⟩ := x
  -- an instruction that only calls bubblegum
  have hcalls {call : List Pubkey × Bubblegum.Instruction Node Pubkey}
      (hcall : st.invoke call = .ok st') (hprice : instruction.price? = none)
      (hnone : instruction.postings props.share = []) :
      Executed.Books st ⟨signers, instruction⟩ props st' := by
    have hkept := (State.invoke_ok hcall).1.trans hprops
    have hlamports := State.invoke_lamports hcall
    refine ⟨?_, fun price hp => ?_, ⟨props, hkept⟩, fun _ => ⟨hkept, ?_⟩, fun _ _ hmin => ?_⟩
    · rw [hnone]
      exact moves_of_eq hlamports
    · rw [hprice] at hp
      cases hp
    · rw [hnone]
      exact fun p hp => absurd hp List.not_mem_nil
    · rwa [hlamports]
  cases instruction with
  | bubblegum ins => exact hcalls h rfl rfl
  | createOrModifyListing | removeListing =>
    obtain ⟨⟨⟩, -, h⟩ := Outcome.bind_eq_ok.1 h
    exact hcalls h rfl rfl
  | initializeMarketplace =>
    obtain ⟨⟨⟩, -, h⟩ := Outcome.bind_eq_ok.1 h
    obtain ⟨⟨⟩, hnone, h⟩ := Outcome.bind_eq_ok.1 h
    exact absurd (hprops.symm.trans (constraint_eq_ok.1 hnone)) (by simp)
  | updateMarketplaceProperties signer authority share =>
    obtain ⟨⟨⟩, hsigner, h⟩ := Outcome.bind_eq_ok.1 h
    obtain ⟨props', hprops', h⟩ := Outcome.bind_eq_ok.1 h
    obtain ⟨⟨⟩, heq, h⟩ := Outcome.bind_eq_ok.1 h
    obtain rfl := Outcome.ok.inj h
    obtain rfl : props' = props :=
      Option.some.inj ((State.props_eq_ok.1 hprops').symm.trans hprops)
    refine ⟨Moves.refl _, fun _ hp => absurd hp (by simp [Instruction.price?]), ⟨_, rfl⟩,
      fun hnot => absurd ?_ hnot, fun _ _ hmin => hmin⟩
    rw [← Outcome.assert_eq_ok.1 heq]
    exact constraint_eq_ok.1 hsigner
  | purchase formerOwner purchaser merkleSlab price dataHash nonce index root creatorShares
      remainingAccounts =>
    obtain ⟨hsigner, -, lamports, hinvoke⟩ := State.purchase_ok h
    have hkept := (State.invoke_ok hinvoke).1.trans hprops
    obtain ⟨hmoves, htotal⟩ := State.purchase_moves hprops h
    have hsource : ∀ p ∈ purchasePostings props.share formerOwner purchaser price creatorShares
        remainingAccounts, p.source = purchaser := by
      intro p hp
      rcases List.mem_cons.1 hp with rfl | hp
      · rfl
      · rcases List.mem_append.1 hp with hp | hp
        · obtain ⟨c, -, rfl⟩ := List.mem_map.1 hp
          rfl
        · obtain rfl := List.mem_singleton.1 hp
          rfl
    refine ⟨hmoves, fun price hp => ?_, ⟨props, hkept⟩, fun _ => ⟨hkept, ?_⟩,
      fun _ hpda hmin => ?_⟩
    · obtain rfl := Option.some.inj hp
      exact htotal
    · intro p hp
      rw [hsource p hp]
      exact hsigner
    · have hgain := hmoves.le (a := MarketAddress.marketplaceProps) fun p hp heq =>
        hpda (heq ▸ (hsource p hp).symm ▸ hsigner)
      omega
  | withdrawFees feePayoutRecipient signer isExempt lamportsToWithdraw =>
    obtain ⟨⟨⟩, hsigner, h⟩ := Outcome.bind_eq_ok.1 h
    obtain ⟨props', hprops', h⟩ := Outcome.bind_eq_ok.1 h
    obtain ⟨⟨⟩, heq, h⟩ := Outcome.bind_eq_ok.1 h
    obtain ⟨rest, hrest, h⟩ := Outcome.bind_eq_ok.1 h
    obtain ⟨⟨⟩, hexempt, h⟩ := Outcome.bind_eq_ok.1 h
    obtain ⟨received, hreceived, h⟩ := Outcome.bind_eq_ok.1 h
    obtain rfl := Outcome.ok.inj h
    obtain rfl : props' = props :=
      Option.some.inj ((State.props_eq_ok.1 hprops').symm.trans hprops)
    obtain ⟨hle, hrest⟩ := safeSub_ok hrest
    obtain ⟨hmoves, hleft⟩ := withdraw_moves hle hrest (safeAdd_ok hreceived)
    refine ⟨hmoves, fun _ hp => absurd hp (by simp [Instruction.price?]), ⟨props', hprops⟩,
      fun hnot => absurd ?_ hnot, fun hrent _ _ => ?_⟩
    · rw [← Outcome.assert_eq_ok.1 heq]
      exact constraint_eq_ok.1 hsigner
    · exact (hrent rest (Outcome.assert_eq_ok.1 hexempt)).trans hleft

/-! ### Runs -/

section Runs

variable [LawfulSafeMath] [LawfulSystemProgram Pubkey] {xs : List (Executed Node Pubkey)}
  {props : MarketplaceProperties Pubkey}

/-- The balance stays above the rent that withdrawals check. -/
theorem rent_kept (hprops : st.marketplaceProps = some props) (h : Steps Executed.Takes st xs st')
    (hpda : ∀ x ∈ xs, MarketAddress.marketplaceProps ∉ x.signers) {minimum : ℕ}
    (hstart : minimum ≤ balance st.lamports MarketAddress.marketplaceProps)
    (hrent : ∀ x ∈ xs, x.instruction.ChecksRent minimum) :
    (∃ props', st'.marketplaceProps = some props') ∧
      minimum ≤ balance st'.lamports MarketAddress.marketplaceProps := by
  induction h with
  | refl => exact ⟨⟨props, hprops⟩, hstart⟩
  | @step xs t t' x h hx ih =>
    obtain ⟨⟨props', hprops'⟩, hmin⟩ := ih (fun y hy => hpda y (List.mem_cons_of_mem x hy))
      fun y hy => hrent y (List.mem_cons_of_mem x hy)
    have hbooks := hx.books hprops'
    exact ⟨hbooks.exists_props, hbooks.rent (hrent x List.mem_cons_self)
      (hpda x List.mem_cons_self) hmin⟩

/-- While the authority does not sign, the account only gains. -/
theorem fund_grows (hprops : st.marketplaceProps = some props) (h : Steps Executed.Takes st xs st')
    (hpda : ∀ x ∈ xs, MarketAddress.marketplaceProps ∉ x.signers)
    (hauthority : ∀ x ∈ xs, props.authority ∉ x.signers) :
    st'.marketplaceProps = some props ∧ balance st.lamports MarketAddress.marketplaceProps +
        (xs.map fun x => x.instruction.fee props.share).sum ≤
      balance st'.lamports MarketAddress.marketplaceProps := by
  induction h with
  | refl => exact ⟨hprops, le_rfl⟩
  | @step xs t t' x h hx ih =>
    obtain ⟨hprops', hbalance⟩ := ih (fun y hy => hpda y (List.mem_cons_of_mem x hy))
      fun y hy => hauthority y (List.mem_cons_of_mem x hy)
    have hbooks := hx.books hprops'
    obtain ⟨hkept, hsigned⟩ := hbooks.unsigned (hauthority x List.mem_cons_self)
    have hgain := hbooks.moves.le (a := MarketAddress.marketplaceProps) fun p hp heq =>
      hpda x List.mem_cons_self (heq ▸ hsigned p hp)
    have hfee := x.instruction.fee_le_received props.share
    refine ⟨hkept, ?_⟩
    rw [List.map_cons, List.sum_cons]
    omega

/-- Along every run in which the account of the properties does not sign, its balance stays above
the rent that withdrawals check, and as long as the authority does not sign, the properties stay
as they are and the account keeps what it has and gets the fee of every purchase. -/
theorem fees_kept (hprops : st.marketplaceProps = some props) (h : Steps Executed.Takes st xs st')
    (hpda : ∀ x ∈ xs, MarketAddress.marketplaceProps ∉ x.signers) :
    (∀ minimum ≤ balance st.lamports MarketAddress.marketplaceProps,
      (∀ x ∈ xs, x.instruction.ChecksRent minimum) →
        minimum ≤ balance st'.lamports MarketAddress.marketplaceProps) ∧
    ((∀ x ∈ xs, props.authority ∉ x.signers) → st'.marketplaceProps = some props ∧
      balance st.lamports MarketAddress.marketplaceProps +
          (xs.map fun x => x.instruction.fee props.share).sum ≤
        balance st'.lamports MarketAddress.marketplaceProps) :=
  ⟨fun _ hstart hrent => (rent_kept hprops h hpda hstart hrent).2, fund_grows hprops h hpda⟩

/-- A step of the marketplace with its payments, at the share of the moment. -/
structure Booked (st : State Node Pubkey) (b : Executed Node Pubkey × List (Posting Pubkey))
    (st' : State Node Pubkey) : Prop where
  takes : b.1.Takes st st'
  market : b.1.instruction.OfMarket
  postings : ∃ props, st.marketplaceProps = some props ∧
    b.2 = b.1.instruction.postings props.share

/-- Every run of the marketplace can be booked. -/
theorem exists_booked (hprops : st.marketplaceProps = some props)
    (h : Steps Executed.Takes st xs st') (hmarket : ∀ x ∈ xs, x.instruction.OfMarket) :
    (∃ props', st'.marketplaceProps = some props') ∧
      ∃ books, books.map Prod.fst = xs ∧ Steps Booked st books st' := by
  induction h with
  | refl => exact ⟨⟨props, hprops⟩, [], rfl, .refl⟩
  | @step xs t t' x h hx ih =>
    obtain ⟨⟨props', hprops'⟩, books, hmap, hbooks⟩ :=
      ih fun y hy => hmarket y (List.mem_cons_of_mem x hy)
    refine ⟨(hx.books hprops').exists_props, (x, x.instruction.postings props'.share) :: books, ?_,
      .step hbooks ⟨hx, hmarket x List.mem_cons_self, props', hprops', rfl⟩⟩
    rw [List.map_cons, hmap]

/-- Along every run of the marketplace, the lamports of each account are what it had, less what
it paid and plus what it received; the payments of a purchase add up to its price, and the
accounts that take part keep their total. -/
theorem lamports_kept (hprops : st.marketplaceProps = some props)
    (h : Steps Executed.Takes st xs st') (hmarket : ∀ x ∈ xs, x.instruction.OfMarket) :
    ∃ books, books.map Prod.fst = xs ∧ Steps Booked st books st' ∧
      (∀ b ∈ books, ∀ price ∈ b.1.instruction.price?,
        (b.2.map Posting.amount).sum = price.toNat) ∧
      Moves (balance st.lamports) (books.flatMap Prod.snd) (balance st'.lamports) ∧
      ∀ S : Finset Pubkey, (∀ p ∈ books.flatMap Prod.snd, p.source ∈ S ∧ p.recipient ∈ S) →
        ∑ key ∈ S, balance st'.lamports key = ∑ key ∈ S, balance st.lamports key := by
  obtain ⟨-, books, hmap, hbooks⟩ := exists_booked hprops h hmarket
  have hstep : ∀ (t : State Node Pubkey) b t', Booked t b t' →
      Moves (balance t.lamports) b.2 (balance t'.lamports) := by
    intro t b t' hb
    obtain ⟨props', hprops', hpostings⟩ := hb.postings
    rw [hpostings]
    exact (hb.takes.books hprops').moves
  have hmoves := Posting.moves_of_steps (fun st : State Node Pubkey => balance st.lamports)
    Prod.snd hstep hbooks
  refine ⟨books, hmap, hbooks, fun b hb price hprice => ?_, hmoves, fun S => hmoves.sum_eq⟩
  obtain ⟨later, earlier, rfl⟩ := List.append_of_mem hb
  obtain ⟨t, hrest, -⟩ := hbooks.exists_of_append
  obtain ⟨t', -, hstep⟩ := hrest.exists_of_cons
  obtain ⟨props', hprops', hpostings⟩ := hstep.postings
  rw [hpostings]
  exact (hstep.takes.books hprops').total price hprice

end Runs

end Purchase

/-! ### A sale -/

section Trace

open ConcurrentMerkleTree (Term)
open Bubblegum (Key)
open Bubblegum.Trace

instance : LawfulSystemProgram Key where
  transfer_moves {source recipient amount lamports lamports'} h := by
    simp only [SystemProgram.transfer] at h
    split_ifs at h with hle
    obtain ⟨sum, hsum, rfl⟩ := Option.map_eq_some_iff.1 h
    rw [checked] at hsum
    split_ifs at hsum with hlt
    obtain rfl := Option.some.inj hsum
    have hsub := UInt64.toNat_sub_of_le _ _ hle
    have hle := UInt64.le_iff_toNat_le.1 hle
    have hadd := toNat_ofNat_of_lt hlt
    intro key
    simp only [balance, Posting.paid_cons, Posting.paid_nil, Posting.received_cons,
      Posting.received_nil, Function.update_apply, eq_comm (b := key)] at hlt hadd ⊢
    split_ifs <;> simp_all

/-- The accounts after the first owner listed the asset. -/
def listed : State Term Key := opened.after (list 20000 opened)

/-- The accounts after the sale. -/
def sold : State Term Key := listed.after (buy alice 20000 listed)

/-- The asset is listed and bought. -/
theorem steps_sold : Steps Executed.Takes opened
    [buy alice 20000 listed, list 20000 opened] sold := by
  refine .step (.step .refl (State.takes_after ?_ trivial ?_)) (State.takes_after ?_ trivial ?_)
  · simp [MarketAddress.listing, list, alice]
  · decide +kernel
  · simp [MarketAddress.listing, buy, bob]
  · decide +kernel

theorem props_opened : opened.marketplaceProps = some ⟨creator, 250, MarketAddress.bump Key⟩ := by
  decide +kernel

/-- Both instructions are booked. -/
theorem lamports_kept_sold : ∃ books : List (Executed Term Key × List (Posting Key)),
    books.map Prod.fst = [buy alice 20000 listed, list 20000 opened] ∧
      Moves (balance opened.lamports) (books.flatMap Prod.snd) (balance sold.lamports) := by
  have hmarket : ∀ x ∈ [buy alice 20000 listed, list 20000 opened], x.instruction.OfMarket := by
    intro x hx
    rcases List.mem_pair.1 hx with rfl | rfl
    · exact trivial
    · exact trivial
  obtain ⟨books, hmap, -, -, hmoves, -⟩ := lamports_kept props_opened steps_sold hmarket
  exact ⟨books, hmap, hmoves⟩

/-- The marketplace keeps the fee of 250 basis points. -/
theorem fees_kept_sold : 500 ≤ balance sold.lamports (MarketAddress.marketplaceProps : Key) := by
  have hkept := (fees_kept props_opened steps_sold (by decide)).2 (by decide)
  exact (Nat.le_add_left _ _).trans hkept.2

end Trace

end Candyland.SugarShack
