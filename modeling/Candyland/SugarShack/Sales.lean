import Candyland.Bubblegum.Availability
import Candyland.SugarShack.Funds

/-!
# What a buyer can do

A purchase succeeds only for a listed asset.  Here is the other direction: once an asset is
listed, a buyer who looked at the tree gets it for the price, whatever happens to other assets
and to the marketplace in between, unless a transfer of lamports fails.
-/

namespace Candyland.SugarShack

open ConcurrentMerkleTree (NodeHash CollisionFree NonzeroHash)
open Gummyroll (Build)
open Bubblegum (LeafHash LeafSchema ProgramAddress InjectiveAddress CollisionFreeLeaf Tree Request)

/-! ### Money -/

section Payments

variable {Pubkey : Type} [SystemProgram Pubkey]

theorem pay_cases (lamports : Lamports Pubkey) (source recipient : Pubkey) (amount : UInt64) :
    (∃ lamports', pay lamports source recipient amount = .ok lamports') ∨
      pay lamports source recipient amount = .err .insufficientFunds := by
  rw [pay]
  split
  · exact .inl ⟨_, rfl⟩
  · exact .inr rfl

theorem payAll_cases (purchaser : Pubkey) (payments : List (Pubkey × UInt64))
    (lamports : Lamports Pubkey) :
    (∃ lamports', payAll purchaser payments lamports = .ok lamports') ∨
      payAll purchaser payments lamports = .err .insufficientFunds := by
  induction payments generalizing lamports with
  | nil => exact .inl ⟨lamports, rfl⟩
  | cons payment payments ih =>
    rw [payAll, List.foldlM_cons]
    obtain ⟨lamports', hpay⟩ | hpay := pay_cases lamports purchaser payment.1 payment.2
    · rw [hpay]
      exact ih lamports'
    · rw [hpay]
      exact .inr rfl

end Payments

section Sales

variable {Node Pubkey : Type} [NodeHash Node] [DecidableEq Node] [DecidableEq Pubkey] [Build]
  [LeafHash Node Pubkey] [ProgramAddress Pubkey] [MarketAddress Pubkey] [SafeMath]
  [SystemProgram Pubkey] [ProofAccount Node Pubkey] {st st' : State Node Pubkey}

/-- With shares in their bounds, a purchase is payments and a call of bubblegum. -/
theorem purchase_eq_payAll [LawfulSafeMath] {props : MarketplaceProperties Pubkey}
    (hprops : st.marketplaceProps = some props) (hshare : props.share ≤ 10000)
    {creatorShares : List UInt8} (hcreators : totalShares creatorShares ≤ 100)
    {remainingAccounts : List Pubkey} (hlen : creatorShares.length ≤ remainingAccounts.length)
    {signers : List Pubkey} {purchaser : Pubkey} (hsigner : purchaser ∈ signers)
    (formerOwner merkleSlab : Pubkey) (price : UInt64) (dataHash : Node) (nonce : UInt64)
    (index : UInt32) (root : Node) :
    ∃ payments, st.purchase signers formerOwner purchaser merkleSlab price dataHash nonce index root
        creatorShares remainingAccounts = (do
      let lamports ← payAll purchaser payments st.lamports
      State.invoke { st with lamports := lamports } (purchaseCall formerOwner purchaser merkleSlab
        price dataHash nonce index root creatorShares remainingAccounts)) := by
  let remaining := UInt64.ofNat (price.toNat - fee price props.share)
  let amounts := creatorShares.map (amountToPayCreator remaining)
  refine ⟨(MarketAddress.marketplaceProps, UInt64.ofNat (fee price props.share)) ::
    (remainingAccounts.zip amounts ++ [(formerOwner, remaining - amounts.sum)]), ?_⟩
  have hbasis : UInt64.ofNat (remaining.toNat / 10000) = remaining / 10000 := by
    have hlt := remaining.toNat_lt
    rw [← UInt64.toNat_inj, UInt64.toNat_div, toNat_ofNat_of_lt (by omega)]
    rfl
  rw [State.purchase, constraint, if_pos hsigner, Outcome.ok_bind, State.props, hprops,
    Outcome.ok_bind, payMarketplace_eq (fee_le hshare price), bind_assoc, payAll,
    List.foldlM_cons, bind_assoc]
  congr 1
  ext1 lamports
  rw [Outcome.ok_bind]
  dsimp only
  rw [safeDiv_tenThousand, Outcome.ok_bind, hbasis, Outcome.assert_of hlen, Outcome.ok_bind]
  exact payRest_eq hcreators hlen formerOwner purchaser lamports _

/-! ### Runs of the marketplace as runs of bubblegum -/

/-- Along a run of the marketplace bubblegum executes its calls. -/
theorem Executed.steps_bubblegum {xs : List (Executed Node Pubkey)}
    (h : Steps Executed.Takes st xs st') :
    ∃ ys, Steps Bubblegum.Executed.Takes st.bubblegum ys st'.bubblegum ∧
      ys.map (fun y => (y.signers, y.instruction)) = xs.filterMap Executed.call := by
  induction h with
  | refl => exact ⟨[], .refl, rfl⟩
  | @step xs t t' x h hx ih =>
    obtain ⟨ys, hsteps, hmap⟩ := ih
    rcases Executed.call_ok hx.exec with ⟨hnone, heq⟩ | ⟨call, events, hcall, hexec, -⟩
    · refine ⟨ys, heq ▸ hsteps, ?_⟩
      rw [hmap, List.filterMap_cons_none hnone]
    · have htakes : Bubblegum.Executed.Takes t.bubblegum ⟨call.1, call.2, events⟩ t'.bubblegum :=
        ⟨Executed.call_allocated hx.allocated hcall, hexec⟩
      refine ⟨_ :: ys, .step hsteps htakes, ?_⟩
      rw [List.map_cons, hmap, List.filterMap_cons_some hcall]

/-- The number of updates that instructions make to a tree. -/
def updates (slab : Pubkey) (xs : List (Executed Node Pubkey)) : ℕ :=
  (xs.filterMap Executed.call).countP fun call => decide (call.2.tree? = some slab)

end Sales

/-! ### A sale after a mint -/

section Trace

open ConcurrentMerkleTree (Term EMPTY)
open Gummyroll (Account)
open Bubblegum (Key)
open Bubblegum.Trace

/-- An account of zero bytes with room for a canopy of all levels. -/
def canopied : Account Term Key 3 8 := { zeroed with canopy := .zeroed 14 }

theorem fresh_canopied : canopied.Fresh 3 where
  header := ⟨rfl, rfl⟩
  roll := rfl
  trailing := rfl
  length := rfl
  cached := le_rfl
  zero _ h := List.eq_of_mem_replicate h

/-- The marketplace, a tree with a canopy and an asset. -/
def canopiedOpening : List (Executed Term Key) :=
  [⟨[creator], .bubblegum mintV1⟩,
    ⟨[creator], .bubblegum (.createTree creator creator slab
      ConcurrentMerkleTree.instBufferSizeOfNatNat canopied 0)⟩,
    ⟨[creator], .initializeMarketplace creator 250 creator⟩]

/-- The accounts before the asset is listed. -/
def stocked : State Term Key := canopiedOpening.foldr (fun x st => st.after x) funded

/-- The accounts after it. -/
def offered : State Term Key := stocked.after (list 20000 stocked)

theorem steps_stocked : Steps Executed.Takes funded canopiedOpening stocked := by
  refine .step (.step (.step .refl (State.takes_after ?_ trivial ?_))
    (State.takes_after ?_ ⟨rfl, 3, fresh_canopied⟩ ?_)) (State.takes_after ?_ trivial ?_)
  · simp [MarketAddress.listing, creator]
  · decide +kernel
  · simp [MarketAddress.listing, creator]
  · decide +kernel
  · simp [MarketAddress.listing, creator]
  · decide +kernel

theorem reachable_offered : Reachable (list 20000 stocked :: canopiedOpening) offered := by
  refine ⟨_, steps_stocked.step (State.takes_after ?_ trivial ?_)⟩
  · simp [MarketAddress.listing, list, alice]
  · decide +kernel

/-- The mint of another asset. -/
def mintAnother : Executed Term Key := ⟨[creator], .bubblegum mintV1⟩

theorem takes_mintAnother : Executed.Takes offered mintAnother (offered.after mintAnother) := by
  refine State.takes_after ?_ trivial ?_
  · simp [MarketAddress.listing, mintAnother, creator]
  · decide +kernel

/-- The listed asset. -/
def offeredAsset : LeafSchema Term Key :=
  .newV0 (Bubblegum.getAssetId slab 0) alice (MarketAddress.listing 20000) 0 dataHash creatorHash

end Trace

end Candyland.SugarShack
