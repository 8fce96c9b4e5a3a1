import Candyland.SugarShack.Symbolic

/-!
# Payments

What a purchase pays.  The fee of the marketplace is at most the price as long as its share is
at most 10000 basis points, and the creators get at most the rest as long as their shares add
up to at most 100.
-/

namespace Candyland.SugarShack

open ConcurrentMerkleTree (NodeHash)
open Gummyroll (Build)
open Bubblegum (LeafHash ProgramAddress)

/-! ### Checked arithmetic -/

theorem toNat_ofNat_of_lt {n : ℕ} (h : n < 2 ^ 64) : (UInt64.ofNat n).toNat = n := by
  rw [UInt64.toNat_ofNat']
  exact Nat.mod_eq_of_lt h

section Arithmetic

variable [SafeMath] [LawfulSafeMath] {a b : UInt64}

theorem safeAdd_of_lt (h : a.toNat + b.toNat < 2 ^ 64) :
    safe (SafeMath.safeAdd a b) = .ok (UInt64.ofNat (a.toNat + b.toNat)) := by
  rw [LawfulSafeMath.safeAdd_eq, if_pos h, safe_some]

theorem safeSub_of_le (h : b.toNat ≤ a.toNat) :
    safe (SafeMath.safeSub a b) = .ok (UInt64.ofNat (a.toNat - b.toNat)) := by
  rw [LawfulSafeMath.safeSub_eq, if_pos h, safe_some]

theorem safeMul_of_lt (h : a.toNat * b.toNat < 2 ^ 64) :
    safe (SafeMath.safeMul a b) = .ok (UInt64.ofNat (a.toNat * b.toNat)) := by
  rw [LawfulSafeMath.safeMul_eq, if_pos h, safe_some]

theorem safeDiv_tenThousand (a : UInt64) :
    safe (SafeMath.safeDiv a 10000) = .ok (UInt64.ofNat (a.toNat / 10000)) := by
  rw [LawfulSafeMath.safeDiv_eq, if_neg (by decide), safe_some]
  rfl

end Arithmetic

/-! ### The fee of the marketplace -/

/-- The fee in lamports. -/
def fee (price : UInt64) (share : UInt16) : ℕ := price.toNat / 10000 * share.toNat

theorem fee_le {share : UInt16} (h : share ≤ 10000) (price : UInt64) :
    fee price share ≤ price.toNat := by
  have hshare : share.toNat ≤ 10000 := UInt16.le_iff_toNat_le.1 h
  calc fee price share ≤ price.toNat / 10000 * 10000 := Nat.mul_le_mul_left _ hshare
    _ ≤ price.toNat := Nat.div_mul_le_self _ _

/-- The percentages of all creators together. -/
def totalShares (shares : List UInt8) : ℕ := (shares.map UInt8.toNat).sum

@[simp] theorem totalShares_nil : totalShares [] = 0 := rfl

@[simp] theorem totalShares_cons (share : UInt8) (shares : List UInt8) :
    totalShares (share :: shares) = share.toNat + totalShares shares := by
  simp [totalShares]

section Payments

variable {Pubkey : Type} [MarketAddress Pubkey] [SafeMath] [LawfulSafeMath] [SystemProgram Pubkey]

/-- With a fee of at most the price only the transfer can fail. -/
theorem payMarketplace_eq {share : UInt16} {price : UInt64} (h : fee price share ≤ price.toNat)
    (purchaser : Pubkey) (lamports : Lamports Pubkey) :
    payMarketplace purchaser price share lamports =
      pay lamports purchaser MarketAddress.marketplaceProps (UInt64.ofNat (fee price share)) >>=
        fun lamports => .ok (lamports, UInt64.ofNat (price.toNat - fee price share)) := by
  have hprice := price.toNat_lt
  have hbasis : (UInt64.ofNat (price.toNat / 10000)).toNat = price.toNat / 10000 :=
    toNat_ofNat_of_lt (by omega)
  have hmul : (UInt64.ofNat (price.toNat / 10000)).toNat * share.toUInt64.toNat =
      fee price share := by
    rw [hbasis, fee]
    simp
  rw [payMarketplace, safeDiv_tenThousand, Outcome.ok_bind, safeMul_of_lt (by omega),
    Outcome.ok_bind, hmul]
  congr 1
  ext1 lamports'
  rw [safeSub_of_le (by rwa [toNat_ofNat_of_lt (by omega)]), toNat_ofNat_of_lt (by omega)]
  rfl

/-! ### The creators -/

omit [MarketAddress Pubkey] [SafeMath] [LawfulSafeMath] in
theorem pay_ne_safeMath {lamports : Lamports Pubkey} {source recipient : Pubkey}
    {amount : UInt64} : pay lamports source recipient amount ≠ .err .safeMath := by
  rw [pay]
  split <;> simp

omit [MarketAddress Pubkey] in
/-- One round of the loop, with payments that fit. -/
theorem payCreators_cons {purchaser creator : Pubkey} {basisPoint paid : UInt64} {share : UInt8}
    {creators : List (Pubkey × UInt8)} {lamports : Lamports Pubkey}
    (h : paid.toNat + basisPoint.toNat * 100 * share.toNat < 2 ^ 64) :
    payCreators purchaser basisPoint ((creator, share) :: creators) lamports paid =
      pay lamports purchaser creator (UInt64.ofNat (basisPoint.toNat * 100 * share.toNat)) >>=
        fun lamports => payCreators purchaser basisPoint creators lamports
          (UInt64.ofNat (paid.toNat + basisPoint.toNat * 100 * share.toNat)) := by
  have hshare := share.toNat_lt
  have hpercent : share.toUInt64.toNat * (100 : UInt64).toNat = share.toNat * 100 := by simp
  have hhundred : (UInt64.ofNat (share.toNat * 100)).toNat = share.toNat * 100 :=
    toNat_ofNat_of_lt (by omega)
  have hamount : basisPoint.toNat * (share.toNat * 100) =
      basisPoint.toNat * 100 * share.toNat := by ring
  rw [payCreators, safeMul_of_lt (by omega), Outcome.ok_bind, hpercent,
    safeMul_of_lt (by rw [hhundred]; omega), Outcome.ok_bind, hhundred, hamount]
  congr 1
  ext1 lamports'
  rw [safeAdd_of_lt (by rwa [toNat_ofNat_of_lt (by omega)]), toNat_ofNat_of_lt (by omega)]
  rfl

omit [MarketAddress Pubkey] in
/-- As long as the payments fit, only a transfer can fail, and they add up to the shares. -/
theorem payCreators_spec (purchaser : Pubkey) (basisPoint : UInt64)
    (creators : List (Pubkey × UInt8)) (lamports : Lamports Pubkey) (paid : UInt64)
    (h : paid.toNat + basisPoint.toNat * 100 * totalShares (creators.map Prod.snd) < 2 ^ 64) :
    payCreators purchaser basisPoint creators lamports paid ≠ .err .safeMath ∧
    ∀ lamports' paid', payCreators purchaser basisPoint creators lamports paid =
      .ok (lamports', paid') → paid'.toNat =
        paid.toNat + basisPoint.toNat * 100 * totalShares (creators.map Prod.snd) := by
  induction creators generalizing lamports paid with
  | nil => simp [payCreators]
  | cons c creators ih =>
    obtain ⟨creator, share⟩ := c
    simp only [List.map_cons, totalShares_cons, Nat.mul_add] at h ⊢
    have hpaid := toNat_ofNat_of_lt
      (show paid.toNat + basisPoint.toNat * 100 * share.toNat < 2 ^ 64 by omega)
    have hrest := fun lamports => ih lamports
      (UInt64.ofNat (paid.toNat + basisPoint.toNat * 100 * share.toNat)) (by omega)
    rw [payCreators_cons (by omega)]
    constructor
    · exact Outcome.bind_ne_err pay_ne_safeMath fun lamports _ => (hrest lamports).1
    · intro lamports' paid' hok
      obtain ⟨lamports₁, -, hok⟩ := Outcome.bind_eq_ok.1 hok
      rw [(hrest lamports₁).2 _ _ hok, hpaid, Nat.add_assoc]

end Payments

/-! ### Purchases -/

section Purchase

variable {Node Pubkey : Type} [NodeHash Node] [DecidableEq Node] [DecidableEq Pubkey] [Build]
  [LeafHash Node Pubkey] [ProgramAddress Pubkey] [MarketAddress Pubkey] [SafeMath]
  [SystemProgram Pubkey] [ProofAccount Node Pubkey] {st : State Node Pubkey}

omit [MarketAddress Pubkey] [SafeMath] [SystemProgram Pubkey] [ProofAccount Node Pubkey] in
theorem invoke_ne_safeMath {call : List Pubkey × Bubblegum.Instruction Node Pubkey} :
    st.invoke call ≠ .err .safeMath := by
  refine Outcome.bind_ne_err ?_ fun _ _ => by simp
  cases call.2.exec call.1 st.bubblegum <;> simp [ofBubblegum]

variable [LawfulSafeMath]

/-- The arithmetic of a purchase does not fail as long as the shares are in their bounds. -/
theorem purchase_ne_safeMath {props : MarketplaceProperties Pubkey}
    (hprops : st.marketplaceProps = some props) (hshare : props.share ≤ 10000)
    {creatorShares : List UInt8} (hcreators : totalShares creatorShares ≤ 100)
    (signers : List Pubkey) (formerOwner purchaser merkleSlab : Pubkey) (price : UInt64)
    (dataHash : Node) (nonce : UInt64) (index : UInt32) (root : Node)
    (remainingAccounts : List Pubkey) :
    st.purchase signers formerOwner purchaser merkleSlab price dataHash nonce index root
      creatorShares remainingAccounts ≠ .err .safeMath := by
  have hfee := fee_le hshare price
  have hprice := price.toNat_lt
  refine Outcome.bind_ne_err (by rw [constraint]; split_ifs <;> simp) fun _ _ => ?_
  rw [State.props, hprops, Outcome.ok_bind, payMarketplace_eq hfee, bind_assoc]
  refine Outcome.bind_ne_err pay_ne_safeMath fun lamports _ => ?_
  generalize hremaining : UInt64.ofNat (price.toNat - fee price props.share) = remaining
  rw [Outcome.ok_bind]
  dsimp only
  rw [safeDiv_tenThousand, Outcome.ok_bind]
  refine Outcome.bind_ne_err Outcome.assert_ne_err fun _ hlen => ?_
  have hlt := remaining.toNat_lt
  have hbasis : (UInt64.ofNat (remaining.toNat / 10000)).toNat = remaining.toNat / 10000 :=
    toNat_ofNat_of_lt (by omega)
  have hshares : ((remainingAccounts.take creatorShares.length).zip creatorShares).map Prod.snd =
      creatorShares := by
    refine List.map_snd_zip ?_
    rw [List.length_take]
    exact le_min le_rfl (Outcome.assert_eq_ok.1 hlen)
  -- all creators together get no more than what is left
  have htotal : remaining.toNat / 10000 * 100 * totalShares creatorShares ≤ remaining.toNat :=
    calc remaining.toNat / 10000 * 100 * totalShares creatorShares
      _ ≤ remaining.toNat / 10000 * 100 * 100 := Nat.mul_le_mul_left _ hcreators
      _ = remaining.toNat / 10000 * 10000 := by rw [Nat.mul_assoc]
      _ ≤ remaining.toNat := Nat.div_mul_le_self _ _
  obtain ⟨hne, hpaid⟩ := payCreators_spec purchaser (UInt64.ofNat (remaining.toNat / 10000))
    ((remainingAccounts.take creatorShares.length).zip creatorShares) lamports 0
    (by rw [hshares, hbasis]; simpa using htotal.trans_lt hlt)
  rw [hshares, hbasis] at hpaid
  refine Outcome.bind_ne_err hne fun res hres => ?_
  obtain ⟨lamports', paid⟩ := res
  have hle : paid.toNat ≤ remaining.toNat := by
    rw [hpaid _ _ hres]
    simpa using htotal
  dsimp only
  rw [safeSub_of_le hle, Outcome.ok_bind]
  exact Outcome.bind_ne_err pay_ne_safeMath fun _ _ => invoke_ne_safeMath

end Purchase

/-! ### The share of the marketplace -/

section Share

variable {Node Pubkey : Type} [NodeHash Node] [DecidableEq Node] [DecidableEq Pubkey] [Build]
  [LeafHash Node Pubkey] [ProgramAddress Pubkey] [MarketAddress Pubkey] [SafeMath]
  [SystemProgram Pubkey] [ProofAccount Node Pubkey] {st st' : State Node Pubkey}

/-- The instruction sets a share of at most 10000, or none. -/
def Instruction.SetsShare : Instruction Node Pubkey → Prop
  | updateMarketplaceProperties _ _ share => ∀ s ∈ share, s ≤ 10000
  | _ => True

/-- The share is a part of the price. -/
def State.ShareInv (st : State Node Pubkey) : Prop :=
  ∀ props ∈ st.marketplaceProps, props.share ≤ 10000

/-- What one instruction preserves. -/
theorem State.ShareInv.exec (hinv : st.ShareInv) {ins : Instruction Node Pubkey}
    {signers : List Pubkey} (hsets : ins.SetsShare) (h : ins.exec signers st = .ok st') :
    st'.ShareInv := by
  cases ins with
  | bubblegum ins =>
    rw [ShareInv, (State.invoke_ok h).1]
    exact hinv
  | initializeMarketplace payer royaltyShare authority =>
    obtain ⟨⟨⟩, -, h⟩ := Outcome.bind_eq_ok.1 h
    obtain ⟨⟨⟩, -, h⟩ := Outcome.bind_eq_ok.1 h
    obtain ⟨⟨⟩, hshare, h⟩ := Outcome.bind_eq_ok.1 h
    obtain rfl := Outcome.ok.inj h
    intro props hprops
    obtain rfl := Option.some.inj hprops
    exact Outcome.assert_eq_ok.1 hshare
  | updateMarketplaceProperties signer authority share =>
    obtain ⟨⟨⟩, -, h⟩ := Outcome.bind_eq_ok.1 h
    obtain ⟨props₀, hprops₀, h⟩ := Outcome.bind_eq_ok.1 h
    obtain ⟨⟨⟩, -, h⟩ := Outcome.bind_eq_ok.1 h
    obtain rfl := Outcome.ok.inj h
    intro props hprops
    obtain rfl := Option.some.inj hprops
    cases share with
    | none => exact hinv props₀ (State.props_eq_ok.1 hprops₀)
    | some s => exact hsets s rfl
  | createOrModifyListing | removeListing =>
    obtain ⟨⟨⟩, -, h⟩ := Outcome.bind_eq_ok.1 h
    rw [ShareInv, (State.invoke_ok h).1]
    exact hinv
  | purchase =>
    obtain ⟨-, -, lamports, h⟩ := State.purchase_ok h
    rw [ShareInv, (State.invoke_ok h).1]
    exact hinv
  | withdrawFees =>
    obtain ⟨⟨⟩, -, h⟩ := Outcome.bind_eq_ok.1 h
    obtain ⟨props, -, h⟩ := Outcome.bind_eq_ok.1 h
    obtain ⟨⟨⟩, -, h⟩ := Outcome.bind_eq_ok.1 h
    obtain ⟨balance, -, h⟩ := Outcome.bind_eq_ok.1 h
    obtain ⟨⟨⟩, -, h⟩ := Outcome.bind_eq_ok.1 h
    obtain ⟨received, -, h⟩ := Outcome.bind_eq_ok.1 h
    obtain rfl := Outcome.ok.inj h
    exact hinv

/-- In a run without an update to a share of more than 10000 the fee is at most the price, and of
the first part of a purchase only the transfer can fail. -/
theorem marketplace_fee [LawfulSafeMath] {history : List (Executed Node Pubkey)}
    (hnone : st.marketplaceProps = none)
    (hsets : ∀ x ∈ history, x.instruction.SetsShare)
    (hrun : Steps (fun st x st' => x.instruction.exec x.signers st = .ok st') st history st')
    {props : MarketplaceProperties Pubkey} (hprops : st'.marketplaceProps = some props) :
    props.share ≤ 10000 ∧
      ∀ (purchaser : Pubkey) (price : UInt64) (lamports : Lamports Pubkey),
        ∃ amount, amount ≤ price ∧ payMarketplace purchaser price props.share lamports =
          pay lamports purchaser MarketAddress.marketplaceProps amount >>=
            fun lamports => .ok (lamports, price - amount) := by
  have hinv : st'.ShareInv := by
    refine hrun.invariant (I := fun _ st => st.ShareInv) ?_ ?_
    · intro props hprops
      rw [hnone] at hprops
      exact absurd hprops (by simp)
    · intro as t a t' hsuffix hinv hexec
      exact hinv.exec (hsets a (hsuffix.subset List.mem_cons_self)) hexec
  have hshare := hinv props hprops
  refine ⟨hshare, fun purchaser price lamports => ?_⟩
  have hle := fee_le hshare price
  have hprice := price.toNat_lt
  have hamount : (UInt64.ofNat (fee price props.share)).toNat = fee price props.share :=
    toNat_ofNat_of_lt (by omega)
  refine ⟨UInt64.ofNat (fee price props.share), ?_, ?_⟩
  · rw [UInt64.le_iff_toNat_le, hamount]
    exact hle
  · rw [payMarketplace_eq hle]
    congr 1
    ext1 lamports'
    congr 2
    rw [← UInt64.toNat_inj, toNat_ofNat_of_lt (by omega), UInt64.toNat_sub_of_le, hamount]
    rw [UInt64.le_iff_toNat_le, hamount]
    exact hle

end Share

section Updates

open ConcurrentMerkleTree (Term)
open Bubblegum (Key)

/-- No accounts but the lamports of a buyer. -/
def funded : State Term Key :=
  ⟨Bubblegum.State.empty, none, fun key => if key = .user 3 then 1000000 else 0⟩

/-- A marketplace with a share. -/
def marketplace (share : UInt16) : State Term Key :=
  { funded with marketplaceProps := some ⟨.user 1, share, MarketAddress.bump Key⟩ }

/-- The marketplace is made with a share of 250, and the share is updated. -/
def updateShare (share : UInt16) : List (Executed Term Key) :=
  [⟨[.user 1], .updateMarketplaceProperties (.user 1) none (some share)⟩,
    ⟨[.user 1], .initializeMarketplace (.user 1) 250 (.user 1)⟩]

theorem steps_updateShare (share : UInt16) :
    Steps (fun st (x : Executed Term Key) st' => x.instruction.exec x.signers st = .ok st') funded
      (updateShare share) (marketplace share) := by
  have hinit : (Instruction.initializeMarketplace (.user 1) 250 (.user 1)).exec [.user 1] funded =
      .ok (marketplace 250) := rfl
  have hupdate : (Instruction.updateMarketplaceProperties (.user 1) none (some share)).exec
      [.user 1] (marketplace 250) = .ok (marketplace share) := rfl
  exact .step (.step .refl hinit) hupdate

/-- A share of 300 basis points. -/
theorem marketplace_fee_updated : ∃ amount ≤ 20000,
    payMarketplace (Key.user 3) 20000 300 funded.lamports =
      pay funded.lamports (.user 3) MarketAddress.marketplaceProps amount >>=
        fun lamports => .ok (lamports, 20000 - amount) := by
  have hsets : ∀ x ∈ updateShare 300, x.instruction.SetsShare := by
    simp [updateShare, Instruction.SetsShare]
  exact (marketplace_fee rfl hsets (steps_updateShare 300) rfl).2 (.user 3) 20000 funded.lamports

/-- An update to a share of 10001 basis points: a purchase for 10000 lamports fails at the fee. -/
theorem update_exceeds_price :
    Steps (fun st (x : Executed Term Key) st' => x.instruction.exec x.signers st = .ok st') funded
      (updateShare 10001) (marketplace 10001) ∧
    (marketplace 10001).marketplaceProps.map (·.share) = some 10001 ∧
    (marketplace 10001).purchase [.user 3] (.user 2) (.user 3) (.user 0) 10000 (.leaf 0) 0 0
      (.leaf 0) [] [] = .err .safeMath := by
  exact ⟨steps_updateShare 10001, rfl, rfl⟩

end Updates

end Candyland.SugarShack
