import Candyland.SugarShack.Payments

/-!
# The split of a price

A purchase divides before it multiplies, first to take the fee of the marketplace off the price,
then to take the shares of the creators off the rest.  With shares in their bounds no step of this
arithmetic fails, so a purchase is its payments; here are the amounts, and how far each is from
the exact fraction.
-/

namespace Candyland.SugarShack

open ConcurrentMerkleTree (NodeHash)
open Gummyroll (Build)
open Bubblegum (LeafHash ProgramAddress)

/-- What the marketplace gets. -/
def amountToPayMarketplace (price : UInt64) (share : UInt16) : UInt64 :=
  price / 10000 * share.toUInt64

/-- What a creator with this share gets of the remaining price. -/
def amountToPayCreator (remaining : UInt64) (share : UInt8) : UInt64 :=
  remaining / 10000 * (share.toUInt64 * 100)

/-- Transfers of the buyer, one after the other. -/
def payAll {Pubkey : Type} [SystemProgram Pubkey] (purchaser : Pubkey)
    (payments : List (Pubkey × UInt64)) (lamports : Lamports Pubkey) :
    Outcome Error (Lamports Pubkey) :=
  payments.foldlM (fun lamports payment => pay lamports purchaser payment.1 payment.2) lamports

/-! ### The amounts -/

theorem toNat_amountToPayMarketplace {share : UInt16} (h : share ≤ 10000) (price : UInt64) :
    (amountToPayMarketplace price share).toNat = fee price share := by
  have hle := fee_le h price
  have hlt := price.toNat_lt
  have hfee : price.toNat / 10000 * share.toNat = fee price share := rfl
  have htenThousand : (10000 : UInt64).toNat = 10000 := rfl
  rw [amountToPayMarketplace, UInt64.toNat_mul, UInt64.toNat_div, UInt16.toNat_toUInt64,
    htenThousand, hfee, Nat.mod_eq_of_lt (by omega)]

theorem toNat_amountToPayCreator (remaining : UInt64) {share : UInt8} (h : share.toNat ≤ 100) :
    (amountToPayCreator remaining share).toNat =
      remaining.toNat / 10000 * (share.toNat * 100) := by
  have hlt := remaining.toNat_lt
  have htenThousand : (10000 : UInt64).toNat = 10000 := rfl
  have hpercent : (share.toUInt64 * 100).toNat = share.toNat * 100 := by
    rw [UInt64.toNat_mul, UInt8.toNat_toUInt64, show (100 : UInt64).toNat = 100 from rfl,
      Nat.mod_eq_of_lt (by omega)]
  have hle : remaining.toNat / 10000 * (share.toNat * 100) ≤ remaining.toNat :=
    calc remaining.toNat / 10000 * (share.toNat * 100)
      _ ≤ remaining.toNat / 10000 * 10000 := Nat.mul_le_mul_left _ (by omega)
      _ ≤ remaining.toNat := Nat.div_mul_le_self _ _
  rw [amountToPayCreator, UInt64.toNat_mul, UInt64.toNat_div, htenThousand, hpercent,
    Nat.mod_eq_of_lt (by omega)]

/-- No share is more than all together. -/
theorem toNat_le_totalShares {shares : List UInt8} {share : UInt8} (h : share ∈ shares) :
    share.toNat ≤ totalShares shares :=
  List.le_sum_of_mem (List.mem_map_of_mem h)

/-- The creators together. -/
theorem sum_amountToPayCreator (remaining : UInt64) {shares : List UInt8}
    (h : totalShares shares ≤ 100) :
    (shares.map fun share => (amountToPayCreator remaining share).toNat).sum =
      remaining.toNat / 10000 * 100 * totalShares shares := by
  induction shares with
  | nil => rfl
  | cons share shares ih =>
    rw [totalShares_cons] at h
    rw [List.map_cons, List.sum_cons, ih (by omega), totalShares_cons,
      toNat_amountToPayCreator _ (by omega)]
    ring

/-- They get at most what remains. -/
theorem sum_amountToPayCreator_le (remaining : UInt64) {shares : List UInt8}
    (h : totalShares shares ≤ 100) :
    (shares.map fun share => (amountToPayCreator remaining share).toNat).sum ≤
      remaining.toNat := by
  calc (shares.map fun share => (amountToPayCreator remaining share).toNat).sum
    _ = remaining.toNat / 10000 * 100 * totalShares shares := sum_amountToPayCreator remaining h
    _ ≤ remaining.toNat / 10000 * 100 * 100 := Nat.mul_le_mul_left _ h
    _ = remaining.toNat / 10000 * 10000 := by rw [Nat.mul_assoc]
    _ ≤ remaining.toNat := Nat.div_mul_le_self _ _

/-- A sum of words is the sum of their values, if that is a word. -/
theorem toNat_sum {amounts : List UInt64} (h : (amounts.map UInt64.toNat).sum < 2 ^ 64) :
    amounts.sum.toNat = (amounts.map UInt64.toNat).sum := by
  induction amounts with
  | nil => rfl
  | cons amount amounts ih =>
    rw [List.map_cons, List.sum_cons] at h ⊢
    rw [List.sum_cons, UInt64.toNat_add, ih (by omega), Nat.mod_eq_of_lt h]

/-- So they can be subtracted from what remains. -/
theorem sum_amountToPayCreator_toNat (remaining : UInt64) {shares : List UInt8}
    (h : totalShares shares ≤ 100) :
    let amounts := shares.map (amountToPayCreator remaining)
    amounts.sum.toNat = (amounts.map UInt64.toNat).sum ∧ amounts.sum.toNat ≤ remaining.toNat := by
  intro amounts
  have hle := sum_amountToPayCreator_le remaining h
  have hlt := remaining.toNat_lt
  have hmap : amounts.map UInt64.toNat =
      shares.map fun share => (amountToPayCreator remaining share).toNat := List.map_map
  have hsum : amounts.sum.toNat = (amounts.map UInt64.toNat).sum :=
    toNat_sum (by rw [hmap]; omega)
  exact ⟨hsum, by rw [hsum, hmap]; exact hle⟩

/-- Division before multiplication loses less than one multiple. -/
theorem div_mul_bounds (n s : ℕ) {d : ℕ} (hd : 0 < d) :
    (n : ℚ) * s / d - s ≤ (n / d * s : ℕ) ∧ ((n / d * s : ℕ) : ℚ) ≤ n * s / d := by
  have hdq : (0 : ℚ) < d := Nat.cast_pos.2 hd
  have hs : (0 : ℚ) ≤ s := Nat.cast_nonneg s
  have hlow : (n : ℚ) / d - 1 ≤ (n / d : ℕ) := by
    have hlt : (n : ℚ) < d * (n / d + 1 : ℕ) := by exact_mod_cast Nat.lt_mul_div_succ n hd
    rw [sub_le_iff_le_add, div_le_iff₀ hdq]
    push_cast at hlt ⊢
    linarith
  have hhigh : ((n / d : ℕ) : ℚ) ≤ n / d := Nat.cast_div_le
  push_cast
  constructor
  · calc (n : ℚ) * s / d - s = (n / d - 1) * s := by ring
      _ ≤ (n / d : ℕ) * s := mul_le_mul_of_nonneg_right hlow hs
  · calc ((n / d : ℕ) : ℚ) * s ≤ n / d * s := mul_le_mul_of_nonneg_right hhigh hs
      _ = n * s / d := by ring

/-! ### A purchase is its payments -/

section Payments

variable {Pubkey : Type} [SafeMath] [LawfulSafeMath] [SystemProgram Pubkey]

/-- The loop over the creators pays each their amount and counts what it paid. -/
theorem payCreators_eq_payAll (purchaser : Pubkey) {remaining : UInt64}
    {creators : List (Pubkey × UInt8)} (hshares : totalShares (creators.map Prod.snd) ≤ 100)
    (lamports : Lamports Pubkey) {paid : UInt64}
    (h : paid.toNat + (creators.map fun c => (amountToPayCreator remaining c.2).toNat).sum <
      2 ^ 64) :
    payCreators purchaser (remaining / 10000) creators lamports paid = (do
      let lamports ← payAll purchaser
        (creators.map fun c => (c.1, amountToPayCreator remaining c.2)) lamports
      .ok (lamports, paid + (creators.map fun c => amountToPayCreator remaining c.2).sum)) := by
  induction creators generalizing lamports paid with
  | nil =>
    have hpaid : paid + ([] : List UInt64).sum = paid := by simp
    simp only [payCreators, List.map_nil, payAll, List.foldlM_nil, hpaid]
    rfl
  | cons c creators ih =>
    obtain ⟨creator, share⟩ := c
    simp only [List.map_cons, totalShares_cons, List.sum_cons] at h hshares ⊢
    have hamount : (remaining / 10000).toNat * 100 * share.toNat =
        (amountToPayCreator remaining share).toNat := by
      rw [toNat_amountToPayCreator _ (by omega), UInt64.toNat_div,
        show (10000 : UInt64).toNat = 10000 from rfl]
      ring
    have hpaid : UInt64.ofNat (paid.toNat + (amountToPayCreator remaining share).toNat) =
        paid + amountToPayCreator remaining share := by
      rw [UInt64.ofNat_add, UInt64.ofNat_toNat, UInt64.ofNat_toNat]
    have hsum : (paid + amountToPayCreator remaining share).toNat =
        paid.toNat + (amountToPayCreator remaining share).toNat := by
      rw [UInt64.toNat_add, Nat.mod_eq_of_lt (by omega)]
    rw [payCreators_cons (by rw [hamount]; omega), hamount, hpaid, UInt64.ofNat_toNat, payAll,
      List.foldlM_cons, bind_assoc]
    congr 1
    ext1 lamports'
    rw [ih (by omega) lamports' (by rw [hsum]; omega), payAll, add_assoc]

end Payments

section Purchase

variable {Node Pubkey : Type} [NodeHash Node] [DecidableEq Node] [DecidableEq Pubkey] [Build]
  [LeafHash Node Pubkey] [ProgramAddress Pubkey] [MarketAddress Pubkey] [SafeMath]
  [LawfulSafeMath] [SystemProgram Pubkey] [ProofAccount Node Pubkey] {st : State Node Pubkey}

omit [MarketAddress Pubkey] [SafeMath] [LawfulSafeMath] [SystemProgram Pubkey]
  [ProofAccount Node Pubkey] [NodeHash Node] [DecidableEq Node] [DecidableEq Pubkey] [Build]
  [LeafHash Node Pubkey] [ProgramAddress Pubkey] in
/-- The creators are the first of the remaining accounts. -/
theorem zip_creators {remainingAccounts : List Pubkey} {creatorShares : List UInt8}
    (h : creatorShares.length ≤ remainingAccounts.length) (amount : UInt8 → UInt64) :
    ((remainingAccounts.take creatorShares.length).zip creatorShares).map Prod.snd =
      creatorShares ∧
    ((remainingAccounts.take creatorShares.length).zip creatorShares).map
      (fun c => (c.1, amount c.2)) = remainingAccounts.zip (creatorShares.map amount) := by
  constructor
  · refine List.map_snd_zip ?_
    rw [List.length_take]
    exact le_min le_rfl h
  · have hzip : remainingAccounts.zip creatorShares =
        (remainingAccounts.take creatorShares.length).zip creatorShares := by
      rw [List.zip_eq_zip_take_min, min_eq_right h, List.take_length]
    rw [List.zip_map_right, hzip]
    rfl

omit [NodeHash Node] [DecidableEq Node] [DecidableEq Pubkey] [Build] [LeafHash Node Pubkey]
  [ProgramAddress Pubkey] [MarketAddress Pubkey] [ProofAccount Node Pubkey] in
/-- What follows on the fee: the creators are paid, and then the lister. -/
theorem payRest_eq {remaining : UInt64} {creatorShares : List UInt8}
    (hcreators : totalShares creatorShares ≤ 100) {remainingAccounts : List Pubkey}
    (hlen : creatorShares.length ≤ remainingAccounts.length) (formerOwner purchaser : Pubkey)
    (lamports : Lamports Pubkey) {β : Type} (next : Lamports Pubkey → Outcome Error β) :
    let amounts := creatorShares.map (amountToPayCreator remaining)
    (do
      let (lamports, paid) ← payCreators purchaser (remaining / 10000)
        ((remainingAccounts.take creatorShares.length).zip creatorShares) lamports 0
      let rest ← safe (SafeMath.safeSub remaining paid)
      let lamports ← pay lamports purchaser formerOwner rest
      next lamports) =
    (do
      let lamports ← payAll purchaser
        (remainingAccounts.zip amounts ++ [(formerOwner, remaining - amounts.sum)]) lamports
      next lamports) := by
  intro amounts
  obtain ⟨hsum, hle⟩ := sum_amountToPayCreator_toNat remaining hcreators
  obtain ⟨hsnd, hzip⟩ := zip_creators hlen (amountToPayCreator remaining)
  generalize (remainingAccounts.take creatorShares.length).zip creatorShares = creators
    at hsnd hzip ⊢
  have hamounts : creators.map (fun c => amountToPayCreator remaining c.2) = amounts := by
    rw [show amounts = (creators.map Prod.snd).map (amountToPayCreator remaining) by rw [hsnd],
      List.map_map]
    rfl
  have htoNat : (creators.map fun c => (amountToPayCreator remaining c.2).toNat) =
      amounts.map UInt64.toNat := by
    rw [← hamounts, List.map_map]
    rfl
  have hlt := remaining.toNat_lt
  rw [payCreators_eq_payAll purchaser (by rwa [hsnd]) lamports
    (by rw [htoNat, ← hsum, UInt64.toNat_zero]; omega), hzip, hamounts, payAll, payAll,
    List.foldlM_append, bind_assoc, bind_assoc]
  congr 1
  ext1 lamports₁
  have hrest : UInt64.ofNat (remaining.toNat - amounts.sum.toNat) = remaining - amounts.sum := by
    rw [← UInt64.toNat_inj, toNat_ofNat_of_lt (by omega),
      UInt64.toNat_sub_of_le _ _ (UInt64.le_iff_toNat_le.2 hle)]
  rw [Outcome.ok_bind]
  dsimp only
  rw [zero_add, safeSub_of_le hle, Outcome.ok_bind, hrest, List.foldlM_cons, bind_assoc]
  rfl

/-- With a share of at most 10000 basis points and shares of the creators that add up to at most
100, a purchase is its payments and the transfer of the asset.  The payments add up to the price;
the marketplace and each creator get their fraction but for what the division cuts off. -/
theorem purchase_split {props : MarketplaceProperties Pubkey}
    (hprops : st.marketplaceProps = some props) (hshare : props.share ≤ 10000)
    {creatorShares : List UInt8} (hcreators : totalShares creatorShares ≤ 100)
    (signers : List Pubkey) (formerOwner purchaser merkleSlab : Pubkey) (price : UInt64)
    (dataHash : Node) (nonce : UInt64) (index : UInt32) (root : Node)
    (remainingAccounts : List Pubkey) :
    let f := amountToPayMarketplace price props.share
    let rem := price - f
    let amounts := creatorShares.map (amountToPayCreator rem)
    let rest := rem - amounts.sum
    st.purchase signers formerOwner purchaser merkleSlab price dataHash nonce index root
        creatorShares remainingAccounts = (do
      constraint (purchaser ∈ signers)
      let lamports ← pay st.lamports purchaser MarketAddress.marketplaceProps f
      Outcome.assert (creatorShares.length ≤ remainingAccounts.length)
      let lamports ←
        payAll purchaser (remainingAccounts.zip amounts ++ [(formerOwner, rest)]) lamports
      State.invoke { st with lamports := lamports } (purchaseCall formerOwner purchaser merkleSlab
        price dataHash nonce index root creatorShares remainingAccounts)) ∧
    f.toNat + rem.toNat = price.toNat ∧
    f.toNat + (amounts.map UInt64.toNat).sum + rest.toNat = price.toNat ∧
    ((price.toNat : ℚ) * props.share.toNat / 10000 - props.share.toNat ≤ f.toNat ∧
      (f.toNat : ℚ) ≤ price.toNat * props.share.toNat / 10000) ∧
    ∀ s ∈ creatorShares,
      (rem.toNat : ℚ) * s.toNat / 100 - 100 * s.toNat ≤ (amountToPayCreator rem s).toNat ∧
        ((amountToPayCreator rem s).toNat : ℚ) ≤ rem.toNat * s.toNat / 100 := by
  intro f rem amounts rest
  have hfee : f.toNat = fee price props.share := toNat_amountToPayMarketplace hshare price
  have hle : fee price props.share ≤ price.toNat := fee_le hshare price
  have hprice := price.toNat_lt
  have hrem : rem.toNat = price.toNat - f.toNat :=
    UInt64.toNat_sub_of_le _ _ (UInt64.le_iff_toNat_le.2 (by omega))
  obtain ⟨hsum, hpaid⟩ : amounts.sum.toNat = (amounts.map UInt64.toNat).sum ∧
      amounts.sum.toNat ≤ rem.toNat := sum_amountToPayCreator_toNat rem hcreators
  have hrest : rest.toNat = rem.toNat - amounts.sum.toNat :=
    UInt64.toNat_sub_of_le _ _ (UInt64.le_iff_toNat_le.2 hpaid)
  refine ⟨?_, by omega, by omega, ?_, fun s hs => ?_⟩
  · have hf : UInt64.ofNat (fee price props.share) = f := by rw [← hfee, UInt64.ofNat_toNat]
    have hr : UInt64.ofNat (price.toNat - fee price props.share) = rem := by
      rw [← hfee, ← hrem, UInt64.ofNat_toNat]
    have hbasis : UInt64.ofNat (rem.toNat / 10000) = rem / 10000 := by
      rw [← UInt64.toNat_inj, UInt64.toNat_div, toNat_ofNat_of_lt (by omega)]
      rfl
    rw [State.purchase, State.props, hprops, Outcome.ok_bind, payMarketplace_eq hle, hf, hr]
    congr 1
    ext1
    rw [bind_assoc]
    congr 1
    ext1 lamports
    rw [Outcome.ok_bind]
    dsimp only
    rw [safeDiv_tenThousand, Outcome.ok_bind, hbasis]
    by_cases hlen : creatorShares.length ≤ remainingAccounts.length
    · rw [Outcome.assert_of hlen, Outcome.ok_bind, Outcome.ok_bind]
      exact payRest_eq hcreators hlen formerOwner purchaser lamports _
    · rw [Outcome.assert, if_neg hlen]
      rfl
  · rw [hfee]
    exact div_mul_bounds price.toNat props.share.toNat (by norm_num)
  · have hs100 : s.toNat ≤ 100 := (toNat_le_totalShares hs).trans hcreators
    have hbounds := div_mul_bounds rem.toNat (s.toNat * 100) (d := 10000) (by norm_num)
    rw [toNat_amountToPayCreator _ hs100]
    push_cast at hbounds ⊢
    constructor <;> linarith [hbounds.1, hbounds.2]

end Purchase

/-- A price of 20000 with a fee of 300 basis points and two creators. -/
theorem purchase_split_two_creators :
    let rem := 20000 - amountToPayMarketplace 20000 300
    let amounts := [60, 40].map (amountToPayCreator rem)
    (amountToPayMarketplace 20000 300).toNat + (amounts.map UInt64.toNat).sum +
        (rem - amounts.sum).toNat = 20000 ∧
      amounts = [6000, 4000] := by
  have hsplit := purchase_split (rfl : (marketplace 300).marketplaceProps = some _)
    (by decide : (300 : UInt16) ≤ 10000) (by decide : totalShares [60, 40] ≤ 100) [.user 3]
    (.user 2) (.user 3) (.user 0) 20000 (.leaf 0) 0 0 (.leaf 0) [.user 4, .user 5]
  exact ⟨hsplit.2.2.1, by decide⟩

end Candyland.SugarShack
