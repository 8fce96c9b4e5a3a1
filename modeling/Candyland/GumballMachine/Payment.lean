import Candyland.GumballMachine.LiveCalls

/-!
# Payment

What a buyer pays.  The items are minted first, and their number times the price is transferred
afterwards.  The product is one on `u64`.
-/

namespace Candyland.GumballMachine

open Gummyroll (Build)
open Machine

/-- `native_mint::ID`. -/
class NativeMint (Pubkey : Type) where
  nativeMint : Pubkey

variable {Pubkey ε : Type}

section Dispense

variable [DecidableEq Pubkey] [Build]

/-- `a * b` on `u64`. -/
def mulU64 (a b : UInt64) : Outcome ε UInt64 :=
  if Build.overflowChecks && decide (2 ^ 64 ≤ a.toNat * b.toNat) then .panic else .ok (a * b)

/-- What a call depends on besides the machine.  `receiver` is the account that is paid, and
`transfer` the instruction that pays an amount from the tokens or lamports of the payer. -/
structure Purchase (Pubkey ε : Type) where
  validTransaction : Bool
  unixTimestamp : Int64
  entropy : UInt32 → UInt32
  mint : GumballMachineHeader Pubkey → ℕ → List UInt8 → Outcome ε Unit
  receiver : Pubkey
  payerTokensMint : Pubkey
  transfer : UInt64 → Outcome ε Unit

namespace Machine

variable (self : Machine Pubkey) (purchase : Purchase Pubkey ε)

/-- The items of a purchase. -/
def mintNfts (numItems : UInt32) : Outcome ε (Machine Pubkey × UInt32) :=
  self.findAndMintCompressedNfts purchase.validTransaction purchase.unixTimestamp purchase.entropy
    purchase.mint numItems

/-- `dispense_nft_sol(num_items)`: the account, and the amount that was transferred. -/
def dispenseNftSol [NativeMint Pubkey] (numItems : UInt32) :
    Outcome ε (Machine Pubkey × UInt64) := do
  let (gumballMachine, numNftsMinted) ← self.mintNfts purchase numItems
  Outcome.assert (gumballMachine.header.receiver = purchase.receiver)
  Outcome.assert (gumballMachine.header.mint = NativeMint.nativeMint)
  let amount ← mulU64 gumballMachine.header.price numNftsMinted.toUInt64
  purchase.transfer amount
  .ok (gumballMachine, amount)

/-- `dispense_nft_token(num_items)`. -/
def dispenseNftToken (numItems : UInt32) : Outcome ε (Machine Pubkey × UInt64) := do
  let (gumballMachine, numNftsMinted) ← self.mintNfts purchase numItems
  Outcome.assert (gumballMachine.header.receiver = purchase.receiver)
  Outcome.assert (purchase.payerTokensMint = gumballMachine.header.mint)
  let amount ← mulU64 gumballMachine.header.price numNftsMinted.toUInt64
  purchase.transfer amount
  .ok (gumballMachine, amount)

end Machine

end Dispense

section Charges

variable [DecidableEq Pubkey] [Build] [NativeMint Pubkey] {machine machine' : Machine Pubkey}
  {handed : List ℕ} {purchase : Purchase Pubkey ε} {numItems minted : UInt32} {amount : UInt64}

/-! ### What a call charges -/

/-- The indices that the call hands out. -/
def Purchase.drawn (purchase : Purchase Pubkey ε) (machine : Machine Pubkey) (numItems : UInt32) :
    List ℕ :=
  (Instruction.dispense purchase.validTransaction purchase.unixTimestamp purchase.entropy
    purchase.mint numItems).drawn machine

/-- The number of items that a call mints. -/
def Machine.count (machine : Machine Pubkey) (numItems : UInt32) : ℕ :=
  min (max numItems.toNat 1) machine.header.remaining.toNat

/-- The call transfers the price of every item that it hands out, and fails if the sum does not
fit. -/
structure Charges (machine : Machine Pubkey) (numItems : UInt32) (drawn : List ℕ)
    (call : Outcome ε (Machine Pubkey × UInt64)) : Prop where
  amount_eq {machine' : Machine Pubkey} {amount : UInt64} (h : call = .ok (machine', amount)) :
    amount.toNat = machine.header.price.toNat * drawn.length ∧
      machine'.header.remaining.toNat + drawn.length = machine.header.remaining.toNat
  fails (hwide : 2 ^ 64 ≤ machine.header.price.toNat * machine.count numItems)
    (r : Machine Pubkey × UInt64) : call ≠ .ok r

omit [DecidableEq Pubkey] [NativeMint Pubkey] in
theorem mulU64_eq_ok {a b r : UInt64} (h : (mulU64 a b : Outcome ε UInt64) = .ok r) :
    r.toNat = a.toNat * b.toNat % 2 ^ 64 ∧
      (Build.overflowChecks = true → a.toNat * b.toNat < 2 ^ 64) := by
  rw [mulU64] at h
  split_ifs at h with hwide
  obtain rfl := Outcome.ok.inj h
  refine ⟨UInt64.toNat_mul a b, fun hchecks => ?_⟩
  simpa [hchecks] using hwide

omit [DecidableEq Pubkey] [NativeMint Pubkey] in
/-- The items of a successful purchase. -/
theorem mintNfts_ok (h : machine.mintNfts purchase numItems = .ok (machine', minted)) :
    (purchase.drawn machine numItems).length = minted.toNat ∧
      minted.toNat = machine.count numItems ∧
      machine'.header.remaining.toNat + minted.toNat = machine.header.remaining.toNat ∧
      machine'.header.price = machine.header.price ∧
      machine'.header.receiver = machine.header.receiver ∧
      machine'.header.mint = machine.header.mint := by
  have hdispensed := findAndMintCompressedNfts_ok h
  obtain ⟨-, rfl, hlength⟩ := findAndMintCompressedNfts_live h
  have hcount := hdispensed.draws.count
  rw [hlength] at hcount
  exact ⟨hlength, toNat_min_max _ _, hcount, by rw [hdispensed.header_eq],
    by rw [hdispensed.header_eq], by rw [hdispensed.header_eq]⟩

omit [DecidableEq Pubkey] [NativeMint Pubkey] in
/-- A successful payment is the price of the items, up to a wrap around. -/
theorem payment_ok (hminted : machine.mintNfts purchase numItems = .ok (machine', minted))
    (h : (mulU64 machine'.header.price minted.toUInt64 : Outcome ε UInt64) = .ok amount) :
    amount.toNat = machine.header.price.toNat * machine.count numItems % 2 ^ 64 ∧
      (Build.overflowChecks = true →
        machine.header.price.toNat * machine.count numItems < 2 ^ 64) := by
  obtain ⟨-, hcount, -, hprice, -, -⟩ := mintNfts_ok hminted
  rw [← hcount, ← hprice]
  exact mulU64_eq_ok h

/-- The call minted items and transferred their price, as a product on `u64`. -/
def Settled (machine : Machine Pubkey) (purchase : Purchase Pubkey ε) (numItems : UInt32)
    (call : Outcome ε (Machine Pubkey × UInt64)) : Prop :=
  ∀ machine' amount, call = .ok (machine', amount) → ∃ minted,
    machine.mintNfts purchase numItems = .ok (machine', minted) ∧
      (mulU64 machine'.header.price minted.toUInt64 : Outcome ε UInt64) = .ok amount

omit [DecidableEq Pubkey] [NativeMint Pubkey] in
/-- The payment is right if the product is. -/
theorem Settled.charges {call : Outcome ε (Machine Pubkey × UInt64)}
    (h : Settled machine purchase numItems call)
    (hfits : Build.overflowChecks = true ∨ (∀ unixTimestamp, ¬ Live machine unixTimestamp numItems) ∨
      machine.header.price.toNat * machine.count numItems < 2 ^ 64) :
    Charges machine numItems (purchase.drawn machine numItems) call := by
  have hnarrow : ∀ machine' amount, call = .ok (machine', amount) →
      machine.header.price.toNat * machine.count numItems < 2 ^ 64 := by
    intro machine' amount hcall
    obtain ⟨minted, hminted, hamount⟩ := h machine' amount hcall
    rcases hfits with hchecks | hrefused | hlt
    · exact (payment_ok hminted hamount).2 hchecks
    · exact absurd (findAndMintCompressedNfts_live hminted).1 (hrefused _)
    · exact hlt
  constructor
  case amount_eq =>
    intro machine' amount hcall
    have hlt := hnarrow machine' amount hcall
    obtain ⟨minted, hminted, hamount⟩ := h machine' amount hcall
    obtain ⟨hlength, hcount, hremaining, -⟩ := mintNfts_ok hminted
    rw [(payment_ok hminted hamount).1, Nat.mod_eq_of_lt hlt, hlength, hcount]
    exact ⟨rfl, hcount ▸ hremaining⟩
  case fails =>
    rintro hwide ⟨machine', amount⟩ hcall
    exact absurd (hnarrow machine' amount hcall) (not_lt.2 hwide)

theorem settled_dispenseNftSol :
    Settled machine purchase numItems (machine.dispenseNftSol purchase numItems) := by
  intro machine' amount h
  obtain ⟨⟨machine₁, minted⟩, hminted, h⟩ := Outcome.bind_eq_ok.1 h
  obtain ⟨⟨⟩, -, h⟩ := Outcome.bind_eq_ok.1 h
  obtain ⟨⟨⟩, -, h⟩ := Outcome.bind_eq_ok.1 h
  obtain ⟨amount₁, hamount, h⟩ := Outcome.bind_eq_ok.1 h
  obtain ⟨⟨⟩, -, h⟩ := Outcome.bind_eq_ok.1 h
  obtain ⟨rfl, rfl⟩ := Prod.mk.inj (Outcome.ok.inj h)
  exact ⟨minted, hminted, hamount⟩

omit [NativeMint Pubkey] in
theorem settled_dispenseNftToken :
    Settled machine purchase numItems (machine.dispenseNftToken purchase numItems) := by
  intro machine' amount h
  obtain ⟨⟨machine₁, minted⟩, hminted, h⟩ := Outcome.bind_eq_ok.1 h
  obtain ⟨⟨⟩, -, h⟩ := Outcome.bind_eq_ok.1 h
  obtain ⟨⟨⟩, -, h⟩ := Outcome.bind_eq_ok.1 h
  obtain ⟨amount₁, hamount, h⟩ := Outcome.bind_eq_ok.1 h
  obtain ⟨⟨⟩, -, h⟩ := Outcome.bind_eq_ok.1 h
  obtain ⟨rfl, rfl⟩ := Prod.mk.inj (Outcome.ok.inj h)
  exact ⟨minted, hminted, hamount⟩

/-! ### A product that wraps around -/

/-- A purchase that nothing but the machine refuses. -/
def Machine.purchaseAt (machine : Machine Pubkey) (unixTimestamp : Int64) : Purchase Pubkey ε where
  validTransaction := true
  unixTimestamp := unixTimestamp
  entropy := fun _ => 0
  mint := fun _ _ _ => .ok ()
  receiver := machine.header.receiver
  payerTokensMint := machine.header.mint
  transfer := fun _ => .ok ()

omit [NativeMint Pubkey] in
/-- Without overflow checks, a live machine sells at any price. -/
theorem dispenseNftToken_live (hpool : PoolInv machine handed) (hsizes : SizeInv ε machine)
    {unixTimestamp : Int64} (hlive : Live machine unixTimestamp numItems)
    (hchecks : Build.overflowChecks = false) :
    ∃ r, machine.dispenseNftToken (machine.purchaseAt unixTimestamp : Purchase Pubkey ε) numItems =
      .ok r := by
  have hstops : StopsAtMint (fun _ _ _ => .ok ())
      (machine.findAndMintCompressedNfts true unixTimestamp (fun _ => 0)
        (fun _ _ _ => (.ok () : Outcome ε Unit)) numItems) :=
    findAndMintCompressedNfts_stops hpool hsizes hlive
  obtain ⟨⟨machine', minted⟩, hminted⟩ | ⟨_, _, _, hne, -⟩ := hstops
  · replace hminted : machine.mintNfts (machine.purchaseAt unixTimestamp : Purchase Pubkey ε)
        numItems = .ok (machine', minted) := hminted
    obtain ⟨-, -, -, -, hreceiver, hmint⟩ := mintNfts_ok hminted
    rw [dispenseNftToken, hminted, Outcome.ok_bind]
    dsimp only
    rw [Outcome.assert_of (show machine'.header.receiver =
        (machine.purchaseAt unixTimestamp : Purchase Pubkey ε).receiver from hreceiver),
      Outcome.ok_bind, Outcome.assert_of (show (machine.purchaseAt unixTimestamp :
        Purchase Pubkey ε).payerTokensMint = machine'.header.mint from hmint.symm),
      Outcome.ok_bind, mulU64, hchecks]
    exact ⟨_, rfl⟩
  · exact absurd rfl hne

/-- Buyers pay for what they get, whatever they buy, exactly if the product is checked or fits, or
if the call is refused at any time. -/
theorem buyers_pay_iff {P : Machine Pubkey → List ℕ → Instruction Pubkey ε → Prop}
    (hP : ∀ machine handed ins, P machine handed ins → ins.data.length < 2 ^ 32)
    (hrun : SaleRun P machine handed) (numItems : UInt32) :
    (∀ purchase : Purchase Pubkey ε,
        Charges machine numItems (purchase.drawn machine numItems)
            (machine.dispenseNftSol purchase numItems) ∧
          Charges machine numItems (purchase.drawn machine numItems)
            (machine.dispenseNftToken purchase numItems)) ↔
      Build.overflowChecks = true ∨ (∀ unixTimestamp, ¬ Live machine unixTimestamp numItems) ∨
        machine.header.price.toNat * machine.count numItems < 2 ^ 64 := by
  constructor
  · intro hcharges
    by_contra! hnot
    obtain ⟨hchecks, ⟨unixTimestamp, hlive⟩, hwide⟩ := hnot
    obtain ⟨r, hcall⟩ := dispenseNftToken_live hrun.inv (hrun.sizes hP) hlive
      (Bool.eq_false_of_not_eq_true hchecks)
    exact (hcharges (machine.purchaseAt unixTimestamp)).2.fails hwide r hcall
  · intro hfits purchase
    exact ⟨settled_dispenseNftSol.charges hfits, settled_dispenseNftToken.charges hfits⟩

end Charges

/-! ### Two items -/

instance : NativeMint ℕ := ⟨0⟩

/-- Sets the price, and lets both items be sold at once. -/
def setPrice (price : UInt64) : Instruction ℕ Unit :=
  .updateHeaderMetadata 1 ⟨none, none, none, none, none, none, none, some price, none, none, none,
    some 2⟩

/-- A machine with two items at a price. -/
def pricedItems (price : UInt64) : SaleState :=
  ((twoItems 0).step (.initializeIndicesChunk 1)).step (setPrice price)

theorem saleRun_priced (price : UInt64) :
    SaleRun (fun _ _ (ins : Instruction ℕ Unit) => ins.data.length < 2 ^ 32) (pricedItems price).1
      (pricedItems price).2 :=
  ((saleRun_twoItems _ (.inl rfl)).step_state _ (by decide) (by decide)).step_state _
    (Nat.two_pow_pos 63) (Nat.two_pow_pos 32)

/-- Two items for five each. -/
theorem buyers_pay_ten :
    let machine := (pricedItems 5).1
    let purchase : Purchase ℕ Unit := machine.purchaseAt 1
    Prod.snd <$> machine.dispenseNftSol purchase 2 = .ok 10 ∧
      Charges machine 2 (purchase.drawn machine 2) (machine.dispenseNftSol purchase 2) := by
  intro machine purchase
  refine ⟨by decide, ?_⟩
  have hiff := buyers_pay_iff (fun _ _ _ hdata => hdata) (saleRun_priced 5) 2
  exact (hiff.2 (.inr (.inr (by decide))) purchase).1

/-- Two items at a price of `2 ^ 63` are free, for lamports as for tokens. -/
theorem free_items :
    let machine := (pricedItems 9223372036854775808).1
    let purchase : Purchase ℕ Unit := machine.purchaseAt 1
    Build.overflowChecks = false ∧ (purchase.drawn machine 2).length = 2 ∧
      Prod.snd <$> machine.dispenseNftSol purchase 2 = .ok 0 ∧
      Prod.snd <$> machine.dispenseNftToken purchase 2 = .ok 0 ∧
      ¬ Charges machine 2 (purchase.drawn machine 2) (machine.dispenseNftToken purchase 2) := by
  intro machine purchase
  have hsol : Prod.snd <$> machine.dispenseNftSol purchase 2 = .ok 0 := by decide
  have htoken : Prod.snd <$> machine.dispenseNftToken purchase 2 = .ok 0 := by decide
  refine ⟨rfl, by decide, hsol, htoken, fun h => ?_⟩
  rcases hcall : machine.dispenseNftToken purchase 2 with r | e | _
  · exact h.fails (by decide) r hcall
  · rw [hcall] at htoken
    exact absurd htoken nofun
  · rw [hcall] at htoken
    exact absurd htoken nofun

end Candyland.GumballMachine
