import Candyland.Bubblegum.Program

/-!
# The marketplace

The account of the marketplace program, and what it uses of other code: checked arithmetic on
`u64` and transfers of lamports.  A listing has no account; it is the address that is derived
from a price, as the delegate of an asset.
-/

namespace Candyland.SugarShack

/-- `MarketplaceProperties`. -/
structure MarketplaceProperties (Pubkey : Type) where
  authority : Pubkey
  /-- In basis points. -/
  share : UInt16
  bump : UInt8
deriving DecidableEq

/-- The addresses of `find_program_address`: for the prefix of the properties, with its bump, and
for a price. -/
class MarketAddress (Pubkey : Type) where
  marketplaceProps : Pubkey
  bump : UInt8
  listing : UInt64 → Pubkey

/-- Different prices have different addresses. -/
class InjectiveListing (Pubkey : Type) [MarketAddress Pubkey] : Prop where
  listing_inj {p q : UInt64}
    (h : (MarketAddress.listing p : Pubkey) = MarketAddress.listing q) : p = q

/-- The operations of `SafeMath` on `u64`; an error has no data. -/
class SafeMath where
  safeAdd : UInt64 → UInt64 → Option UInt64
  safeSub : UInt64 → UInt64 → Option UInt64
  safeMul : UInt64 → UInt64 → Option UInt64
  safeDiv : UInt64 → UInt64 → Option UInt64

/-- The operations return the value if it is one of `u64`. -/
class LawfulSafeMath [SafeMath] : Prop where
  safeAdd_eq (a b : UInt64) : SafeMath.safeAdd a b =
    if a.toNat + b.toNat < 2 ^ 64 then some (UInt64.ofNat (a.toNat + b.toNat)) else none
  safeSub_eq (a b : UInt64) : SafeMath.safeSub a b =
    if b.toNat ≤ a.toNat then some (UInt64.ofNat (a.toNat - b.toNat)) else none
  safeMul_eq (a b : UInt64) : SafeMath.safeMul a b =
    if a.toNat * b.toNat < 2 ^ 64 then some (UInt64.ofNat (a.toNat * b.toNat)) else none
  safeDiv_eq (a b : UInt64) : SafeMath.safeDiv a b =
    if b.toNat = 0 then none else some (UInt64.ofNat (a.toNat / b.toNat))

/-- The lamports of the accounts. -/
abbrev Lamports (Pubkey : Type) := Pubkey → UInt64

/-- `system_instruction::transfer(from, to, lamports)`, which fails without funds. -/
class SystemProgram (Pubkey : Type) where
  transfer : Pubkey → Pubkey → UInt64 → Lamports Pubkey → Option (Lamports Pubkey)

/-- The key of an account that is read as a node of a proof. -/
class ProofAccount (Node Pubkey : Type) where
  node : Pubkey → Node

/-- An error of an instruction. -/
inductive Error where
  | safeMath
  | insufficientFunds
  /-- An account is missing, exists already or did not sign. -/
  | constraint
  | bubblegum (error : Bubblegum.Error)
deriving DecidableEq

/-- The accounts: those of bubblegum, the properties of the marketplace, and the lamports. -/
structure State (Node Pubkey : Type) where
  bubblegum : Bubblegum.State Node Pubkey
  marketplaceProps : Option (MarketplaceProperties Pubkey)
  lamports : Lamports Pubkey

/-! ### Calls of other code -/

/-- A call of `SafeMath`. -/
def safe (x : Option UInt64) : Outcome Error UInt64 :=
  match x with
  | some value => .ok value
  | none => .err .safeMath

@[simp] theorem safe_some (x : UInt64) : safe (some x) = .ok x := rfl

@[simp] theorem safe_eq_ok {x : Option UInt64} {y : UInt64} : safe x = .ok y ↔ x = some y := by
  cases x <;> simp [safe]

/-- A check that Anchor makes of the accounts. -/
def constraint (p : Prop) [Decidable p] : Outcome Error Unit :=
  if p then .ok () else .err .constraint

@[simp] theorem constraint_eq_ok {p : Prop} [Decidable p] {u : Unit} :
    constraint p = .ok u ↔ p := by
  rw [constraint]
  split_ifs with h <;> simp [h]

/-- `invoke` of the system program. -/
def pay {Pubkey : Type} [SystemProgram Pubkey] (lamports : Lamports Pubkey) (source recipient : Pubkey)
    (amount : UInt64) : Outcome Error (Lamports Pubkey) :=
  match SystemProgram.transfer source recipient amount lamports with
  | some lamports => .ok lamports
  | none => .err .insufficientFunds

/-- A failed call of bubblegum is an error of the caller. -/
def ofBubblegum {α : Type} : Outcome Bubblegum.Error α → Outcome Error α
  | .ok value => .ok value
  | .err error => .err (.bubblegum error)
  | .panic => .panic

@[simp] theorem ofBubblegum_eq_ok {α : Type} {x : Outcome Bubblegum.Error α} {a : α} :
    ofBubblegum x = .ok a ↔ x = .ok a := by
  cases x <;> simp [ofBubblegum]

end Candyland.SugarShack
