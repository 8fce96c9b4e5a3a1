import Candyland.Gummyroll.State
import Candyland.Lib.Bytes
import Candyland.Lib.Records

/-!
# The gumball machine

The account of a gumball machine: a header and the configuration data behind it, which is
an array of `max_items` indices followed by the config lines.
-/

namespace Candyland.GumballMachine

open Gummyroll (Build)

/-- `GumballCreatorAdapter`. -/
structure GumballCreatorAdapter (Pubkey : Type) where
  address : Pubkey
  verified : UInt8
  share : UInt8
deriving DecidableEq

/-- `GumballMachineHeader`. -/
structure GumballMachineHeader (Pubkey : Type) where
  urlBase : Vector UInt8 64
  nameBase : Vector UInt8 32
  symbol : Vector UInt8 8
  sellerFeeBasisPoints : UInt16
  isMutable : UInt8
  retainAuthority : UInt8
  configLineEncodeMethod : UInt8
  creators : Vector (GumballCreatorAdapter Pubkey) 5
  price : UInt64
  goLiveDate : Int64
  mint : Pubkey
  botWallet : Pubkey
  receiver : Pubkey
  authority : Pubkey
  collectionKey : Pubkey
  extensionLen : UInt64
  maxMintSize : UInt32
  remaining : UInt32
  maxItems : UInt32
  totalItemsAdded : UInt32
  smallestUninitializedIndex : UInt32
deriving DecidableEq

/-- The data of the account, `config_data` being the bytes behind the header. -/
structure Machine (Pubkey : Type) where
  header : GumballMachineHeader Pubkey
  configData : List UInt8
deriving DecidableEq

namespace Machine

variable {Pubkey : Type} (self : Machine Pubkey)

/-- The bytes of the index array, `size_of::<u32>() * size` of them. -/
def indicesData : List UInt8 := self.configData.take (4 * self.header.maxItems.toNat)

/-- The bytes of the config lines. -/
def configLinesData : List UInt8 := self.configData.drop (4 * self.header.maxItems.toNat)

/-- The index array. -/
def indices : List UInt32 := Bytes.toArray self.indicesData

end Machine

/-! ### Machine arithmetic -/

section Arithmetic

variable [Build] {ε : Type}

/-- The value of a sum or product on `usize`. -/
def usize (x : ℕ) : Outcome ε ℕ :=
  if x < 2 ^ 64 then .ok x else if Build.overflowChecks then .panic else .ok (x % 2 ^ 64)

/-- `a + b` on `u32`. -/
def addU32 (a b : UInt32) : Outcome ε UInt32 :=
  if Build.overflowChecks && decide (2 ^ 32 ≤ a.toNat + b.toNat) then .panic else .ok (a + b)

/-- `a - b` on `u32`. -/
def subU32 (a b : UInt32) : Outcome ε UInt32 :=
  if Build.overflowChecks && decide (a < b) then .panic else .ok (a - b)

theorem usize_of_lt {x : ℕ} (h : x < 2 ^ 64) : (usize x : Outcome ε ℕ) = .ok x := if_pos h

/-- The value, unless it wrapped around. -/
theorem usize_eq_ok {x y : ℕ} (h : (usize x : Outcome ε ℕ) = .ok y) : y = x % 2 ^ 64 := by
  rw [usize] at h
  split_ifs at h with hlt
  · rw [← Outcome.ok.inj h, Nat.mod_eq_of_lt hlt]
  · exact (Outcome.ok.inj h).symm

theorem addU32_eq_ok {a b r : UInt32} (h : (addU32 a b : Outcome ε UInt32) = .ok r) : r = a + b := by
  rw [addU32] at h
  split_ifs at h
  exact (Outcome.ok.inj h).symm

theorem subU32_eq_ok {a b r : UInt32} (h : (subU32 a b : Outcome ε UInt32) = .ok r) : r = a - b := by
  rw [subU32] at h
  split_ifs at h
  exact (Outcome.ok.inj h).symm

end Arithmetic

end Candyland.GumballMachine
