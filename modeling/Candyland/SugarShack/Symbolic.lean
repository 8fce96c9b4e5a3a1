import Candyland.Bubblegum.Symbolic
import Candyland.SugarShack.Program

/-!
# The marketplace on symbolic keys

The other code that the marketplace uses, as functions that can be evaluated.
-/

namespace Candyland.SugarShack

open ConcurrentMerkleTree (Term)
open Bubblegum (Key)

/-- Checked arithmetic. -/
def checked (n : ℕ) : Option UInt64 := if n < 2 ^ 64 then some (UInt64.ofNat n) else none

instance : SafeMath where
  safeAdd a b := checked (a.toNat + b.toNat)
  safeSub a b := if b.toNat ≤ a.toNat then checked (a.toNat - b.toNat) else none
  safeMul a b := checked (a.toNat * b.toNat)
  safeDiv a b := if b.toNat = 0 then none else checked (a.toNat / b.toNat)

instance : LawfulSafeMath where
  safeAdd_eq _ _ := rfl
  safeSub_eq a b := by
    have ha := a.toNat_lt
    simp only [SafeMath.safeSub, checked, show a.toNat - b.toNat < 2 ^ 64 by omega, if_true]
  safeMul_eq _ _ := rfl
  safeDiv_eq a b := by
    have ha := (Nat.div_le_self a.toNat b.toNat).trans_lt a.toNat_lt
    simp only [SafeMath.safeDiv, checked, ha, if_true]

/-- Lamports move if there are enough of them. -/
instance : SystemProgram Key where
  transfer source recipient amount lamports :=
    if amount ≤ lamports source then
      let lamports := Function.update lamports source (lamports source - amount)
      (checked ((lamports recipient).toNat + amount.toNat)).map
        (Function.update lamports recipient)
    else none

/-- The addresses of the marketplace are derived from two keys that nobody uses. -/
instance : MarketAddress Key where
  marketplaceProps := .authority (.user 10)
  bump := 255
  listing := .asset (.user 11)

instance : InjectiveListing Key where
  listing_inj h := (Key.asset.inj h).2

instance : ProofAccount Term Key := ⟨Key.toTerm⟩

end Candyland.SugarShack
