import Candyland.Bubblegum.Refinement

/-!
# Where owners and delegates come from

The owner and the delegate of an asset are those of its newest mint, transfer or delegation, and
the hash of its creators is that of its mint.
-/

namespace Candyland.Bubblegum

open ConcurrentMerkleTree (NodeHash)
open Gummyroll (Build)

variable {Node Pubkey : Type}

/-- Hashes of different creators differ. -/
class CollisionFreeCreators (Node Pubkey : Type) [LeafHash Node Pubkey] : Prop where
  hashCreators_inj {c c' : List (Pubkey × UInt8)}
    (h : (LeafHash.hashCreators c : Node) = LeafHash.hashCreators c') : c = c'

/-- The addresses and the shares of the creators. -/
def MetadataArgs.creatorShares (self : MetadataArgs Pubkey) : List (Pubkey × UInt8) :=
  self.creators.map fun c => (c.address, c.share)

namespace Instruction

/-- The instruction changes the owner or the delegate of the asset of a nonce. -/
def Reassigns (slab : Pubkey) (nonce : UInt64) : Instruction Node Pubkey → Prop
  | transfer merkleSlab _ _ _ _ _ _ n _ _ => merkleSlab = slab ∧ n = nonce
  | delegate merkleSlab _ _ _ _ _ _ n _ _ => merkleSlab = slab ∧ n = nonce
  | _ => False

/-- A transfer of the asset of a nonce to an owner. -/
def TransfersTo (slab : Pubkey) (nonce : UInt64) (newOwner : Pubkey) :
    Instruction Node Pubkey → Prop
  | transfer merkleSlab _ _ owner _ _ _ n _ _ => merkleSlab = slab ∧ n = nonce ∧ owner = newOwner
  | _ => False

/-- A delegation of the asset of a nonce, as an owner does it. -/
def DelegatesTo (slab : Pubkey) (nonce : UInt64) (owner newDelegate : Pubkey) :
    Instruction Node Pubkey → Prop
  | delegate merkleSlab owner' _ newDelegate' _ _ _ n _ _ =>
    merkleSlab = slab ∧ n = nonce ∧ owner' = owner ∧ newDelegate' = newDelegate
  | _ => False

end Instruction

/-- The schema of an asset, in the tree or in a voucher. -/
def Ledger.schema (self : Ledger Node Pubkey) (slab : Pubkey) (nonce : UInt64) :
    Option (LeafSchema Node Pubkey) :=
  (self.life slab nonce.toNat).bind Life.schema?

theorem Ledger.schema_of_life {L : Ledger Node Pubkey} {slab : Pubkey} {nonce : UInt64}
    {l : Life Node Pubkey} (h : L.life slab nonce.toNat = some l) :
    L.schema slab nonce = l.schema? := by
  simp [Ledger.schema, h]

section Step

variable [LeafHash Node Pubkey] [ProgramAddress Pubkey] [DecidableEq Pubkey]
  {slab : Pubkey} {nonce : UInt64}

omit [DecidableEq Pubkey] in
/-- What a move leaves of the parties to an asset. -/
theorem Life.Move.parties {x : Executed Node Pubkey} {l l' : Life Node Pubkey}
    (h : Life.Move slab nonce x l l') {s s' : LeafSchema Node Pubkey} (hs : l.schema? = some s)
    (hs' : l'.schema? = some s') :
    (x.instruction.TransfersTo slab nonce s'.owner ∧ s'.delegate = s'.owner) ∨
    (x.instruction.DelegatesTo slab nonce s'.owner s'.delegate ∧ s'.owner ∈ x.signers) ∨
    (¬ x.instruction.Reassigns slab nonce ∧ s'.owner = s.owner ∧ s'.delegate = s.delegate) := by
  cases h with
  | transfer =>
    cases hs'
    exact .inl ⟨⟨rfl, rfl, rfl⟩, rfl⟩
  | delegate hsigner =>
    cases hs'
    exact .inr (.inl ⟨⟨rfl, rfl, rfl, rfl⟩, hsigner⟩)
  | redeem | cancelRedeem =>
    cases hs
    cases hs'
    exact .inr (.inr ⟨id, rfl, rfl⟩)
  | burn | decompressV1 => cases hs'

/-- A new asset is that of a mint. -/
theorem Ledger.Step.minted {L L' : Ledger Node Pubkey} {x : Executed Node Pubkey}
    (h : L.Step x L') {l : Life Node Pubkey} (hnone : L.life slab nonce.toNat = none)
    (hl : L'.life slab nonce.toNat = some l) :
    ∃ mintAuthority owner delegate message lives,
      x.instruction = .mintV1 slab mintAuthority owner delegate message ∧ L slab = some lives ∧
      nonce.toNat = lives.length ∧ l = .live (.newV0 (getAssetId slab nonce) owner delegate nonce
        (LeafHash.hashMetadata message) (LeafHash.hashCreators message.creatorShares)) := by
  cases h with
  | createTree hslab =>
    rw [life_update] at hl
    split_ifs at hl
    · exact absurd hl (by simp)
    · exact absurd (hnone.symm.trans hl) (by simp)
  | @mintV1 _ slab₁ mintAuthority owner delegate message lives nonce₁ schema _ hlives hnonce
      hschema =>
    rw [life_update] at hl
    split_ifs at hl with hslab
    · subst hslab
      rw [life_of_eq hlives, List.getElem?_eq_none_iff] at hnone
      obtain ⟨hlt, heq⟩ := List.getElem?_eq_some_iff.1 hl
      rw [List.length_append, List.length_singleton] at hlt
      -- the position behind the assets is that of the new one
      have hlength : nonce.toNat = lives.length := by omega
      obtain rfl : nonce = nonce₁ := UInt64.toNat_inj.1 (hlength.trans hnonce.symm)
      refine ⟨mintAuthority, owner, delegate, message, lives, rfl, hlives, hlength, ?_⟩
      rw [← heq, List.getElem_concat_length hlength, hschema]
      rfl
    · exact absurd (hnone.symm.trans hl) (by simp)
  | @move _ slab₁ nonce₁ l₁ l₂ hlife hmove =>
    rw [life_set hlife] at hl
    split_ifs at hl with heq
    · obtain ⟨rfl, hn⟩ := heq
      rw [hn, hlife] at hnone
      exact absurd hnone (by simp)
    · exact absurd (hnone.symm.trans hl) (by simp)
  | compress => exact absurd (hnone.symm.trans hl) (by simp)

/-- The parties to an asset after a step: those of its mint, of a transfer or of a delegation, or
those before it. -/
theorem Ledger.Step.schema_cases [InjectiveAddress Pubkey] {L L' : Ledger Node Pubkey}
    {x : Executed Node Pubkey} (h : L.Step x L') {s' : LeafSchema Node Pubkey}
    (hs' : L'.schema slab nonce = some s') :
    (∃ mintAuthority message lives,
      x.instruction = .mintV1 slab mintAuthority s'.owner s'.delegate message ∧
      L slab = some lives ∧ nonce.toNat = lives.length ∧
      s'.creatorHash = LeafHash.hashCreators message.creatorShares) ∨
    ∃ s, L.schema slab nonce = some s ∧ s'.creatorHash = s.creatorHash ∧
      ((x.instruction.TransfersTo slab nonce s'.owner ∧ s'.delegate = s'.owner) ∨
      (x.instruction.DelegatesTo slab nonce s'.owner s'.delegate ∧ s'.owner ∈ x.signers) ∨
      (¬ x.instruction.Reassigns slab nonce ∧ s'.owner = s.owner ∧ s'.delegate = s.delegate)) := by
  obtain ⟨l', hl', hschema'⟩ := Option.bind_eq_some_iff.1 hs'
  cases hl : L.life slab nonce.toNat with
  | none =>
    obtain ⟨mintAuthority, owner, delegate, message, lives, hins, hlives, hnonce, rfl⟩ :=
      h.minted hl hl'
    cases hschema'
    exact .inl ⟨mintAuthority, message, lives, hins, hlives, hnonce, rfl⟩
  | some l =>
    right
    by_cases hc : x.instruction.Concerns slab nonce
    · obtain ⟨l₁, l₂, hl₁, hl₂, hmove⟩ := h.exists_move slab nonce hc
      obtain rfl := Option.some.inj (hl.symm.trans hl₁)
      obtain rfl := Option.some.inj (hl'.symm.trans hl₂)
      obtain ⟨s, hs⟩ := Option.isSome_iff_exists.1 hmove.schema?_isSome
      exact ⟨s, (L.schema_of_life hl).trans hs, (hmove.hashes hs hschema').2,
        hmove.parties hs hschema'⟩
    · have heq := h.life_of_not_concerns hl hc
      obtain rfl := Option.some.inj (hl'.symm.trans heq)
      refine ⟨s', (L.schema_of_life hl).trans hschema', rfl, .inr (.inr ⟨?_, rfl, rfl⟩)⟩
      intro hre
      refine hc ?_
      revert hre
      cases x.instruction <;> simp [Instruction.Reassigns, Instruction.Concerns]

end Step

end Candyland.Bubblegum
