import Candyland.Bubblegum.Refinement
import Candyland.Gummyroll.Symbolic

/-!
# Symbolic keys

Keys as terms: an address that is derived from a key is a new key.  With these keys, and with
nodes that are terms, the hashes have no collisions and runs can be evaluated.
-/

namespace Candyland.Bubblegum

open ConcurrentMerkleTree (Term NodeHash EMPTY MerkleRoll)
open Gummyroll (Account Build)

/-- A key is that of a user, or derived from another one. -/
inductive Key where
  | user (n : ℕ)
  | authority (slab : Key)
  | voucher (slab : Key) (nonce : UInt64)
  | asset (slab : Key) (nonce : UInt64)
deriving DecidableEq

instance : ProgramAddress Key := ⟨.authority, .voucher, .asset⟩

instance : InjectiveAddress Key where
  authority_inj := Key.authority.inj
  voucher_inj := Key.voucher.inj
  asset_inj := Key.asset.inj

/-- The bytes of a key. -/
def Key.toTerm : Key → Term
  | user n => .node (.leaf 0) (.leaf n)
  | authority slab => .node (.leaf 1) slab.toTerm
  | voucher slab nonce => .node (.leaf 2) (.node slab.toTerm (.leaf nonce.toNat))
  | asset slab nonce => .node (.leaf 3) (.node slab.toTerm (.leaf nonce.toNat))

theorem Key.toTerm_inj {a b : Key} (h : a.toTerm = b.toTerm) : a = b := by
  induction a generalizing b with
  | user n => cases b <;> simp_all [toTerm]
  | authority slab ih =>
    cases b with
    | authority slab' => exact congrArg _ (ih (by simpa [toTerm] using h))
    | user | voucher | asset => simp [toTerm] at h
  | voucher slab nonce ih =>
    cases b with
    | voucher slab' nonce' =>
      simp only [toTerm, Term.node.injEq, Term.leaf.injEq, true_and] at h
      rw [ih h.1, UInt64.toNat_inj.1 h.2]
    | user | authority | asset => simp [toTerm] at h
  | asset slab nonce ih =>
    cases b with
    | asset slab' nonce' =>
      simp only [toTerm, Term.node.injEq, Term.leaf.injEq, true_and] at h
      rw [ih h.1, UInt64.toNat_inj.1 h.2]
    | user | authority | voucher => simp [toTerm] at h

instance : LeafHash Term Key where
  hashLeaf version s := .node (.leaf version.toNat) (.node s.id.toTerm (.node s.owner.toTerm
    (.node s.delegate.toTerm (.node (.leaf s.nonce.toNat) (.node s.dataHash s.creatorHash)))))
  hashMetadata metadata := .leaf (metadata.sellerFeeBasisPoints.toNat + 1)
  hashCreators creators := creators.foldr
    (fun c rest => .node c.1.toTerm (.node (.leaf c.2.toNat) rest)) (.leaf 0)

instance : CollisionFreeLeaf Term Key where
  hashLeaf_inj {v v' s s'} h := by
    obtain ⟨id, owner, delegate, nonce, dataHash, creatorHash⟩ := s
    obtain ⟨id', owner', delegate', nonce', dataHash', creatorHash'⟩ := s'
    simp only [LeafHash.hashLeaf, Term.node.injEq, Term.leaf.injEq] at h
    obtain ⟨hv, hid, howner, hdelegate, hnonce, rfl, rfl⟩ := h
    rw [Key.toTerm_inj hid, Key.toTerm_inj howner, Key.toTerm_inj hdelegate,
      UInt64.toNat_inj.1 hnonce]
    exact ⟨UInt8.toNat_inj.1 hv, rfl⟩
  hashLeaf_ne_empty _ _ := by
    simp [LeafHash.hashLeaf, EMPTY]

/-! ### A trace -/

/-- Executes an instruction; one that fails is undone. -/
def State.after (self : State Term Key) (signers : List Key) (ins : Instruction Term Key) :
    List (Event Term Key) × State Term Key :=
  match ins.exec signers self with
  | .ok res => res
  | _ => ([], self)

/-- The instruction as it was executed. -/
def State.executed (self : State Term Key) (signers : List Key) (ins : Instruction Term Key) :
    Executed Term Key :=
  ⟨signers, ins, (self.after signers ins).1⟩

/-- The instruction succeeds. -/
def State.accepts (self : State Term Key) (signers : List Key) (ins : Instruction Term Key) :
    Bool :=
  ins.exec signers self matches .ok _

theorem State.takes_after {st : State Term Key} {signers : List Key} {ins : Instruction Term Key}
    (hins : ins.Allocated) (hok : st.accepts signers ins = true) :
    Executed.Takes st (st.executed signers ins) (st.after signers ins).2 := by
  refine ⟨hins, ?_⟩
  rw [accepts] at hok
  simp only [executed, after]
  split at hok
  · rename_i res hres
    rw [hres]
  · exact absurd hok (by simp)

/-- The root of the tree of a slab. -/
def State.root (self : State Term Key) (slab : Key) : Term :=
  match self.trees slab with
  | some tree => tree.slab.account.roll.getChangeLog.root
  | none => EMPTY

namespace Trace

/-- The slab. -/
def slab : Key := .user 0
/-- The creator of the tree. -/
def creator : Key := .user 1
/-- The first owner. -/
def alice : Key := .user 2
/-- The second owner. -/
def bob : Key := .user 3

/-- Metadata of an asset without creators. -/
def metadata : MetadataArgs Key where
  name := ""
  symbol := ""
  uri := ""
  sellerFeeBasisPoints := 500
  primarySaleHappened := false
  isMutable := true
  editionNonce := none
  tokenStandard := none
  collection := none
  uses := none
  tokenProgramVersion := .Original
  creators := []

/-- An account of zero bytes at the address of the slab. -/
def zeroed : Account Term Key 3 8 where
  key := slab
  header := ⟨0, 0, slab, slab, 0⟩
  roll := MerkleRoll.new
  canopy := .zeroed 0

theorem fresh_zeroed : zeroed.Fresh 0 where
  header := ⟨rfl, rfl⟩
  roll := rfl
  trailing := rfl
  length := rfl
  cached := by decide
  zero _ h := absurd h List.not_mem_nil

/-- The creation of the tree. -/
def createTree : Instruction Term Key :=
  .createTree creator creator slab inferInstance zeroed 0

/-- The accounts after `create_tree`. -/
def created : State Term Key := (State.empty.after [creator] createTree).2

/-- The mint of an asset for the first owner. -/
def mintV1 : Instruction Term Key := .mintV1 slab creator alice alice metadata

/-- The accounts after `mint_v1`. -/
def minted : State Term Key := (created.after [creator] mintV1).2

/-- The instructions so far. -/
def mintHistory : List (Executed Term Key) :=
  [created.executed [creator] mintV1, State.empty.executed [creator] createTree]

theorem reachable_minted : Reachable mintHistory minted := by
  refine .step (.step .refl (State.takes_after ⟨rfl, 0, fresh_zeroed⟩ ?_))
    (State.takes_after trivial ?_)
  · decide +kernel
  · decide +kernel

/-- The hash of the metadata. -/
def dataHash : Term := LeafHash.hashMetadata metadata

/-- The hash of no creators. -/
def creatorHash : Term := LeafHash.hashCreators ([] : List (Key × UInt8))

/-- The asset goes from an owner, who is the delegate too, to another one. -/
def transfer (st : State Term Key) (owner newOwner : Key) : Instruction Term Key :=
  .transfer slab owner owner newOwner (st.root slab) dataHash creatorHash 0 0 []

/-- The owner burns the asset. -/
def burn (st : State Term Key) (owner : Key) : Instruction Term Key :=
  .burn slab owner owner (st.root slab) dataHash creatorHash 0 0 []

/-- The owner redeems the asset. -/
def redeem (st : State Term Key) (owner : Key) : Instruction Term Key :=
  .redeem slab owner owner (st.root slab) dataHash creatorHash 0 0 []

/-- The owner gives the voucher back. -/
def cancelRedeem (st : State Term Key) (owner : Key) : Instruction Term Key :=
  .cancelRedeem slab (ProgramAddress.voucher slab 0) owner (st.root slab) []

end Trace

end Candyland.Bubblegum
