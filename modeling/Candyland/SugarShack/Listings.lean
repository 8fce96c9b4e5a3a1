import Candyland.Bubblegum.Delegation
import Candyland.SugarShack.Payments

/-!
# Listings

A listing is a delegate in the leaf of an asset.  A purchase goes through only for the owner and
the delegate of the current leaf, so what is bought was listed by the owner who is paid.
-/

namespace Candyland.SugarShack

open ConcurrentMerkleTree (NodeHash CollisionFree NonzeroHash)
open Gummyroll (Build)
open Bubblegum

variable {Node Pubkey : Type} [LeafHash Node Pubkey] [MarketAddress Pubkey]
  [ProofAccount Node Pubkey]

/-! ### Calls of bubblegum -/

/-- The call of bubblegum that an instruction makes, with the keys that sign it. -/
def Executed.call (x : Executed Node Pubkey) :
    Option (List Pubkey × Bubblegum.Instruction Node Pubkey) :=
  match x.instruction with
  | .bubblegum ins => some (x.signers, ins)
  | .createOrModifyListing owner formerDelegate merkleSlab price dataHash creatorHash nonce index
      root proof =>
    some (modifyCompressedNftDelegate owner formerDelegate (MarketAddress.listing price) merkleSlab
      dataHash creatorHash nonce index root proof)
  | .removeListing owner formerDelegate newDelegate merkleSlab dataHash creatorHash nonce index
      root proof =>
    some (modifyCompressedNftDelegate owner formerDelegate newDelegate merkleSlab dataHash
      creatorHash nonce index root proof)
  | .purchase formerOwner purchaser merkleSlab price dataHash nonce index root creatorShares
      remainingAccounts =>
    some (purchaseCall formerOwner purchaser merkleSlab price dataHash nonce index root
      creatorShares remainingAccounts)
  | .initializeMarketplace .. | .updateMarketplaceProperties .. | .withdrawFees .. => none

namespace Executed

/-- The instruction changes the owner or the delegate of the asset of a nonce. -/
def Reassigns (slab : Pubkey) (nonce : UInt64) (x : Executed Node Pubkey) : Prop :=
  ∃ call ∈ x.call, call.2.Reassigns slab nonce

/-- A transfer or a purchase of the asset of a nonce, to an owner. -/
def TransfersTo (slab : Pubkey) (nonce : UInt64) (newOwner : Pubkey) (x : Executed Node Pubkey) :
    Prop :=
  ∃ call ∈ x.call, call.2.TransfersTo slab nonce newOwner

/-- A delegation or a listing of the asset of a nonce, signed by an owner. -/
def DelegatesTo (slab : Pubkey) (nonce : UInt64) (owner newDelegate : Pubkey)
    (x : Executed Node Pubkey) : Prop :=
  (∃ call ∈ x.call, call.2.DelegatesTo slab nonce owner newDelegate) ∧ owner ∈ x.signers

/-- The mint of the asset of a nonce, which is the counter of the tree. -/
def Mints [ProgramAddress Pubkey] (slab : Pubkey) (nonce : UInt64) (owner delegate : Pubkey)
    (message : MetadataArgs Pubkey) (st : State Node Pubkey) (x : Executed Node Pubkey) : Prop :=
  (∃ mintAuthority,
    x.instruction = .bubblegum (.mintV1 slab mintAuthority owner delegate message)) ∧
  st.bubblegum.nonces (ProgramAddress.authority slab) = some nonce

end Executed

section Calls

variable [NodeHash Node] [DecidableEq Node] [DecidableEq Pubkey] [Build] [ProgramAddress Pubkey]
  [SafeMath] [SystemProgram Pubkey] {st st' : State Node Pubkey} {x : Executed Node Pubkey}

/-- An instruction of the marketplace changes the accounts of bubblegum by its call.  Only for the
transfer of a purchase it signs with a key that did not sign the instruction. -/
theorem Executed.call_ok (h : x.instruction.exec x.signers st = .ok st') :
    (x.call = none ∧ st'.bubblegum = st.bubblegum) ∨
    ∃ call events, x.call = some call ∧
      call.2.exec call.1 st.bubblegum = .ok (events, st'.bubblegum) ∧
      (call.2.name = .Transfer ∨ ∀ key ∈ call.1, key ∈ x.signers) := by
  obtain ⟨signers, instruction⟩ := x
  cases instruction with
  | bubblegum ins =>
    obtain ⟨-, events, hexec⟩ := State.invoke_ok h
    exact .inr ⟨_, events, rfl, hexec, .inr fun key hkey => hkey⟩
  | createOrModifyListing owner | removeListing owner =>
    obtain ⟨⟨⟩, howner, h⟩ := Outcome.bind_eq_ok.1 h
    obtain ⟨-, events, hexec⟩ := State.invoke_ok h
    refine .inr ⟨_, events, rfl, hexec, .inr ?_⟩
    intro key hkey
    obtain rfl := List.mem_singleton.1 hkey
    exact constraint_eq_ok.1 howner
  | purchase =>
    obtain ⟨-, -, lamports, h⟩ := State.purchase_ok h
    obtain ⟨-, events, hexec⟩ := State.invoke_ok h
    exact .inr ⟨_, events, rfl, hexec, .inl rfl⟩
  | initializeMarketplace =>
    obtain ⟨⟨⟩, -, h⟩ := Outcome.bind_eq_ok.1 h
    obtain ⟨⟨⟩, -, h⟩ := Outcome.bind_eq_ok.1 h
    obtain ⟨⟨⟩, -, h⟩ := Outcome.bind_eq_ok.1 h
    obtain rfl := Outcome.ok.inj h
    exact .inl ⟨rfl, rfl⟩
  | updateMarketplaceProperties =>
    obtain ⟨⟨⟩, -, h⟩ := Outcome.bind_eq_ok.1 h
    obtain ⟨props, -, h⟩ := Outcome.bind_eq_ok.1 h
    obtain ⟨⟨⟩, -, h⟩ := Outcome.bind_eq_ok.1 h
    obtain rfl := Outcome.ok.inj h
    exact .inl ⟨rfl, rfl⟩
  | withdrawFees =>
    obtain ⟨⟨⟩, -, h⟩ := Outcome.bind_eq_ok.1 h
    obtain ⟨props, -, h⟩ := Outcome.bind_eq_ok.1 h
    obtain ⟨⟨⟩, -, h⟩ := Outcome.bind_eq_ok.1 h
    obtain ⟨balance, -, h⟩ := Outcome.bind_eq_ok.1 h
    obtain ⟨⟨⟩, -, h⟩ := Outcome.bind_eq_ok.1 h
    obtain ⟨received, -, h⟩ := Outcome.bind_eq_ok.1 h
    obtain rfl := Outcome.ok.inj h
    exact .inl ⟨rfl, rfl⟩

omit [DecidableEq Node] [DecidableEq Pubkey] [Build] [ProgramAddress Pubkey] [SafeMath]
  [SystemProgram Pubkey] in
/-- A call has an allocated account if the instruction has. -/
theorem Executed.call_allocated (h : x.instruction.Allocated)
    {call : List Pubkey × Bubblegum.Instruction Node Pubkey} (hcall : x.call = some call) :
    call.2.Allocated := by
  obtain ⟨signers, instruction⟩ := x
  cases instruction <;> cases hcall <;> exact h

end Calls

/-! ### Where the parties come from -/

section Provenance

variable [NodeHash Node] [DecidableEq Node] [DecidableEq Pubkey] [Build] [ProgramAddress Pubkey]
  [SafeMath] [SystemProgram Pubkey] {start st st' : State Node Pubkey} {x : Executed Node Pubkey}
  {history : List (Executed Node Pubkey)} {slab : Pubkey} {nonce : UInt64}

/-- The instruction, in a state, made these the parties to the asset of a nonce. -/
def Executed.Assigns (slab : Pubkey) (nonce : UInt64) (owner delegate : Pubkey)
    (st : State Node Pubkey) (x : Executed Node Pubkey) : Prop :=
  (∃ message, x.Mints slab nonce owner delegate message st) ∨
    x.DelegatesTo slab nonce owner delegate ∨
    (x.TransfersTo slab nonce owner ∧ delegate = owner)

/-- The newest instruction of a run that changed the parties to an asset made them what they are,
and the creators are those of its mint. -/
structure Provenance (start : State Node Pubkey) (history : List (Executed Node Pubkey))
    (slab : Pubkey) (nonce : UInt64) (s : LeafSchema Node Pubkey) : Prop where
  parties : Since Executed.Takes start (Executed.Assigns slab nonce s.owner s.delegate)
    (Executed.Reassigns slab nonce) history
  creators : ∃ message : MetadataArgs Pubkey, s.creatorHash = LeafHash.hashCreators message.creatorShares ∧
    Since Executed.Takes start
      (fun st x => ∃ owner delegate, x.Mints slab nonce owner delegate message st)
      (fun _ => False) history

variable [CollisionFree Node] [NonzeroHash Node] [CollisionFreeLeaf Node Pubkey]
  [InjectiveAddress Pubkey]

omit [MarketAddress Pubkey] [ProofAccount Node Pubkey] [SafeMath] [SystemProgram Pubkey]
  [CollisionFree Node] [NonzeroHash Node] [CollisionFreeLeaf Node Pubkey]
  [InjectiveAddress Pubkey] in
/-- The counter of a tree is the nonce of its next asset. -/
theorem nonce_eq_some {L : Ledger Node Pubkey} (h : st.bubblegum.Represents L)
    {lives : List (Life Node Pubkey)} (hlives : L slab = some lives)
    (hnonce : nonce.toNat = lives.length) :
    st.bubblegum.nonces (ProgramAddress.authority slab) = some nonce := by
  have hview := h.view slab
  rw [hlives] at hview
  obtain ⟨tree, hshows⟩ := hview
  have heq := hshows.nonce_eq
  rw [← hnonce, UInt64.ofNat_toNat] at heq
  exact heq

/-- A step keeps the provenance of every asset. -/
theorem Provenance.step {L : Ledger Node Pubkey} (hrep : st.bubblegum.Represents L)
    (hsteps : Steps Executed.Takes start history st)
    (hL : ∀ slab nonce s, L.schema slab nonce = some s → Provenance start history slab nonce s)
    (hx : x.Takes st st') :
    ∃ L', st'.bubblegum.Represents L' ∧ ∀ slab nonce s, L'.schema slab nonce = some s →
      Provenance start (x :: history) slab nonce s := by
  rcases Executed.call_ok hx.exec with ⟨hnone, heq⟩ | ⟨call, events, hcall, hexec, hsigners⟩
  · -- the accounts of bubblegum stay as they are
    refine ⟨L, heq.symm ▸ hrep, ?_⟩
    rintro slab nonce s hs
    obtain ⟨hparties, message, hhash, hmint⟩ := hL slab nonce s hs
    refine ⟨hparties.cons ?_, message, hhash, hmint.cons not_false⟩
    rintro ⟨call, hcall, -⟩
    simp [hnone] at hcall
  · obtain ⟨L', hstep, hrep'⟩ := hrep.step (x := ⟨call.1, call.2, events⟩)
      ⟨Executed.call_allocated hx.allocated hcall, hexec⟩
    refine ⟨L', hrep', ?_⟩
    rintro slab nonce s' hs'
    rcases hstep.schema_cases hs' with
      ⟨mintAuthority, message, lives, hins, hlives, hnonce, hhash⟩ |
      ⟨s, hs, hhash, ⟨htransfer, howner⟩ | ⟨hdelegate, hsigner⟩ | ⟨hkeep, howner, hdelegate⟩⟩
    · have hmints : x.Mints slab nonce s'.owner s'.delegate message st := by
        refine ⟨⟨mintAuthority, ?_⟩, nonce_eq_some hrep hlives hnonce⟩
        obtain ⟨signers, instruction⟩ := x
        cases instruction <;> cases hcall
        · exact congrArg _ hins
        all_goals exact absurd hins (by simp [modifyCompressedNftDelegate, purchaseCall])
      exact ⟨.last hsteps (.inl ⟨message, hmints⟩), message, hhash,
        .last hsteps ⟨_, _, hmints⟩⟩
    · obtain ⟨-, message, hhash', hmint⟩ := hL slab nonce s hs
      exact ⟨.last hsteps (.inr (.inr ⟨⟨call, hcall, htransfer⟩, howner⟩)), message,
        hhash.trans hhash', hmint.cons not_false⟩
    · obtain ⟨-, message, hhash', hmint⟩ := hL slab nonce s hs
      refine ⟨.last hsteps (.inr (.inl ⟨⟨call, hcall, hdelegate⟩, ?_⟩)), message,
        hhash.trans hhash', hmint.cons not_false⟩
      rcases hsigners with hname | hsigners
      · -- a delegation is no transfer
        revert hdelegate hname
        cases call.2 <;> simp [Bubblegum.Instruction.DelegatesTo, Bubblegum.Instruction.name]
      · exact hsigners _ hsigner
    · obtain ⟨hparties, message, hhash', hmint⟩ := hL slab nonce s hs
      refine ⟨?_, message, hhash.trans hhash', hmint.cons not_false⟩
      rw [howner, hdelegate]
      refine hparties.cons ?_
      rintro ⟨call', hcall', hre⟩
      obtain rfl := Option.some.inj (hcall.symm.trans hcall')
      exact hkeep hre

/-- The parties to every asset of a run come from its instructions. -/
theorem provenance {lamports : Lamports Pubkey}
    (h : Steps Executed.Takes ⟨Bubblegum.State.empty, none, lamports⟩ history st) :
    ∃ L, st.bubblegum.Represents L ∧ ∀ slab nonce s, L.schema slab nonce = some s →
      Provenance ⟨Bubblegum.State.empty, none, lamports⟩ history slab nonce s := by
  induction h with
  | refl =>
    refine ⟨_, represents_empty, ?_⟩
    rintro slab nonce s hs
    simp [Ledger.schema, Ledger.life] at hs
  | step h hx ih =>
    obtain ⟨L, hrep, hL⟩ := ih
    exact Provenance.step hrep h hL hx

/-- What is bought was listed at its price by its owner since the asset became theirs, or it came
to its owner with the address of the price as the delegate, and the creators who are paid are
those of its mint.  The purchaser becomes the owner and the delegate. -/
theorem purchase_listed [CollisionFreeCreators Node Pubkey] {lamports : Lamports Pubkey}
    (h : Steps Executed.Takes ⟨Bubblegum.State.empty, none, lamports⟩ history st)
    {signers remainingAccounts : List Pubkey} {formerOwner purchaser : Pubkey} {price : UInt64}
    {dataHash root : Node} {index : UInt32} {creatorShares : List UInt8}
    (hx : Executed.Takes st ⟨signers, .purchase formerOwner purchaser slab price dataHash nonce
      index root creatorShares remainingAccounts⟩ st') :
    (∃ s : LeafSchema Node Pubkey, st.bubblegum.leaf slab nonce.toNat = some s.toNode ∧
      s.id = getAssetId slab nonce ∧ s.owner = formerOwner ∧
      s.delegate = MarketAddress.listing price) ∧
    Since Executed.Takes ⟨Bubblegum.State.empty, none, lamports⟩
      (fun st y => (∃ message,
          y.Mints slab nonce formerOwner (MarketAddress.listing price) message st) ∨
        y.DelegatesTo slab nonce formerOwner (MarketAddress.listing price) ∨
        (formerOwner = MarketAddress.listing price ∧ y.TransfersTo slab nonce formerOwner))
      (Executed.Reassigns slab nonce) history ∧
    (∃ message : MetadataArgs Pubkey,
      (remainingAccounts.take creatorShares.length).zip creatorShares = message.creatorShares ∧
      Since Executed.Takes ⟨Bubblegum.State.empty, none, lamports⟩
        (fun st y => ∃ owner delegate, y.Mints slab nonce owner delegate message st)
        (fun _ => False) history) ∧
    ∃ s : LeafSchema Node Pubkey, st'.bubblegum.leaf slab nonce.toNat = some s.toNode ∧
      s.id = getAssetId slab nonce ∧ s.owner = purchaser ∧ s.delegate = purchaser := by
  obtain ⟨L, hrep, hL⟩ := provenance h
  obtain ⟨-, -, lamports', hinvoke⟩ := State.purchase_ok hx.exec
  obtain ⟨-, events, hexec⟩ := State.invoke_ok hinvoke
  obtain ⟨L', hstep, hrep'⟩ := hrep.step
    (x := ⟨_, (purchaseCall formerOwner purchaser slab price dataHash nonce index root
      creatorShares remainingAccounts).2, events⟩) ⟨trivial, hexec⟩
  obtain ⟨l, l', hl, hl', hmove⟩ := hstep.exists_move slab nonce ⟨rfl, rfl⟩
  have hleaf := hrep.leaf_of_life hl
  have hleaf' := hrep'.leaf_of_life hl'
  cases hmove with
  | transfer =>
    obtain ⟨hparties, message, hhash, hmint⟩ := hL slab nonce _ (L.schema_of_life hl)
    refine ⟨⟨_, hleaf, rfl, rfl, rfl⟩, hparties.imp ?_,
      ⟨message, CollisionFreeCreators.hashCreators_inj hhash, hmint⟩, _, hleaf', rfl, rfl, rfl⟩
    rintro t y (hmints | hdelegates | ⟨htransfers, heq⟩)
    · exact .inl hmints
    · exact .inr (.inl hdelegates)
    · exact .inr (.inr ⟨heq.symm, htransfers⟩)

end Provenance

/-! ### Runs -/

section Trace

open ConcurrentMerkleTree (Term)
open Bubblegum.Trace

instance : CollisionFreeCreators Term Key where
  hashCreators_inj {c c'} h := by
    induction c generalizing c' with
    | nil =>
      cases c' with
      | nil => rfl
      | cons => simp [LeafHash.hashCreators] at h
    | cons a c ih =>
      cases c' with
      | nil => simp [LeafHash.hashCreators] at h
      | cons a' c' =>
        simp only [LeafHash.hashCreators, List.foldr_cons, Term.node.injEq, Term.leaf.injEq] at h
        rw [ih h.2.2, Prod.ext (Key.toTerm_inj h.1) (UInt8.toNat_inj.1 h.2.1)]

/-- Executes an instruction; one that fails is undone. -/
def State.after (self : State Term Key) (x : Executed Term Key) : State Term Key :=
  match x.instruction.exec x.signers self with
  | .ok st => st
  | _ => self

/-- The instruction succeeds. -/
def State.accepts (self : State Term Key) (x : Executed Term Key) : Bool :=
  x.instruction.exec x.signers self matches .ok _

theorem State.takes_after {st : State Term Key} {x : Executed Term Key}
    (hsigners : ∀ price, MarketAddress.listing price ∉ x.signers)
    (hx : x.instruction.Allocated) (hok : st.accepts x = true) : x.Takes st (st.after x) := by
  refine ⟨hsigners, hx, ?_⟩
  rw [accepts] at hok
  simp only [after]
  split at hok
  · rename_i res hres
    rw [hres]
  · exact absurd hok (by simp)

/-- The root of the tree. -/
def State.root (self : State Term Key) : Term := self.bubblegum.root slab

/-- The first instructions: the marketplace, a tree and an asset. -/
def opening : List (Executed Term Key) :=
  [⟨[creator], .bubblegum Bubblegum.Trace.mintV1⟩,
    ⟨[creator], .bubblegum Bubblegum.Trace.createTree⟩,
    ⟨[creator], .initializeMarketplace creator 250 creator⟩]

/-- The accounts after the first instructions. -/
def opened : State Term Key := opening.foldr (fun x st => st.after x) funded

theorem steps_opening : Steps Executed.Takes funded opening opened := by
  refine .step (.step (.step .refl (State.takes_after ?_ trivial ?_))
    (State.takes_after ?_ ⟨rfl, 0, fresh_zeroed⟩ ?_)) (State.takes_after ?_ trivial ?_)
  · simp [MarketAddress.listing, creator]
  · decide +kernel
  · simp [MarketAddress.listing, creator]
  · decide +kernel
  · simp [MarketAddress.listing, creator]
  · decide +kernel

/-- The first owner lists the asset. -/
def list (price : UInt64) (st : State Term Key) : Executed Term Key :=
  ⟨[alice], .createOrModifyListing alice alice slab price dataHash creatorHash 0 0 st.root []⟩

/-- The second owner buys the asset from somebody. -/
def buy (formerOwner : Key) (price : UInt64) (st : State Term Key) : Executed Term Key :=
  ⟨[bob], .purchase formerOwner bob slab price dataHash 0 0 st.root [] []⟩

-- what is not listed is not sold
example : opened.accepts (list 20000 opened) ∧ ¬ opened.accepts (buy alice 20000 opened) := by
  decide +kernel

/-- A purchase of an asset that its owner listed. -/
theorem purchase_listed_alice : ∃ s : LeafSchema Term Key,
    ((opened.after (list 20000 opened)).after
      (buy alice 20000 (opened.after (list 20000 opened)))).bubblegum.leaf slab 0 = some s.toNode ∧
    s.owner = bob ∧ s.delegate = bob := by
  have hlist : Executed.Takes opened (list 20000 opened) (opened.after (list 20000 opened)) := by
    refine State.takes_after ?_ trivial (by decide +kernel)
    simp [MarketAddress.listing, list, alice]
  have hbuy : Executed.Takes (opened.after (list 20000 opened))
      (buy alice 20000 (opened.after (list 20000 opened)))
      ((opened.after (list 20000 opened)).after
        (buy alice 20000 (opened.after (list 20000 opened)))) := by
    refine State.takes_after ?_ trivial (by decide +kernel)
    simp [MarketAddress.listing, buy, bob]
  obtain ⟨-, -, -, s, hleaf, -, howner, hdelegate⟩ :=
    purchase_listed (steps_opening.step hlist) hbuy
  exact ⟨s, hleaf, howner, hdelegate⟩

/-- The first owner gives the asset to the address of a price. -/
def give (price : UInt64) (st : State Term Key) : Executed Term Key :=
  ⟨[alice], .bubblegum (Bubblegum.Trace.transfer st.bubblegum alice (MarketAddress.listing price))⟩

/-- An asset that was transferred to the address of a price can be bought at the price, though no
instruction of the run delegates it. -/
theorem purchase_unlisted : ∃ history st st', Steps Executed.Takes funded history st ∧
    Executed.Takes st (buy (MarketAddress.listing 20000) 20000 st) st' ∧
    ∀ x ∈ history, (∀ delegate, ¬ x.DelegatesTo slab 0 (MarketAddress.listing 20000) delegate) ∧
      ∀ owner message st, ¬ x.Mints slab 0 owner (MarketAddress.listing 20000) message st := by
  have hgive : Executed.Takes opened (give 20000 opened) (opened.after (give 20000 opened)) := by
    refine State.takes_after ?_ trivial (by decide +kernel)
    simp [MarketAddress.listing, give, alice]
  have hbuy : Executed.Takes (opened.after (give 20000 opened))
      (buy (MarketAddress.listing 20000) 20000 (opened.after (give 20000 opened)))
      ((opened.after (give 20000 opened)).after
        (buy (MarketAddress.listing 20000) 20000 (opened.after (give 20000 opened)))) := by
    refine State.takes_after ?_ trivial (by decide +kernel)
    simp [MarketAddress.listing, buy, bob]
  refine ⟨_, _, _, steps_opening.step hgive, hbuy, ?_⟩
  simp [opening, give, Executed.DelegatesTo, Executed.Mints, Executed.call,
    Bubblegum.Instruction.DelegatesTo, Bubblegum.Trace.transfer, Bubblegum.Trace.mintV1,
    Bubblegum.Trace.createTree, MarketAddress.listing, alice]

end Trace

end Candyland.SugarShack
