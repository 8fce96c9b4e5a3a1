import Candyland.Bubblegum.Symbolic

/-!
# What holds of assets

The assets of the trees that `create_tree` made, along any run of successful instructions.
-/

namespace Candyland.Bubblegum

open ConcurrentMerkleTree (NodeHash EMPTY CollisionFree NonzeroHash Term hashv)
open Gummyroll (Build)

variable {Node Pubkey : Type} [NodeHash Node] [LeafHash Node Pubkey] [ProgramAddress Pubkey]
  [DecidableEq Node] [DecidableEq Pubkey] [CollisionFree Node] [NonzeroHash Node]
  [CollisionFreeLeaf Node Pubkey] [InjectiveAddress Pubkey]
  {st st' : State Node Pubkey} {history : List (Executed Node Pubkey)} {slab : Pubkey}

section Numbers

variable [Build]

/-- Every reachable state shows the ledger of its history. -/
theorem Reachable.ledger (h : Reachable history st) :
    ∃ L : Ledger Node Pubkey, st.Represents L ∧ L.Records history := by
  obtain ⟨L, hsteps, hrep⟩ := represents_empty.steps h
  exact ⟨L, hrep, by simpa using Ledger.records_none.steps hsteps⟩

omit [CollisionFreeLeaf Node Pubkey] [InjectiveAddress Pubkey] in
/-- A mint is signed by the append authority of the tree. -/
theorem State.Represents.mint_authority {L : Ledger Node Pubkey} (h : st.Represents L)
    {signers : List Pubkey} {mintAuthority owner delegate : Pubkey}
    {message : MetadataArgs Pubkey} {events : List (Event Node Pubkey)}
    (hok : st.mintV1 signers slab mintAuthority owner delegate message = .ok (events, st'))
    {tree : Tree Node Pubkey} (htree : st.trees slab = some tree) :
    mintAuthority ∈ signers ∧ mintAuthority = tree.slab.account.header.appendAuthority := by
  obtain ⟨⟨⟩, hsigner, hok⟩ := Outcome.bind_eq_ok.1 hok
  obtain ⟨count, -, hok⟩ := Outcome.bind_eq_ok.1 hok
  obtain ⟨⟨events₁, st₁⟩, happend, -⟩ := Outcome.bind_eq_ok.1 hok
  obtain ⟨lives, tree₁, tree', -, hshows, hinvoke, -⟩ := h.invoke happend
  obtain rfl := Option.some.inj (htree.symm.trans hshows.tree_eq)
  exact ⟨constraint_eq_ok.1 hsigner, (Tree.invoke_append hshows.made hinvoke).1.symm⟩

omit [CollisionFree Node] [NonzeroHash Node] [CollisionFreeLeaf Node Pubkey]
  [InjectiveAddress Pubkey] [NodeHash Node] [DecidableEq Node] [Build] in
/-- Only a mint adds an asset to a tree. -/
theorem Ledger.Step.length {L L' : Ledger Node Pubkey} {x : Executed Node Pubkey}
    (h : L.Step x L') {lives lives' : List (Life Node Pubkey)} (hlives : L slab = some lives)
    (hlives' : L' slab = some lives') : lives'.length = lives.length ∨
      ∃ mintAuthority owner delegate message,
        x.instruction = .mintV1 slab mintAuthority owner delegate message := by
  cases h with
  | @createTree _ _ _ slab₁ _ _ _ _ _ _ hnone =>
    by_cases hslab : slab = slab₁
    · subst hslab
      exact absurd (hlives.symm.trans hnone) (by simp)
    · rw [Function.update_of_ne hslab, hlives] at hlives'
      exact .inl (congrArg List.length (Option.some.inj hlives').symm)
  | @mintV1 _ slab₁ mintAuthority owner delegate message =>
    by_cases hslab : slab = slab₁
    · subst hslab
      exact .inr ⟨mintAuthority, owner, delegate, message, rfl⟩
    · rw [Function.update_of_ne hslab, hlives] at hlives'
      exact .inl (congrArg List.length (Option.some.inj hlives').symm)
  | move slab₁ nonce =>
    left
    by_cases hslab : slab = slab₁
    · subst hslab
      rw [Ledger.set, Function.update_self, hlives, Option.map_some] at hlives'
      rw [← Option.some.inj hlives', List.length_set]
    · rw [Ledger.set, Function.update_of_ne hslab, hlives] at hlives'
      exact congrArg List.length (Option.some.inj hlives').symm
  | compress =>
    rw [hlives] at hlives'
    exact .inl (congrArg List.length (Option.some.inj hlives').symm)

/-- The counter of a tree is the position of its next leaf, and every leaf is empty or the hash
of a schema that has the position for its nonce and an id that no other leaf has.  Only a mint
by the append authority moves the counter. -/
theorem assets_numbered (h : Reachable history st) {tree : Tree Node Pubkey}
    (htree : st.trees slab = some tree) :
    tree.slab.account.roll.getChangeLog.root = MerkleTree.root hashv tree.depth tree.leaf ∧
    (∃ count, st.nonces (ProgramAddress.authority slab) = some count ∧
      count.toNat = tree.slab.account.roll.rightmostProof.index.toNat) ∧
    (∀ i, tree.leaf i ≠ EMPTY → ∃ s : LeafSchema Node Pubkey,
      tree.leaf i = s.toNode ∧ s.nonce.toNat = i ∧ s.id = getAssetId slab s.nonce) ∧
    (∀ slab' tree', st.trees slab' = some tree' → ∀ i j (s s' : LeafSchema Node Pubkey),
      tree.leaf i = s.toNode → tree'.leaf j = s'.toNode → s.id = s'.id → slab = slab' ∧ i = j) ∧
    ∀ x st' count count', Executed.Takes st x st' →
      st.nonces (ProgramAddress.authority slab) = some count →
      st'.nonces (ProgramAddress.authority slab) = some count' → count < count' →
      ∃ mintAuthority owner delegate message,
        x.instruction = .mintV1 slab mintAuthority owner delegate message ∧
        mintAuthority ∈ x.signers ∧ mintAuthority = tree.slab.account.header.appendAuthority := by
  obtain ⟨L, hrep, -⟩ := h.ledger
  obtain ⟨lives, hL, hshows⟩ := hrep.tree htree
  refine ⟨?_, ?_, ?_, ?_, ?_⟩
  · obtain ⟨c, hinv⟩ := hshows.made.exists_inv
    exact hinv.roll.current_root
  · exact ⟨_, hshows.nonce_eq, (hshows.nonce_toNat le_rfl).trans hshows.count_eq.symm⟩
  · intro i hne
    rw [hshows.leaf_eq] at hne ⊢
    cases hl : lives[i]? with
    | none => simp [hl] at hne
    | some l =>
      cases l with
      | live s => exact ⟨s, rfl, hshows.named i _ s hl rfl⟩
      | redeemed s | burned | decompressed => simp [hl, Life.leaf] at hne
  · intro slab' tree' htree' i j s s' hs hs' hid
    obtain ⟨lives', -, hshows'⟩ := hrep.tree htree'
    obtain ⟨-, hi, hsid⟩ := hshows.live hs
    obtain ⟨-, hj, hsid'⟩ := hshows'.live hs'
    rw [hsid, hsid'] at hid
    obtain ⟨hslab, hnonce⟩ := InjectiveAddress.asset_inj hid
    exact ⟨hslab, by rw [← hi, ← hj, hnonce]⟩
  · rintro ⟨signers, instruction, events⟩ st' count count' hx hcount hcount' hlt
    obtain ⟨L', hstep, hrep'⟩ := hrep.step hx
    obtain ⟨lives₁, -, hL₁, -, hlength⟩ := hrep.nonce hcount
    obtain ⟨lives', -, hL', -, hlength'⟩ := hrep'.nonce hcount'
    rcases hstep.length hL₁ hL' with heq | ⟨mintAuthority, owner, delegate, message, heq⟩
    · rw [UInt64.lt_iff_toNat_lt] at hlt
      omega
    · dsimp only at heq
      subst heq
      exact ⟨mintAuthority, owner, delegate, message, rfl, hrep.mint_authority hx.2 htree⟩

end Numbers

theorem assets_numbered_minted : ∃ tree, Trace.minted.trees Trace.slab = some tree ∧
    tree.leaf 0 ≠ EMPTY ∧ ∃ s : LeafSchema Term Key,
      tree.leaf 0 = s.toNode ∧ s.nonce.toNat = 0 ∧ s.id = getAssetId Trace.slab s.nonce := by
  have hsome : (Trace.minted.trees Trace.slab).isSome = true := by decide +kernel
  obtain ⟨tree, htree⟩ := Option.isSome_iff_exists.1 hsome
  have hleaf : (Trace.minted.trees Trace.slab).map (fun tree => tree.leaf 0) ≠ some EMPTY := by
    decide +kernel
  rw [htree, Option.map_some, Ne, Option.some_inj] at hleaf
  exact ⟨tree, htree, hleaf, (assets_numbered Trace.reachable_minted htree).2.2.1 0 hleaf⟩

/-! ### Signatures -/

section Signatures

variable [Build]

omit [DecidableEq Node] [DecidableEq Pubkey] [Build] [CollisionFree Node] [NonzeroHash Node]
  [CollisionFreeLeaf Node Pubkey] [InjectiveAddress Pubkey] in
/-- The schema of an asset that is in the tree or in a voucher. -/
def State.Holds (self : State Node Pubkey) (slab : Pubkey) (n : UInt64)
    (s : LeafSchema Node Pubkey) : Prop :=
  self.leaf slab n.toNat = some s.toNode ∨
    ∃ voucher, self.vouchers (ProgramAddress.voucher slab n) = some voucher ∧
      voucher.leafSchema = s

omit [CollisionFree Node] [NonzeroHash Node] [InjectiveAddress Pubkey] in
theorem State.Represents.holds_iff {L : Ledger Node Pubkey} (h : st.Represents L) {n : UInt64}
    {s : LeafSchema Node Pubkey} :
    st.Holds slab n s ↔ ∃ l, L.life slab n.toNat = some l ∧ l.schema? = some s := by
  rw [State.Holds, h.leaf_eq_toNode_iff, h.voucher_iff]
  constructor
  · rintro (hl | hl)
    · exact ⟨_, hl, rfl⟩
    · exact ⟨_, hl, rfl⟩
  · rintro ⟨l, hl, hs⟩
    cases l with
    | live s' => exact .inl (hl.trans (congrArg _ (congrArg _ (Option.some.inj hs))))
    | redeemed s' => exact .inr (hl.trans (congrArg _ (congrArg _ (Option.some.inj hs))))
    | burned | decompressed => exact absurd hs (by simp [Life.schema?])

section Step

variable {L : Ledger Node Pubkey} {x : Executed Node Pubkey}

/-- A live asset changes at the hand of its owner, or of its delegate in a transfer or a
burn. -/
theorem State.Represents.leaf_signed (h : st.Represents L) (hx : x.Takes st st') {i : ℕ}
    {s : LeafSchema Node Pubkey} (hleaf : st.leaf slab i = some s.toNode)
    (hne : st'.leaf slab i ≠ some s.toNode) :
    (s.owner ∈ x.signers ∨ s.delegate ∈ x.signers) ∧
    (s.owner ∉ x.signers → x.instruction.name = .Transfer ∨ x.instruction.name = .Burn) ∧
    (s.owner ∈ x.signers → x.instruction.name = .Transfer ∨ x.instruction.name = .Delegate ∨
      x.instruction.name = .Burn ∨ x.instruction.name = .Redeem) := by
  obtain ⟨L', hstep, hrep⟩ := h.step hx
  rw [h.leaf_eq_toNode_iff] at hleaf
  rw [Ne, hrep.leaf_eq_toNode_iff] at hne
  rcases hstep.life_cases slab i with heq | ⟨hnone, -⟩ | ⟨n, l, l', -, hl, -, hmove⟩
  · exact absurd (heq.trans hleaf) hne
  · exact absurd (hleaf.symm.trans hnone) (by simp)
  · obtain rfl := Option.some.inj (hleaf.symm.trans hl)
    cases hmove with
    | transfer hsigner => exact ⟨hsigner, fun _ => .inl rfl, fun _ => .inl rfl⟩
    | delegate hsigner => exact ⟨.inl hsigner, fun hnot => absurd hsigner hnot,
        fun _ => .inr (.inl rfl)⟩
    | burn hsigner => exact ⟨hsigner, fun _ => .inr rfl, fun _ => .inr (.inr (.inl rfl))⟩
    | redeem hsigner => exact ⟨.inl hsigner, fun hnot => absurd hsigner hnot,
        fun _ => .inr (.inr (.inr rfl))⟩

/-- A leaf comes back from a voucher, at the hand of its owner. -/
theorem State.Represents.return_signed (h : st.Represents L) (hx : x.Takes st st')
    {count n : UInt64} (hcount : st.nonces (ProgramAddress.authority slab) = some count)
    (hn : n < count) (hleaf : st.leaf slab n.toNat = some EMPTY)
    (hne : st'.leaf slab n.toNat ≠ some EMPTY) :
    x.instruction.name = .CancelRedeem ∧
      ∃ voucher, st.vouchers (ProgramAddress.voucher slab n) = some voucher ∧
        voucher.leafSchema.owner ∈ x.signers ∧
        st'.leaf slab n.toNat = some voucher.leafSchema.toNode := by
  obtain ⟨L', hstep, hrep⟩ := h.step hx
  obtain ⟨l, hl⟩ := h.exists_life hcount (UInt64.lt_iff_toNat_lt.1 hn)
  have hempty : l.leaf = EMPTY := Option.some.inj ((h.leaf_of_life hl).symm.trans hleaf)
  rcases hstep.life_cases slab n.toNat with heq | ⟨hnone, -⟩ | ⟨m, l₁, l', hm, hl₁, hl', hmove⟩
  · refine absurd ?_ hne
    rw [hrep.leaf_of_life (heq.trans hl), hempty]
  · exact absurd (hl.symm.trans hnone) (by simp)
  · obtain rfl := Option.some.inj (hl.symm.trans hl₁)
    rw [UInt64.toNat_inj] at hm
    subst hm
    have hleaf' := hrep.leaf_of_life hl'
    cases hmove with
    | transfer | delegate | burn | redeem => exact absurd hempty (LeafSchema.toNode_ne_empty _)
    | @cancelRedeem _ s _ _ _ hsigner =>
      obtain ⟨voucher, hvoucher, rfl⟩ := h.voucher_iff.2 hl
      exact ⟨rfl, voucher, hvoucher, hsigner, hleaf'⟩
    | decompressV1 => exact absurd hleaf' hne

/-- A voucher is closed at the hand of its owner. -/
theorem State.Represents.voucher_signed (h : st.Represents L) (hx : x.Takes st st') {key : Pubkey}
    {voucher : Voucher Node Pubkey} (hvoucher : st.vouchers key = some voucher)
    (hnone : st'.vouchers key = none) :
    (x.instruction.name = .CancelRedeem ∨ x.instruction.name = .DecompressV1) ∧
      voucher.leafSchema.owner ∈ x.signers := by
  obtain ⟨slab, n, rfl⟩ := h.derived key voucher hvoucher
  obtain ⟨L', hstep, hrep⟩ := h.step hx
  have hl := h.voucher_iff.1 ⟨voucher, hvoucher, rfl⟩
  rcases hstep.life_cases slab n.toNat with heq | ⟨hnew, -⟩ | ⟨m, l, l', -, hl₁, -, hmove⟩
  · obtain ⟨voucher', hvoucher', -⟩ := hrep.voucher_iff.2 (heq.trans hl)
    exact absurd (hvoucher'.symm.trans hnone) (by simp)
  · exact absurd (hl.symm.trans hnew) (by simp)
  · obtain rfl := Option.some.inj (hl.symm.trans hl₁)
    cases hmove with
    | cancelRedeem hsigner => exact ⟨.inl rfl, hsigner⟩
    | decompressV1 hsigner => exact ⟨.inr rfl, hsigner⟩

/-- A transfer leaves the delegation with the new owner. -/
theorem State.Represents.transfer_delegate (h : st.Represents L) (hx : x.Takes st st')
    {owner delegate newOwner : Pubkey} {root dataHash creatorHash : Node} {n : UInt64}
    {index : UInt32} {proof : List Node}
    (hins : x.instruction =
      .transfer slab owner delegate newOwner root dataHash creatorHash n index proof) :
    ∃ s : LeafSchema Node Pubkey, st'.leaf slab n.toNat = some s.toNode ∧ s.owner = newOwner ∧
      s.delegate = newOwner := by
  obtain ⟨signers, instruction, events⟩ := x
  dsimp only at hins
  subst hins
  obtain ⟨L', hstep, hrep⟩ := h.step hx
  obtain ⟨l, l', -, hl', hmove⟩ := hstep.exists_move slab n ⟨rfl, rfl⟩
  have hleaf := hrep.leaf_of_life hl'
  cases hmove with
  | transfer => exact ⟨_, hleaf, rfl, rfl⟩

/-- The hashes of an asset are fixed as long as it is in the tree or in a voucher. -/
theorem State.Represents.hashes_fixed (h : st.Represents L)
    {later : List (Executed Node Pubkey)} (hlater : Steps Executed.Takes st later st')
    {n : UInt64} {s s' : LeafSchema Node Pubkey} (hs : st.Holds slab n s)
    (hs' : st'.Holds slab n s') : s'.dataHash = s.dataHash ∧ s'.creatorHash = s.creatorHash := by
  obtain ⟨L', hsteps, hrep⟩ := h.steps hlater
  obtain ⟨l, hl, hschema⟩ := h.holds_iff.1 hs
  obtain ⟨l', hl', hschema'⟩ := hrep.holds_iff.1 hs'
  obtain ⟨l₁, hl₁, -, hhashes⟩ := Ledger.life_of_steps hsteps hl
  obtain rfl := Option.some.inj (hl'.symm.trans hl₁)
  obtain ⟨s₁, hs₁, heq⟩ := hhashes s' hschema'
  obtain rfl := Option.some.inj (hschema.symm.trans hs₁)
  exact heq

end Step

/-- Whoever changes an asset is entitled to it. -/
theorem changes_signed (h : Reachable history st) :
    (∀ x st', Executed.Takes st x st' →
      (∀ slab i (s : LeafSchema Node Pubkey), st.leaf slab i = some s.toNode →
        st'.leaf slab i ≠ some s.toNode →
        (s.owner ∈ x.signers ∨ s.delegate ∈ x.signers) ∧
        (s.owner ∉ x.signers → x.instruction.name = .Transfer ∨ x.instruction.name = .Burn) ∧
        (s.owner ∈ x.signers → x.instruction.name = .Transfer ∨ x.instruction.name = .Delegate ∨
          x.instruction.name = .Burn ∨ x.instruction.name = .Redeem)) ∧
      (∀ slab count (n : UInt64), st.nonces (ProgramAddress.authority slab) = some count →
        n < count → st.leaf slab n.toNat = some EMPTY → st'.leaf slab n.toNat ≠ some EMPTY →
        x.instruction.name = .CancelRedeem ∧
        ∃ voucher, st.vouchers (ProgramAddress.voucher slab n) = some voucher ∧
          voucher.leafSchema.owner ∈ x.signers ∧
          st'.leaf slab n.toNat = some voucher.leafSchema.toNode) ∧
      (∀ key voucher, st.vouchers key = some voucher → st'.vouchers key = none →
        (x.instruction.name = .CancelRedeem ∨ x.instruction.name = .DecompressV1) ∧
        voucher.leafSchema.owner ∈ x.signers) ∧
      (∀ slab owner delegate newOwner root dataHash creatorHash n index proof, x.instruction =
          .transfer slab owner delegate newOwner root dataHash creatorHash n index proof →
        ∃ s : LeafSchema Node Pubkey, st'.leaf slab n.toNat = some s.toNode ∧
          s.owner = newOwner ∧ s.delegate = newOwner)) ∧
    ∀ later st' slab n (s s' : LeafSchema Node Pubkey), Steps Executed.Takes st later st' →
      st.Holds slab n s → st'.Holds slab n s' →
      s'.dataHash = s.dataHash ∧ s'.creatorHash = s.creatorHash := by
  obtain ⟨L, hrep, -⟩ := h.ledger
  constructor
  · intro x st' hx
    refine ⟨?_, ?_, ?_, ?_⟩
    · intro slab i s hleaf hne
      exact hrep.leaf_signed hx hleaf hne
    · intro slab count n hcount hn hleaf hne
      exact hrep.return_signed hx hcount hn hleaf hne
    · intro key voucher hvoucher hnone
      exact hrep.voucher_signed hx hvoucher hnone
    · intro slab owner delegate newOwner root dataHash creatorHash n index proof hins
      exact hrep.transfer_delegate hx hins
  · intro later st' slab n s s' hlater hs hs'
    exact hrep.hashes_fixed hlater hs hs'

end Signatures

theorem changes_signed_minted :
    let ins : Instruction Term Key := .transfer Trace.slab Trace.alice Trace.alice Trace.bob
      (Trace.minted.root Trace.slab) Trace.dataHash Trace.creatorHash 0 0 []
    let st' := (Trace.minted.after [Trace.alice] ins).2
    Executed.Takes Trace.minted (Trace.minted.executed [Trace.alice] ins) st' ∧
      ∃ s : LeafSchema Term Key, st'.leaf Trace.slab 0 = some s.toNode ∧ s.owner = Trace.bob ∧
        s.delegate = Trace.bob := by
  intro ins st'
  have hx : Executed.Takes Trace.minted (Trace.minted.executed [Trace.alice] ins) st' :=
    State.takes_after (by trivial) (by decide +kernel)
  exact ⟨hx, ((changes_signed Trace.reachable_minted).1 _ _ hx).2.2.2 _ _ _ _ _ _ _ 0 _ _ rfl⟩

/-! ### Stages -/

section Stages

variable [Build]

/-- The stages of an asset. -/
inductive Stage where
  | live
  | redeemed
  | burned
  | decompressed
deriving DecidableEq

omit [DecidableEq Node] [DecidableEq Pubkey] [Build] [CollisionFree Node] [NonzeroHash Node]
  [CollisionFreeLeaf Node Pubkey] [InjectiveAddress Pubkey] in
/-- What the accounts and the history say about the asset of a nonce. -/
def State.InStage (self : State Node Pubkey) (history : List (Executed Node Pubkey))
    (slab : Pubkey) (n : UInt64) : Stage → Prop
  | .live => ∃ s : LeafSchema Node Pubkey, self.leaf slab n.toNat = some s.toNode ∧ s.nonce = n
  | .redeemed => (∃ voucher, self.vouchers (ProgramAddress.voucher slab n) = some voucher) ∧
      self.leaf slab n.toNat = some EMPTY
  | .burned => ∃ x ∈ history, x.instruction.Burns slab n
  | .decompressed => ∃ x ∈ history, x.instruction.Decompresses slab n

omit [NodeHash Node] [LeafHash Node Pubkey] [ProgramAddress Pubkey] [DecidableEq Node]
  [DecidableEq Pubkey] [Build] [CollisionFree Node] [NonzeroHash Node]
  [CollisionFreeLeaf Node Pubkey] [InjectiveAddress Pubkey] in
/-- The stage in the ledger. -/
def Life.stage : Life Node Pubkey → Stage
  | .live _ => .live
  | .redeemed _ => .redeemed
  | .burned => .burned
  | .decompressed => .decompressed

omit [CollisionFree Node] [NonzeroHash Node] [InjectiveAddress Pubkey] in
/-- The accounts and the history tell the stage in the ledger. -/
theorem State.Represents.inStage_iff {L : Ledger Node Pubkey} (h : st.Represents L)
    (hrecords : L.Records history) {n : UInt64} {l : Life Node Pubkey}
    (hl : L.life slab n.toNat = some l) (stage : Stage) :
    st.InStage history slab n stage ↔ stage = l.stage := by
  cases stage with
  | live =>
    constructor
    · rintro ⟨s, hleaf, -⟩
      obtain rfl := Option.some.inj (hl.symm.trans (h.leaf_eq_toNode_iff.1 hleaf))
      rfl
    · intro heq
      cases l with
      | live s => exact ⟨s, h.leaf_of_life hl, UInt64.toNat_inj.1 (h.named hl rfl).1⟩
      | redeemed s | burned | decompressed => exact absurd heq (by simp [Life.stage])
  | redeemed =>
    constructor
    · rintro ⟨⟨voucher, hvoucher⟩, -⟩
      obtain rfl := Option.some.inj (hl.symm.trans (h.voucher_iff.1 ⟨voucher, hvoucher, rfl⟩))
      rfl
    · intro heq
      cases l with
      | redeemed s =>
        obtain ⟨voucher, hvoucher, -⟩ := h.voucher_iff.2 hl
        exact ⟨⟨voucher, hvoucher⟩, h.leaf_of_life hl⟩
      | live s | burned | decompressed => exact absurd heq (by simp [Life.stage])
  | burned =>
    refine (hrecords slab n).1.symm.trans ?_
    rw [hl]
    cases l <;> simp [Life.stage]
  | decompressed =>
    refine (hrecords slab n).2.symm.trans ?_
    rw [hl]
    cases l <;> simp [Life.stage]

/-- A redeemed asset that is left alone comes back as it was. -/
theorem State.Represents.redeem_cancelRedeem {L : Ledger Node Pubkey} (h : st.Represents L)
    {x y : Executed Node Pubkey} {st₁ st₂ : State Node Pubkey} {mid : List (Executed Node Pubkey)}
    {owner delegate owner' : Pubkey} {root dataHash creatorHash root' : Node} {n : UInt64}
    {index : UInt32} {proof proof' : List Node} (hx : x.Takes st st₁)
    (hredeem : x.instruction =
      .redeem slab owner delegate root dataHash creatorHash n index proof)
    (hmid : Steps Executed.Takes st₁ mid st₂)
    (hother : ∀ z ∈ mid, ¬ z.instruction.Concerns slab n) (hy : y.Takes st₂ st')
    (hcancel : y.instruction =
      .cancelRedeem slab (ProgramAddress.voucher slab n) owner' root' proof') :
    ∃ s : LeafSchema Node Pubkey, st.leaf slab n.toNat = some s.toNode ∧
      st'.leaf slab n.toNat = some s.toNode := by
  obtain ⟨signers, instruction, events⟩ := x
  obtain ⟨signers', instruction', events'⟩ := y
  dsimp only at hredeem hcancel
  subst hredeem hcancel
  obtain ⟨L₁, hstep, hrep₁⟩ := h.step hx
  obtain ⟨L₂, hsteps, hrep₂⟩ := hrep₁.steps hmid
  obtain ⟨L₃, hstep', hrep₃⟩ := hrep₂.step hy
  obtain ⟨l, l₁, hl, hl₁, hmove⟩ := hstep.exists_move slab n ⟨rfl, rfl⟩
  obtain ⟨l₂, l₃, hl₂, hl₃, hmove'⟩ := hstep'.exists_move slab n rfl
  have hkept := Ledger.life_of_steps_of_not_concerns hsteps hl₁ hother
  obtain rfl := Option.some.inj (hkept.symm.trans hl₂)
  cases hmove with
  | redeem =>
    cases hmove' with
    | cancelRedeem => exact ⟨_, h.leaf_of_life hl, hrep₃.leaf_of_life hl₃⟩

/-- An asset is in one stage, the last two of which are final. -/
theorem asset_stage (h : Reachable history st) {count n : UInt64}
    (hcount : st.nonces (ProgramAddress.authority slab) = some count) (hn : n < count) :
    (∃! stage, st.InStage history slab n stage) ∧
    (∀ later st' stage, Steps Executed.Takes st later st' →
      stage = .burned ∨ stage = .decompressed → st.InStage history slab n stage →
      ∀ stage', st'.InStage (later ++ history) slab n stage' ↔ stage' = stage) ∧
    (∀ tokens, st.mints (ProgramAddress.asset slab n) = some tokens →
      tokens = 1 ∧ st.InStage history slab n .decompressed) ∧
    ∀ x st₁ mid st₂ y st₃ owner delegate owner' root dataHash creatorHash root' index proof proof',
      Executed.Takes st x st₁ →
      x.instruction = .redeem slab owner delegate root dataHash creatorHash n index proof →
      Steps Executed.Takes st₁ mid st₂ → (∀ z ∈ mid, ¬ z.instruction.Concerns slab n) →
      Executed.Takes st₂ y st₃ →
      y.instruction = .cancelRedeem slab (ProgramAddress.voucher slab n) owner' root' proof' →
      ∃ s : LeafSchema Node Pubkey, st.leaf slab n.toNat = some s.toNode ∧
        st₃.leaf slab n.toNat = some s.toNode := by
  obtain ⟨L, hrep, hrecords⟩ := h.ledger
  obtain ⟨l, hl⟩ := hrep.exists_life hcount (UInt64.lt_iff_toNat_lt.1 hn)
  have hstage := hrep.inStage_iff hrecords hl
  refine ⟨⟨l.stage, (hstage _).2 rfl, fun stage => (hstage stage).1⟩, ?_, ?_, ?_⟩
  · intro later st' stage hlater hfinal hin stage'
    obtain ⟨L', hsteps, hrep'⟩ := hrep.steps hlater
    -- an asset of a final stage has no schema, and runs keep it
    have hnone : l.schema? = none := by
      rw [(hstage stage).1 hin] at hfinal
      cases l with
      | burned | decompressed => rfl
      | live s | redeemed s => exact absurd hfinal (by simp [Life.stage])
    obtain ⟨l', hl', hkept, -⟩ := Ledger.life_of_steps hsteps hl
    obtain rfl := hkept hnone
    rw [hrep'.inStage_iff (hrecords.steps hsteps) hl', (hstage stage).1 hin]
  · intro tokens hmint
    obtain ⟨htokens, hl'⟩ := hrep.mint_eq_some hmint
    obtain rfl := Option.some.inj (hl.symm.trans hl')
    exact ⟨htokens, (hstage _).2 rfl⟩
  · intro x st₁ mid st₂ y st₃ owner delegate owner' root dataHash creatorHash root' index proof
      proof' hx hredeem hmid hother hy hcancel
    exact hrep.redeem_cancelRedeem hx hredeem hmid hother hy hcancel

end Stages

theorem asset_stage_minted :
    let redeem : Instruction Term Key := .redeem Trace.slab Trace.alice Trace.alice
      (Trace.minted.root Trace.slab) Trace.dataHash Trace.creatorHash 0 0 []
    let redeemed := (Trace.minted.after [Trace.alice] redeem).2
    let cancelRedeem : Instruction Term Key := .cancelRedeem Trace.slab
      (ProgramAddress.voucher Trace.slab 0) Trace.alice (redeemed.root Trace.slab) []
    let cancelled := (redeemed.after [Trace.alice] cancelRedeem).2
    (∃! stage, Trace.minted.InStage Trace.mintHistory Trace.slab 0 stage) ∧
      ∃ s : LeafSchema Term Key, Trace.minted.leaf Trace.slab 0 = some s.toNode ∧
        cancelled.leaf Trace.slab 0 = some s.toNode := by
  intro redeem redeemed cancelRedeem cancelled
  have hcount : Trace.minted.nonces (ProgramAddress.authority Trace.slab) = some 1 := by
    decide +kernel
  have hstage := asset_stage (n := 0) Trace.reachable_minted hcount (by decide)
  have hredeem : Executed.Takes Trace.minted (Trace.minted.executed [Trace.alice] redeem)
      redeemed := State.takes_after (by trivial) (by decide +kernel)
  have hcancel : Executed.Takes redeemed (redeemed.executed [Trace.alice] cancelRedeem)
      cancelled := State.takes_after (by trivial) (by decide +kernel)
  exact ⟨hstage.1, hstage.2.2.2 _ _ [] _ _ _ _ _ _ _ _ _ _ _ _ _ hredeem rfl .refl
    (by simp) hcancel rfl⟩

end Candyland.Bubblegum
