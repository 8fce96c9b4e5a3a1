import Candyland.Bubblegum.Events
import Candyland.NftIngester.Bubblegum

/-!
# The rows of assets

What the handlers leave in the row of an asset when the instructions of a run are handled once
each, in the order of the chain.  Every handler sets some columns from an event, so the row
shows the stage of the asset as long as no step is one whose handler misses a column.
-/

namespace Candyland.NftIngester

open ConcurrentMerkleTree (NodeHash EMPTY CollisionFree NonzeroHash Term)
open Gummyroll (Build ChangeLogEvent)
open Bubblegum
open DigitalAssetTypes (Asset)

variable {Node Pubkey : Type} [NodeHash Node] [LeafHash Node Pubkey]

/-! ### The effect of a handler -/

/-- The columns that the handler sets in the row of the asset. -/
def columns (x : Executed Node Pubkey) : ActiveModel Node Pubkey :=
  match x.instruction, x.events with
  | .transfer .., .leafSchema event :: _ => transferModel event
  | .burn .., .leafSchema event :: _ => burnModel event
  | .delegate .., .leafSchema event :: _ => delegateModel event
  | .redeem .., .leafSchema event :: _ => redeemModel event
  | .cancelRedeem .., .leafSchema event :: _ => cancelRedeemModel event
  | .decompressV1 .., .decompression event :: _ => decompressModel event
  | _, _ => {}

section Handlers

variable [DecidableEq Pubkey] [ProgramAddress Pubkey] {slab : Pubkey} {n : UInt64}
  {x : Executed Node Pubkey} {l l' : Life Node Pubkey} {db : Storage Node Pubkey}

omit [NodeHash Node] [LeafHash Node Pubkey] [ProgramAddress Pubkey] in
theorem updateAsset_of_row {txn : Storage Node Pubkey} {id : Pubkey} {row : Asset Node Pubkey}
    (hrow : txn.assets id = some row) (model : ActiveModel Node Pubkey) :
    updateAsset txn id model =
      .ok { txn with assets := Function.update txn.assets id (some (model.apply row)) } := by
  rw [updateAsset, hrow]

/-- The handler of a move updates the row of its asset. -/
theorem handleBubblegumInstruction_move (h : Life.Move slab n x l l') (slot : ℕ) :
    handleBubblegumInstruction x.instruction slot x.events db =
      updateAsset (db.saveChangelogEvents slot (changeLogs x.events)) (getAssetId slab n)
        (columns x) := by
  cases h with
  | transfer | delegate | burn | redeem | decompressV1 => rfl
  | cancelRedeem _ hid =>
    rw [← hid]
    rfl

/-- A move of an asset that has a row. -/
theorem handle_move (h : Life.Move slab n x l l') (slot : ℕ) {row : Asset Node Pubkey}
    (hrow : db.assets (getAssetId slab n) = some row) :
    handle db (x, slot) =
      ⟨saveChangelogEvents db.changes ((changeLogs x.events).map fun event => (event, slot)),
        Function.update db.assets (getAssetId slab n) (some ((columns x).apply row))⟩ := by
  have hrow' : (db.saveChangelogEvents slot (changeLogs x.events)).assets (getAssetId slab n) =
      some row := hrow
  rw [handle, handleBubblegumInstruction_move h, updateAsset_of_row hrow']
  rfl

/-- A move of an asset that has none. -/
theorem handle_move_of_none (h : Life.Move slab n x l l') (slot : ℕ)
    (hrow : db.assets (getAssetId slab n) = none) : handle db (x, slot) = db := by
  have herr : handleBubblegumInstruction x.instruction slot x.events db =
      .err .StorageWriteError := by
    rw [handleBubblegumInstruction_move h, updateAsset]
    simp [Storage.saveChangelogEvents, hrow]
  rw [handle, herr]

section Mint

variable {signers : List Pubkey} {mintAuthority owner delegate : Pubkey}
  {message : MetadataArgs Pubkey} {schema : LeafSchema Node Pubkey}
  {event : ChangeLogEvent Node Pubkey}

omit [ProgramAddress Pubkey] in
/-- The mint of an asset that has no row, with metadata that the database takes. -/
theorem handle_mintV1 (slot : ℕ) (hfits : fitsAssetData message = true)
    (hrow : db.assets schema.id = none) :
    handle db (⟨signers, .mintV1 slab mintAuthority owner delegate message,
        [.newNFT ⟨.V1, message, n⟩, .leafSchema schema.toEvent, .changeLog event]⟩, slot) =
      ⟨saveChangelogEvents db.changes [(event, slot)], Function.update db.assets schema.id
        (some (mintRow schema.toEvent slab owner delegate))⟩ := by
  have hok : handleBubblegumInstruction (.mintV1 slab mintAuthority owner delegate message) slot
      [.newNFT ⟨.V1, message, n⟩, .leafSchema schema.toEvent, .changeLog event] db =
      insertAsset (db.saveChangelogEvents slot [event]) schema.id
        (mintRow schema.toEvent slab owner delegate) := if_pos hfits
  have hrow' : (db.saveChangelogEvents slot [event]).assets schema.id = none := hrow
  rw [handle, hok, insertAsset, hrow']
  rfl

omit [ProgramAddress Pubkey] in
/-- A mint is undone when the database does not take its metadata. -/
theorem handle_mintV1_of_not_fits (slot : ℕ) (hfits : fitsAssetData message = false) :
    handle db (⟨signers, .mintV1 slab mintAuthority owner delegate message,
        [.newNFT ⟨.V1, message, n⟩, .leafSchema schema.toEvent, .changeLog event]⟩, slot) = db := by
  have herr : handleBubblegumInstruction (.mintV1 slab mintAuthority owner delegate message) slot
      [.newNFT ⟨.V1, message, n⟩, .leafSchema schema.toEvent, .changeLog event] db =
      .err .StorageWriteError := if_neg (by simp [hfits])
  rw [handle, herr]

omit [ProgramAddress Pubkey] in
/-- A mint does not touch the rows of other assets. -/
theorem assets_handle_mintV1_of_ne (slot : ℕ) {id : Pubkey} (hid : id ≠ schema.id) :
    (handle db (⟨signers, .mintV1 slab mintAuthority owner delegate message,
        [.newNFT ⟨.V1, message, n⟩, .leafSchema schema.toEvent, .changeLog event]⟩, slot)).assets
      id = db.assets id := by
  cases hfits : fitsAssetData message with
  | false => rw [handle_mintV1_of_not_fits slot hfits]
  | true =>
    cases hrow : db.assets schema.id with
    | none =>
      rw [handle_mintV1 slot hfits hrow]
      exact Function.update_of_ne hid _ _
    | some row =>
      have herr : handleBubblegumInstruction (.mintV1 slab mintAuthority owner delegate message)
          slot [.newNFT ⟨.V1, message, n⟩, .leafSchema schema.toEvent, .changeLog event] db =
          insertAsset (db.saveChangelogEvents slot [event]) schema.id
            (mintRow schema.toEvent slab owner delegate) := if_pos hfits
      have hrow' : (db.saveChangelogEvents slot [event]).assets schema.id = some row := hrow
      rw [handle, herr, insertAsset, hrow']

end Mint

end Handlers

/-! ### One step -/

section Step

variable [DecidableEq Pubkey] [ProgramAddress Pubkey] {slab : Pubkey} {n : UInt64}
  {x : Executed Node Pubkey} {l l' : Life Node Pubkey}

omit [NodeHash Node] [LeafHash Node Pubkey] [DecidableEq Pubkey] [ProgramAddress Pubkey] in
/-- The tree and the nonce of the asset that was minted. -/
def minted? (x : Executed Node Pubkey) : Option (Pubkey × UInt64) :=
  match x.instruction, x.events with
  | .mintV1 merkleSlab .., .newNFT event :: _ => some (merkleSlab, event.nonce)
  | _, _ => none

omit [NodeHash Node] [LeafHash Node Pubkey] [DecidableEq Pubkey] [ProgramAddress Pubkey] in
/-- The instruction minted the asset of a nonce. -/
def Mints (slab : Pubkey) (n : UInt64) (x : Executed Node Pubkey) : Prop :=
  minted? x = some (slab, n)

omit [NodeHash Node] [LeafHash Node Pubkey] [DecidableEq Pubkey] in
/-- The instruction is about the asset of a nonce. -/
def About (slab : Pubkey) (n : UInt64) (x : Executed Node Pubkey) : Prop :=
  Mints slab n x ∨ x.instruction.Concerns slab n

omit [NodeHash Node] [LeafHash Node Pubkey] [DecidableEq Pubkey] [ProgramAddress Pubkey] in
/-- The handler sets all columns that the instruction changes: the metadata of the mint are
taken by the database, the asset is not burned, and it is not delegated to its owner. -/
def Kept (slab : Pubkey) (n : UInt64) (x : Executed Node Pubkey) : Prop :=
  match x.instruction with
  | .mintV1 _ _ _ _ message => Mints slab n x → fitsAssetData message = true
  | .burn merkleSlab _ _ _ _ _ nonce _ _ => ¬ (merkleSlab = slab ∧ nonce = n)
  | .delegate merkleSlab owner _ newDelegate _ _ _ nonce _ _ =>
    merkleSlab = slab ∧ nonce = n → newDelegate ≠ owner
  | _ => True

omit [NodeHash Node] [LeafHash Node Pubkey] [DecidableEq Pubkey] in
theorem kept_of_not_about (h : ¬ About slab n x) : Kept slab n x := by
  obtain ⟨signers, instruction, events⟩ := x
  rw [About, not_or] at h
  cases instruction with
  | mintV1 => exact fun hmints => absurd hmints h.1
  | delegate => exact fun hid => absurd hid h.2
  | burn => exact h.2
  | createTree | transfer | redeem | cancelRedeem | decompressV1 | compress => trivial

omit [NodeHash Node] [DecidableEq Pubkey] in
/-- A move is no mint. -/
theorem not_mints_of_move (h : Life.Move slab n x l l') (slab' : Pubkey) (n' : UInt64) :
    ¬ Mints slab' n' x := by
  cases h <;> simp [Mints, minted?]

/-- The column `leaf` for a stage. -/
def leafColumn : Life Node Pubkey → Option Node
  | .live s => some s.toNode
  | .redeemed _ => some EMPTY
  | .burned => some EMPTY
  | .decompressed => none

omit [ProgramAddress Pubkey] in
/-- The row shows a stage of the asset, and an owner and a delegate. -/
structure RowShows (l : Life Node Pubkey) (s : LeafSchema Node Pubkey)
    (row : Asset Node Pubkey) : Prop where
  owner : row.owner = s.owner
  delegate : row.delegate = if s.delegate = s.owner then none else some s.delegate
  leaf : row.leaf = leafColumn l
  burnt : row.burnt = true ↔ l = .burned
  compressed : row.compressed = false ↔ l = .decompressed

/-- A move keeps the row in step exactly if its handler sets all columns. -/
theorem rowShows_apply_iff [CollisionFreeLeaf Node Pubkey] (h : Life.Move slab n x l l')
    {s : LeafSchema Node Pubkey} (hs : l.schema? = some s) {row : Asset Node Pubkey}
    (hrow : RowShows l s row) :
    RowShows l' (l'.schema?.getD s) ((columns x).apply row) ↔ Kept slab n x := by
  obtain ⟨howner, hdelegate, hleaf, hburnt, hcompressed⟩ := hrow
  cases h with
  | transfer =>
    obtain rfl := Option.some.inj hs
    refine iff_of_true ⟨rfl, ?_, rfl, ?_, ?_⟩ trivial
    · simp [columns, transferModel, ActiveModel.apply, Life.schema?, LeafSchema.newV0]
    · simpa [columns, transferModel, ActiveModel.apply] using hburnt
    · simpa [columns, transferModel, ActiveModel.apply] using hcompressed
  | @delegate _ owner _ newDelegate =>
    obtain rfl := Option.some.inj hs
    constructor
    · intro hrow' _ heq
      -- the handler sets the delegate even when it is the owner
      have hcolumn := hrow'.delegate
      subst heq
      simp [columns, delegateModel, ActiveModel.apply, Life.schema?, LeafSchema.newV0,
        LeafSchema.toEvent] at hcolumn
    · intro hkept
      have hne : newDelegate ≠ owner := hkept ⟨rfl, rfl⟩
      refine ⟨howner, ?_, rfl, ?_, ?_⟩
      · simp [columns, delegateModel, ActiveModel.apply, Life.schema?, LeafSchema.newV0,
          LeafSchema.toEvent, hne]
      · simpa [columns, delegateModel, ActiveModel.apply] using hburnt
      · simpa [columns, delegateModel, ActiveModel.apply] using hcompressed
  | burn =>
    refine iff_of_false ?_ fun hkept => hkept ⟨rfl, rfl⟩
    intro hrow'
    -- the handler leaves the column of the leaf as it was
    exact LeafSchema.toNode_ne_empty _ (Option.some.inj (hleaf.symm.trans hrow'.leaf))
  | redeem =>
    obtain rfl := Option.some.inj hs
    refine iff_of_true ⟨howner, hdelegate, rfl, ?_, ?_⟩ trivial
    · simpa [columns, redeemModel, ActiveModel.apply] using hburnt
    · simpa [columns, redeemModel, ActiveModel.apply] using hcompressed
  | cancelRedeem =>
    obtain rfl := Option.some.inj hs
    refine iff_of_true ⟨howner, hdelegate, rfl, ?_, ?_⟩ trivial
    · simpa [columns, cancelRedeemModel, ActiveModel.apply] using hburnt
    · simpa [columns, cancelRedeemModel, ActiveModel.apply] using hcompressed
  | decompressV1 =>
    obtain rfl := Option.some.inj hs
    refine iff_of_true ⟨howner, hdelegate, rfl, ?_, ?_⟩ trivial
    · simpa [columns, decompressModel, ActiveModel.apply] using hburnt
    · simp [columns, decompressModel, ActiveModel.apply]

/-- An instruction that mints the asset of a nonce. -/
inductive Minting (slab : Pubkey) (n : UInt64) :
    Executed Node Pubkey → LeafSchema Node Pubkey → Prop
  | mintV1 {signers : List Pubkey} {mintAuthority owner delegate : Pubkey}
      {message : MetadataArgs Pubkey} {dataHash creatorHash : Node}
      {event : ChangeLogEvent Node Pubkey} :
      Minting slab n
        ⟨signers, .mintV1 slab mintAuthority owner delegate message,
          [.newNFT ⟨.V1, message, n⟩, .leafSchema (LeafSchema.newV0 (getAssetId slab n) owner
            delegate n dataHash creatorHash).toEvent, .changeLog event]⟩
        (.newV0 (getAssetId slab n) owner delegate n dataHash creatorHash)

/-- A mint makes a row, unless the database does not take its metadata. -/
theorem Minting.handle_cases {s : LeafSchema Node Pubkey} (h : Minting slab n x s)
    {db : Storage Node Pubkey} (hrow : db.assets (getAssetId slab n) = none) (slot : ℕ) :
    (¬ Kept slab n x ∧ handle db (x, slot) = db) ∨
    (Kept slab n x ∧ ∃ row, RowShows (.live s) s row ∧ handle db (x, slot) =
      ⟨saveChangelogEvents db.changes ((changeLogs x.events).map fun event => (event, slot)),
        Function.update db.assets (getAssetId slab n) (some row)⟩) := by
  cases h with
  | @mintV1 signers mintAuthority owner delegate message dataHash creatorHash event =>
    cases hfits : fitsAssetData message with
    | false =>
      refine .inl ⟨fun hkept => ?_, handle_mintV1_of_not_fits slot hfits⟩
      exact absurd (hfits.symm.trans (hkept rfl)) (by simp)
    | true =>
      refine .inr ⟨fun _ => hfits, _, ⟨rfl, ?_, rfl, ?_, ?_⟩, handle_mintV1 slot hfits hrow⟩
      · simp only [mintRow, LeafSchema.newV0, eq_comm]
      · simp [mintRow]
      · simp [mintRow]

/-- A mint makes a row in step with the chain exactly if the database takes its metadata. -/
theorem Minting.row_iff {s : LeafSchema Node Pubkey} (h : Minting slab n x s)
    {db : Storage Node Pubkey} (hrow : db.assets (getAssetId slab n) = none) (slot : ℕ) :
    (∃ row, (handle db (x, slot)).assets (getAssetId slab n) = some row ∧
      RowShows (.live s) s row) ↔ Kept slab n x := by
  rcases h.handle_cases hrow slot with ⟨hkept, heq⟩ | ⟨hkept, row, hshows, heq⟩
  · refine iff_of_false ?_ hkept
    rintro ⟨row, hsome, -⟩
    rw [heq, hrow] at hsome
    exact absurd hsome (by simp)
  · refine iff_of_true ⟨row, ?_, hshows⟩ hkept
    rw [heq]
    exact Function.update_self ..

/-- What a step of the ledger is to one asset. -/
theorem step_cases [InjectiveAddress Pubkey] {L L' : Ledger Node Pubkey} (h : L.Step x L')
    (slab : Pubkey) (n : UInt64) :
    (L'.life slab n.toNat = L.life slab n.toNat ∧ ¬ About slab n x ∧
      ∀ db slot, (handle db (x, slot)).assets (getAssetId slab n) =
        db.assets (getAssetId slab n)) ∨
    (∃ s, L.life slab n.toNat = none ∧ L'.life slab n.toNat = some (.live s) ∧
      Minting slab n x s) ∨
    ∃ l l', L.life slab n.toNat = some l ∧ L'.life slab n.toNat = some l' ∧
      Life.Move slab n x l l' := by
  cases h with
  | @createTree _ _ _ slab₁ _ _ _ _ _ _ hnone =>
    refine .inl ⟨?_, by simp [About, Mints, minted?, Instruction.Concerns], fun _ _ => rfl⟩
    rw [Ledger.life_update]
    split_ifs with hslab
    · rw [hslab, Ledger.life, hnone]
      rfl
    · rfl
  | @mintV1 _ slab₁ _ _ _ message lives nonce schema _ hlives hnonce hschema =>
    by_cases heq : slab = slab₁ ∧ n = nonce
    · obtain ⟨rfl, rfl⟩ := heq
      refine .inr (.inl ⟨schema, ?_, ?_, ?_⟩)
      · rw [Ledger.life_of_eq hlives, hnonce]
        exact List.getElem?_eq_none le_rfl
      · rw [Ledger.life_update, if_pos rfl, hnonce]
        exact List.getElem?_concat_length
      · subst hschema
        exact .mintV1
    · refine .inl ⟨?_, ?_, ?_⟩
      · rw [Ledger.life_update]
        split_ifs with hslab
        · subst hslab
          have hne : n.toNat ≠ lives.length := by
            intro hn
            exact heq ⟨rfl, UInt64.toNat_inj.1 (hn.trans hnonce.symm)⟩
          rw [Ledger.life_of_eq hlives]
          rcases Nat.lt_or_gt_of_ne hne with hlt | hgt
          · exact List.getElem?_append_left hlt
          · rw [List.getElem?_eq_none hgt.le, List.getElem?_eq_none (by simp; omega)]
        · rfl
      · rintro (hmints | hconcerns)
        · obtain ⟨hslab, hn⟩ := Prod.mk.inj (Option.some.inj hmints)
          exact heq ⟨hslab.symm, hn.symm⟩
        · exact hconcerns
      · intro db slot
        refine assets_handle_mintV1_of_ne slot ?_
        subst hschema
        intro hid
        exact heq (InjectiveAddress.asset_inj hid)
  | @move _ slab₁ nonce l l' hlife hmove =>
    by_cases heq : slab = slab₁ ∧ n = nonce
    · obtain ⟨rfl, rfl⟩ := heq
      refine .inr (.inr ⟨l, l', hlife, ?_, hmove⟩)
      rw [Ledger.life_set hlife, if_pos ⟨rfl, rfl⟩]
    · refine .inl ⟨?_, ?_, ?_⟩
      · rw [Ledger.life_set hlife, if_neg]
        rintro ⟨hslab, hn⟩
        exact heq ⟨hslab, UInt64.toNat_inj.1 hn⟩
      · rintro (hmints | hconcerns)
        · exact not_mints_of_move hmove _ _ hmints
        · exact heq (hmove.unique hconcerns)
      · intro db slot
        have hne : getAssetId slab n ≠ getAssetId slab₁ nonce := fun hid =>
          heq (InjectiveAddress.asset_inj hid)
        cases hrow : db.assets (getAssetId slab₁ nonce) with
        | none => rw [handle_move_of_none hmove slot hrow]
        | some row =>
          rw [handle_move hmove slot hrow]
          exact Function.update_of_ne hne _ _
  | compress =>
    exact .inl ⟨rfl, by simp [About, Mints, minted?, Instruction.Concerns], fun _ _ => rfl⟩

end Step

/-! ### Runs -/

section Runs

variable [DecidableEq Node] [DecidableEq Pubkey] [ProgramAddress Pubkey] [Build]
  {st : State Node Pubkey} {history : List (Executed Node Pubkey)} {slab : Pubkey} {n : UInt64}

/-- The schema that the asset had last in the tree or in a voucher. -/
inductive OnRecord (slab : Pubkey) (n : UInt64) :
    List (Executed Node Pubkey) → LeafSchema Node Pubkey → Prop
  /-- It still has it. -/
  | holds {history : List (Executed Node Pubkey)} {st : State Node Pubkey}
      {s : LeafSchema Node Pubkey} (h : Reachable history st) (hs : st.Holds slab n s) :
      OnRecord slab n history s
  /-- It was burned or decompressed. -/
  | left {history : List (Executed Node Pubkey)} {st : State Node Pubkey}
      {x : Executed Node Pubkey} {s : LeafSchema Node Pubkey} (hs : OnRecord slab n history s)
      (h : Reachable (x :: history) st) (hno : ∀ s', ¬ st.Holds slab n s') :
      OnRecord slab n (x :: history) s

/-- The row of an asset says what the chain does: the owner and the delegate unless it is the
owner, the leaf at the nonce, which is zero while a voucher stands for the asset or once it is
burned and missing once it is decompressed, and whether it was burned or decompressed. -/
structure Mirrors (row : Asset Node Pubkey) (st : State Node Pubkey)
    (history : List (Executed Node Pubkey)) (slab : Pubkey) (n : UInt64) : Prop where
  record : ∃ s, OnRecord slab n history s ∧ row.owner = s.owner ∧
    row.delegate = if s.delegate = s.owner then none else some s.delegate
  live : st.InStage history slab n .live → row.leaf = st.leaf slab n.toNat
  emptied : st.InStage history slab n .redeemed ∨ st.InStage history slab n .burned →
    row.leaf = some EMPTY
  decompressed : st.InStage history slab n .decompressed → row.leaf = none
  burnt : row.burnt = true ↔ st.InStage history slab n .burned
  compressed : row.compressed = false ↔ st.InStage history slab n .decompressed

variable [CollisionFree Node] [NonzeroHash Node] [CollisionFreeLeaf Node Pubkey]
  [InjectiveAddress Pubkey]

omit [CollisionFree Node] [NonzeroHash Node] [CollisionFreeLeaf Node Pubkey]
  [InjectiveAddress Pubkey] in
theorem takes_unique (st : State Node Pubkey) (x : Executed Node Pubkey)
    (st₁ st₂ : State Node Pubkey) (h₁ : x.Takes st st₁) (h₂ : x.Takes st st₂) : st₁ = st₂ :=
  (Prod.mk.inj (Outcome.ok.inj (h₁.2.symm.trans h₂.2))).2

/-- An asset has one schema at a time. -/
theorem holds_unique (h : Reachable history st) {s s' : LeafSchema Node Pubkey}
    (hs : st.Holds slab n s) (hs' : st.Holds slab n s') : s = s' := by
  obtain ⟨L, hrep, -⟩ := h.ledger
  obtain ⟨l, hl, hschema⟩ := hrep.holds_iff.1 hs
  obtain ⟨l', hl', hschema'⟩ := hrep.holds_iff.1 hs'
  obtain rfl := Option.some.inj (hl.symm.trans hl')
  exact Option.some.inj (hschema.symm.trans hschema')

/-- A history determines what is on record. -/
theorem OnRecord.unique {s s' : LeafSchema Node Pubkey} (h : OnRecord slab n history s)
    (h' : OnRecord slab n history s') : s = s' := by
  induction h with
  | holds hreach hs =>
    cases h' with
    | holds hreach' hs' =>
      obtain rfl := Steps.unique takes_unique hreach hreach'
      exact holds_unique hreach hs hs'
    | left _ hreach' hno =>
      obtain rfl := Steps.unique takes_unique hreach hreach'
      exact absurd hs (hno _)
  | left _ hreach hno ih =>
    cases h' with
    | holds hreach' hs' =>
      obtain rfl := Steps.unique takes_unique hreach hreach'
      exact absurd hs' (hno _)
    | left hs' _ _ => exact ih hs'

omit [CollisionFree Node] [NonzeroHash Node] [InjectiveAddress Pubkey] in
/-- What is on record after one more step. -/
theorem OnRecord.step {s : LeafSchema Node Pubkey} (h : OnRecord slab n history s)
    {x : Executed Node Pubkey} (hreach : Reachable (x :: history) st) {L : Ledger Node Pubkey}
    (hrep : st.Represents L) {l : Life Node Pubkey} (hl : L.life slab n.toNat = some l) :
    OnRecord slab n (x :: history) (l.schema?.getD s) := by
  cases hschema : l.schema? with
  | some s' => exact .holds hreach (hrep.holds_iff.2 ⟨l, hl, hschema⟩)
  | none =>
    refine .left h hreach fun s' hs' => ?_
    obtain ⟨l', hl', hschema'⟩ := hrep.holds_iff.1 hs'
    obtain rfl := Option.some.inj (hl.symm.trans hl')
    exact absurd (hschema.symm.trans hschema') (by simp)

/-- A row mirrors the chain exactly if it shows the stage in the ledger. -/
theorem mirrors_iff {L : Ledger Node Pubkey} (hrep : st.Represents L)
    (hrecords : L.Records history) {l : Life Node Pubkey} (hl : L.life slab n.toNat = some l)
    {s : LeafSchema Node Pubkey} (hs : OnRecord slab n history s) {row : Asset Node Pubkey} :
    Mirrors row st history slab n ↔ RowShows l s row := by
  have hstage := hrep.inStage_iff hrecords hl
  have hleaf := hrep.leaf_of_life hl
  constructor
  · rintro ⟨⟨s', hs', howner, hdelegate⟩, hlive, hemptied, hdecompressed, hburnt, hcompressed⟩
    obtain rfl := hs.unique hs'
    refine ⟨howner, hdelegate, ?_, ?_, ?_⟩
    · cases l with
      | live s' => exact (hlive ((hstage _).2 rfl)).trans hleaf
      | redeemed s' => exact hemptied (.inl ((hstage _).2 rfl))
      | burned => exact hemptied (.inr ((hstage _).2 rfl))
      | decompressed => exact hdecompressed ((hstage _).2 rfl)
    · rw [hburnt, hstage]
      cases l <;> simp [Life.stage]
    · rw [hcompressed, hstage]
      cases l <;> simp [Life.stage]
  · rintro ⟨howner, hdelegate, hcolumn, hburnt, hcompressed⟩
    refine ⟨⟨s, hs, howner, hdelegate⟩, ?_, ?_, ?_, ?_, ?_⟩
    · rw [hstage, hcolumn, hleaf]
      cases l <;> simp [Life.stage, leafColumn, Life.leaf]
    · rw [hstage, hstage, hcolumn]
      cases l <;> simp [Life.stage, leafColumn]
    · rw [hstage, hcolumn]
      cases l <;> simp [Life.stage, leafColumn]
    · rw [hburnt, hstage]
      cases l <;> simp [Life.stage]
    · rw [hcompressed, hstage]
      cases l <;> simp [Life.stage]

/-- The row of an asset follows the ledger: there is none before the mint. -/
def Follows (slab : Pubkey) (n : UInt64) (history : List (Executed Node Pubkey))
    (life : Option (Life Node Pubkey)) (row : Option (Asset Node Pubkey)) : Prop :=
  match life with
  | none => row = none
  | some l => ∃ s row', OnRecord slab n history s ∧ l.schema?.getD s = s ∧ row = some row' ∧
      RowShows l s row'

/-- The row of an asset in the ledger follows it exactly if it mirrors the chain. -/
theorem follows_some_iff {L : Ledger Node Pubkey} (hreach : Reachable history st)
    (hrep : st.Represents L) (hrecords : L.Records history) {l : Life Node Pubkey}
    (hl : L.life slab n.toNat = some l) {row : Option (Asset Node Pubkey)} :
    Follows slab n history (some l) row ↔
      ∃ row', row = some row' ∧ Mirrors row' st history slab n := by
  constructor
  · rintro ⟨s, row', hs, -, hrow, hshows⟩
    exact ⟨row', hrow, (mirrors_iff hrep hrecords hl hs).2 hshows⟩
  · rintro ⟨row', hrow, hmirrors⟩
    obtain ⟨s, hs, -⟩ := hmirrors.record
    refine ⟨s, row', hs, ?_, hrow, (mirrors_iff hrep hrecords hl hs).1 hmirrors⟩
    cases hschema : l.schema? with
    | none => rfl
    | some s' => exact hs.unique (.holds hreach (hrep.holds_iff.2 ⟨l, hl, hschema⟩)) ▸ rfl

/-- One step: the row goes on following the ledger exactly if the step is kept. -/
theorem Follows.step_iff {L L' : Ledger Node Pubkey} {db : Storage Node Pubkey}
    (h : Follows slab n history (L.life slab n.toNat) (db.assets (getAssetId slab n)))
    {x : Executed Node Pubkey} (hreach : Reachable (x :: history) st) (hstep : L.Step x L')
    (hrep : st.Represents L') (slot : ℕ) :
    Follows slab n (x :: history) (L'.life slab n.toNat)
      ((handle db (x, slot)).assets (getAssetId slab n)) ↔ Kept slab n x := by
  rcases step_cases hstep slab n with ⟨hlife, habout, hrow⟩ | ⟨s, hnone, hl', hmint⟩ |
    ⟨l, l', hl, hl', hmove⟩
  · -- another asset
    rw [hlife, hrow]
    refine iff_of_true ?_ (kept_of_not_about habout)
    cases hl : L.life slab n.toNat with
    | none =>
      rw [hl] at h
      exact h
    | some l =>
      rw [hl] at h hlife
      obtain ⟨s, row, hs, hschema, hrow, hshows⟩ := h
      have hs' := hs.step hreach hrep hlife
      rw [hschema] at hs'
      exact ⟨s, row, hs', hschema, hrow, hshows⟩
  · -- its mint
    rw [hnone] at h
    have hs : OnRecord slab n (x :: history) s := .holds hreach (hrep.holds_iff.2 ⟨_, hl', rfl⟩)
    rw [hl', ← hmint.row_iff h slot]
    constructor
    · rintro ⟨s', row, hs', -, hrow, hshows⟩
      obtain rfl := hs.unique hs'
      exact ⟨row, hrow, hshows⟩
    · rintro ⟨row, hrow, hshows⟩
      exact ⟨s, row, hs, rfl, hrow, hshows⟩
  · rw [hl] at h
    obtain ⟨s, row, hs, hschema, hrow, hshows⟩ := h
    have hs' := hs.step hreach hrep hl'
    have hsome : l.schema? = some s := by
      obtain ⟨s', hs'⟩ := Option.isSome_iff_exists.1 hmove.schema?_isSome
      rw [hs'] at hschema
      rw [hs', ← hschema]
      rfl
    rw [hl', handle_move hmove slot hrow, ← rowShows_apply_iff hmove hsome hshows]
    dsimp only
    rw [Function.update_self]
    constructor
    · rintro ⟨s₁, row₁, hs₁, -, hrow₁, hshows₁⟩
      obtain rfl := hs'.unique hs₁
      obtain rfl := Option.some.inj hrow₁
      exact hshows₁
    · intro hshows'
      refine ⟨_, _, hs', ?_, rfl, hshows'⟩
      cases l'.schema? <;> rfl

/-- A run of kept steps: the row follows the ledger. -/
theorem follows_of_kept (h : Reachable history st) {db : Storage Node Pubkey}
    (hdb : db.assets (getAssetId slab n) = none) (hkept : ∀ x ∈ history, Kept slab n x)
    {deliveries : List (Executed Node Pubkey × ℕ)}
    (hdeliveries : deliveries.map Prod.fst = history.reverse) :
    ∃ L, st.Represents L ∧ L.Records history ∧ Follows slab n history (L.life slab n.toNat)
      ((ingest db deliveries).assets (getAssetId slab n)) := by
  induction h generalizing deliveries with
  | refl =>
    obtain rfl := List.map_eq_nil_iff.1 hdeliveries
    exact ⟨_, represents_empty, Ledger.records_none, hdb⟩
  | @step history st st' x hreach hx ih =>
    rw [List.reverse_cons] at hdeliveries
    obtain ⟨before, last, rfl, hbefore, hlast⟩ := List.map_eq_append_iff.1 hdeliveries
    obtain ⟨⟨x', slot⟩, rfl, rfl⟩ := List.map_eq_singleton_iff.1 hlast
    obtain ⟨L, hrep, hrecords, hfollows⟩ :=
      ih (fun y hy => hkept y (List.mem_cons_of_mem _ hy)) hbefore
    obtain ⟨L', hstep, hrep'⟩ := hrep.step hx
    refine ⟨L', hrep', hstep.records hrecords, ?_⟩
    rw [ingest, List.foldl_append]
    exact (hfollows.step_iff (.step hreach hx) hstep hrep' slot).2 (hkept _ List.mem_cons_self)

omit [CollisionFreeLeaf Node Pubkey] [InjectiveAddress Pubkey] in
/-- The assets below the counter are those of the ledger. -/
theorem minted_iff {L : Ledger Node Pubkey} (hrep : st.Represents L) :
    (∃ count, st.nonces (ProgramAddress.authority slab) = some count ∧ n < count) ↔
      ∃ l, L.life slab n.toNat = some l := by
  constructor
  · rintro ⟨count, hcount, hn⟩
    exact hrep.exists_life hcount (UInt64.lt_iff_toNat_lt.1 hn)
  · rintro ⟨l, hl⟩
    obtain ⟨lives, hL, hget⟩ := Option.bind_eq_some_iff.1 hl
    have hview := hrep.view slab
    rw [hL] at hview
    obtain ⟨tree, hshows⟩ := hview
    refine ⟨_, hshows.nonce_eq, UInt64.lt_iff_toNat_lt.2 ?_⟩
    rw [hshows.nonce_toNat le_rfl]
    exact (List.getElem?_eq_some_iff.1 hget).1

/-- When a run is handled in the order of the chain, the row of an asset mirrors the chain
after every step since the mint exactly if every step is kept. -/
theorem row_mirrors_iff (h : Reachable history st) {db : Storage Node Pubkey}
    (hdb : db.assets (getAssetId slab n) = none) :
    (∀ later earlier st₁ count deliveries, history = later ++ earlier → Reachable earlier st₁ →
      st₁.nonces (ProgramAddress.authority slab) = some count → n < count →
      deliveries.map Prod.fst = earlier.reverse →
      ∃ row, (ingest db deliveries).assets (getAssetId slab n) = some row ∧
        Mirrors row st₁ earlier slab n) ↔
    ∀ x ∈ history, Kept slab n x := by
  constructor
  · intro hmirrors
    suffices hall : ∀ earlier later, history = later ++ earlier →
        ∀ x ∈ earlier, Kept slab n x from hall history [] rfl
    intro earlier
    -- the first step that is not kept would show in the row
    induction earlier with
    | nil =>
      intro _ _ x hx
      exact absurd hx List.not_mem_nil
    | cons x earlier ih =>
      intro later hhistory
      have hkept := ih (later ++ [x]) (by simpa using hhistory)
      obtain ⟨st', hreach', -⟩ := Steps.exists_of_append (hhistory ▸ h)
      obtain ⟨st₁, hreach, hx⟩ := Steps.exists_of_cons hreach'
      obtain ⟨deliveries, hdeliveries⟩ : ∃ deliveries : List (Executed Node Pubkey × ℕ),
          deliveries.map Prod.fst = earlier.reverse :=
        ⟨earlier.reverse.map fun y => (y, 0), (List.map_map).trans (List.map_id _)⟩
      obtain ⟨L, hrep, hrecords, hfollows⟩ := follows_of_kept hreach hdb hkept hdeliveries
      obtain ⟨L', hstep, hrep'⟩ := hrep.step hx
      refine List.forall_mem_cons.2 ⟨?_, hkept⟩
      rcases step_cases hstep slab n with ⟨-, hx, -⟩ | habout
      · exact kept_of_not_about hx
      · obtain ⟨l', hl'⟩ : ∃ l', L'.life slab n.toNat = some l' := by
          rcases habout with ⟨s, -, hl', -⟩ | ⟨-, l', -, hl', -⟩
          · exact ⟨_, hl'⟩
          · exact ⟨l', hl'⟩
        obtain ⟨count, hcount, hn⟩ := (minted_iff hrep').2 ⟨l', hl'⟩
        have hrow := hmirrors later (x :: earlier) st' count (deliveries ++ [(x, 0)]) hhistory
          hreach' hcount hn (by simp [hdeliveries])
        rw [ingest, List.foldl_append] at hrow
        refine (hfollows.step_iff hreach' hstep hrep' 0).1 ?_
        rw [hl']
        exact (follows_some_iff hreach' hrep' (hstep.records hrecords) hl').2 hrow
  · intro hkept later earlier st₁ count deliveries hhistory hreach hcount hn hdeliveries
    obtain ⟨L, hrep, hrecords, hfollows⟩ := follows_of_kept hreach hdb
      (fun x hx => hkept x (hhistory ▸ List.mem_append_right _ hx)) hdeliveries
    obtain ⟨l, hl⟩ := (minted_iff hrep).1 ⟨count, hcount, hn⟩
    rw [hl] at hfollows
    exact (follows_some_iff hreach hrep hrecords hl).1 hfollows

end Runs

/-- Tables without rows. -/
def noAssets : Storage Term Bubblegum.Key := ⟨⟨fun _ => none, []⟩, fun _ => none⟩

theorem row_mirrors_transferred :
    let ins := Trace.transfer Trace.minted Trace.alice Trace.bob
    let st := (Trace.minted.after [Trace.alice] ins).2
    let history := Trace.minted.executed [Trace.alice] ins :: Trace.mintHistory
    ∃ row, (ingest noAssets (history.reverse.map fun x => (x, 7))).assets
        (getAssetId Trace.slab 0) = some row ∧ Mirrors row st history Trace.slab 0 := by
  intro ins st history
  have hreach : Reachable history st :=
    .step Trace.reachable_minted (State.takes_after trivial (by decide +kernel))
  have hkept : ∀ x ∈ history, Kept Trace.slab 0 x := by
    simp only [history, Trace.mintHistory, List.forall_mem_cons]
    exact ⟨trivial, fun _ => by decide, trivial, List.forall_mem_nil _⟩
  have hcount : (st.nonces (ProgramAddress.authority Trace.slab)) = some 1 := by decide +kernel
  exact (row_mirrors_iff hreach rfl).2 hkept [] history st 1 _ rfl hreach hcount (by decide)
    ((List.map_map).trans (List.map_id _))

/-- The row of a burned asset keeps the hash of its last leaf. -/
theorem row_of_burned :
    let ins := Trace.burn Trace.minted Trace.alice
    let st := (Trace.minted.after [Trace.alice] ins).2
    let history := Trace.minted.executed [Trace.alice] ins :: Trace.mintHistory
    Reachable history st ∧ st.leaf Trace.slab 0 = some EMPTY ∧
      ¬ ∃ row, (ingest noAssets (history.reverse.map fun x => (x, 7))).assets
        (getAssetId Trace.slab 0) = some row ∧ Mirrors row st history Trace.slab 0 := by
  intro ins st history
  have hreach : Reachable history st :=
    .step Trace.reachable_minted (State.takes_after trivial (by decide +kernel))
  refine ⟨hreach, by decide +kernel, ?_⟩
  rintro ⟨row, hrow, hmirrors⟩
  have hleaf := hmirrors.emptied (.inr ⟨_, List.mem_cons_self, rfl, rfl⟩)
  have hcolumn : ((ingest noAssets (history.reverse.map fun x => (x, 7))).assets
      (getAssetId Trace.slab 0)).map Asset.leaf ≠ some (some EMPTY) := by decide +kernel
  rw [hrow, Option.map_some, hleaf] at hcolumn
  exact hcolumn rfl

end Candyland.NftIngester
