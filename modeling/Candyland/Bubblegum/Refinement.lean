import Candyland.Bubblegum.Ledger
import Candyland.Bubblegum.Tree

/-!
# The accounts keep the ledger

The stage of an asset is spread over accounts: a live asset is the hash of its schema at the
position of its nonce, a redeemed one is in the voucher for the nonce, and the mint for the
nonce was made by its decompression.  Every successful instruction follows a step of the ledger.
-/

namespace Candyland.Bubblegum

open ConcurrentMerkleTree (NodeHash EMPTY BufferSize CollisionFree NonzeroHash)
open Gummyroll (Build ChangeLogEvent)

variable {Node Pubkey : Type} [ProgramAddress Pubkey]

/-! ### The accounts of a slab -/

/-- The accounts at the addresses for a slab, the vouchers and the mints by nonces. -/
structure View (Node Pubkey : Type) where
  nonce : Option UInt64
  tree : Option (Tree Node Pubkey)
  vouchers : UInt64 → Option (Voucher Node Pubkey)
  mints : UInt64 → Option ℕ

/-- The accounts of a slab. -/
def State.view (self : State Node Pubkey) (slab : Pubkey) : View Node Pubkey where
  nonce := self.nonces (ProgramAddress.authority slab)
  tree := self.trees slab
  vouchers := self.vouchers ∘ ProgramAddress.voucher slab
  mints := self.mints ∘ ProgramAddress.asset slab

section Addresses

variable [InjectiveAddress Pubkey] [DecidableEq Pubkey] {α : Type} {slab slab' : Pubkey}

theorem update_authority (h : slab' ≠ slab) (f : Pubkey → α) (a : α) :
    Function.update f (ProgramAddress.authority slab) a (ProgramAddress.authority slab') =
      f (ProgramAddress.authority slab') :=
  Function.update_of_ne (fun heq => h (InjectiveAddress.authority_inj heq)) _ _

theorem update_voucher (h : slab' ≠ slab) (f : Pubkey → α) (n : UInt64) (a : α) :
    Function.update f (ProgramAddress.voucher slab n) a ∘ ProgramAddress.voucher slab' =
      f ∘ ProgramAddress.voucher slab' :=
  funext fun _ =>
    Function.update_of_ne (fun heq => h (InjectiveAddress.voucher_inj heq).1) _ _

theorem update_voucher_self (f : Pubkey → α) (n : UInt64) (a : α) :
    Function.update f (ProgramAddress.voucher slab n) a ∘ ProgramAddress.voucher slab =
      Function.update (f ∘ ProgramAddress.voucher slab) n a :=
  Function.update_comp_eq_of_injective _ (fun _ _ heq => (InjectiveAddress.voucher_inj heq).2) _ _

theorem update_asset (h : slab' ≠ slab) (f : Pubkey → α) (n : UInt64) (a : α) :
    Function.update f (ProgramAddress.asset slab n) a ∘ ProgramAddress.asset slab' =
      f ∘ ProgramAddress.asset slab' :=
  funext fun _ => Function.update_of_ne (fun heq => h (InjectiveAddress.asset_inj heq).1) _ _

theorem update_asset_self (f : Pubkey → α) (n : UInt64) (a : α) :
    Function.update f (ProgramAddress.asset slab n) a ∘ ProgramAddress.asset slab =
      Function.update (f ∘ ProgramAddress.asset slab) n a :=
  Function.update_comp_eq_of_injective _ (fun _ _ heq => (InjectiveAddress.asset_inj heq).2) _ _

end Addresses

/-! ### The relation -/

section Relation

variable [NodeHash Node] [LeafHash Node Pubkey] [DecidableEq Node] [DecidableEq Pubkey] [Build]

/-- The leaves of a tree are those of the assets, each of which knows its nonce and its tree. -/
structure Tree.Shows (slab : Pubkey) (tree : Tree Node Pubkey) (lives : List (Life Node Pubkey)) :
    Prop where
  made : tree.Made slab
  count_eq : tree.count = lives.length
  leaf_eq : ∀ i, tree.leaf i = (lives[i]?.map Life.leaf).getD EMPTY
  named : ∀ (i : ℕ) (l : Life Node Pubkey) (s : LeafSchema Node Pubkey), lives[i]? = some l →
    l.schema? = some s → s.nonce.toNat = i ∧ s.id = getAssetId slab s.nonce

/-- The voucher and the mint for a nonce in a stage of the asset. -/
def Held (slab : Pubkey) (depth n : ℕ) (voucher : Option (Voucher Node Pubkey))
    (mint : Option ℕ) : Option (Life Node Pubkey) → Prop
  | some (.redeemed s) => mint = none ∧
    ∃ index, voucher = some ⟨s, index, slab⟩ ∧ ConcurrentMerkleTree.position depth index = n
  | some .decompressed => mint = some 1 ∧ voucher = none
  | _ => mint = none ∧ voucher = none

/-- The accounts of a slab show the assets of its tree. -/
structure View.Shows (slab : Pubkey) (view : View Node Pubkey) (tree : Tree Node Pubkey)
    (lives : List (Life Node Pubkey)) : Prop extends tree.Shows slab lives where
  tree_eq : view.tree = some tree
  nonce_eq : view.nonce = some (UInt64.ofNat lives.length)
  held : ∀ n : UInt64, Held slab tree.depth n.toNat (view.vouchers n) (view.mints n) lives[n.toNat]?

/-- The accounts of a slab show the entry of a ledger. -/
def View.Represents (slab : Pubkey) (view : View Node Pubkey) :
    Option (List (Life Node Pubkey)) → Prop
  | some lives => ∃ tree, view.Shows slab tree lives
  | none => view = ⟨none, none, fun _ => none, fun _ => none⟩

/-- The accounts show a ledger, and vouchers are at derived addresses only. -/
structure State.Represents (st : State Node Pubkey) (L : Ledger Node Pubkey) : Prop where
  view : ∀ slab, (st.view slab).Represents slab (L slab)
  derived : ∀ key voucher, st.vouchers key = some voucher →
    ∃ slab n, key = ProgramAddress.voucher slab n

theorem represents_empty : (State.empty : State Node Pubkey).Represents fun _ => none := by
  constructor
  · intro slab
    rfl
  · intro key voucher h
    exact absurd h (by simp [State.empty])

namespace Tree.Shows

variable {slab : Pubkey} {tree tree' : Tree Node Pubkey} {lives : List (Life Node Pubkey)}

theorem nonce_toNat [CollisionFree Node] [NonzeroHash Node] (h : tree.Shows slab lives) {n : ℕ}
    (hn : n ≤ lives.length) : (UInt64.ofNat n).toNat = n := by
  have hle := h.made.count_le
  rw [h.count_eq] at hle
  exact UInt64.toNat_ofNat_of_lt' (by norm_num at hle ⊢; omega)

/-- A leaf that is the hash of a schema is a live asset, at the position of its nonce. -/
theorem live [CollisionFreeLeaf Node Pubkey] (h : tree.Shows slab lives) {i : ℕ}
    {s : LeafSchema Node Pubkey} (heq : tree.leaf i = s.toNode) :
    lives[i]? = some (.live s) ∧ s.nonce.toNat = i ∧ s.id = getAssetId slab s.nonce := by
  rw [h.leaf_eq] at heq
  cases hl : lives[i]? with
  | none =>
    rw [hl] at heq
    exact absurd heq.symm s.toNode_ne_empty
  | some l =>
    rw [hl] at heq
    cases l with
    | live s' =>
      obtain rfl := LeafSchema.toNode_inj (show s'.toNode = s.toNode from heq)
      exact ⟨rfl, h.named i _ s' hl rfl⟩
    | redeemed s' | burned | decompressed => exact absurd heq.symm s.toNode_ne_empty

/-- Replacing the leaf of an asset. -/
theorem replace (h : tree.Shows slab lives) {i : ℕ} {l : Life Node Pubkey}
    (l' : Life Node Pubkey) {event : ChangeLogEvent Node Pubkey} (hl : lives[i]? = some l)
    (hwrote : tree.Wrote slab i l'.leaf event tree')
    (hnamed : ∀ s, l'.schema? = some s → s.nonce.toNat = i ∧ s.id = getAssetId slab s.nonce) :
    tree'.Shows slab (lives.set i l') := by
  have hlt := (List.getElem?_eq_some_iff.1 hl).1
  refine ⟨hwrote.made, ?_, ?_, ?_⟩
  · rw [hwrote.count_eq, h.count_eq, if_neg (by omega), List.length_set]
  · intro j
    rw [hwrote.leaf_eq]
    by_cases hj : j = i
    · subst hj
      simp [hlt]
    · rw [Function.update_of_ne hj, List.getElem?_set_ne (Ne.symm hj), h.leaf_eq]
  · intro j k s hk hs
    by_cases hj : j = i
    · subst hj
      rw [List.getElem?_set_self hlt] at hk
      obtain rfl := Option.some.inj hk
      exact hnamed s hs
    · rw [List.getElem?_set_ne (Ne.symm hj)] at hk
      exact h.named j k s hk hs

/-- Appending the leaf of a new asset. -/
theorem append (h : tree.Shows slab lives) {s : LeafSchema Node Pubkey}
    {event : ChangeLogEvent Node Pubkey}
    (hwrote : tree.Wrote slab tree.count s.toNode event tree')
    (hnonce : s.nonce.toNat = lives.length) (hid : s.id = getAssetId slab s.nonce) :
    tree'.Shows slab (lives ++ [.live s]) := by
  refine ⟨hwrote.made, ?_, ?_, ?_⟩
  · rw [hwrote.count_eq, if_pos rfl, h.count_eq, List.length_append, List.length_singleton]
  · intro j
    rw [hwrote.leaf_eq, h.count_eq]
    by_cases hj : j = lives.length
    · subst hj
      simp [Life.leaf]
    · rw [Function.update_of_ne hj, h.leaf_eq]
      rcases Nat.lt_or_gt_of_ne hj with hlt | hgt
      · rw [List.getElem?_append_left hlt]
      · rw [List.getElem?_eq_none hgt.le, List.getElem?_eq_none (by simp; omega)]
  · intro j k s' hk hs
    by_cases hj : j = lives.length
    · subst hj
      rw [List.getElem?_concat_length] at hk
      obtain rfl := Option.some.inj hk
      obtain rfl := Option.some.inj hs
      exact ⟨hnonce, hid⟩
    · have hlt := (List.getElem?_eq_some_iff.1 hk).1
      rw [List.length_append, List.length_singleton] at hlt
      rw [List.getElem?_append_left (by omega)] at hk
      exact h.named j k s' hk hs

/-- A decompression leaves the tree as it is. -/
theorem decompress (h : tree.Shows slab lives) {i : ℕ} {s : LeafSchema Node Pubkey}
    (hl : lives[i]? = some (.redeemed s)) : tree.Shows slab (lives.set i .decompressed) := by
  have hlt := (List.getElem?_eq_some_iff.1 hl).1
  refine ⟨h.made, ?_, ?_, ?_⟩
  · rw [h.count_eq, List.length_set]
  · intro j
    rw [h.leaf_eq]
    by_cases hj : j = i
    · subst hj
      rw [hl, List.getElem?_set_self hlt]
      rfl
    · rw [List.getElem?_set_ne (Ne.symm hj)]
  · intro j k s' hk hs
    by_cases hj : j = i
    · subst hj
      rw [List.getElem?_set_self hlt] at hk
      obtain rfl := Option.some.inj hk
      exact absurd hs (by simp [Life.schema?])
    · rw [List.getElem?_set_ne (Ne.symm hj)] at hk
      exact h.named j k s' hk hs

end Tree.Shows

namespace View.Shows

variable {slab : Pubkey} {view view' : View Node Pubkey} {tree tree' : Tree Node Pubkey}
  {lives : List (Life Node Pubkey)}

/-- Another stage for one asset. -/
theorem set (h : view.Shows slab tree lives) {n : UInt64} {l' : Life Node Pubkey}
    (hlt : n.toNat < lives.length) (hshows : tree'.Shows slab (lives.set n.toNat l'))
    (htree : view'.tree = some tree') (hnonce : view'.nonce = view.nonce)
    (hdepth : tree'.depth = tree.depth)
    (hheld : Held slab tree.depth n.toNat (view'.vouchers n) (view'.mints n) (some l'))
    (hother : ∀ m, m ≠ n → view'.vouchers m = view.vouchers m ∧ view'.mints m = view.mints m) :
    view'.Shows slab tree' (lives.set n.toNat l') := by
  refine ⟨hshows, htree, ?_, ?_⟩
  · rw [hnonce, h.nonce_eq, List.length_set]
  · intro m
    rw [hdepth]
    by_cases hm : m = n
    · subst hm
      rw [List.getElem?_set_self hlt]
      exact hheld
    · have hne : m.toNat ≠ n.toNat := fun heq => hm (UInt64.toNat_inj.1 heq)
      rw [List.getElem?_set_ne (Ne.symm hne), (hother m hm).1, (hother m hm).2]
      exact h.held m

end View.Shows

/-- The accounts of other slabs do not matter. -/
theorem State.Represents.update {st st' : State Node Pubkey} {L : Ledger Node Pubkey}
    (h : st.Represents L) {slab : Pubkey} {lives : List (Life Node Pubkey)}
    (tree : Tree Node Pubkey) (hother : ∀ slab', slab' ≠ slab → st'.view slab' = st.view slab')
    (hvouchers : ∀ key, st'.vouchers key = st.vouchers key ∨
      ∃ n, key = ProgramAddress.voucher slab n)
    (hshows : (st'.view slab).Shows slab tree lives) :
    st'.Represents (Function.update L slab (some lives)) := by
  constructor
  · intro slab'
    by_cases hslab : slab' = slab
    · subst hslab
      rw [Function.update_self]
      exact ⟨tree, hshows⟩
    · rw [Function.update_of_ne hslab, hother slab' hslab]
      exact h.view slab'
  · intro key voucher hvoucher
    rcases hvouchers key with heq | ⟨n, hn⟩
    · rw [heq] at hvoucher
      exact h.derived key voucher hvoucher
    · exact ⟨slab, n, hn⟩

/-- Another stage for one asset, in the accounts and in the ledger. -/
theorem State.Represents.set [InjectiveAddress Pubkey] {st st' : State Node Pubkey}
    {L : Ledger Node Pubkey} (h : st.Represents L) {slab : Pubkey} {lives : List (Life Node Pubkey)}
    {tree tree' : Tree Node Pubkey} {n : UInt64} {l' : Life Node Pubkey}
    {voucher : Option (Voucher Node Pubkey)} {mint : Option ℕ} (hL : L slab = some lives)
    (hshows : (st.view slab).Shows slab tree lives) (hlt : n.toNat < lives.length)
    (hshows' : tree'.Shows slab (lives.set n.toNat l')) (hdepth : tree'.depth = tree.depth)
    (hheld : Held slab tree.depth n.toNat voucher mint (some l'))
    (hst' : st' = ⟨st.nonces, Function.update st.trees slab (some tree'),
      Function.update st.vouchers (ProgramAddress.voucher slab n) voucher,
      Function.update st.mints (ProgramAddress.asset slab n) mint⟩) :
    st'.Represents (L.set slab n.toNat l') := by
  subst hst'
  have hset : L.set slab n.toNat l' = Function.update L slab (some (lives.set n.toNat l')) := by
    rw [Ledger.set, hL, Option.map_some]
  rw [hset]
  refine h.update tree' ?_ ?_ (hshows.set hlt hshows' ?_ rfl hdepth ?_ ?_)
  · intro slab' hne
    simp only [State.view, update_voucher hne, update_asset hne, Function.update_of_ne hne]
  · intro key
    by_cases hkey : key = ProgramAddress.voucher slab n
    · exact .inr ⟨n, hkey⟩
    · exact .inl (Function.update_of_ne hkey _ _)
  · exact Function.update_self ..
  · simpa only [State.view, update_voucher_self, update_asset_self, Function.update_self] using hheld
  · intro m hm
    simp only [State.view, update_voucher_self, update_asset_self, Function.update_of_ne hm,
      and_self]

end Relation

/-! ### The instructions -/

section Simulation

variable [NodeHash Node] [LeafHash Node Pubkey] [DecidableEq Node] [DecidableEq Pubkey] [Build]
  [CollisionFree Node] [NonzeroHash Node]

namespace State.Represents

variable {st st' : State Node Pubkey} {L : Ledger Node Pubkey} {slab : Pubkey}
  {events : List (Event Node Pubkey)}

omit [CollisionFree Node] [NonzeroHash Node] in
/-- A successful call of gummyroll is one of a tree of the ledger. -/
theorem invoke (h : st.Represents L) {ins : Gummyroll.Instruction Node Pubkey}
    (hok : st.invoke slab ins = .ok (events, st')) :
    ∃ lives tree tree', L slab = some lives ∧ (st.view slab).Shows slab tree lives ∧
      tree.invoke ins = .ok (events, tree') ∧
      st' = { st with trees := Function.update st.trees slab (some tree') } := by
  rw [State.invoke] at hok
  cases htree : st.trees slab with
  | none =>
    rw [htree] at hok
    exact absurd hok (by simp)
  | some tree =>
    rw [htree] at hok
    obtain ⟨⟨events₁, tree'⟩, hinvoke, hok⟩ := Outcome.bind_eq_ok.1 hok
    obtain ⟨rfl, rfl⟩ := Prod.mk.inj (Outcome.ok.inj hok)
    have hview := h.view slab
    cases hL : L slab with
    | none =>
      rw [hL] at hview
      exact absurd (htree.symm.trans (congrArg View.tree hview)) (by simp)
    | some lives =>
      rw [hL] at hview
      obtain ⟨tree₁, hshows⟩ := hview
      obtain rfl := Option.some.inj (htree.symm.trans hshows.tree_eq)
      exact ⟨lives, tree, tree', rfl, hshows, hinvoke, rfl⟩

/-- A replacement of the hash of a schema is one of a live asset. -/
theorem replaceLive [CollisionFreeLeaf Node Pubkey] [InjectiveAddress Pubkey] (h : st.Represents L)
    (s : LeafSchema Node Pubkey) (l' : Life Node Pubkey) {root : Node} {index : UInt32}
    {proof : List Node}
    (hok : st.replaceLeaf slab root s.toNode l'.leaf index proof = .ok (events, st'))
    (hnamed : ∀ s', l'.schema? = some s' →
      s'.nonce = s.nonce ∧ s'.id = getAssetId slab s.nonce) :
    L.life slab s.nonce.toNat = some (.live s) ∧ (∃ event, events = [.changeLog event]) ∧
      st'.vouchers (ProgramAddress.voucher slab s.nonce) = none ∧
      ∃ depth, ConcurrentMerkleTree.position depth index = s.nonce.toNat ∧
        ∀ voucher, Held slab depth s.nonce.toNat voucher none (some l') →
          State.Represents { st' with
            vouchers := Function.update st'.vouchers (ProgramAddress.voucher slab s.nonce) voucher }
            (L.set slab s.nonce.toNat l') := by
  obtain ⟨lives, tree, tree', hL, hshows, hinvoke, rfl⟩ := h.invoke hok
  obtain ⟨hprevious, event, rfl, -, hwrote⟩ := Tree.invoke_replaceLeaf hshows.made hinvoke
  obtain ⟨hlive, hposition, -⟩ := hshows.live hprevious.symm
  -- the hash of the leaf ties the index to the nonce
  rw [← hposition] at hlive hwrote
  have hheld := hshows.held s.nonce
  rw [hlive] at hheld
  obtain ⟨hmint, hvoucher⟩ := hheld
  have hshows' := hshows.replace l' hlive hwrote fun s' hs' => by
    obtain ⟨hnonce, hid⟩ := hnamed s' hs'
    rw [hnonce]
    exact ⟨rfl, hid⟩
  refine ⟨?_, ⟨event, rfl⟩, hvoucher, tree.depth, hposition.symm, ?_⟩
  · rw [Ledger.life_of_eq hL, hlive]
  · intro voucher hheld'
    refine h.set hL hshows (List.getElem?_eq_some_iff.1 hlive).1 hshows' hwrote.depth_eq hheld' ?_
    have hmints : Function.update st.mints (ProgramAddress.asset slab s.nonce) none = st.mints :=
      Function.update_eq_self_iff.2 hmint.symm
    rw [hmints]

variable {signers : List Pubkey}

omit [CollisionFree Node] [NonzeroHash Node] in
/-- A voucher at an address for a nonce is that of a redeemed asset. -/
theorem redeemed (h : st.Represents L) {n : UInt64} {voucher : Voucher Node Pubkey}
    (hvoucher : st.vouchers (ProgramAddress.voucher slab n) = some voucher) :
    ∃ lives tree, L slab = some lives ∧ (st.view slab).Shows slab tree lives ∧
      lives[n.toNat]? = some (.redeemed voucher.leafSchema) ∧ voucher.merkleSlab = slab ∧
      ConcurrentMerkleTree.position tree.depth voucher.index = n.toNat ∧
      st.mints (ProgramAddress.asset slab n) = none := by
  have hview := h.view slab
  cases hL : L slab with
  | none =>
    rw [hL] at hview
    exact absurd (hvoucher.symm.trans (congrFun (congrArg View.vouchers hview) n)) (by simp)
  | some lives =>
    rw [hL] at hview
    obtain ⟨tree, hshows⟩ := hview
    refine ⟨lives, tree, rfl, hshows, ?_⟩
    have hheld := hshows.held n
    have hsome : (st.view slab).vouchers n = some voucher := hvoucher
    rw [hsome] at hheld
    cases hl : lives[n.toNat]? with
    | none =>
      rw [hl] at hheld
      exact absurd hheld.2 (by simp)
    | some l =>
      rw [hl] at hheld
      cases l with
      | redeemed s =>
        obtain ⟨hmint, index, heq, hposition⟩ := hheld
        obtain rfl := Option.some.inj heq
        exact ⟨rfl, rfl, hposition, hmint⟩
      | live s | burned | decompressed => exact absurd hheld.2 (by simp)

omit [CollisionFree Node] [NonzeroHash Node] in
theorem createTree [InjectiveAddress Pubkey] (h : st.Represents L) {payer treeCreator : Pubkey}
    {D B : ℕ} {size : BufferSize B} {account : Gummyroll.Account Node Pubkey D B} {slot : ℕ}
    (hallocated : account.key = slab ∧ ∃ c, account.Fresh c)
    (hok : st.createTree signers payer treeCreator slab size account slot = .ok (events, st')) :
    ∃ L', L.Step ⟨signers, .createTree payer treeCreator slab size account slot, events⟩ L' ∧
      st'.Represents L' := by
  obtain ⟨hkey, c, hfresh⟩ := hallocated
  obtain ⟨⟨⟩, hnone, hok⟩ := Outcome.bind_eq_ok.1 hok
  obtain ⟨⟨⟩, -, hok⟩ := Outcome.bind_eq_ok.1 hok
  rw [constraint_eq_ok] at hnone
  split at hok
  · rename_i event account' hinit
    obtain ⟨rfl, rfl⟩ := Prod.mk.inj (Outcome.ok.inj hok)
    have hview := h.view slab
    cases hL : L slab with
    | some lives =>
      rw [hL] at hview
      obtain ⟨tree, hshows⟩ := hview
      exact absurd (hnone.symm.trans hshows.nonce_eq) (by simp)
    | none =>
      rw [hL] at hview
      obtain ⟨hmade, hcount, hleaf, -⟩ := Tree.made_of_init hfresh hkey hinit
      refine ⟨_, .createTree hL,
        h.update ⟨D, B, size, ⟨account', [], [event]⟩⟩ ?_ (fun _ => .inl rfl) ?_⟩
      · intro slab' hne
        simp only [State.view, update_authority hne, Function.update_of_ne hne]
      · refine ⟨⟨hmade, hcount, ?_, ?_⟩, Function.update_self .., Function.update_self .., ?_⟩
        · intro i
          exact hleaf i
        · intro i l s hl
          exact absurd hl (by simp)
        · intro n
          have hmints := congrFun (congrArg View.mints hview) n
          have hvouchers := congrFun (congrArg View.vouchers hview) n
          exact ⟨hmints, hvouchers⟩
  · exact absurd hok (by simp)
  · exact absurd hok (by simp)

theorem mintV1 [InjectiveAddress Pubkey] (h : st.Represents L)
    {mintAuthority owner delegate : Pubkey} {message : MetadataArgs Pubkey}
    (hok : st.mintV1 signers slab mintAuthority owner delegate message = .ok (events, st')) :
    ∃ L', L.Step ⟨signers, .mintV1 slab mintAuthority owner delegate message, events⟩ L' ∧
      st'.Represents L' := by
  obtain ⟨⟨⟩, hsigner, hok⟩ := Outcome.bind_eq_ok.1 hok
  obtain ⟨count, hcount, hok⟩ := Outcome.bind_eq_ok.1 hok
  obtain ⟨⟨events₁, st₁⟩, happend, hok⟩ := Outcome.bind_eq_ok.1 hok
  obtain ⟨rfl, rfl⟩ := Prod.mk.inj (Outcome.ok.inj hok)
  obtain ⟨lives, tree, tree', hL, hshows, hinvoke, rfl⟩ := h.invoke happend
  obtain ⟨-, event, rfl, -, hwrote⟩ := Tree.invoke_append hshows.made hinvoke
  have hnonce : st.nonces (ProgramAddress.authority slab) = some (UInt64.ofNat lives.length) :=
    hshows.nonce_eq
  rw [State.nonce, hnonce] at hcount
  obtain rfl := Outcome.ok.inj hcount
  have htoNat := hshows.nonce_toNat le_rfl
  have hlen := hshows.made.count_le
  rw [hshows.count_eq] at hlen
  have hsucc : saturatingAdd (UInt64.ofNat lives.length) 1 = UInt64.ofNat (lives.length + 1) := by
    rw [saturatingAdd, htoNat, UInt64.toNat_one, Nat.min_eq_left (by norm_num at hlen ⊢; omega)]
  refine ⟨_, .mintV1 hL htoNat rfl (constraint_eq_ok.1 hsigner),
    h.update tree' ?_ (fun _ => .inl rfl) ?_⟩
  · intro slab' hne
    simp only [State.view, update_authority hne, Function.update_of_ne hne]
  · refine ⟨hshows.append hwrote htoNat rfl, Function.update_self .., ?_, ?_⟩
    · rw [List.length_append, List.length_singleton, ← hsucc]
      exact Function.update_self ..
    · intro n
      rw [hwrote.depth_eq]
      have hheld := hshows.held n
      rcases lt_trichotomy n.toNat lives.length with hlt | heq | hgt
      · rw [List.getElem?_append_left hlt]
        exact hheld
      · rw [heq, List.getElem?_eq_none le_rfl] at hheld
        rw [heq, List.getElem?_concat_length]
        exact hheld
      · rw [List.getElem?_eq_none hgt.le] at hheld
        rw [List.getElem?_eq_none (by simp; omega)]
        exact hheld

section Replacements

variable [CollisionFreeLeaf Node Pubkey] [InjectiveAddress Pubkey] {owner : Pubkey}
  {root dataHash creatorHash : Node} {nonce : UInt64} {index : UInt32} {proof : List Node}

theorem transfer (h : st.Represents L) {delegate newOwner : Pubkey}
    (hok : st.transfer signers slab owner delegate newOwner root dataHash creatorHash nonce index
      proof = .ok (events, st')) :
    ∃ L', L.Step ⟨signers, .transfer slab owner delegate newOwner root dataHash creatorHash nonce
      index proof, events⟩ L' ∧ st'.Represents L' := by
  obtain ⟨count, -, hok⟩ := Outcome.bind_eq_ok.1 hok
  obtain ⟨⟨⟩, hsigner, hok⟩ := Outcome.bind_eq_ok.1 hok
  obtain ⟨⟨events₁, st₁⟩, hreplace, hok⟩ := Outcome.bind_eq_ok.1 hok
  obtain ⟨rfl, rfl⟩ := Prod.mk.inj (Outcome.ok.inj hok)
  obtain ⟨hlife, ⟨event, rfl⟩, hvoucher, depth, -, hset⟩ := h.replaceLive
    (.newV0 (getAssetId slab nonce) owner delegate nonce dataHash creatorHash)
    (.live (.newV0 (getAssetId slab nonce) newOwner newOwner nonce dataHash creatorHash)) hreplace (by rintro s' ⟨⟩; exact ⟨rfl, rfl⟩)
  refine ⟨_, .move slab nonce hlife (.transfer (Outcome.assert_eq_ok.1 hsigner)), ?_⟩
  have hrep := hset none ⟨rfl, rfl⟩
  rw [Function.update_eq_self_iff.2 hvoucher.symm] at hrep
  exact hrep

theorem delegate (h : st.Represents L) {previousDelegate newDelegate : Pubkey}
    (hok : st.delegate signers slab owner previousDelegate newDelegate root dataHash creatorHash
      nonce index proof = .ok (events, st')) :
    ∃ L', L.Step ⟨signers, .delegate slab owner previousDelegate newDelegate root dataHash
      creatorHash nonce index proof, events⟩ L' ∧ st'.Represents L' := by
  obtain ⟨count, -, hok⟩ := Outcome.bind_eq_ok.1 hok
  obtain ⟨⟨⟩, hsigner, hok⟩ := Outcome.bind_eq_ok.1 hok
  obtain ⟨⟨events₁, st₁⟩, hreplace, hok⟩ := Outcome.bind_eq_ok.1 hok
  obtain ⟨rfl, rfl⟩ := Prod.mk.inj (Outcome.ok.inj hok)
  obtain ⟨hlife, ⟨event, rfl⟩, hvoucher, depth, -, hset⟩ := h.replaceLive
    (.newV0 (getAssetId slab nonce) owner previousDelegate nonce dataHash creatorHash)
    (.live (.newV0 (getAssetId slab nonce) owner newDelegate nonce dataHash creatorHash)) hreplace (by rintro s' ⟨⟩; exact ⟨rfl, rfl⟩)
  refine ⟨_, .move slab nonce hlife (.delegate (constraint_eq_ok.1 hsigner)), ?_⟩
  have hrep := hset none ⟨rfl, rfl⟩
  rw [Function.update_eq_self_iff.2 hvoucher.symm] at hrep
  exact hrep

theorem burn (h : st.Represents L) {delegate : Pubkey}
    (hok : st.burn signers slab owner delegate root dataHash creatorHash nonce index proof =
      .ok (events, st')) :
    ∃ L', L.Step ⟨signers, .burn slab owner delegate root dataHash creatorHash nonce index proof,
      events⟩ L' ∧ st'.Represents L' := by
  obtain ⟨count, -, hok⟩ := Outcome.bind_eq_ok.1 hok
  obtain ⟨⟨⟩, hsigner, hok⟩ := Outcome.bind_eq_ok.1 hok
  obtain ⟨⟨events₁, st₁⟩, hreplace, hok⟩ := Outcome.bind_eq_ok.1 hok
  obtain ⟨rfl, rfl⟩ := Prod.mk.inj (Outcome.ok.inj hok)
  obtain ⟨hlife, ⟨event, rfl⟩, hvoucher, depth, -, hset⟩ := h.replaceLive
    (.newV0 (getAssetId slab nonce) owner delegate nonce dataHash creatorHash)
    .burned hreplace (by rintro s' ⟨⟩)
  refine ⟨_, .move slab nonce hlife (.burn (Outcome.assert_eq_ok.1 hsigner)), ?_⟩
  have hrep := hset none ⟨rfl, rfl⟩
  rw [Function.update_eq_self_iff.2 hvoucher.symm] at hrep
  exact hrep

theorem redeem (h : st.Represents L) {delegate : Pubkey}
    (hok : st.redeem signers slab owner delegate root dataHash creatorHash nonce index proof =
      .ok (events, st')) :
    ∃ L', L.Step ⟨signers, .redeem slab owner delegate root dataHash creatorHash nonce index proof,
      events⟩ L' ∧ st'.Represents L' := by
  obtain ⟨count, -, hok⟩ := Outcome.bind_eq_ok.1 hok
  obtain ⟨⟨⟩, hsigner, hok⟩ := Outcome.bind_eq_ok.1 hok
  obtain ⟨⟨⟩, -, hok⟩ := Outcome.bind_eq_ok.1 hok
  obtain ⟨⟨events₁, st₁⟩, hreplace, hok⟩ := Outcome.bind_eq_ok.1 hok
  obtain ⟨rfl, rfl⟩ := Prod.mk.inj (Outcome.ok.inj hok)
  obtain ⟨hlife, ⟨event, rfl⟩, -, depth, hposition, hset⟩ := h.replaceLive
    (.newV0 (getAssetId slab nonce) owner delegate nonce dataHash creatorHash)
    (.redeemed (.newV0 (getAssetId slab nonce) owner delegate nonce dataHash creatorHash)) hreplace (by rintro s' ⟨⟩; exact ⟨rfl, rfl⟩)
  exact ⟨_, .move slab nonce hlife (.redeem (constraint_eq_ok.1 hsigner)),
    hset _ ⟨rfl, index, rfl, hposition⟩⟩

omit [CollisionFreeLeaf Node Pubkey] in
theorem cancelRedeem (h : st.Represents L) {voucherKey : Pubkey}
    (hok : st.cancelRedeem signers slab voucherKey owner root proof = .ok (events, st')) :
    ∃ L', L.Step ⟨signers, .cancelRedeem slab voucherKey owner root proof, events⟩ L' ∧
      st'.Represents L' := by
  obtain ⟨count, -, hok⟩ := Outcome.bind_eq_ok.1 hok
  obtain ⟨voucher, hvoucher, hok⟩ := Outcome.bind_eq_ok.1 hok
  obtain ⟨⟨⟩, haddress, hok⟩ := Outcome.bind_eq_ok.1 hok
  obtain ⟨⟨⟩, hsigner, hok⟩ := Outcome.bind_eq_ok.1 hok
  obtain ⟨⟨⟩, howner, hok⟩ := Outcome.bind_eq_ok.1 hok
  obtain ⟨⟨events₁, st₁⟩, hreplace, hok⟩ := Outcome.bind_eq_ok.1 hok
  obtain ⟨rfl, rfl⟩ := Prod.mk.inj (Outcome.ok.inj hok)
  obtain rfl := constraint_eq_ok.1 haddress
  obtain rfl := assertPubkeyEqual_eq_ok.1 howner
  obtain ⟨lives, tree, hL, hshows, hl, -, hposition, hmint⟩ :=
    h.redeemed (voucher_eq_ok.1 hvoucher)
  obtain ⟨lives₁, tree₁, tree', hL₁, hshows₁, hinvoke, rfl⟩ := h.invoke hreplace
  obtain rfl := Option.some.inj (hL.symm.trans hL₁)
  obtain rfl := Option.some.inj (hshows.tree_eq.symm.trans hshows₁.tree_eq)
  obtain ⟨-, event, rfl, -, hwrote⟩ := Tree.invoke_replaceLeaf hshows.made hinvoke
  rw [Tree.position, hposition] at hwrote
  have hnamed := hshows.named _ _ _ hl rfl
  refine ⟨_, .move slab voucher.leafSchema.nonce ?_
    (.cancelRedeem (constraint_eq_ok.1 hsigner) hnamed.2),
    h.set hL hshows (List.getElem?_eq_some_iff.1 hl).1
      (hshows.replace (.live voucher.leafSchema) hl hwrote ?_) hwrote.depth_eq
      ⟨rfl, rfl⟩ ?_⟩
  · rw [Ledger.life_of_eq hL, hl]
  · rintro s' ⟨⟩
    exact hnamed
  · have hmints : Function.update st.mints
        (ProgramAddress.asset slab voucher.leafSchema.nonce) none = st.mints :=
      Function.update_eq_self_iff.2 hmint.symm
    rw [hmints]

end Replacements

omit [CollisionFree Node] [NonzeroHash Node] in
theorem decompressV1 [InjectiveAddress Pubkey] (h : st.Represents L) {voucherKey owner : Pubkey}
    {metadata : MetadataArgs Pubkey} {tokenCalls : Bool}
    (hok : st.decompressV1 signers voucherKey owner metadata tokenCalls = .ok (events, st')) :
    ∃ L', L.Step ⟨signers, .decompressV1 voucherKey owner metadata tokenCalls, events⟩ L' ∧
      st'.Represents L' := by
  obtain ⟨voucher, hvoucher, hok⟩ := Outcome.bind_eq_ok.1 hok
  obtain ⟨⟨⟩, haddress, hok⟩ := Outcome.bind_eq_ok.1 hok
  obtain ⟨⟨⟩, hsigner, hok⟩ := Outcome.bind_eq_ok.1 hok
  obtain rfl := constraint_eq_ok.1 haddress
  dsimp only at hok
  cases hversion : metadata.tokenProgramVersion with
  | Token2022 =>
    rw [hversion] at hok
    split_ifs at hok
  | Original =>
    rw [hversion] at hok
    split_ifs at hok with hhash howner hcalls
    obtain ⟨rfl, rfl⟩ := Prod.mk.inj (Outcome.ok.inj hok)
    rw [not_not] at hhash howner
    subst howner hcalls
    obtain ⟨lives, tree, hL, hshows, hl, hslab, -, hmint⟩ := h.redeemed (voucher_eq_ok.1 hvoucher)
    refine ⟨_, .move voucher.merkleSlab voucher.leafSchema.nonce ?_
      (.decompressV1 (constraint_eq_ok.1 hsigner) hhash),
      h.set hL hshows (List.getElem?_eq_some_iff.1 hl).1 (hshows.decompress hl) rfl
        ⟨rfl, rfl⟩ ?_⟩
    · rw [Ledger.life_of_eq hL, hl]
    · have htree : Function.update st.trees voucher.merkleSlab (some tree) = st.trees :=
        Function.update_eq_self_iff.2 hshows.tree_eq.symm
      rw [htree, hmint]
      rfl

/-- Every successful instruction follows a step of the ledger. -/
theorem step [CollisionFreeLeaf Node Pubkey] [InjectiveAddress Pubkey] (h : st.Represents L)
    {x : Executed Node Pubkey} (hx : x.Takes st st') :
    ∃ L', L.Step x L' ∧ st'.Represents L' := by
  obtain ⟨signers, instruction, events⟩ := x
  obtain ⟨hallocated, hok⟩ := hx
  cases instruction with
  | createTree => exact h.createTree hallocated hok
  | mintV1 => exact h.mintV1 hok
  | transfer => exact h.transfer hok
  | delegate => exact h.delegate hok
  | burn => exact h.burn hok
  | redeem => exact h.redeem hok
  | cancelRedeem => exact h.cancelRedeem hok
  | decompressV1 => exact h.decompressV1 hok
  | compress =>
    obtain ⟨⟨⟩, -, hok⟩ := Outcome.bind_eq_ok.1 hok
    obtain ⟨rfl, rfl⟩ := Prod.mk.inj (Outcome.ok.inj hok)
    exact ⟨L, .compress, h⟩

/-- A run of the program is a run of the ledger. -/
theorem steps [CollisionFreeLeaf Node Pubkey] [InjectiveAddress Pubkey] (h : st.Represents L)
    {history : List (Executed Node Pubkey)} (hsteps : Steps Executed.Takes st history st') :
    ∃ L', Steps Ledger.Step L history L' ∧ st'.Represents L' :=
  hsteps.simulate (fun _ _ _ _ hrep hx => hrep.step hx) h

end State.Represents

end Simulation

/-! ### Reading the ledger off the accounts -/

section Reading

variable [NodeHash Node] [LeafHash Node Pubkey] [DecidableEq Node] [DecidableEq Pubkey] [Build]
  {st : State Node Pubkey} {L : Ledger Node Pubkey} {slab : Pubkey}

omit [ProgramAddress Pubkey] [LeafHash Node Pubkey] [DecidableEq Node] [DecidableEq Pubkey]
  [Build] in
/-- The leaf at a position of the tree of a slab. -/
def State.leaf (self : State Node Pubkey) (slab : Pubkey) (i : ℕ) : Option Node :=
  (self.trees slab).map fun tree => tree.leaf i

namespace State.Represents

/-- A tree is an entry of the ledger. -/
theorem tree (h : st.Represents L) {tree : Tree Node Pubkey} (htree : st.trees slab = some tree) :
    ∃ lives, L slab = some lives ∧ (st.view slab).Shows slab tree lives := by
  have hview := h.view slab
  cases hL : L slab with
  | none =>
    rw [hL] at hview
    exact absurd (htree.symm.trans (congrArg View.tree hview)) (by simp)
  | some lives =>
    rw [hL] at hview
    obtain ⟨tree', hshows⟩ := hview
    obtain rfl := Option.some.inj (htree.symm.trans hshows.tree_eq)
    exact ⟨lives, rfl, hshows⟩

theorem leaf_eq (h : st.Represents L) (slab : Pubkey) (i : ℕ) :
    st.leaf slab i = (L slab).map fun lives => (lives[i]?.map Life.leaf).getD EMPTY := by
  have hview := h.view slab
  cases hL : L slab with
  | none =>
    rw [hL] at hview
    have htree : st.trees slab = none := congrArg View.tree hview
    rw [State.leaf, htree]
    rfl
  | some lives =>
    rw [hL] at hview
    obtain ⟨tree, hshows⟩ := hview
    have htree : st.trees slab = some tree := hshows.tree_eq
    rw [State.leaf, htree, Option.map_some, Option.map_some, hshows.leaf_eq]

theorem leaf_of_life (h : st.Represents L) {i : ℕ} {l : Life Node Pubkey}
    (hl : L.life slab i = some l) : st.leaf slab i = some l.leaf := by
  rw [h.leaf_eq]
  obtain ⟨lives, hlives, hget⟩ := Option.bind_eq_some_iff.1 hl
  rw [hlives, Option.map_some, hget]
  rfl

/-- A schema on record has the nonce of its asset. -/
theorem named (h : st.Represents L) {i : ℕ} {l : Life Node Pubkey} {s : LeafSchema Node Pubkey}
    (hl : L.life slab i = some l) (hs : l.schema? = some s) :
    s.nonce.toNat = i ∧ s.id = getAssetId slab s.nonce := by
  obtain ⟨lives, hL, hget⟩ := Option.bind_eq_some_iff.1 hl
  have hview := h.view slab
  rw [hL] at hview
  obtain ⟨tree, hshows⟩ := hview
  exact hshows.named i l s hget hs

/-- The leaf is the hash of a schema exactly when the asset is live with it. -/
theorem leaf_eq_toNode_iff [CollisionFreeLeaf Node Pubkey] (h : st.Represents L) {i : ℕ}
    {s : LeafSchema Node Pubkey} :
    st.leaf slab i = some s.toNode ↔ L.life slab i = some (.live s) := by
  constructor
  · intro hleaf
    obtain ⟨tree, htree, heq⟩ := Option.map_eq_some_iff.1 hleaf
    obtain ⟨lives, hL, hshows⟩ := h.tree htree
    rw [Ledger.life_of_eq hL]
    exact (hshows.live heq).1
  · intro hl
    exact h.leaf_of_life hl

/-- There is a voucher for a nonce exactly when the asset is redeemed. -/
theorem voucher_iff (h : st.Represents L) {n : UInt64} {s : LeafSchema Node Pubkey} :
    (∃ voucher, st.vouchers (ProgramAddress.voucher slab n) = some voucher ∧
      voucher.leafSchema = s) ↔ L.life slab n.toNat = some (.redeemed s) := by
  constructor
  · rintro ⟨voucher, hvoucher, rfl⟩
    obtain ⟨lives, tree, hL, -, hl, -⟩ := h.redeemed hvoucher
    rw [Ledger.life_of_eq hL, hl]
  · intro hl
    obtain ⟨lives, hL, hget⟩ := Option.bind_eq_some_iff.1 hl
    have hview := h.view slab
    rw [hL] at hview
    obtain ⟨tree, hshows⟩ := hview
    have hheld := hshows.held n
    rw [hget] at hheld
    obtain ⟨-, index, hvoucher, -⟩ := hheld
    exact ⟨⟨s, index, slab⟩, hvoucher, rfl⟩

/-- The counter of a tree is the number of its assets. -/
theorem nonce [CollisionFree Node] [NonzeroHash Node] (h : st.Represents L) {count : UInt64}
    (hcount : st.nonces (ProgramAddress.authority slab) = some count) :
    ∃ lives tree, L slab = some lives ∧ (st.view slab).Shows slab tree lives ∧
      count.toNat = lives.length := by
  have hview := h.view slab
  cases hL : L slab with
  | none =>
    rw [hL] at hview
    exact absurd (hcount.symm.trans (congrArg View.nonce hview)) (by simp)
  | some lives =>
    rw [hL] at hview
    obtain ⟨tree, hshows⟩ := hview
    obtain rfl := Option.some.inj (hcount.symm.trans hshows.nonce_eq)
    exact ⟨lives, tree, rfl, hshows, hshows.nonce_toNat le_rfl⟩

/-- Below the counter there is an asset. -/
theorem exists_life [CollisionFree Node] [NonzeroHash Node] (h : st.Represents L)
    {count : UInt64} (hcount : st.nonces (ProgramAddress.authority slab) = some count) {i : ℕ}
    (hi : i < count.toNat) : ∃ l, L.life slab i = some l := by
  obtain ⟨lives, tree, hL, -, hlength⟩ := h.nonce hcount
  rw [Ledger.life_of_eq hL]
  exact ⟨lives[i], List.getElem?_eq_getElem (by omega)⟩

/-- Tokens of an asset are those of its decompression. -/
theorem mint_eq_some (h : st.Represents L) {n : UInt64} {tokens : ℕ}
    (hmint : st.mints (ProgramAddress.asset slab n) = some tokens) :
    tokens = 1 ∧ L.life slab n.toNat = some .decompressed := by
  have hview := h.view slab
  cases hL : L slab with
  | none =>
    rw [hL] at hview
    exact absurd (hmint.symm.trans (congrFun (congrArg View.mints hview) n)) (by simp)
  | some lives =>
    rw [hL] at hview
    obtain ⟨tree, hshows⟩ := hview
    have hheld := hshows.held n
    have hsome : (st.view slab).mints n = some tokens := hmint
    rw [Ledger.life_of_eq hL]
    rw [hsome] at hheld
    cases hl : lives[n.toNat]? with
    | none =>
      rw [hl] at hheld
      exact absurd hheld.1 (by simp)
    | some l =>
      rw [hl] at hheld
      cases l with
      | decompressed => exact ⟨Option.some.inj hheld.1, rfl⟩
      | live s | redeemed s | burned => exact absurd hheld.1 (by simp)

end State.Represents

end Reading

end Candyland.Bubblegum
