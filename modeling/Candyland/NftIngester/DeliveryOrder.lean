import Candyland.Lib.LastSet
import Candyland.NftIngester.AssetRows
import Candyland.NftIngester.Replica

/-!
# The order of deliveries

What the tables hold for an asset when its transactions reach the ingester in another order.
The rows of nodes are guarded by the number of the update and come out the same.  Nothing
guards the row of the asset: a column ends with the value that was delivered last.
-/

namespace Candyland.NftIngester

open ConcurrentMerkleTree (NodeHash EMPTY CollisionFree NonzeroHash Term)
open Gummyroll (Build ChangeLogEvent)
open Bubblegum
open DigitalAssetTypes (Asset)
open LastSet (lastSet)

variable {Node Pubkey : Type} [NodeHash Node] [LeafHash Node Pubkey] [DecidableEq Pubkey]
  [ProgramAddress Pubkey] {slab : Pubkey} {n : UInt64}

/-! ### Deliveries of one asset -/

omit [NodeHash Node] [LeafHash Node Pubkey] [DecidableEq Pubkey] [ProgramAddress Pubkey] in
/-- The events of gummyroll in deliveries, with their slots. -/
def logged (deliveries : List (Executed Node Pubkey × ℕ)) : List (ChangeLogEvent Node Pubkey × ℕ) :=
  deliveries.flatMap fun d => (changeLogs d.1.events).map fun event => (event, d.2)

section Moves

variable {moves : List (Executed Node Pubkey × ℕ)}
  (h : ∀ d ∈ moves, ∃ l l', Life.Move slab n d.1 l l') {db : Storage Node Pubkey}

include h

/-- Moves of an asset that has a row. -/
theorem ingest_moves {row : Asset Node Pubkey}
    (hrow : db.assets (getAssetId slab n) = some row) :
    ingest db moves = ⟨saveChangelogEvents db.changes (logged moves),
      Function.update db.assets (getAssetId slab n)
        (some (moves.foldl (fun row d => (columns d.1).apply row) row))⟩ := by
  induction moves generalizing db row with
  | nil =>
    rw [List.foldl_nil, ← hrow, Function.update_eq_self]
    rfl
  | cons d moves ih =>
    obtain ⟨⟨l, l', hmove⟩, hmoves⟩ := List.forall_mem_cons.1 h
    obtain ⟨x, slot⟩ := d
    rw [ingest, List.foldl_cons, handle_move hmove slot hrow, ← ingest,
      ih hmoves (Function.update_self ..)]
    simp only [Function.update_idem, logged, List.flatMap_cons, List.foldl_cons,
      saveChangelogEvents, List.foldl_append]

/-- Moves of an asset that has none. -/
theorem ingest_moves_of_none (hrow : db.assets (getAssetId slab n) = none) :
    ingest db moves = db := by
  induction moves with
  | nil => rfl
  | cons d moves ih =>
    obtain ⟨⟨l, l', hmove⟩, hmoves⟩ := List.forall_mem_cons.1 h
    obtain ⟨x, slot⟩ := d
    rw [ingest, List.foldl_cons, handle_move_of_none hmove slot hrow]
    exact ih hmoves

end Moves

/-! ### The transactions of an asset -/

omit [NodeHash Node] [LeafHash Node Pubkey] in
instance : DecidablePred (About slab n : Executed Node Pubkey → Prop) := fun x =>
  inferInstanceAs (Decidable (minted? x = some (slab, n) ∨ x.instruction.Concerns slab n))

omit [NodeHash Node] [LeafHash Node Pubkey] in
/-- The transactions of an asset in the order of the chain. -/
def transactions (slab : Pubkey) (n : UInt64) (history : List (Executed Node Pubkey)) :
    List (Executed Node Pubkey) :=
  history.reverse.filter fun x => About slab n x

omit [NodeHash Node] [DecidableEq Pubkey] in
theorem Minting.mints {x : Executed Node Pubkey} {s : LeafSchema Node Pubkey}
    (h : Minting slab n x s) : Mints slab n x := by
  cases h
  rfl

omit [DecidableEq Pubkey] in
/-- A mint updates no columns. -/
theorem Minting.columns_eq {x : Executed Node Pubkey} {s : LeafSchema Node Pubkey}
    (h : Minting slab n x s) : columns x = {} := by
  cases h
  rfl

section Runs

variable [DecidableEq Node] [Build] [CollisionFree Node] [NonzeroHash Node]
  [CollisionFreeLeaf Node Pubkey] [InjectiveAddress Pubkey] {st : State Node Pubkey}
  {history : List (Executed Node Pubkey)}

/-- The first transaction of an asset is its mint, and the others are moves. -/
theorem transactions_eq (h : Reachable history st) (slab : Pubkey) (n : UInt64) :
    ∃ L, st.Represents L ∧
      (L.life slab n.toNat = none → transactions slab n history = []) ∧
      ∀ l, L.life slab n.toNat = some l → ∃ mint s moves,
        transactions slab n history = mint :: moves ∧ Minting slab n mint s ∧
        ∀ x ∈ moves, ∃ l l', Life.Move slab n x l l' := by
  induction h with
  | refl => exact ⟨_, represents_empty, fun _ => rfl, fun l hl => absurd hl (by simp [Ledger.life])⟩
  | @step history st st' x h hx ih =>
    obtain ⟨L, hrep, hnone, hsome⟩ := ih
    obtain ⟨L', hstep, hrep'⟩ := hrep.step hx
    have hfilter : transactions slab n (x :: history) = transactions slab n history ++
        [x].filter fun x => About slab n x := by
      rw [transactions, List.reverse_cons, List.filter_append, transactions]
    refine ⟨L', hrep', ?_⟩
    rcases step_cases hstep slab n with ⟨hlife, habout, -⟩ | ⟨s, hbefore, hl', hmint⟩ |
      ⟨l, l', hl, hl', hmove⟩
    · rw [hfilter, hlife]
      simpa [habout] using And.intro hnone hsome
    · rw [hfilter, hnone hbefore, hl']
      refine ⟨fun hno => absurd hno (by simp), fun _ _ => ⟨x, s, [], ?_, hmint, ?_⟩⟩
      · have habout : About slab n x := .inl hmint.mints
        simp [habout]
      · exact List.forall_mem_nil _
    · obtain ⟨mint, s, moves, htransactions, hmint, hmoves⟩ := hsome l hl
      rw [hfilter, htransactions, hl']
      refine ⟨fun hno => absurd hno (by simp), fun _ _ => ⟨mint, s, moves ++ [x], ?_, hmint, ?_⟩⟩
      · have habout : About slab n x := .inr hmove.concerns
        simp [habout]
      · intro y hy
        rcases List.mem_append.1 hy with hy | hy
        · exact hmoves y hy
        · obtain rfl := List.mem_singleton.1 hy
          exact ⟨l, l', hmove⟩

end Runs

/-! ### Rows -/

section Rows

omit [NodeHash Node] [LeafHash Node Pubkey] [DecidableEq Pubkey] [ProgramAddress Pubkey] in
/-- The columns of the life of an asset. -/
def shown (row : Asset Node Pubkey) : Pubkey × Option Pubkey × Option Node × Bool × Bool :=
  (row.owner, row.delegate, row.leaf, row.compressed, row.burnt)

omit [DecidableEq Pubkey] [ProgramAddress Pubkey] in
/-- The owner, the delegate and the leaf that are set last are the same. -/
structure EndsLike (order chain : List (Executed Node Pubkey × ℕ)) : Prop where
  owner : lastSet (fun d => (columns d.1).owner) order =
    lastSet (fun d => (columns d.1).owner) chain
  delegate : lastSet (fun d => (columns d.1).delegate) order =
    lastSet (fun d => (columns d.1).delegate) chain
  leaf : lastSet (fun d => (columns d.1).leaf) order =
    lastSet (fun d => (columns d.1).leaf) chain

variable {order chain : List (Executed Node Pubkey × ℕ)}

omit [DecidableEq Pubkey] [ProgramAddress Pubkey] in
/-- A first delivery that sets no columns does not matter. -/
theorem endsLike_cons_iff {d : Executed Node Pubkey × ℕ} (hd : columns d.1 = {}) :
    EndsLike (d :: order) (d :: chain) ↔ EndsLike order chain := by
  have hset : ∀ {α : Type} (column : ActiveModel Node Pubkey → Option α)
      (ds : List (Executed Node Pubkey × ℕ)), column {} = none →
      lastSet (fun d => column (columns d.1)) (d :: ds) =
        lastSet (fun d => column (columns d.1)) ds := by
    intro α column ds hnone
    rw [LastSet.lastSet_cons, hd, hnone, Option.or_none]
  constructor
  · rintro ⟨howner, hdelegate, hleaf⟩
    rw [hset _ _ rfl, hset _ _ rfl] at howner hdelegate hleaf
    exact ⟨howner, hdelegate, hleaf⟩
  · rintro ⟨howner, hdelegate, hleaf⟩
    constructor
    · rw [hset _ _ rfl, hset _ _ rfl, howner]
    · rw [hset _ _ rfl, hset _ _ rfl, hdelegate]
    · rw [hset _ _ rfl, hset _ _ rfl, hleaf]

omit [DecidableEq Pubkey] in
/-- Only a decompression sets the column `compressed`, and only a burn the column `burnt`. -/
theorem columns_of_move {x : Executed Node Pubkey} {l l' : Life Node Pubkey}
    (h : Life.Move slab n x l l') :
    (∀ b, (columns x).compressed = some b → b = false) ∧
      ∀ b, (columns x).burnt = some b → b = true := by
  cases h with
  | transfer | delegate | redeem | cancelRedeem | decompressV1 | burn =>
    refine ⟨fun b hb => ?_, fun b hb => ?_⟩ <;>
      simpa [columns, transferModel, burnModel, delegateModel, redeemModel, cancelRedeemModel,
        decompressModel] using hb.symm

omit [DecidableEq Pubkey] in
/-- Moves in another order make the same row exactly if they end like the others. -/
theorem shown_foldl_iff (hperm : order.Perm chain)
    (hmoves : ∀ d ∈ order, ∃ l l', Life.Move slab n d.1 l l') (row : Asset Node Pubkey) :
    shown (order.foldl (fun row d => (columns d.1).apply row) row) =
      shown (chain.foldl (fun row d => (columns d.1).apply row) row) ↔ EndsLike order chain := by
  have hcompressed : lastSet (fun d => (columns d.1).compressed) order =
      lastSet (fun d => (columns d.1).compressed) chain := by
    refine LastSet.lastSet_eq_of_const hperm (a := false) fun d hd b hb => ?_
    obtain ⟨l, l', hmove⟩ := hmoves d hd
    exact (columns_of_move hmove).1 b hb
  have hburnt : lastSet (fun d => (columns d.1).burnt) order =
      lastSet (fun d => (columns d.1).burnt) chain := by
    refine LastSet.lastSet_eq_of_const hperm (a := true) fun d hd b hb => ?_
    obtain ⟨l, l', hmove⟩ := hmoves d hd
    exact (columns_of_move hmove).2 b hb
  have hcolumn : ∀ {α : Type} (get : Asset Node Pubkey → α)
      (set : ActiveModel Node Pubkey → Option α),
      (∀ m row, get (m.apply row) = (set m).getD (get row)) →
      (get (order.foldl (fun row d => (columns d.1).apply row) row) =
        get (chain.foldl (fun row d => (columns d.1).apply row) row) ↔
      lastSet (fun d => set (columns d.1)) order = lastSet (fun d => set (columns d.1)) chain) := by
    intro α get set h
    have hget : ∀ (d : Executed Node Pubkey × ℕ) row,
        get ((columns d.1).apply row) = (set (columns d.1)).getD (get row) := fun d => h _
    rw [LastSet.get_foldl hget, LastSet.get_foldl hget, LastSet.getD_lastSet_eq_iff hperm]
  simp only [shown, Prod.mk.injEq]
  rw [hcolumn Asset.owner ActiveModel.owner fun _ _ => rfl,
    hcolumn Asset.delegate ActiveModel.delegate fun _ _ => rfl,
    hcolumn Asset.leaf ActiveModel.leaf fun _ _ => rfl,
    hcolumn Asset.compressed ActiveModel.compressed fun _ _ => rfl,
    hcolumn Asset.burnt ActiveModel.burnt fun _ _ => rfl]
  constructor
  · rintro ⟨howner, hdelegate, hleaf, -, -⟩
    exact ⟨howner, hdelegate, hleaf⟩
  · rintro ⟨howner, hdelegate, hleaf⟩
    exact ⟨howner, hdelegate, hleaf, hcompressed, hburnt⟩

end Rows

/-! ### Nodes -/

section Nodes

omit [NodeHash Node] [DecidableEq Pubkey] in
/-- A move that is about the tree names it. -/
theorem tree?_of_move {x : Executed Node Pubkey} {l l' : Life Node Pubkey}
    (h : Life.Move slab n x l l') {event : ChangeLogEvent Node Pubkey}
    (hevent : event ∈ changeLogs x.events) : x.instruction.tree? = some slab := by
  cases h with
  | transfer | delegate | burn | redeem | cancelRedeem => rfl
  | decompressV1 => exact absurd hevent List.not_mem_nil

variable [DecidableEq Node] [Build] [CollisionFree Node] [NonzeroHash Node]
  [CollisionFreeLeaf Node Pubkey] [InjectiveAddress Pubkey] {st : State Node Pubkey}
  {history : List (Executed Node Pubkey)} {tree : Tree Node Pubkey}

omit [ProgramAddress Pubkey] [DecidableEq Node] [Build] [CollisionFree Node] [NonzeroHash Node]
  [CollisionFreeLeaf Node Pubkey] [InjectiveAddress Pubkey] [LeafHash Node Pubkey]
  [NodeHash Node] [DecidableEq Pubkey] in
theorem mem_logged {deliveries : List (Executed Node Pubkey × ℕ)}
    {d : ChangeLogEvent Node Pubkey × ℕ} (h : d ∈ logged deliveries) :
    ∃ e ∈ deliveries, d.1 ∈ changeLogs e.1.events := by
  obtain ⟨e, he, hd⟩ := List.mem_flatMap.1 h
  obtain ⟨event, hevent, rfl⟩ := List.mem_map.1 hd
  exact ⟨e, he, hevent⟩

/-- Rows for a node from events of one tree are told apart by their updates. -/
theorem coherent_of_tree (h : Reachable history st) (htree : st.trees slab = some tree)
    (hseq : tree.slab.account.roll.sequenceNumber < 2 ^ 63)
    {deliveries : List (ChangeLogEvent Node Pubkey × ℕ)}
    (hdeliveries : ∀ d ∈ deliveries, d.1 ∈ tree.slab.events) (key : Pubkey × ℤ) :
    LastWriter.Coherent ClItem.seq ClItem.overwrite (deliveries.flatMap fun d => clRows d.1)
      key := by
  obtain ⟨c, hrun⟩ := h.tree_run htree hseq
  obtain ⟨hevents, -, hlen⟩ := hrun.events_eq
  have hinv := hrun.inv
  have hall : LastWriter.Coherent ClItem.seq ClItem.overwrite
      ((tree.slab.events.map fun event => (event, 0)).flatMap fun d => clRows d.1)
      (tree.slab.account.key, key.2) :=
    coherent_deliveries hinv.depth_lt tree.slab.account.key hinv.roll.bound hlen
      (by simp [hevents]) key.2
  have hid : ∀ event ∈ tree.slab.events, event.id = tree.slab.account.key := by
    intro event hevent
    rw [hevents] at hevent
    obtain ⟨ws, -, rfl⟩ := Gummyroll.mem_history.1 hevent
    rfl
  have hkey : ∀ row, (key, row) ∈ (deliveries.flatMap fun d => clRows d.1) →
      key = (tree.slab.account.key, key.2) ∧ (key, row) ∈
        (tree.slab.events.map fun event => (event, 0)).flatMap fun d => clRows d.1 := by
    intro row hrow
    obtain ⟨d, hd, hrow⟩ := List.mem_flatMap.1 hrow
    have hevent := hdeliveries d hd
    refine ⟨?_, List.mem_flatMap.2 ⟨(d.1, 0), List.mem_map.2 ⟨d.1, hevent, rfl⟩, hrow⟩⟩
    obtain ⟨i, p, -, heq⟩ := mem_clRows.1 hrow
    rw [← hid d.1 hevent]
    exact Prod.ext (congrArg (·.1.1) heq) rfl
  by_cases hslab : key.1 = tree.slab.account.key
  · rw [← hslab] at hall
    exact hall.mono fun row hrow => (hkey row hrow).2
  · -- the events have no rows for other trees
    have hno : ∀ row, (key, row) ∉ deliveries.flatMap fun d => clRows d.1 := fun row hrow =>
      hslab (congrArg Prod.fst (hkey row hrow).1)
    exact ⟨fun old _ hold => absurd hold (hno old), fun row _ hrow => absurd hrow (hno row)⟩

end Nodes

/-! ### Orders -/

section Orders

variable {order chain : List (Executed Node Pubkey × ℕ)}

omit [NodeHash Node] [DecidableEq Pubkey] in
/-- An order with the mint first is one of the moves. -/
theorem order_eq {mint : Executed Node Pubkey} {moves : List (Executed Node Pubkey)}
    {s : LeafSchema Node Pubkey} (hchain : chain.map Prod.fst = mint :: moves)
    (hmint : Minting slab n mint s) (hmoves : ∀ x ∈ moves, ∃ l l', Life.Move slab n x l l')
    (hperm : order.Perm chain) (hfirst : ∀ d ∈ order.head?, Mints slab n d.1) :
    ∃ slot os cs, order = (mint, slot) :: os ∧ chain = (mint, slot) :: cs ∧ os.Perm cs ∧
      cs.map Prod.fst = moves ∧ ∀ d ∈ cs, ∃ l l', Life.Move slab n d.1 l l' := by
  obtain ⟨⟨_, slot⟩, cs, rfl, rfl, rfl⟩ := List.map_eq_cons_iff.1 hchain
  have hcs : ∀ d ∈ cs, ∃ l l', Life.Move slab n d.1 l l' := fun d hd =>
    hmoves d.1 (List.mem_map_of_mem hd)
  cases order with
  | nil => exact absurd hperm.length_eq (by simp)
  | cons d os =>
    -- no other transaction is a mint of the asset
    rcases List.mem_cons.1 (hperm.mem_iff.1 List.mem_cons_self) with rfl | hd
    · exact ⟨slot, os, cs, rfl, rfl, hperm.cons_inv, rfl, hcs⟩
    · obtain ⟨l, l', hmove⟩ := hcs d hd
      exact absurd (hfirst d rfl) (not_mints_of_move hmove slab n)

variable [DecidableEq Node] [Build] [CollisionFree Node] [NonzeroHash Node]
  [CollisionFreeLeaf Node Pubkey] [InjectiveAddress Pubkey] {st : State Node Pubkey}
  {history : List (Executed Node Pubkey)}

/-- When the transactions of an asset are delivered with the mint first, its row is the one of
the order of the chain exactly if the mint is refused or the deliveries end with the same owner,
delegate and leaf.  The rows of nodes are the same in every order. -/
theorem row_of_order_iff (h : Reachable history st) {db : Storage Node Pubkey}
    (hdb : db.assets (getAssetId slab n) = none)
    (hchain : chain.map Prod.fst = transactions slab n history) (hperm : order.Perm chain)
    (hfirst : ∀ d ∈ order.head?, Mints slab n d.1) :
    (((ingest db order).assets (getAssetId slab n)).map shown =
        ((ingest db chain).assets (getAssetId slab n)).map shown ↔
      (∃ d ∈ chain, Mints slab n d.1 ∧ ¬ Kept slab n d.1) ∨ EndsLike order chain) ∧
    ((∀ tree, st.trees slab = some tree → tree.slab.account.roll.sequenceNumber < 2 ^ 63) →
      (ingest db order).changes.clItems = (ingest db chain).changes.clItems) := by
  obtain ⟨L, hrep, hnone, hsome⟩ := transactions_eq h slab n
  cases hl : L.life slab n.toNat with
  | none =>
    rw [hnone hl, List.map_eq_nil_iff] at hchain
    subst hchain
    obtain rfl := hperm.eq_nil
    exact ⟨iff_of_true rfl (.inr ⟨rfl, rfl, rfl⟩), fun _ => rfl⟩
  | some l =>
    obtain ⟨mint, s, moves, htransactions, hmint, hmoves⟩ := hsome l hl
    obtain ⟨slot, os, cs, rfl, rfl, hperm', hfst, hcs⟩ :=
      order_eq (hchain.trans htransactions) hmint hmoves hperm hfirst
    have hos : ∀ d ∈ os, ∃ l l', Life.Move slab n d.1 l l' := fun d hd =>
      hcs d (hperm'.mem_iff.1 hd)
    have hrefused : (∃ d ∈ (mint, slot) :: cs, Mints slab n d.1 ∧ ¬ Kept slab n d.1) ↔
        ¬ Kept slab n mint := by
      constructor
      · rintro ⟨d, hd, hmints, hkept⟩
        rcases List.mem_cons.1 hd with rfl | hd
        · exact hkept
        · obtain ⟨l, l', hmove⟩ := hcs d hd
          exact absurd hmints (not_mints_of_move hmove slab n)
      · intro hkept
        exact ⟨_, List.mem_cons_self, hmint.mints, hkept⟩
    rw [hrefused, endsLike_cons_iff hmint.columns_eq]
    simp only [ingest, List.foldl_cons]
    rcases hmint.handle_cases hdb slot with ⟨hkept, heq⟩ | ⟨hkept, row, -, heq⟩
    · rw [heq, ← ingest, ← ingest, ingest_moves_of_none hos hdb, ingest_moves_of_none hcs hdb]
      exact ⟨iff_of_true rfl (.inl hkept), fun _ => rfl⟩
    · rw [heq, ← ingest, ← ingest, ingest_moves hos (Function.update_self ..),
        ingest_moves hcs (Function.update_self ..)]
      dsimp only
      constructor
      · rw [Function.update_self, Function.update_self, Option.map_some, Option.map_some,
          Option.some_inj, shown_foldl_iff hperm' hos row]
        simp [hkept]
      · intro hseq
        obtain ⟨lives, hL, -⟩ := Option.bind_eq_some_iff.1 hl
        have hview := hrep.view slab
        rw [hL] at hview
        obtain ⟨tree, hshows⟩ := hview
        have htree : st.trees slab = some tree := hshows.tree_eq
        have hevents := h.tree_events slab
        rw [htree, Option.map_some, Option.getD_some] at hevents
        rw [clItems_saveChangelogEvents _ (logged os), clItems_saveChangelogEvents _ (logged cs)]
        refine LastWriter.deliver_perm ClItem.seq_overwrite ClItem.overwrite_overwrite
          ((hperm'.flatMap_right _).flatMap_right _)
          (coherent_of_tree h htree (hseq tree htree) fun d hd => ?_)
        obtain ⟨e, he, hevent⟩ := mem_logged hd
        obtain ⟨l, l', hmove⟩ := hos e he
        have hmem : e.1 ∈ transactions slab n history := by
          rw [htransactions, ← hfst]
          exact List.mem_cons_of_mem _ (List.mem_map_of_mem (hperm'.mem_iff.1 he))
        rw [hevents]
        refine List.mem_flatMap.2 ⟨e.1, List.mem_filter.2 ⟨?_, ?_⟩, hevent⟩
        · exact List.mem_reverse.1 (List.mem_filter.1 hmem).1
        · exact decide_eq_true (tree?_of_move hmove hevent)

end Orders

/-- A redemption and its end are swapped, which the transfer at the end makes good. -/
theorem row_of_swapped_redemption :
    let redeem := Trace.redeem Trace.minted Trace.alice
    let st₁ := (Trace.minted.after [Trace.alice] redeem).2
    let cancelRedeem := Trace.cancelRedeem st₁ Trace.alice
    let st₂ := (st₁.after [Trace.alice] cancelRedeem).2
    let transfer := Trace.transfer st₂ Trace.alice Trace.bob
    let mint := (Trace.created.executed [Trace.creator] Trace.mintV1, 1)
    let first := (Trace.minted.executed [Trace.alice] redeem, 2)
    let second := (st₁.executed [Trace.alice] cancelRedeem, 3)
    let third := (st₂.executed [Trace.alice] transfer, 4)
    ((ingest noAssets [mint, second, first, third]).assets (getAssetId Trace.slab 0)).map shown =
      ((ingest noAssets [mint, first, second, third]).assets (getAssetId Trace.slab 0)).map
        shown := by
  intro redeem st₁ cancelRedeem st₂ transfer mint first second third
  have hreach : Reachable (third.1 :: second.1 :: first.1 :: Trace.mintHistory)
      (st₂.after [Trace.alice] transfer).2 :=
    .step (.step (.step Trace.reachable_minted
      (State.takes_after trivial (by decide +kernel)))
      (State.takes_after trivial (by decide +kernel)))
      (State.takes_after trivial (by decide +kernel))
  have hmints : Mints Trace.slab 0 mint.1 := by
    unfold Mints
    decide +kernel
  have hmint : About Trace.slab 0 mint.1 := .inl hmints
  have hfirst : About Trace.slab 0 first.1 := .inr ⟨rfl, rfl⟩
  have hsecond : About Trace.slab 0 second.1 := .inr rfl
  have hthird : About Trace.slab 0 third.1 := .inr ⟨rfl, rfl⟩
  refine (row_of_order_iff hreach rfl ?_ ?_ ?_).1.2 (.inr ⟨?_, ?_, ?_⟩)
  · have hcreate : ¬ About Trace.slab 0 (State.empty.executed [Trace.creator] Trace.createTree) := by
      simp [About, Mints, minted?, State.executed, Trace.createTree, Instruction.Concerns]
    have hreverse : (third.1 :: second.1 :: first.1 :: Trace.mintHistory).reverse =
        [State.empty.executed [Trace.creator] Trace.createTree, mint.1, first.1, second.1,
          third.1] := rfl
    rw [transactions, hreverse, List.filter_cons_of_neg (by simpa using hcreate)]
    have hall : ∀ x ∈ [mint.1, first.1, second.1, third.1], About Trace.slab 0 x := by
      simp only [List.forall_mem_cons]
      exact ⟨hmint, hfirst, hsecond, hthird, List.forall_mem_nil _⟩
    exact (List.filter_eq_self.2 fun x hx => decide_eq_true (hall x hx)).symm
  · exact .cons _ (.swap _ _ _)
  · intro d hd
    obtain rfl := Option.some.inj hd
    exact hmints
  · decide +kernel
  · decide +kernel
  · decide +kernel

/-- Two transfers are swapped, and the row names the owner in between. -/
theorem row_of_swapped_transfers :
    let toBob := Trace.transfer Trace.minted Trace.alice Trace.bob
    let st₁ := (Trace.minted.after [Trace.alice] toBob).2
    let toCreator := Trace.transfer st₁ Trace.bob Trace.creator
    let st₂ := (st₁.after [Trace.bob] toCreator).2
    let mint := (Trace.created.executed [Trace.creator] Trace.mintV1, 1)
    let first := (Trace.minted.executed [Trace.alice] toBob, 2)
    let second := (st₁.executed [Trace.bob] toCreator, 3)
    let row := ((ingest noAssets [mint, second, first]).assets (getAssetId Trace.slab 0)).map shown
    Reachable (second.1 :: first.1 :: Trace.mintHistory) st₂ ∧ Mints Trace.slab 0 mint.1 ∧
      row.map Prod.fst = some Trace.bob ∧
      row ≠ ((ingest noAssets [mint, first, second]).assets (getAssetId Trace.slab 0)).map
        shown := by
  intro toBob st₁ toCreator st₂ mint first second row
  refine ⟨.step (.step Trace.reachable_minted (State.takes_after trivial (by decide +kernel)))
    (State.takes_after trivial (by decide +kernel)), ?_, ?_, ?_⟩
  · unfold Mints
    decide +kernel
  · decide +kernel
  · decide +kernel

end Candyland.NftIngester
