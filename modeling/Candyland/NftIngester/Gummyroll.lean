import Candyland.Lib.LastWriter
import Candyland.Gummyroll.State

/-!
# Ingesting change log events

How the ingester stores an event: one row of `cl_items` for every node of its path, which
overwrites an older row of the node, and one row of `backfill_items`.  A statement that
fails undoes the whole transaction, so only the case that all succeed is modelled.
-/

namespace Candyland.NftIngester

open Gummyroll (ChangeLogEvent PathNode)

/-- `x as i64` for a `u64`. -/
def asI64 (x : ℕ) : ℤ := if x < 2 ^ 63 then x else x - 2 ^ 64

/-- A row of `cl_items` without its key, the tree and `node_idx`. -/
structure ClItem (Node : Type) where
  level : ℤ
  hash : Node
  seq : ℤ
  leafIdx : Option ℤ
deriving DecidableEq

/-- A row of `backfill_items`. -/
structure BackfillItem (Pubkey : Type) where
  tree : Pubkey
  seq : ℤ
  slot : ℤ
  forceChk : Option Bool
deriving DecidableEq

/-- The tables.  By its unique index `cl_items` has at most one row for a tree and a
`node_idx`. -/
structure Database (Node Pubkey : Type) where
  clItems : Pubkey × ℤ → Option (ClItem Node)
  backfillItems : List (BackfillItem Pubkey)

variable {Node Pubkey : Type} [DecidableEq Pubkey]

/-- `node_idx_to_leaf_idx(index, tree_height)`. -/
def nodeIdxToLeafIdx (index : ℤ) (treeHeight : ℕ) : ℤ := index - 2 ^ treeHeight

/-- `DO UPDATE SET hash = excluded.hash, seq = excluded.seq`. -/
def ClItem.overwrite (old excluded : ClItem Node) : ClItem Node :=
  { old with hash := excluded.hash, seq := excluded.seq }

@[simp] theorem ClItem.seq_overwrite (old excluded : ClItem Node) :
    (old.overwrite excluded).seq = excluded.seq := rfl

@[simp] theorem ClItem.overwrite_overwrite (old item excluded : ClItem Node) :
    (old.overwrite item).overwrite excluded = old.overwrite excluded := rfl

/-- `INSERT .. ON CONFLICT (tree, node_idx) DO UPDATE ..`, and when it is not `filling` with
`WHERE excluded.seq > cl_items.seq`. -/
def insertClItem (clItems : Pubkey × ℤ → Option (ClItem Node)) (filling : Bool)
    (key : Pubkey × ℤ) (item : ClItem Node) : Pubkey × ℤ → Option (ClItem Node) :=
  Function.update clItems key <|
    match clItems key with
    | none => some item
    | some old => if filling || decide (item.seq > old.seq) then some (old.overwrite item) else some old

/-- The body of the loop of `gummyroll_change_log_event_to_database`, for the counter `i`. -/
def insertPathNode (changeLogEvent : ChangeLogEvent Node Pubkey) (depth : ℤ) (filling : Bool)
    (st : ℤ × (Pubkey × ℤ → Option (ClItem Node))) (p : PathNode Node) :
    ℤ × (Pubkey × ℤ → Option (ClItem Node)) :=
  let (i, clItems) := st
  let nodeIdx : ℤ := p.index.toNat
  let leafIdx := if i = 0 then some (nodeIdxToLeafIdx nodeIdx depth.toNat) else none
  (i + 1, insertClItem clItems filling (changeLogEvent.id, nodeIdx)
    ⟨i, p.node, asI64 changeLogEvent.seq, leafIdx⟩)

/-- `gummyroll_change_log_event_to_database(change_log_event, slot, txn, filling)`.  On an
empty path `depth` is `-1`, as it is after the cast in the source. -/
def gummyrollChangeLogEventToDatabase (changeLogEvent : ChangeLogEvent Node Pubkey) (slot : ℕ)
    (txn : Database Node Pubkey) (filling : Bool) : Database Node Pubkey :=
  let depth : ℤ := changeLogEvent.path.length - 1
  let treeId := changeLogEvent.id
  let (i, clItems) :=
    changeLogEvent.path.foldl (insertPathNode changeLogEvent depth filling) (0, txn.clItems)
  if i - 1 = depth then
    let found := txn.backfillItems.any fun item => item.tree = treeId
    let forceChk := !found && decide (changeLogEvent.seq > 1)
    ⟨clItems, txn.backfillItems ++ [⟨treeId, asI64 changeLogEvent.seq, asI64 slot, some forceChk⟩]⟩
  else { txn with clItems := clItems }

/-- `gummyroll_change_log_event_to_database` for one event after the other, as
`save_changelog_events` calls it. -/
def saveChangelogEvents (txn : Database Node Pubkey)
    (deliveries : List (ChangeLogEvent Node Pubkey × ℕ)) : Database Node Pubkey :=
  deliveries.foldl (fun txn d => gummyrollChangeLogEventToDatabase d.1 d.2 txn false) txn

/-! ### The rows of an event -/

/-- The row for entry `i` of the path. -/
def clRow (event : ChangeLogEvent Node Pubkey) (i : ℕ) (p : PathNode Node) :
    (Pubkey × ℤ) × ClItem Node :=
  ((event.id, p.index.toNat), ⟨i, p.node, asI64 event.seq,
    if i = 0 then some (nodeIdxToLeafIdx p.index.toNat (event.path.length - 1)) else none⟩)

/-- The rows that an event delivers. -/
def clRows (event : ChangeLogEvent Node Pubkey) : List ((Pubkey × ℤ) × ClItem Node) :=
  event.path.zipIdx.map fun pi => clRow event pi.2 pi.1

omit [DecidableEq Pubkey] in
theorem mem_clRows {event : ChangeLogEvent Node Pubkey} {d : (Pubkey × ℤ) × ClItem Node} :
    d ∈ clRows event ↔ ∃ i p, event.path[i]? = some p ∧ d = clRow event i p := by
  rw [clRows, List.mem_map]
  constructor
  · rintro ⟨⟨p, i⟩, hp, rfl⟩
    exact ⟨i, p, List.mem_zipIdx_iff_getElem?.1 hp, rfl⟩
  · rintro ⟨i, p, hp, rfl⟩
    exact ⟨(p, i), List.mem_zipIdx_iff_getElem?.2 hp, rfl⟩

/-- Without `filling` an insertion is one of the last writer. -/
theorem insertClItem_eq (clItems : Pubkey × ℤ → Option (ClItem Node)) (key : Pubkey × ℤ)
    (item : ClItem Node) : insertClItem clItems false key item =
      LastWriter.upsert ClItem.seq ClItem.overwrite clItems key item := by
  rw [insertClItem, LastWriter.upsert]
  congr 1
  cases clItems key with
  | none => rfl
  | some old => simp only [Bool.false_or, decide_eq_true_eq, gt_iff_lt]

/-- The loop from the counter `k` on. -/
theorem foldl_insertPathNode (event : ChangeLogEvent Node Pubkey) (depth : ℤ)
    (hdepth : depth.toNat = event.path.length - 1) (path : List (PathNode Node)) (k : ℕ)
    (clItems : Pubkey × ℤ → Option (ClItem Node)) :
    (path.foldl (insertPathNode event depth false) (k, clItems)).2 =
      LastWriter.deliver ClItem.seq ClItem.overwrite clItems
        ((path.zipIdx k).map fun pi => clRow event pi.2 pi.1) := by
  induction path generalizing k clItems with
  | nil => rfl
  | cons p path ih =>
    have hstep : insertPathNode event depth false (k, clItems) p = (((k + 1 : ℕ) : ℤ),
        LastWriter.upsert ClItem.seq ClItem.overwrite clItems (clRow event k p).1
          (clRow event k p).2) := by
      rw [insertPathNode, ← insertClItem_eq, clRow, hdepth]
      simp only [Nat.cast_add, Nat.cast_one, Nat.cast_eq_zero]
    rw [List.foldl_cons, hstep, ih, List.zipIdx_cons, List.map_cons, LastWriter.deliver,
      LastWriter.deliver, List.foldl_cons]

/-- The rows of an event are delivered one after the other. -/
theorem clItems_event (event : ChangeLogEvent Node Pubkey) (slot : ℕ)
    (txn : Database Node Pubkey) :
    (gummyrollChangeLogEventToDatabase event slot txn false).clItems =
      LastWriter.deliver ClItem.seq ClItem.overwrite txn.clItems (clRows event) := by
  have hloop := foldl_insertPathNode event (event.path.length - 1) (by omega) event.path 0
    txn.clItems
  rw [gummyrollChangeLogEventToDatabase]
  dsimp only
  split_ifs
  · exact hloop
  · exact hloop

theorem clItems_saveChangelogEvents (txn : Database Node Pubkey)
    (deliveries : List (ChangeLogEvent Node Pubkey × ℕ)) :
    (saveChangelogEvents txn deliveries).clItems =
      LastWriter.deliver ClItem.seq ClItem.overwrite txn.clItems
        (deliveries.flatMap fun d => clRows d.1) := by
  induction deliveries generalizing txn with
  | nil => rfl
  | cons d deliveries ih =>
    rw [saveChangelogEvents, List.foldl_cons, ← saveChangelogEvents, ih, clItems_event,
      List.flatMap_cons, LastWriter.deliver, LastWriter.deliver, LastWriter.deliver,
      List.foldl_append]

end Candyland.NftIngester
