import Candyland.Lib.Steps
import Candyland.NftIngester.Gummyroll

/-!
# The backfiller

The loop of `backfiller` over the table `backfill_items`, next to the transactions in which
the ingester inserts into it.  A statement sees what is committed when it starts and
takes effect at once; an insertion takes effect when its transaction is committed, which also
notifies the listener.  Every statement may fail, and the process may be started again at any
time.  Gaps are not filled yet, so `backfill_tree_from_seq_1` and `fetch_and_plug_gaps` only do
what they do now.
-/

namespace Candyland.NftIngester.Backfill

/-- A row of `backfill_items` with its key. -/
structure Row (Pubkey : Type) extends BackfillItem Pubkey where
  id : ℕ
deriving DecidableEq

variable {Pubkey : Type} [DecidableEq Pubkey]

/-! ### The statements -/

/-- The item that `gummyroll_change_log_event_to_database` inserts when it finds `items` in the
table. -/
def backfillItem (items : List (BackfillItem Pubkey)) (treeId : Pubkey) (seq slot : ℕ) :
    BackfillItem Pubkey :=
  let found := items.any fun item => item.tree = treeId
  let forceChk := !found && decide (seq > 1)
  ⟨treeId, asI64 seq, asI64 slot, some forceChk⟩

/-- The first statement of `get_trees_to_backfill`. -/
def forceChkTrees (table : List (Row Pubkey)) : List Pubkey :=
  ((table.filter fun row => row.forceChk = some true).map fun row => row.tree).dedup

/-- The second statement of `get_trees_to_backfill`. -/
def multiRowTrees (table : List (Row Pubkey)) : List Pubkey :=
  (table.map fun row => row.tree).dedup.filter fun tree =>
    1 < table.countP fun row => row.tree = tree

/-- The subquery of `get_items_with_max_seq`. -/
def maxSeq (table : List (Row Pubkey)) (tree : Pubkey) : Option ℤ :=
  ((table.filter fun row => row.tree = tree).map fun row => row.seq).max?

/-- `get_items_with_max_seq(db, tree)`. -/
def getItemsWithMaxSeq (table : List (Row Pubkey)) (tree : Pubkey) : List (Row Pubkey) :=
  table.filter fun row => row.tree = tree ∧ some row.seq = maxSeq table tree

/-- `fetch_and_plug_gaps(db, tree)`. -/
def fetchAndPlugGaps (table : List (Row Pubkey)) (tree : Pubkey) : ℤ :=
  match getItemsWithMaxSeq table tree with
  | [] => 0
  | item :: _ => item.seq

/-- `clear_force_chk_flag(db, tree)`. -/
def clearForceChkFlag (table : List (Row Pubkey)) (tree : Pubkey) : List (Row Pubkey) :=
  table.map fun row => if row.tree = tree then { row with forceChk := some false } else row

/-- The first statement of `delete_extra_tree_rows(db, tree, seq)`. -/
def deleteOtherSeqs (table : List (Row Pubkey)) (tree : Pubkey) (seq : ℤ) : List (Row Pubkey) :=
  table.filter fun row => ¬ (row.tree = tree ∧ row.seq ≠ seq)

/-- The second statement of `delete_extra_tree_rows(db, tree, seq)`. -/
def itemsWithSeq (table : List (Row Pubkey)) (tree : Pubkey) (seq : ℤ) : List (Row Pubkey) :=
  table.filter fun row => row.tree = tree ∧ row.seq = seq

/-- `delete_by_id(id)`. -/
def deleteById (table : List (Row Pubkey)) (id : ℕ) : List (Row Pubkey) :=
  table.filter fun row => row.id ≠ id

/-! ### The loop -/

/-- The next thing that `backfiller` does. -/
inductive Place (Pubkey : Type) where
  /-- Connect the listener and listen on the channel. -/
  | listen
  /-- Select the trees with the flag `force_chk`. -/
  | selectForceChk
  /-- Select the trees with several rows. -/
  | selectMultiRow (forceChkTrees : List Pubkey)
  /-- Wait for a notification. -/
  | recv
  /-- Go on with the two loops over the trees that are left. -/
  | loops (forceChkTrees multiRowTrees : List Pubkey)
  /-- Delete the rows of `tree` with other sequence numbers. -/
  | deleteOtherSeqs (tree : Pubkey) (seq : ℤ) (multiRowTrees : List Pubkey)
  /-- Select the rows of `tree` with the number. -/
  | findItems (tree : Pubkey) (seq : ℤ) (multiRowTrees : List Pubkey)
  /-- Delete the duplicates by their keys. -/
  | deleteItems (ids : List ℕ) (multiRowTrees : List Pubkey)
  /-- The task has ended. -/
  | stopped
deriving DecidableEq

/-- A statement of the backfiller that succeeds.  What a query selects comes in any order. -/
inductive Succeeds : Place Pubkey → List (Row Pubkey) → Place Pubkey → List (Row Pubkey) → Prop
  | listen {table} : Succeeds .listen table .selectForceChk table
  | selectForceChk {table force} (h : force.Perm (forceChkTrees table)) :
      Succeeds .selectForceChk table (.selectMultiRow force) table
  | selectMultiRow {table force multi} (h : multi.Perm (multiRowTrees table)) :
      Succeeds (.selectMultiRow force) table
        (if force.length = 0 ∧ multi.length = 0 then .recv else .loops force multi) table
  | maxSeq {table tree multi} :
      Succeeds (.loops [] (tree :: multi)) table
        (.deleteOtherSeqs tree (fetchAndPlugGaps table tree) multi) table
  | again {table} : Succeeds (.loops [] []) table .selectForceChk table
  | deleteOtherSeqs {table tree seq multi} :
      Succeeds (.deleteOtherSeqs tree seq multi) table (.findItems tree seq multi)
        (Backfill.deleteOtherSeqs table tree seq)
  | findItems {table tree seq multi} {items : List (Row Pubkey)}
      (h : items.Perm (itemsWithSeq table tree seq)) :
      Succeeds (.findItems tree seq multi) table
        (.deleteItems (if items.length > 1 then (items.drop 1).map fun item => item.id else [])
          multi) table
  | deleteItem {table id ids multi} :
      Succeeds (.deleteItems (id :: ids) multi) table (.deleteItems ids multi) (deleteById table id)
  | deleted {table multi} : Succeeds (.deleteItems [] multi) table (.loops [] multi) table

/-- Where the loop goes on after a statement that fails. -/
inductive Fails : Place Pubkey → Place Pubkey → Prop
  | listen : Fails .listen .stopped
  | selectForceChk : Fails .selectForceChk .selectForceChk
  | selectMultiRow {force} : Fails (.selectMultiRow force) .selectForceChk
  | recv : Fails .recv .stopped
  | maxSeq {tree multi} : Fails (.loops [] (tree :: multi)) (.loops [] multi)
  | deleteOtherSeqs {tree seq multi} : Fails (.deleteOtherSeqs tree seq multi) (.loops [] multi)
  | findItems {tree seq multi} : Fails (.findItems tree seq multi) (.loops [] multi)
  | deleteItem {id ids multi} : Fails (.deleteItems (id :: ids) multi) (.loops [] multi)

/-! ### The service -/

/-- The committed rows, the rows of the open transaction of the ingester, the next value of the
sequence of keys, the notifications that wait for the listener, and the backfiller. -/
structure Service (Pubkey : Type) where
  table : List (Row Pubkey)
  txn : List (Row Pubkey)
  nextId : ℕ
  notifications : ℕ
  place : Place Pubkey

/-- What happens in a step. -/
inductive Event (Pubkey : Type) where
  /-- The open transaction inserts the item of an event. -/
  | insert (tree : Pubkey) (seq slot : ℕ)
  /-- The open transaction is committed. -/
  | commit (rows : List (Row Pubkey))
  /-- The open transaction is undone. -/
  | rollback
  /-- A statement of the backfiller succeeds. -/
  | success
  /-- A statement of the backfiller fails. -/
  | failure
  /-- `backfill_tree_from_seq_1` is called and the flag is cleared, or `fails` to be. -/
  | backfillTreeFromSeq1 (tree : Pubkey) (fails : Bool)
  /-- The listener receives a notification. -/
  | notification
  /-- The process is started again. -/
  | restart

/-- The rows as items, without their keys. -/
def items (rows : List (Row Pubkey)) : List (BackfillItem Pubkey) := rows.map Row.toBackfillItem

/-- The listener of the channel is connected. -/
def Place.listening : Place Pubkey → Bool
  | .listen => false
  | .stopped => false
  | _ => true

/-- A step of the service. -/
inductive Step : Service Pubkey → Event Pubkey → Service Pubkey → Prop
  | insert {s tree seq slot} (hseq : seq < 2 ^ 64) :
      Step s (.insert tree seq slot)
        { s with
          txn := s.txn ++ [⟨backfillItem (items (s.table ++ s.txn)) tree seq slot, s.nextId⟩]
          nextId := s.nextId + 1 }
  -- the trigger notifies once for a transaction, however many rows it inserts
  | commit {s} :
      Step s (.commit s.txn)
        { s with
          table := s.table ++ s.txn
          txn := []
          notifications := if s.place.listening ∧ s.txn ≠ [] then s.notifications + 1
            else s.notifications }
  | rollback {s} : Step s .rollback { s with txn := [] }
  | success {s place table} (h : Succeeds s.place s.table place table) :
      Step s .success { s with table := table, place := place }
  | failure {s place} (h : Fails s.place place) : Step s .failure { s with place := place }
  | cleared {s tree force multi} (h : s.place = .loops (tree :: force) multi) :
      Step s (.backfillTreeFromSeq1 tree false)
        { s with table := clearForceChkFlag s.table tree, place := .loops force multi }
  | notCleared {s tree force multi} (h : s.place = .loops (tree :: force) multi) :
      Step s (.backfillTreeFromSeq1 tree true) { s with place := .loops force multi }
  | notification {s n} (h : s.place = .recv) (hn : s.notifications = n + 1) :
      Step s .notification { s with notifications := n, place := .selectForceChk }
  | restart {s} :
      Step s .restart { s with txn := [], notifications := 0, place := .listen }

/-- The service is started over a table with different keys. -/
structure Service.Initial (s : Service Pubkey) : Prop where
  nodup : (s.table.map Row.id).Nodup
  lt : ∀ row ∈ s.table, row.id < s.nextId
  txn : s.txn = []
  notifications : s.notifications = 0
  place : s.place = .listen

/-- The insertion of the model of the ingester is the one of the service. -/
theorem backfillItems_event {Node : Type} (event : Gummyroll.ChangeLogEvent Node Pubkey)
    (slot : ℕ) (txn : Database Node Pubkey) :
    (gummyrollChangeLogEventToDatabase event slot txn false).backfillItems =
      txn.backfillItems ++ [backfillItem txn.backfillItems event.id event.seq slot] := by
  have hcount : ∀ (path : List (Gummyroll.PathNode Node)) st,
      (path.foldl (insertPathNode event (event.path.length - 1) false) st).1 =
        st.1 + path.length := by
    intro path
    induction path with
    | nil =>
      intro st
      simp
    | cons p path ih =>
      intro st
      rw [List.foldl_cons, ih, insertPathNode, List.length_cons]
      push_cast
      ring
  rw [gummyrollChangeLogEventToDatabase]
  dsimp only
  rw [hcount, if_pos (by omega)]
  rfl

end Candyland.NftIngester.Backfill
