import Candyland.NftIngester.EventExtraction
import Candyland.NftIngester.PipelineRuns
import Candyland.NftIngester.Replica

/-!
# From the validator to the database

`handle_transaction` with the handlers of the programs, and what the rows of a tree are once all
its transactions have come through.  The order in which they come does not matter.
-/

namespace Candyland.NftIngester

open ConcurrentMerkleTree (NodeHash)
open Gummyroll (ChangeLogEvent history)
open Sdk.Indexer (KeyLayout NodeLayout)
open EventLog (Base64)
open Messenger Plerkle

variable {Node Pubkey α σ : Type}

/-! ### The handlers -/

/-- `handle_instruction` of a registered parser. -/
abbrev Handler (σ : Type) := InstructionBundle → σ → Outcome IngesterError σ

/-- The calls of a transaction, one after the other.  An error of a handler is only logged; the
flag says that no handler panicked. -/
def runCalls (handlers : Key → Option (Handler σ)) : List (Key × InstructionBundle) → σ → σ × Bool
  | [], db => (db, true)
  | (program, bundle) :: calls, db =>
    match handlers program with
    | none => runCalls handlers calls db
    | some handler =>
      match handler bundle db with
      | .ok db => runCalls handlers calls db
      | .err _ => runCalls handlers calls db
      | .panic => (db, false)

section Handle

variable [CharClasses]

/-- `handle_transaction(manager, data)` for one message, where `decode` is
`root_as_transaction_info`. -/
def handleMessage (decode : α → Option TransactionInfo) (handlers : Key → Option (Handler σ))
    (pid : ℤ) (data : α) (db : σ) : σ × Bool :=
  match decode data with
  | none => (db, true)
  | some transaction =>
    let handled := handleTransaction (fun program => (handlers program).isSome) pid transaction
    let (db, finished) := runCalls handlers handled.calls db
    (db, finished && handled.finished)

variable [Base64] [NodeHash Node] [NodeLayout Node] [KeyLayout Pubkey] [DecidableEq Pubkey]

/-- `handle_gummyroll_instruction(logs, slot, db)`, when no statement of its transaction fails. -/
def handleGummyrollInstruction : Handler (Database Node Pubkey) := fun bundle db => do
  let events ← EventLog.getGummyRollEvents bundle.instructionLogs
  .ok (saveChangelogEvents db (events.map fun event => (event, bundle.slot.toNat)))

/-- The events in the logs of the instructions of a program, with the slot. -/
def callEvents (gummyroll : Key) (call : Key × InstructionBundle) :
    List (ChangeLogEvent Node Pubkey × ℕ) :=
  if call.1 = gummyroll then
    match (EventLog.getGummyRollEvents call.2.instructionLogs :
      Outcome IngesterError (List (ChangeLogEvent Node Pubkey))) with
    | .ok events => events.map fun event => (event, call.2.slot.toNat)
    | _ => []
  else []

/-- The events that a message carries. -/
def carried (decode : α → Option TransactionInfo) (responds : Key → Bool) (gummyroll : Key)
    (data : α) : List (ChangeLogEvent Node Pubkey × ℕ) :=
  match decode data with
  | none => []
  | some transaction =>
    (handleTransaction responds 0 transaction).calls.flatMap (callEvents gummyroll)

/-! ### What a message does to the rows of a tree -/

omit [CharClasses] [Base64] [NodeHash Node] [NodeLayout Node] [KeyLayout Pubkey] in
theorem saveChangelogEvents_append (db : Database Node Pubkey)
    (deliveries deliveries' : List (ChangeLogEvent Node Pubkey × ℕ)) :
    saveChangelogEvents db (deliveries ++ deliveries') =
      saveChangelogEvents (saveChangelogEvents db deliveries) deliveries' :=
  List.foldl_append

/-- The rows of the tree are the same. -/
def SameRows (tree : Pubkey) (db db' : Database Node Pubkey) : Prop :=
  ∀ x, db.clItems (tree, x) = db'.clItems (tree, x)

omit [CharClasses] [Base64] [NodeHash Node] [NodeLayout Node] [KeyLayout Pubkey] in
theorem SameRows.save {tree : Pubkey} {db db' : Database Node Pubkey} (h : SameRows tree db db')
    (deliveries : List (ChangeLogEvent Node Pubkey × ℕ)) :
    SameRows tree (saveChangelogEvents db deliveries) (saveChangelogEvents db' deliveries) := by
  intro x
  rw [clItems_saveChangelogEvents, clItems_saveChangelogEvents]
  exact LastWriter.deliver_congr (h x)

/-- The handlers: the one of Gummyroll, and others that leave the rows of the tree alone. -/
structure Handles (tree : Pubkey) (gummyroll : Key)
    (handlers : Key → Option (Handler (Database Node Pubkey))) : Prop where
  own : handlers gummyroll = some handleGummyrollInstruction
  others : ∀ program handler, program ≠ gummyroll → handlers program = some handler →
    ∀ bundle db db', handler bundle db = .ok db' → SameRows tree db' db

variable {tree : Pubkey} {gummyroll : Key}
  {handlers : Key → Option (Handler (Database Node Pubkey))}

/-- Calls that do not panic save the events that they carry. -/
theorem Handles.runCalls (hhandles : Handles tree gummyroll handlers)
    (calls : List (Key × InstructionBundle)) (db : Database Node Pubkey)
    (hfinished : (runCalls handlers calls db).2 = true) :
    SameRows tree (runCalls handlers calls db).1
      (saveChangelogEvents db (calls.flatMap (callEvents gummyroll))) := by
  induction calls generalizing db with
  | nil => exact fun x => rfl
  | cons call calls ih =>
    obtain ⟨program, bundle⟩ := call
    have hother (hprogram : program ≠ gummyroll) :
        (callEvents gummyroll (program, bundle) : List (ChangeLogEvent Node Pubkey × ℕ)) = [] :=
      if_neg hprogram
    rw [List.flatMap_cons, saveChangelogEvents_append]
    rw [NftIngester.runCalls] at hfinished ⊢
    cases hhandler : handlers program with
    | none =>
      have hprogram : program ≠ gummyroll := by
        rintro rfl
        rw [hhandles.own] at hhandler
        cases hhandler
      simp only [hhandler] at hfinished ⊢
      rw [hother hprogram]
      exact ih db hfinished
    | some handler =>
      simp only [hhandler] at hfinished ⊢
      by_cases hprogram : program = gummyroll
      · subst hprogram
        obtain rfl := Option.some.inj (hhandles.own.symm.trans hhandler)
        rw [callEvents, if_pos rfl]
        rw [handleGummyrollInstruction] at hfinished ⊢
        cases hevents : (EventLog.getGummyRollEvents bundle.instructionLogs :
          Outcome IngesterError (List (ChangeLogEvent Node Pubkey))) with
        | ok events =>
          simp only [hevents] at hfinished ⊢
          exact ih _ hfinished
        | err e =>
          simp only [hevents] at hfinished ⊢
          exact ih db hfinished
        | panic =>
          simp only [hevents] at hfinished
          cases hfinished
      · rw [hother hprogram]
        cases hcall : handler bundle db with
        | ok db' =>
          simp only [hcall] at hfinished ⊢
          have hsame := (hhandles.others program handler hprogram hhandler bundle db db' hcall).save
            (calls.flatMap (callEvents gummyroll))
          exact fun x => (ih db' hfinished x).trans (hsame x)
        | err e =>
          simp only [hcall] at hfinished ⊢
          exact ih db hfinished
        | panic =>
          simp only [hcall] at hfinished
          cases hfinished

omit [DecidableEq Pubkey] in
/-- The number of a message does not matter for the events. -/
theorem flatMap_callEvents (responds : Key → Bool) (pid pid' : ℤ)
    (transaction : TransactionInfo) :
    ((handleTransaction responds pid transaction).calls.flatMap (callEvents gummyroll) :
        List (ChangeLogEvent Node Pubkey × ℕ)) =
      (handleTransaction responds pid' transaction).calls.flatMap (callEvents gummyroll) := by
  have hloop : ∀ keys slot instructions parsedLogs,
      ((handleInstructions responds pid keys slot instructions parsedLogs).calls.flatMap
          (callEvents gummyroll) : List (ChangeLogEvent Node Pubkey × ℕ)) =
        (handleInstructions responds pid' keys slot instructions parsedLogs).calls.flatMap
          (callEvents gummyroll) := by
    intro keys slot instructions parsedLogs
    induction instructions, parsedLogs using handleInstructions.induct with
    | case1 outerIx innerIx instructions parsedLog parsedLogs hkey ih =>
      rw [handleInstructions, handleInstructions, if_pos hkey, if_pos hkey, Handled.cons,
        Handled.cons]
      dsimp only
      split_ifs
      · rw [List.flatMap_cons, List.flatMap_cons, ih]
        rfl
      · exact ih
    | case2 outerIx innerIx instructions parsedLog parsedLogs hkey =>
      rw [handleInstructions, handleInstructions, if_neg hkey, if_neg hkey]
    | case3 instructions parsedLogs hdone =>
      cases instructions with
      | nil => rfl
      | cons instruction instructions =>
        cases parsedLogs with
        | nil => rfl
        | cons parsedLog parsedLogs => exact (hdone _ _ _ _ _ rfl rfl).elim
  rw [handleTransaction, handleTransaction]
  cases transaction.accountKeys with
  | none => rfl
  | some keys =>
    dsimp only
    split
    · exact hloop keys _ _ _
    · rfl

/-- A message that is handled to its end saves the events that it carries. -/
theorem Handles.handleMessage {decode : α → Option TransactionInfo}
    (hhandles : Handles tree gummyroll handlers) (pid : ℤ) (data : α) (db : Database Node Pubkey)
    (hfinished : (handleMessage decode handlers pid data db).2 = true) :
    SameRows tree (handleMessage decode handlers pid data db).1
      (saveChangelogEvents db
        (carried decode (fun program => (handlers program).isSome) gummyroll data)) := by
  rw [NftIngester.handleMessage] at hfinished ⊢
  rw [carried]
  cases hdecode : decode data with
  | none => exact fun x => rfl
  | some transaction =>
    simp only [hdecode, Bool.and_eq_true] at hfinished ⊢
    rw [flatMap_callEvents _ 0 pid]
    exact hhandles.runCalls _ db hfinished.1

/-! ### A run -/

/-- Nothing fails on the way, and every received message is handled to its end. -/
def Smooth (handle : ℤ → α → σ → σ × Bool) (s : Pipeline α σ) (a : PipelineEvent α) : Prop :=
  Careful s a ∧ ∀ entry, a = .received entry →
    ∃ pid, messageId entry.1 = some pid ∧ (handle pid entry.2 s.db).2 = true

/-- A step of a smooth run. -/
def SmoothStep (plugin : Plugin α) (handle : ℤ → α → σ → σ × Bool) (s : Pipeline α σ)
    (a : PipelineEvent α) (s' : Pipeline α σ) : Prop :=
  PipelineStep plugin handle s a s' ∧ Smooth handle s a

/-- In a smooth run the rows of the tree are what the received messages carry. -/
theorem Handles.run {decode : α → Option TransactionInfo} {plugin : Plugin α}
    (hhandles : Handles tree gummyroll handlers) {db : Database Node Pubkey}
    {as : List (PipelineEvent α)} {s : Pipeline α (Database Node Pubkey)}
    (h : Steps (SmoothStep plugin (NftIngester.handleMessage decode handlers)) (.start db) as s) :
    SameRows tree s.db (saveChangelogEvents db
      ((received as).flatMap fun entry =>
        carried decode (fun program => (handlers program).isSome) gummyroll entry.2)) := by
  induction h with
  | refl => exact fun x => rfl
  | @step as t t' a hsteps hstep ih =>
    have hinv := inv_of_pipelineSteps (hsteps.mono fun _ _ _ h => h.1)
    obtain ⟨hstep, -, hsmooth⟩ := hstep
    cases hstep with
    | @received message entry redis hrun hrecv =>
      obtain ⟨pid, hpid, hfinished⟩ := hsmooth entry rfl
      have hmessage : message = .ok (pid, entry.2) := by
        rw [(recv_eq_some (hinv.streams .transaction) hrecv).2.2.2.2, parseEntry, hpid]
      subst hmessage
      show SameRows tree (NftIngester.handleMessage decode handlers pid entry.2 t.db).1
        (saveChangelogEvents db ((received as ++ [entry]).flatMap _))
      rw [List.flatMap_append, saveChangelogEvents_append, List.flatMap_singleton]
      exact fun x => (hhandles.handleMessage pid entry.2 t.db hfinished x).trans (ih.save _ x)
    | _ => exact ih

omit [CharClasses] [Base64] [NodeLayout Node] [KeyLayout Pubkey] [DecidableEq Pubkey] in
theorem Replicates.congr {D : ℕ} {ws : List (ℕ × Node)}
    {clItems clItems' : Pubkey × ℤ → Option (ClItem Node)} (h : Replicates D tree ws clItems)
    (hsame : ∀ x, clItems (tree, x) = clItems' (tree, x)) : Replicates D tree ws clItems' :=
  ⟨fun n seq hseq => (hsame n).symm.trans (h.touched n seq hseq),
    fun x hx => (hsame x).symm.trans (h.untouched x hx), h.empty⟩

end Handle

/-! ### One transaction -/

/-- The base 64 of the event that opens a tree of depth 0 with the key `.user 0`. -/
def openedText : Line :=
  ['l', 'U', 'H', 'a', 'E', 'H', '5', 'X', 'd', 'a', '8'] ++ List.replicate 14 'A' ++ ['Q'] ++
    List.replicate 16 'A' ++ ['E'] ++ List.replicate 21 'A'

/-- A transaction in which the program `oneByte 1` logs the event. -/
def openingInfo : ReplicaTransactionInfo where
  isVote := false
  statusIsErr := false
  accountKeys := [oneByte 1]
  instructions := [⟨0, [], []⟩]
  innerInstructions := none
  logMessages := some (TopLevel.lines (fun _ => false)
    [⟨oneByte 1, .print (.log (EventLog.dataText ++ openedText)) .done⟩])

/-- A plugin for all transactions, whose records are sent as they are. -/
def allTransactions : Plugin TransactionInfo :=
  ⟨⟨[], [], true⟩, ⟨[], true, true⟩, id⟩

end Candyland.NftIngester
