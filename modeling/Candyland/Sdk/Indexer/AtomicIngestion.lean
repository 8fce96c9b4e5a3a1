import Candyland.Lib.Async
import Candyland.Sdk.Indexer.Fetching
import Candyland.Sdk.Indexer.Slots
import Candyland.Sdk.Indexer.TruncatedLogs

/-!
# The transaction of the database

The events of a transaction are to be written between `BEGIN TRANSACTION` and `COMMIT`.  The
functions that write them are asynchronous and are started without being awaited, so that every
statement behind the first one of an instruction is issued when `COMMIT` has been issued already.
-/

namespace Candyland.Sdk.Indexer

open Bubblegum (LeafSchemaEvent NewNFTEvent)
open ConcurrentMerkleTree (NodeHash)
open Gummyroll (ChangeLogEvent)

variable {Node Pubkey : Type}

/-! ### Statements -/

/-- A statement that is issued to the connection. -/
inductive Statement (Node Pubkey : Type) where
  | beginTransaction
  | commit
  | nft (row : NftRow Pubkey)
  | leafSchema (row : LeafSchemaRow Node Pubkey)
  | merkle (row : MerkleRow Node Pubkey)
deriving DecidableEq

/-- The statement writes a row. -/
def Statement.IsRow : Statement Node Pubkey → Prop
  | beginTransaction => False
  | commit => False
  | _ => True

/-- What a statement does to the tables. -/
def Statement.exec [DecidableEq Pubkey] (db : NFTDatabaseConnection Node Pubkey) :
    Statement Node Pubkey → NFTDatabaseConnection Node Pubkey
  | beginTransaction => db
  | commit => db
  | nft row => { db with nft := Table.upsert NftRow.assetId NftRow.merge db.nft row }
  | leafSchema row =>
    { db with leafSchema := Table.upsert LeafSchemaRow.key LeafSchemaRow.merge db.leafSchema row }
  | merkle row => { db with merkle := Table.upsert MerkleRow.key MerkleRow.merge db.merkle row }

/-! ### The asynchronous functions -/

namespace Atomic

/-- `beginTransaction()`. -/
def beginTransaction : Async (Statement Node Pubkey) := .run .beginTransaction

/-- `commit()`. -/
def commit : Async (Statement Node Pubkey) := .run .commit

/-- `updateChangeLogs(changeLog, txId, slot, treeId)`.  Errors of its statements are caught. -/
def updateChangeLogs (changeLog : ChangeLogEvent Node Pubkey) (txId : String) (slot : ℕ)
    (treeId : Pubkey) : Async (Statement Node Pubkey) :=
  if changeLog.seq = 0 then .done
  else (NFTDatabaseConnection.merkleRows changeLog txId slot treeId).foldr
    (fun row rest => .issue (.merkle row) (.await rest rest)) .done

/-- `updateLeafSchema(leafSchemaRecord, leafHash, txId, slot, sequenceNumber, treeId, compressed)`,
which throws on a nonce that is no safe number. -/
def updateLeafSchema (leafSchemaRecord : LeafSchemaEvent Node Pubkey) (leafHash : Node)
    (txId : String) (slot sequenceNumber : ℕ) (treeId : Pubkey) (compressed : Bool) :
    Async (Statement Node Pubkey) :=
  let leafSchema := leafSchemaRecord.schema
  match toNumber leafSchema.nonce.toNat with
  | none => .fail
  | some nonce => .run (.leafSchema ⟨leafSchema.id, nonce, treeId, sequenceNumber, txId, slot,
      leafSchema.owner, leafSchema.delegate, leafSchema.dataHash, leafSchema.creatorHash, leafHash,
      compressed⟩)

/-- `updateNFTMetadata(newLeafEvent, assetId)`. -/
def updateNFTMetadata [SystemProgramId Pubkey] (newLeafEvent : NewNFTEvent Pubkey)
    (assetId : Pubkey) : Async (Statement Node Pubkey) :=
  let metadata := newLeafEvent.metadata
  let creators := (List.range 5).map fun i =>
    metadata.creators[i]?.getD ⟨SystemProgramId.programId, false, 0⟩
  .run (.nft ⟨assetId, metadata.uri, metadata.name, metadata.symbol, metadata.primarySaleHappened,
    metadata.sellerFeeBasisPoints, metadata.isMutable, creators⟩)

section Ingest

variable (slot : ℕ) (optionalInfo : OptionalInfo)

/-- `ingestBubblegumMint(db, slot, optionalInfo, changeLog, newLeafData, leafSchema)`. -/
def ingestBubblegumMint [SystemProgramId Pubkey] (changeLog : ChangeLogEvent Node Pubkey)
    (newLeafData : NewNFTEvent Pubkey) (leafSchema : LeafSchemaEvent Node Pubkey) :
    Async (Statement Node Pubkey) :=
  let treeId := changeLog.id
  let sequenceNumber := changeLog.seq
  if skipTx sequenceNumber optionalInfo.startSeq optionalInfo.endSeq then .done
  else
    -- the message of the log is made from these two
    match toNumber leafSchema.schema.nonce.toNat, changeLog.path.head? with
    | some _, some leaf =>
      (updateNFTMetadata newLeafData leafSchema.schema.id).andThen <|
      (updateLeafSchema leafSchema leaf.node optionalInfo.txId slot sequenceNumber treeId
        true).andThen <|
      (updateChangeLogs changeLog optionalInfo.txId slot treeId).andThen .done
    | _, _ => .fail

/-- `ingestBubblegumReplaceLeaf(db, slot, optionalInfo, changeLog, leafSchema, compressed)`. -/
def ingestBubblegumReplaceLeaf (changeLog : ChangeLogEvent Node Pubkey)
    (leafSchema : LeafSchemaEvent Node Pubkey) (compressed : Bool) :
    Async (Statement Node Pubkey) :=
  let treeId := changeLog.id
  let sequenceNumber := changeLog.seq
  if skipTx sequenceNumber optionalInfo.startSeq optionalInfo.endSeq then .done
  else
    match changeLog.path.head? with
    | some leaf =>
      (updateLeafSchema leafSchema leaf.node optionalInfo.txId slot sequenceNumber treeId
        compressed).andThen <|
      (updateChangeLogs changeLog optionalInfo.txId slot treeId).andThen .done
    | none => .fail

/-- `ingestBubblegumCreateTree(db, slot, optionalInfo, changeLog)`. -/
def ingestBubblegumCreateTree (changeLog : ChangeLogEvent Node Pubkey) :
    Async (Statement Node Pubkey) :=
  let sequenceNumber := changeLog.seq
  if skipTx sequenceNumber optionalInfo.startSeq optionalInfo.endSeq then .done
  else (updateChangeLogs changeLog optionalInfo.txId slot changeLog.id).andThen .done

/-- The call of one of the three functions. -/
def ingest [SystemProgramId Pubkey] : IngestCall Node Pubkey → Async (Statement Node Pubkey)
  | .createTree changeLog => ingestBubblegumCreateTree slot optionalInfo changeLog
  | .mint changeLog newLeafData leafSchema =>
    ingestBubblegumMint slot optionalInfo changeLog newLeafData leafSchema
  | .replaceLeaf changeLog leafSchema compressed =>
    ingestBubblegumReplaceLeaf slot optionalInfo changeLog leafSchema compressed

end Ingest

section Index

variable [NodeHash Node] [NodeLayout Node] [KeyLayout Pubkey] [SystemProgramId Pubkey]
  [ProgramIds Pubkey] [DecidableEq Pubkey] (slot : ℕ) (optionalInfo : OptionalInfo)

variable (Node) in
/-- `parseBubblegumLog(db, parsedLog, ..)`, which awaits the parser of the instruction, and this
one the call that it makes. -/
def parseBubblegumLog (parsedLog : ParsedLog Pubkey) : Async (Statement Node Pubkey) :=
  match (Log.parseBubblegumLog parsedLog : Option (Option (IngestCall Node Pubkey))) with
  | none => .fail
  | some none => .done
  | some (some call) => ((ingest slot optionalInfo call).andThen .done).andThen .done

variable (Node) in
/-- The loop of `indexParsedLog(db, .., parsedLog)` over the entries of a log, which awaits
`indexParsedLog` for each, also for a line. -/
def indexLogs : Logs Pubkey → Async (Statement Node Pubkey)
  | .nil => .done
  | .line _ rest => Async.done.andThen (indexLogs rest)
  | .parsedLog programId depth logs rest =>
    Async.andThen
      (if programId = ProgramIds.bubblegum then
        (parseBubblegumLog Node slot optionalInfo ⟨programId, depth, logs⟩).andThen .done
      else indexLogs logs)
      (indexLogs rest)

variable (Node) in
/-- `indexParsedLog(db, .., parsedLog)`. -/
def indexParsedLog (parsedLog : ParsedLog Pubkey) : Async (Statement Node Pubkey) :=
  if parsedLog.programId = ProgramIds.bubblegum then
    (parseBubblegumLog Node slot optionalInfo parsedLog).andThen .done
  else indexLogs Node slot optionalInfo parsedLog.logs

end Index

end Atomic

/-! ### `handleLogsAtomic` -/

/-- `ParseResult`. -/
inductive ParseResult where
  | Success
  | LogTruncated
  | TransactionError
deriving DecidableEq

section Handle

variable [NodeHash Node] [NodeLayout Node] [KeyLayout Pubkey] [SystemProgramId Pubkey]
  [ProgramIds Pubkey] [DecidableEq Pubkey]

variable (Node) in
/-- `handleLogsAtomic(db, logs, context, parsedState, startSeq, endSeq)`: the result, the statements
that have been issued when it returns, and what has been started.  `none` is an exception. -/
def handleLogsAtomic (err : Bool) (logs : LogMessages Pubkey) (slot : ℕ)
    (optionalInfo : OptionalInfo) :
    Option (ParseResult × Async.Machine (Statement Node Pubkey)) :=
  if err then some (.TransactionError, .start [])
  else
    match logs with
    | .truncated => some (.LogTruncated, .start [])
    | .malformed => none
    | .parsed [] => some (.Success, .start [])
    | .parsed parsedLogs =>
      some (.Success, .start (Atomic.beginTransaction ::
        (parsedLogs.map (Atomic.indexParsedLog Node slot optionalInfo) ++ [Atomic.commit])))

end Handle

/-! ### What a call issues -/

/-- What the programs emit: the call does not throw, and the event of gummyroll has the number 0
for a new tree only. -/
structure IngestCall.Emitted (call : IngestCall Node Pubkey) : Prop extends
    IngestCall.Regular call where
  seq : call.changeLog.seq = 0 ↔ call.leafSchema? = none

/-- The call writes a leaf in the range of sequence numbers. -/
def IngestCall.Written (optionalInfo : OptionalInfo) (call : IngestCall Node Pubkey) : Prop :=
  call.leafSchema? ≠ none ∧
    skipTx call.changeLog.seq optionalInfo.startSeq optionalInfo.endSeq = false

namespace Atomic

section Functions

variable (changeLog : ChangeLogEvent Node Pubkey) (txId : String) (slot : ℕ) (treeId : Pubkey)

/-- The statements of `updateChangeLogs`. -/
def changeLogStatements : List (Statement Node Pubkey) :=
  if changeLog.seq = 0 then []
  else (NFTDatabaseConnection.merkleRows changeLog txId slot treeId).map .merkle

theorem issues_rows (rows : List (MerkleRow Node Pubkey)) :
    (rows.foldr (fun row rest => Async.issue (.merkle row) (.await rest rest)) .done :
      Async (Statement Node Pubkey)).Issues (rows.map .merkle) := by
  induction rows with
  | nil => exact .done
  | cons row rows ih => exact ⟨ih.completes, congrArg (Statement.merkle row :: ·) ih.full_eq⟩

theorem issues_updateChangeLogs : (updateChangeLogs changeLog txId slot treeId).Issues
    (changeLogStatements changeLog txId slot treeId) := by
  rw [updateChangeLogs, changeLogStatements]
  split_ifs
  · exact .done
  · exact issues_rows _

variable {changeLog} in
theorem updateChangeLogs_of_seq (h : changeLog.seq = 0) :
    updateChangeLogs changeLog txId slot treeId = .done := if_pos h

theorem issues_updateLeafSchema {leafSchema : LeafSchemaEvent Node Pubkey}
    (h : leafSchema.schema.nonce.toNat < 2 ^ 53) (leafHash : Node) (seq : ℕ)
    (compressed : Bool) :
    ∃ row, (updateLeafSchema leafSchema leafHash txId slot seq treeId compressed).Issues
        [.leafSchema row] ∧
      ∀ [DecidableEq Pubkey] (db : NFTDatabaseConnection Node Pubkey),
        db.updateLeafSchema leafSchema leafHash txId slot seq treeId compressed =
          some (Statement.exec db (.leafSchema row)) := by
  have hnumber : toNumber leafSchema.schema.nonce.toNat = some leafSchema.schema.nonce.toNat :=
    if_pos h
  rw [updateLeafSchema, hnumber]
  refine ⟨_, .run _, fun db => ?_⟩
  rw [NFTDatabaseConnection.updateLeafSchema, hnumber]
  rfl

theorem issues_updateNFTMetadata [SystemProgramId Pubkey] (newLeafEvent : NewNFTEvent Pubkey)
    (assetId : Pubkey) :
    ∃ row, (updateNFTMetadata newLeafEvent assetId : Async (Statement Node Pubkey)).Issues
        [.nft row] ∧
      ∀ [DecidableEq Pubkey] (db : NFTDatabaseConnection Node Pubkey),
        db.updateNFTMetadata newLeafEvent assetId = Statement.exec db (.nft row) :=
  ⟨_, .run _, fun _ => rfl⟩

theorem foldl_exec_rows [DecidableEq Pubkey] (rows : List (MerkleRow Node Pubkey))
    (db : NFTDatabaseConnection Node Pubkey) :
    (rows.map .merkle).foldl Statement.exec db =
      { db with merkle := rows.foldl (Table.upsert MerkleRow.key MerkleRow.merge) db.merkle } := by
  induction rows generalizing db with
  | nil => rfl
  | cons row rows ih => exact ih _

theorem foldl_exec_changeLogStatements [DecidableEq Pubkey]
    (db : NFTDatabaseConnection Node Pubkey) :
    (changeLogStatements changeLog txId slot treeId).foldl Statement.exec db =
      db.updateChangeLogs changeLog txId slot treeId := by
  rw [changeLogStatements, NFTDatabaseConnection.updateChangeLogs]
  split_ifs
  · rfl
  · exact foldl_exec_rows _ db

variable {changeLog} in
theorem changeLogStatements_ne_nil (hseq : changeLog.seq ≠ 0) (hpath : changeLog.path ≠ []) :
    0 < (changeLogStatements changeLog txId slot treeId).length := by
  rw [changeLogStatements, if_neg hseq, List.length_map, NFTDatabaseConnection.merkleRows,
    List.length_map, List.length_zipIdx]
  exact List.length_pos_iff.2 hpath

end Functions

variable [SystemProgramId Pubkey] {slot : ℕ} {optionalInfo : OptionalInfo}
  {call : IngestCall Node Pubkey}

/-- Before it waits, a call issues one statement at most. -/
theorem length_issued_ingest_le (call : IngestCall Node Pubkey) :
    (ingest slot optionalInfo call).issued.length ≤ 1 := by
  have hrows : ∀ (changeLog : ChangeLogEvent Node Pubkey) treeId,
      (updateChangeLogs changeLog optionalInfo.txId slot treeId).issued.length ≤ 1 := by
    intro changeLog treeId
    rw [updateChangeLogs]
    split_ifs
    · exact Nat.zero_le _
    · cases NFTDatabaseConnection.merkleRows changeLog optionalInfo.txId slot treeId <;>
        simp [Async.issued]
  have hleaf : ∀ (leafSchema : LeafSchemaEvent Node Pubkey) leafHash seq treeId compressed,
      (updateLeafSchema leafSchema leafHash optionalInfo.txId slot seq treeId
        compressed).issued.length ≤ 1 := by
    intro leafSchema leafHash seq treeId compressed
    rw [updateLeafSchema]
    split <;> simp [Async.issued, Async.run]
  cases call with
  | createTree changeLog =>
    rw [ingest, ingestBubblegumCreateTree]
    split_ifs
    · exact Nat.zero_le _
    · rw [Async.issued_andThen]
      exact hrows _ _
  | mint changeLog newLeafData leafSchema =>
    rw [ingest, ingestBubblegumMint]
    split_ifs
    · exact Nat.zero_le _
    · split
      · rw [Async.issued_andThen]
        exact le_rfl
      · exact Nat.zero_le _
  | replaceLeaf changeLog leafSchema compressed =>
    rw [ingest, ingestBubblegumReplaceLeaf]
    split_ifs
    · exact Nat.zero_le _
    · split
      · rw [Async.issued_andThen]
        exact hleaf _ _ _ _ _
      · exact Nat.zero_le _

/-- A call out of the range returns at once. -/
theorem ingest_of_skipTx
    (h : skipTx call.changeLog.seq optionalInfo.startSeq optionalInfo.endSeq = true) :
    ingest slot optionalInfo call = .done := by
  cases call <;> exact if_pos h

/-- If every promise is resolved, a call completes and does to the tables what it is to do.  For a
leaf in the range it issues the row of the leaf and those of the path. -/
theorem issues_ingest (h : call.Regular) :
    ∃ statements, (ingest slot optionalInfo call).Issues statements ∧
      (∀ [DecidableEq Pubkey] (db : NFTDatabaseConnection Node Pubkey),
        call.ingest db slot optionalInfo = some (statements.foldl Statement.exec db)) ∧
      (call.Written optionalInfo → call.changeLog.seq ≠ 0 → 2 ≤ statements.length) := by
  cases hskip : skipTx call.changeLog.seq optionalInfo.startSeq optionalInfo.endSeq with
  | true =>
    refine ⟨[], ?_, fun db => ?_, fun hwritten => ?_⟩
    · rw [ingest_of_skipTx hskip]
      exact .done
    · cases call <;> exact if_pos hskip
    · exact absurd (hskip.symm.trans hwritten.2) (by simp)
  | false =>
    obtain ⟨leaf, path, hpath⟩ := List.exists_cons_of_ne_nil h.path_ne
    have hhead : call.changeLog.path.head? = some leaf := by rw [hpath, List.head?_cons]
    have hnonce := h.nonce
    have hpath_ne := h.path_ne
    have hrows := fun treeId =>
      issues_updateChangeLogs call.changeLog optionalInfo.txId slot treeId
    have hskip' : ¬ skipTx call.changeLog.seq optionalInfo.startSeq optionalInfo.endSeq = true := by
      simp [hskip]
    generalize hlog : call.changeLog = log at hskip' hhead hpath_ne hrows
    cases call with
    | createTree changeLog =>
      obtain rfl : changeLog = log := hlog
      refine ⟨changeLogStatements changeLog optionalInfo.txId slot changeLog.id ++ [], ?_,
        fun db => ?_, fun hwritten => absurd rfl hwritten.1⟩
      · rw [ingest, ingestBubblegumCreateTree, if_neg hskip']
        exact (hrows changeLog.id).andThen .done
      · rw [List.append_nil, foldl_exec_changeLogStatements]
        exact if_neg hskip'
    | mint changeLog newLeafData leafSchema =>
      obtain rfl : changeLog = log := hlog
      have hlt := hnonce leafSchema rfl
      obtain ⟨nftRow, hnft, hexecNft⟩ :=
        @issues_updateNFTMetadata Node _ _ newLeafData leafSchema.schema.id
      obtain ⟨leafRow, hleaf, hexec⟩ := issues_updateLeafSchema optionalInfo.txId slot changeLog.id
        hlt leaf.node changeLog.seq true
      have hnumber : toNumber leafSchema.schema.nonce.toNat = some _ := if_pos hlt
      refine ⟨[.nft nftRow] ++ ([.leafSchema leafRow] ++
        (changeLogStatements changeLog optionalInfo.txId slot changeLog.id ++ [])), ?_,
        fun db => ?_, fun hwritten hseq => ?_⟩
      · rw [ingest, ingestBubblegumMint, if_neg hskip', hnumber, hhead]
        exact hnft.andThen (hleaf.andThen ((hrows changeLog.id).andThen .done))
      · rw [IngestCall.ingest, Indexer.ingestBubblegumMint, if_neg hskip', hnumber,
          hhead, hexecNft]
        simp [hexec, foldl_exec_changeLogStatements]
      · simp
    | replaceLeaf changeLog leafSchema compressed =>
      obtain rfl : changeLog = log := hlog
      have hlt := hnonce leafSchema rfl
      obtain ⟨leafRow, hleaf, hexec⟩ := issues_updateLeafSchema optionalInfo.txId slot changeLog.id
        hlt leaf.node changeLog.seq compressed
      refine ⟨[.leafSchema leafRow] ++
        (changeLogStatements changeLog optionalInfo.txId slot changeLog.id ++ []), ?_,
        fun db => ?_, fun hwritten hseq => ?_⟩
      · rw [ingest, ingestBubblegumReplaceLeaf, if_neg hskip', hhead]
        exact hleaf.andThen ((hrows changeLog.id).andThen .done)
      · rw [IngestCall.ingest, Indexer.ingestBubblegumReplaceLeaf, if_neg hskip',
          hhead]
        simp [hexec, foldl_exec_changeLogStatements]
      · have hpos := changeLogStatements_ne_nil optionalInfo.txId slot changeLog.id hseq hpath_ne
        simp
        omega

/-- A call that writes no leaf in the range issues nothing. -/
theorem quiet_ingest (h : call.Emitted) (hwritten : ¬ call.Written optionalInfo) :
    (ingest slot optionalInfo call).Quiet := by
  cases hskip : skipTx call.changeLog.seq optionalInfo.startSeq optionalInfo.endSeq with
  | true =>
    rw [ingest_of_skipTx hskip]
    trivial
  | false =>
    have hnone : call.leafSchema? = none := by
      by_contra hne
      exact hwritten ⟨hne, hskip⟩
    cases call with
    | createTree changeLog =>
      have hseq : changeLog.seq = 0 := h.seq.2 hnone
      rw [ingest, ingestBubblegumCreateTree, updateChangeLogs_of_seq _ _ _ hseq]
      split_ifs
      · trivial
      · exact ⟨trivial, trivial⟩
    | mint | replaceLeaf => cases hnone

end Atomic

/-! ### What a transaction issues -/

namespace Atomic

variable [NodeHash Node] [NodeLayout Node] [KeyLayout Pubkey] [SystemProgramId Pubkey]
  [ProgramIds Pubkey] [DecidableEq Pubkey] {slot : ℕ} {optionalInfo : OptionalInfo}

/-- No attempt is an exception, and the events are as the programs emit them. -/
def Parsed (attempts : List (Option (IngestCall Node Pubkey))) : Prop :=
  ∀ attempt ∈ attempts, ∃ call, attempt = some call ∧ call.Emitted

/-- A leaf in the range is to be written. -/
def Writes (optionalInfo : OptionalInfo) (attempts : List (Option (IngestCall Node Pubkey))) :
    Prop :=
  ∃ call, some call ∈ attempts ∧ call.Written optionalInfo

omit [NodeHash Node] [NodeLayout Node] [KeyLayout Pubkey] [SystemProgramId Pubkey]
  [ProgramIds Pubkey] [DecidableEq Pubkey] in
theorem writes_append {attempts attempts' : List (Option (IngestCall Node Pubkey))} :
    Writes optionalInfo (attempts ++ attempts') ↔
      Writes optionalInfo attempts ∨ Writes optionalInfo attempts' := by
  simp only [Writes, List.mem_append, or_and_right, exists_or]

/-- What is known of a computation that makes these calls. -/
structure Makes (optionalInfo : OptionalInfo) (f : Async (Statement Node Pubkey))
    (attempts : List (Option (IngestCall Node Pubkey))) : Prop where
  length_issued_le : f.issued.length ≤ 1
  issues : Parsed attempts →
    ∃ statements, f.Issues statements ∧ (Writes optionalInfo attempts → 2 ≤ statements.length)
  quiet : Parsed attempts → ¬ Writes optionalInfo attempts → f.Quiet

namespace Makes

variable {f g : Async (Statement Node Pubkey)}
  {attempts attempts' : List (Option (IngestCall Node Pubkey))}

omit [NodeHash Node] [NodeLayout Node] [KeyLayout Pubkey] [SystemProgramId Pubkey]
  [ProgramIds Pubkey] [DecidableEq Pubkey]

theorem done : Makes optionalInfo (.done : Async (Statement Node Pubkey)) [] where
  length_issued_le := Nat.zero_le _
  issues _ := ⟨[], .done, fun ⟨_, hcall, _⟩ => absurd hcall List.not_mem_nil⟩
  quiet _ _ := trivial

theorem fail : Makes optionalInfo (.fail : Async (Statement Node Pubkey)) [none] where
  length_issued_le := Nat.zero_le _
  issues h := by
    obtain ⟨call, hcall, -⟩ := h none List.mem_cons_self
    cases hcall
  quiet _ _ := trivial

theorem ingest [SystemProgramId Pubkey] (call : IngestCall Node Pubkey) :
    Makes optionalInfo (Atomic.ingest slot optionalInfo call) [some call] where
  length_issued_le := length_issued_ingest_le call
  issues h := by
    obtain ⟨_, heq, hemitted⟩ := h _ List.mem_cons_self
    obtain rfl := Option.some.inj heq
    obtain ⟨statements, hissues, -, hlength⟩ := issues_ingest hemitted.toRegular
    refine ⟨statements, hissues, fun ⟨call', hcall, hwritten⟩ => ?_⟩
    obtain rfl := Option.some.inj (List.mem_singleton.1 hcall)
    exact hlength hwritten fun hseq => hwritten.1 (hemitted.seq.1 hseq)
  quiet h hwrites := by
    obtain ⟨_, heq, hemitted⟩ := h _ List.mem_cons_self
    obtain rfl := Option.some.inj heq
    exact quiet_ingest hemitted fun hwritten => hwrites ⟨_, List.mem_cons_self, hwritten⟩

/-- One after the other. -/
theorem andThen (h : Makes optionalInfo f attempts) (h' : Makes optionalInfo g attempts') :
    Makes optionalInfo (f.andThen g) (attempts ++ attempts') where
  length_issued_le := by
    rw [Async.issued_andThen]
    exact h.length_issued_le
  issues hparsed := by
    obtain ⟨statements, hissues, hlength⟩ :=
      h.issues fun attempt hattempt => hparsed attempt (List.mem_append_left _ hattempt)
    obtain ⟨statements', hissues', hlength'⟩ :=
      h'.issues fun attempt hattempt => hparsed attempt (List.mem_append_right _ hattempt)
    refine ⟨statements ++ statements', hissues.andThen hissues', fun hwrites => ?_⟩
    rw [List.length_append]
    rcases writes_append.1 hwrites with hwrites | hwrites
    · have := hlength hwrites
      omega
    · have := hlength' hwrites
      omega
  quiet hparsed hwrites := by
    rw [writes_append, not_or] at hwrites
    exact (h.quiet (fun attempt hattempt => hparsed attempt (List.mem_append_left _ hattempt))
      hwrites.1).andThen
      (h'.quiet (fun attempt hattempt => hparsed attempt (List.mem_append_right _ hattempt))
        hwrites.2)

theorem andThen_done (h : Makes optionalInfo f attempts) :
    Makes optionalInfo (f.andThen .done) attempts := by
  have hdone := h.andThen done
  rwa [List.append_nil] at hdone

end Makes

/-- The asynchronous parser makes the calls that the parser attempts. -/
theorem makes_parseBubblegumLog (parsedLog : ParsedLog Pubkey) :
    Makes optionalInfo (parseBubblegumLog Node slot optionalInfo parsedLog)
      (Log.attempts (Log.parseBubblegumLog parsedLog)) := by
  rw [parseBubblegumLog]
  rcases Log.parseBubblegumLog parsedLog with _ | _ | call
  · exact .fail
  · exact .done
  · exact (Makes.ingest call).andThen_done.andThen_done

theorem makes_indexLogs (logs : Logs Pubkey) :
    Makes optionalInfo (indexLogs Node slot optionalInfo logs) (Log.indexLogs logs) := by
  induction logs with
  | nil => exact .done
  | line line rest ih => exact Makes.done.andThen ih
  | parsedLog programId depth logs rest ihlogs ihrest =>
    rw [indexLogs, Log.indexLogs]
    split_ifs
    · exact (makes_parseBubblegumLog _).andThen_done.andThen ihrest
    · exact ihlogs.andThen ihrest

theorem makes_indexParsedLog (parsedLog : ParsedLog Pubkey) :
    Makes optionalInfo (indexParsedLog Node slot optionalInfo parsedLog)
      (Log.indexParsedLog parsedLog) := by
  rw [indexParsedLog, Log.indexParsedLog]
  split_ifs
  · exact (makes_parseBubblegumLog _).andThen_done
  · exact makes_indexLogs _

end Atomic

/-! ### The whole function -/

/-- Nothing is issued, or all rows are written between `BEGIN TRANSACTION` and `COMMIT`. -/
def Enclosed (log : List (Statement Node Pubkey)) : Prop :=
  log = [] ∨ ∃ rows, log = .beginTransaction :: (rows ++ [.commit]) ∧ ∀ s ∈ rows, s.IsRow

/-- What follows `COMMIT` is not enclosed. -/
theorem not_enclosed_of_prefix {log : List (Statement Node Pubkey)}
    {issued : List (Statement Node Pubkey)}
    (h : .beginTransaction :: (issued ++ [.commit]) <+: log)
    (hlt : (Statement.beginTransaction :: (issued ++ [.commit]) : List (Statement Node
      Pubkey)).length < log.length) : ¬ Enclosed log := by
  rintro (rfl | ⟨rows, rfl, hrows⟩)
  · exact absurd hlt (Nat.not_lt_zero _)
  · obtain ⟨later, hlater⟩ := h
    have heq : issued ++ [.commit] ++ later = rows ++ [.commit] := (List.cons.inj hlater).2
    rcases List.eq_nil_or_concat' later with rfl | ⟨init, last, rfl⟩
    · rw [List.append_nil] at hlater
      rw [hlater] at hlt
      exact absurd hlt (Nat.lt_irrefl _)
    · -- `COMMIT` would be one of the rows
      rw [← List.append_assoc] at heq
      obtain ⟨rfl, -⟩ := List.append_inj' heq rfl
      exact hrows .commit (by simp)

section Whole

variable [NodeHash Node] [NodeLayout Node] [KeyLayout Pubkey] [SystemProgramId Pubkey]
  [ProgramIds Pubkey] [DecidableEq Pubkey] {slot : ℕ} {optionalInfo : OptionalInfo}
  {parsedLogs : List (ParsedLog Pubkey)}

variable (Node) in
/-- What `handleLogsAtomic` has started when it returns. -/
def started (slot : ℕ) (optionalInfo : OptionalInfo) (parsedLogs : List (ParsedLog Pubkey)) :
    Async.Machine (Statement Node Pubkey) :=
  .start (Atomic.beginTransaction ::
    (parsedLogs.map (Atomic.indexParsedLog Node slot optionalInfo) ++ [Atomic.commit]))

theorem log_started (slot : ℕ) (optionalInfo : OptionalInfo) (parsedLogs : List (ParsedLog Pubkey)) :
    (started Node slot optionalInfo parsedLogs).log = .beginTransaction ::
      (parsedLogs.flatMap (fun parsedLog =>
        (Atomic.indexParsedLog Node slot optionalInfo parsedLog).issued) ++ [.commit]) := by
  simp [started, Async.Machine.start, Atomic.beginTransaction, Atomic.commit, Async.run,
    Async.issued, List.flatMap_map]

theorem mem_waiting_started {parsedLog : ParsedLog Pubkey} (h : parsedLog ∈ parsedLogs)
    {p : Async (Statement Node Pubkey) × Async (Statement Node Pubkey)}
    (hp : (Atomic.indexParsedLog Node slot optionalInfo parsedLog).pending = some p) :
    p ∈ (started Node slot optionalInfo parsedLogs).waiting := by
  refine List.mem_filterMap.2 ⟨_, ?_, hp⟩
  exact List.mem_cons_of_mem _ (List.mem_append_left _ (List.mem_map_of_mem h))

variable (Node) in
/-- The calls that are attempted for the log of an instruction. -/
abbrev attemptsOf (parsedLog : ParsedLog Pubkey) : List (Option (IngestCall Node Pubkey)) :=
  Log.indexParsedLog parsedLog

/-- A leaf that is to be written has statements behind the first `await`. -/
theorem exists_waiting_of_writes {parsedLog : ParsedLog Pubkey} (hmem : parsedLog ∈ parsedLogs)
    (h : Atomic.Parsed (attemptsOf Node parsedLog))
    (hwrites : Atomic.Writes optionalInfo (attemptsOf Node parsedLog)) (slot : ℕ) :
    ∃ p ∈ (started Node slot optionalInfo parsedLogs).waiting, p.1.full ≠ [] := by
  have hmakes : Atomic.Makes optionalInfo (Atomic.indexParsedLog Node slot optionalInfo parsedLog)
      (attemptsOf Node parsedLog) := Atomic.makes_indexParsedLog parsedLog
  obtain ⟨statements, hissues, hlength⟩ := hmakes.issues h
  have htwo := hlength hwrites
  have hone := hmakes.length_issued_le
  rw [← hissues.full_eq, Async.full_eq, List.length_append] at htwo
  cases hpending : (Atomic.indexParsedLog Node slot optionalInfo parsedLog).pending with
  | none =>
    simp only [hpending, Option.map_none, Option.getD_none, List.length_nil] at htwo
    omega
  | some p =>
    refine ⟨p, mem_waiting_started hmem hpending, fun hnil => ?_⟩
    simp only [hpending, Option.map_some, Option.getD_some, hnil, List.length_nil] at htwo
    omega

/-- In whatever order the promises are resolved, `COMMIT` does not come last when a leaf is to be
written. -/
theorem not_enclosed_of_resolves {parsedLog : ParsedLog Pubkey} (hmem : parsedLog ∈ parsedLogs)
    (h : Atomic.Parsed (attemptsOf Node parsedLog))
    (hwrites : Atomic.Writes optionalInfo (attemptsOf Node parsedLog))
    {machine : Async.Machine (Statement Node Pubkey)}
    (hrun : (started Node slot optionalInfo parsedLogs).Resolves machine)
    (hend : machine.waiting = []) : ¬ Enclosed machine.log := by
  obtain ⟨p, hp, hfull⟩ := exists_waiting_of_writes hmem h hwrites slot
  obtain ⟨hpre, hlength⟩ := hrun.length_log
  have hpos : 0 < (started Node slot optionalInfo parsedLogs).toCome :=
    (List.length_pos_iff.2 hfull).trans_le
      (List.single_le_sum (by simp) _ (List.mem_map_of_mem hp))
  have hzero : machine.toCome = 0 := by simp [Async.Machine.toCome, hend]
  rw [log_started] at hpre hlength
  exact not_enclosed_of_prefix hpre (by omega)

/-- Without a leaf to write, only `BEGIN TRANSACTION` and `COMMIT` are issued. -/
theorem log_of_reaches (h : ∀ parsedLog ∈ parsedLogs, Atomic.Parsed (attemptsOf Node parsedLog))
    (hwrites : ∀ parsedLog ∈ parsedLogs, ¬ Atomic.Writes optionalInfo (attemptsOf Node parsedLog))
    {machine : Async.Machine (Statement Node Pubkey)}
    (hrun : (started Node slot optionalInfo parsedLogs).Reaches machine) :
    machine.log = [.beginTransaction, .commit] := by
  have hquiet : ∀ parsedLog ∈ parsedLogs,
      (Atomic.indexParsedLog Node slot optionalInfo parsedLog).Quiet := fun parsedLog hmem =>
    (Atomic.makes_indexParsedLog parsedLog).quiet (h parsedLog hmem) (hwrites parsedLog hmem)
  rw [hrun.log_eq, log_started]
  · have hnil : parsedLogs.flatMap (fun parsedLog =>
        (Atomic.indexParsedLog Node slot optionalInfo parsedLog).issued) = [] :=
      List.flatMap_eq_nil_iff.2 fun parsedLog hmem => (hquiet parsedLog hmem).issued_eq
    rw [hnil, List.nil_append]
  · intro p hp
    obtain ⟨f, hf, hpending⟩ := List.mem_filterMap.1 hp
    simp only [List.mem_cons, List.mem_append, List.mem_map, List.not_mem_nil, or_false] at hf
    rcases hf with rfl | ⟨parsedLog, hmem, rfl⟩ | rfl
    · obtain rfl := Option.some.inj hpending
      exact ⟨trivial, trivial⟩
    · exact (hquiet parsedLog hmem).of_pending hpending
    · obtain rfl := Option.some.inj hpending
      exact ⟨trivial, trivial⟩

/-- The statements are enclosed in every run if and only if no leaf is to be written. -/
theorem started_enclosed_iff
    (h : ∀ parsedLog ∈ parsedLogs, Atomic.Parsed (attemptsOf Node parsedLog)) :
    (∀ machine, (started Node slot optionalInfo parsedLogs).Reaches machine →
      Enclosed machine.log) ↔
      ∀ parsedLog ∈ parsedLogs, ¬ Atomic.Writes optionalInfo (attemptsOf Node parsedLog) := by
  constructor
  · intro henclosed parsedLog hmem hwrites
    obtain ⟨⟨resolved, rejected⟩, hp, hfull⟩ :=
      exists_waiting_of_writes hmem (h parsedLog hmem) hwrites slot
    obtain ⟨before, after, hwaiting⟩ := List.append_of_mem hp
    obtain ⟨machine, hreaches, hlog⟩ := Async.Machine.exists_reaches before after
      (started Node slot optionalInfo parsedLogs).log (.await resolved rejected)
    have hstart : Async.Machine.mk
        (before ++ (Async.await resolved rejected).pending.toList ++ after)
        ((started Node slot optionalInfo parsedLogs).log ++ []) =
          started Node slot optionalInfo parsedLogs := by
      rw [List.append_nil, Async.pending, Option.toList_some, List.append_assoc,
        List.singleton_append, ← hwaiting]
    have hlt : 0 < resolved.full.length := List.length_pos_iff.2 hfull
    have hpre : (started Node slot optionalInfo parsedLogs).log <+: machine.log :=
      hlog ▸ List.prefix_append _ _
    have hlength := congrArg List.length hlog
    rw [List.length_append, Async.full] at hlength
    rw [log_started] at hpre hlength
    exact not_enclosed_of_prefix hpre (by omega) (henclosed machine (hstart ▸ hreaches))
  · intro hwrites machine hreaches
    exact .inr ⟨[], log_of_reaches h hwrites hreaches, by simp⟩

variable (Node) in
/-- Whatever happens later, all statements that `handleLogsAtomic` causes for a transaction that
succeeded are enclosed if and only if no event of a leaf has a number in the range. -/
theorem handleLogsAtomic_enclosed_iff (slot : ℕ) (optionalInfo : OptionalInfo)
    (h : ∀ parsedLog ∈ parsedLogs, Atomic.Parsed (attemptsOf Node parsedLog)) :
    ∃ machine, handleLogsAtomic Node false (.parsed parsedLogs) slot optionalInfo =
        some (.Success, machine) ∧
      ((∀ machine', machine.Reaches machine' → Enclosed machine'.log) ↔
        ∀ parsedLog ∈ parsedLogs, ∀ call, some call ∈ attemptsOf Node parsedLog →
          call.leafSchema? ≠ none →
          skipTx call.changeLog.seq optionalInfo.startSeq optionalInfo.endSeq = true) := by
  have hwrites : (∀ parsedLog ∈ parsedLogs,
      ¬ Atomic.Writes optionalInfo (attemptsOf Node parsedLog)) ↔
        ∀ parsedLog ∈ parsedLogs, ∀ call, some call ∈ attemptsOf Node parsedLog →
          call.leafSchema? ≠ none →
          skipTx call.changeLog.seq optionalInfo.startSeq optionalInfo.endSeq = true := by
    simp only [Atomic.Writes, IngestCall.Written, not_exists, not_and, Bool.not_eq_false]
  rw [← hwrites]
  cases parsedLogs with
  | nil =>
    refine ⟨_, rfl, iff_of_true (fun machine hreaches => .inl ?_) (by simp)⟩
    exact hreaches.log_eq (by simp [Async.Machine.start])
  | cons parsedLog parsedLogs => exact ⟨_, rfl, started_enclosed_iff h⟩

end Whole

end Candyland.Sdk.Indexer

/-! ### The log of a transaction -/

namespace Candyland.Sdk.Indexer

open Bubblegum (Event Executed)
open ConcurrentMerkleTree (NodeHash)
open Gummyroll (ChangeLogEvent)

variable {Node Pubkey : Type} [NodeHash Node] [NodeLayout Node] [KeyLayout Pubkey]

section Depth

omit [KeyLayout Pubkey] in
theorem Log.entries_logs (trace : Trace Pubkey) (d d' : ℕ) :
    Log.entries (trace.logs d) = Log.entries (trace.logs d') := by
  induction trace generalizing d d' with
  | done => rfl
  | log line rest ih => exact congrArg (some line :: ·) (ih d d')
  | invoke call inner rest _ ih => exact congrArg (none :: ·) (ih d d')

omit [KeyLayout Pubkey] in
theorem Log.parseIxName_logs (trace : Trace Pubkey) (d d' : ℕ) :
    Log.parseIxName (trace.logs d) = Log.parseIxName (trace.logs d') := by
  cases trace with
  | done | invoke => rfl
  | log line rest => cases line <;> rfl

theorem Log.findBubblegumEvents_logs (trace : Trace Pubkey) (d d' : ℕ) :
    (Log.findBubblegumEvents (trace.logs d) : List (Option (Event Node Pubkey))) =
      Log.findBubblegumEvents (trace.logs d') := by
  induction trace generalizing d d' with
  | done => rfl
  | log line rest ih => cases line <;> simp [Trace.logs, Log.findBubblegumEvents, ih d d']
  | invoke call inner rest _ ih => exact ih d d'

variable [SystemProgramId Pubkey] [ProgramIds Pubkey] [DecidableEq Pubkey]

theorem Log.findGummyrollEvent_logs (trace : Trace Pubkey) (d d' : ℕ)
    (changeLog : Option (ChangeLogEvent Node Pubkey)) :
    Log.findGummyrollEvent changeLog (trace.logs d) =
      Log.findGummyrollEvent changeLog (trace.logs d') := by
  induction trace generalizing d d' changeLog with
  | done => rfl
  | log line rest ih => exact ih d d' changeLog
  | invoke call inner rest _ ih =>
    have hinner : (Log.parseEventGummyroll (inner.logs (d + 1)) :
        Option (Option (ChangeLogEvent Node Pubkey))) =
        Log.parseEventGummyroll (inner.logs (d' + 1)) := by
      rw [Log.parseEventGummyroll, Log.parseEventGummyroll, Log.parseChangelogEvent,
        Log.parseChangelogEvent, Log.parseIxName_logs inner (d + 1) (d' + 1),
        Log.entries_logs inner (d + 1) (d' + 1)]
    simp only [Trace.logs, Log.findGummyrollEvent, hinner, ih d d']

/-- The depth of a call does not matter. -/
theorem Log.parseBubblegumLog_depth (trace : Trace Pubkey) (programId : Pubkey) (depth d : ℕ) :
    (Log.parseBubblegumLog ⟨programId, depth, trace.logs d⟩ :
      Option (Option (IngestCall Node Pubkey))) =
      Log.parseBubblegumLog ⟨ProgramIds.bubblegum, 0, trace.logs 0⟩ := by
  simp only [Log.parseBubblegumLog, Log.parseBubblegumCreateTree, Log.parseBubblegumMint,
    Log.parseBubblegumReplaceLeaf, Log.parseIxName_logs trace d 0,
    Log.findBubblegumEvents_logs trace d 0, Log.findGummyrollEvent_logs trace d 0]

end Depth

variable [SystemProgramId Pubkey] [ProgramIds Pubkey] [DecidableEq Pubkey]

/-- The entries of a log in which bubblegum was called for these instructions, at any depth. -/
inductive PrintedBy (history : List (Executed Node Pubkey)) : Logs Pubkey → Prop
  | nil : PrintedBy history .nil
  | line (logLine : LogLine) {rest : Logs Pubkey} (hrest : PrintedBy history rest) :
      PrintedBy history (.line logLine rest)
  | bubblegum {x : Executed Node Pubkey} (hx : x ∈ history) {unread : Unread Pubkey}
      {trace : Trace Pubkey} (htrace : x.trace unread = some trace) (depth d : ℕ)
      {rest : Logs Pubkey} (hrest : PrintedBy history rest) :
      PrintedBy history (.parsedLog ProgramIds.bubblegum depth (trace.logs d) rest)
  | other {programId : Pubkey} (hne : programId ≠ ProgramIds.bubblegum) (depth : ℕ)
      {logs rest : Logs Pubkey} (hlogs : PrintedBy history logs) (hrest : PrintedBy history rest) :
      PrintedBy history (.parsedLog programId depth logs rest)

/-- The calls that are attempted for it are those of the instructions. -/
theorem PrintedBy.parsed {history : List (Executed Node Pubkey)} {logs : Logs Pubkey}
    (h : PrintedBy history logs)
    (hemitted : ∀ x ∈ history, ∀ call, x.ingestCall? = some call → call.Emitted) :
    Atomic.Parsed (Log.indexLogs logs : List (Option (IngestCall Node Pubkey))) := by
  induction h with
  | nil => simp [Atomic.Parsed, Log.indexLogs]
  | line logLine hrest ih => exact ih
  | @bubblegum x hx unread trace htrace depth d rest hrest ih =>
    rw [Log.indexLogs, if_pos rfl, Log.parseBubblegumLog_depth, Log.parseBubblegumLog_trace htrace]
    intro attempt hattempt
    rcases List.mem_append.1 hattempt with hattempt | hattempt
    · simp only [Log.attempts, List.mem_map, Option.mem_toList] at hattempt
      obtain ⟨call, hcall, rfl⟩ := hattempt
      exact ⟨call, rfl, hemitted x hx call hcall⟩
    · exact ih attempt hattempt
  | other hne depth hlogs hrest ihlogs ihrest =>
    rw [Log.indexLogs, if_neg hne]
    intro attempt hattempt
    rcases List.mem_append.1 hattempt with hattempt | hattempt
    · exact ihlogs attempt hattempt
    · exact ihrest attempt hattempt

/-- An instruction of the transaction. -/
theorem PrintedBy.parsed_attemptsOf {history : List (Executed Node Pubkey)}
    {parsedLog : ParsedLog Pubkey}
    (h : PrintedBy history (.parsedLog parsedLog.programId parsedLog.depth parsedLog.logs .nil))
    (hemitted : ∀ x ∈ history, ∀ call, x.ingestCall? = some call → call.Emitted) :
    Atomic.Parsed (attemptsOf Node parsedLog) := by
  have hparsed := h.parsed hemitted
  rw [Log.indexLogs, Log.indexLogs] at hparsed
  rw [attemptsOf, Log.indexParsedLog]
  split_ifs at hparsed ⊢ <;> simpa using hparsed

end Candyland.Sdk.Indexer

/-! ### What the programs emit -/

namespace Candyland.Bubblegum

open ConcurrentMerkleTree (NodeHash CollisionFree NonzeroHash)
open Gummyroll (Build ChangeLogEvent)
open Sdk.Indexer (IngestCall)

variable {Node Pubkey : Type} [NodeHash Node] [LeafHash Node Pubkey] [ProgramAddress Pubkey]
  [DecidableEq Node] [DecidableEq Pubkey] [Build] [CollisionFree Node] [NonzeroHash Node]
  [CollisionFreeLeaf Node Pubkey] [InjectiveAddress Pubkey] {st : State Node Pubkey}
  {history : List (Executed Node Pubkey)} {x : Executed Node Pubkey}
  {call : IngestCall Node Pubkey}

/-- As long as the updates can be numbered, the calls for the executed instructions are as they are
assumed to be. -/
theorem Reachable.call_emitted (h : Reachable history st) (hx : x ∈ history)
    (hcall : x.ingestCall? = some call) (hseq : ∀ slab tree, st.trees slab = some tree →
      tree.slab.account.roll.sequenceNumber < 2 ^ 63) : call.Emitted := by
  obtain ⟨slab, hname⟩ := Executed.tree_of_ingestCall hcall
  obtain ⟨-, hpath, hnonce⟩ := h.call_regular hx hname hcall
  obtain ⟨tree, -, htree, -, -⟩ := h.call_suffix hx hname hcall
  obtain ⟨ws, -, heq, hmatch⟩ :=
    h.call_eq hx hname hcall htree (h.logged htree (hseq slab tree htree))
  have hlength : call.changeLog.seq = ws.length := congrArg ChangeLogEvent.seq heq
  refine ⟨⟨hpath, hnonce⟩, ?_⟩
  rw [hlength, List.length_eq_zero_iff]
  cases hleaf : call.leafSchema? with
  | none =>
    rw [hleaf] at hmatch
    simp [hmatch]
  | some s =>
    rw [hleaf] at hmatch
    simp [hmatch.1]

end Candyland.Bubblegum

/-! ### A mint -/

namespace Candyland.Sdk.Indexer.Truncated

open Bubblegum (Key)
open ConcurrentMerkleTree (Term)

/-- The log of the mint. -/
def mintLog : ParsedLog Key := ⟨ProgramIds.bubblegum, 0, (traceOf minting).logs 0⟩

theorem attempts_mintLog : attemptsOf Term mintLog = minting.ingestCall?.toList.map some := by
  have htrace := Log.parseBubblegumLog_trace (trace_eq_some (x := minting) (by decide +kernel))
  rw [attemptsOf, Log.indexParsedLog, mintLog, if_pos rfl, htrace]
  rfl

/-- The event of the mint is the first one behind the creation of the tree. -/
theorem emitted_minting : ∃ call, minting.ingestCall? = some call ∧ call.Emitted ∧
    call.changeLog.seq = 1 ∧ call.leafSchema? ≠ none := by
  have hall : (minting.ingestCall?.any fun call => decide (call.changeLog.path ≠ []) &&
      decide (call.changeLog.seq = 1) && call.leafSchema?.any fun s =>
        decide (s.schema.nonce.toNat < 2 ^ 53)) = true := by
    decide +kernel
  obtain ⟨call, hcall, hall⟩ := (Option.any_eq_true _ _).1 hall
  simp only [Bool.and_eq_true, decide_eq_true_eq] at hall
  obtain ⟨⟨hpath, hseq⟩, hleaf⟩ := hall
  obtain ⟨leaf, hleaf, hnonce⟩ := (Option.any_eq_true _ _).1 hleaf
  refine ⟨call, hcall, ⟨⟨hpath, fun s hs => ?_⟩, by simp [hseq, hleaf]⟩, hseq, by simp [hleaf]⟩
  obtain rfl := Option.some.inj (hleaf.symm.trans hs)
  exact of_decide_eq_true hnonce

theorem parsed_mintLog : Atomic.Parsed (attemptsOf Term mintLog) := by
  have htrace := trace_eq_some (x := minting) (by decide +kernel)
  refine PrintedBy.parsed_attemptsOf
    (.bubblegum (List.mem_singleton_self minting) htrace 0 0 .nil) fun x hx call hcall => ?_
  obtain ⟨call', hcall', hemitted, -⟩ := emitted_minting
  obtain rfl := List.mem_singleton.1 hx
  obtain rfl := Option.some.inj (hcall.symm.trans hcall')
  exact hemitted

/-- Numbers below 1 are asked for, so that nothing is written. -/
theorem mintLog_enclosed :
    ∃ machine, handleLogsAtomic Term false (.parsed [mintLog]) 0 ⟨"", none, some 1⟩ =
        some (.Success, machine) ∧
      ∀ machine', machine.Reaches machine' → Enclosed machine'.log := by
  have hparsed : ∀ parsedLog ∈ [mintLog], Atomic.Parsed (attemptsOf Term parsedLog) := by
    simpa using parsed_mintLog
  obtain ⟨machine, hmachine, hiff⟩ := handleLogsAtomic_enclosed_iff Term 0 ⟨"", none, some 1⟩ hparsed
  refine ⟨machine, hmachine, hiff.2 fun parsedLog hmem call hcall _ => ?_⟩
  obtain rfl := List.mem_singleton.1 hmem
  obtain ⟨call', hcall', -, hseq, -⟩ := emitted_minting
  rw [attempts_mintLog, hcall'] at hcall
  obtain rfl := Option.some.inj (List.mem_singleton.1 hcall)
  simp [skipTx, hseq]

/-- The row of the leaf and those of the path are written behind `COMMIT`. -/
theorem mintLog_not_enclosed :
    ∃ machine, handleLogsAtomic Term false (.parsed [mintLog]) 0 ⟨"", none, none⟩ =
        some (.Success, machine) ∧
      ∃ machine', machine.Reaches machine' ∧ ¬ Enclosed machine'.log := by
  refine ⟨_, rfl, ?_⟩
  have hparsed : ∀ parsedLog ∈ [mintLog], Atomic.Parsed (attemptsOf Term parsedLog) := by
    simpa using parsed_mintLog
  obtain ⟨call, hcall, -, -, hleaf⟩ := emitted_minting
  have hwrites : Atomic.Writes ⟨"", none, none⟩ (attemptsOf Term mintLog) := by
    refine ⟨call, ?_, hleaf, rfl⟩
    rw [attempts_mintLog, hcall]
    exact List.mem_cons_self
  by_contra hnone
  have hall : ∀ machine, (started Term 0 ⟨"", none, none⟩ [mintLog]).Reaches machine →
      Enclosed machine.log := fun machine hreaches => by
    by_contra hnot
    exact hnone ⟨machine, hreaches, hnot⟩
  exact (started_enclosed_iff hparsed).1 hall mintLog List.mem_cons_self hwrites

end Candyland.Sdk.Indexer.Truncated
