import Candyland.Sdk.Accounts
import Candyland.Sdk.Indexer.InnerInstruction
import Candyland.Sdk.Indexer.Log

/-!
# The backfiller

How the indexer finds the sequence numbers that its tables do not have and fetches the blocks
that have them.  The jobs of a batch run one after the other, and so do the calls that are not
awaited.
-/

namespace Candyland.Sdk.Indexer

open Bubblegum (LeafHash ProgramAddress)
open ConcurrentMerkleTree (NodeHash)

variable {Node Pubkey : Type}

/-! ### Gaps -/

/-- `GapInfo`.  A range that starts before all rows has no start. -/
structure GapInfo where
  prevSeq : Option ℕ
  currSeq : ℕ
  prevSlot : Option ℕ
  currSlot : ℕ
deriving DecidableEq

/-- The loop of `getMissingData` over the pairs of `seq` and `slot`; two pairs with one `seq` are an
error. -/
def findGaps : List (ℕ × ℕ) → Option (List GapInfo)
  | (prevSeq, prevSlot) :: (currSeq, currSlot) :: res =>
    if currSeq = prevSeq then none
    else do
      let gaps ← findGaps ((currSeq, currSlot) :: res)
      if currSeq - prevSeq > 1 then
        some (⟨some prevSeq, currSeq, some prevSlot, currSlot⟩ :: gaps)
      else some gaps
  | _ => some []

section Queries

variable [DecidableEq Pubkey] (self : NFTDatabaseConnection Node Pubkey)

/-- The query of `getMissingData`: the different pairs of `seq` and `slot`. -/
def NFTDatabaseConnection.seqSlots (minSeq : ℕ) (treeId : Pubkey) : List (ℕ × ℕ) :=
  Table.orderBy Prod.fst <| List.dedup <| (self.merkle.filter fun row =>
    decide (row.treeId = treeId) && decide (minSeq ≤ row.seq)).map fun row => (row.seq, row.slot)

/-- `getMissingData(minSeq, treeId)`: the gaps, and the last pair. -/
def NFTDatabaseConnection.getMissingData (minSeq : ℕ) (treeId : Pubkey) :
    Option (List GapInfo × Option (ℕ × ℕ)) := do
  let res := self.seqSlots minSeq treeId
  let gaps ← findGaps res
  some (gaps, res.getLast?)

end Queries

/-! ### Transactions -/

/-- `logMessages`, by what `parseLogs` makes of them. -/
inductive LogMessages (Pubkey : Type) where
  /-- A line says that the log is truncated. -/
  | truncated
  /-- `parseLogs` throws. -/
  | malformed
  | parsed (logs : List (ParsedLog Pubkey))
deriving DecidableEq

/-- A transaction of a block. -/
structure Transaction (Pubkey : Type) where
  signature : String
  err : Bool
  accountKeys : List Pubkey
  logMessages : LogMessages Pubkey
  instructions : List CompiledInstruction
  innerInstructions : List CompiledInnerInstruction
deriving DecidableEq

/-- `ZippedInstruction`. -/
structure ZippedInstruction where
  instruction : CompiledInstruction
  innerInstructions : List CompiledInnerInstruction
deriving DecidableEq

/-- `zipInstructions(instructions, innerInstructions)`; of two entries with one index the map keeps
the last. -/
def zipInstructions (instructions : List CompiledInstruction)
    (innerInstructions : List CompiledInnerInstruction) : List ZippedInstruction :=
  instructions.zipIdx.map fun (instruction, instructionIndex) =>
    ⟨instruction,
      (innerInstructions.reverse.find? fun inner => inner.index = instructionIndex).toList⟩

section Index

variable [NodeHash Node] [NodeLayout Node] [KeyLayout Pubkey] [SystemProgramId Pubkey]
  [ProgramIds Pubkey] [DecidableEq Pubkey] [LeafHash Node Pubkey] [ProgramAddress Pubkey]

/-- What `indexZippedInstruction(db, .., accountKeys, zippedInstruction)` attempts. -/
def indexZippedInstruction (accountKeys : List Pubkey) (zipped : ZippedInstruction) :
    Option (List (Option (IngestCall Node Pubkey))) := do
  let programId ← accountKeys[zipped.instruction.programIdIndex]?
  if programId = ProgramIds.bubblegum then
    some (Log.attempts (Instruction.parseBubblegumInstruction accountKeys zipped.instruction
      zipped.innerInstructions))
  else
    match zipped.innerInstructions with
    | inner :: _ =>
      some (InnerInstruction.parseBubblegumInnerInstructions accountKeys inner.instructions)
    | [] => some []

/-- What is attempted for a transaction, for each of its instructions that is started.  After
`none` the next instruction is not started. -/
def Transaction.attempts (tx : Transaction Pubkey) :
    List (Option (List (Option (IngestCall Node Pubkey)))) :=
  match tx.logMessages with
  | .malformed => [none]
  | .parsed logs => logs.map fun parsedLog => some (Log.indexParsedLog parsedLog)
  | .truncated =>
    (zipInstructions tx.instructions tx.innerInstructions).map
      (indexZippedInstruction tx.accountKeys)

omit [NodeHash Node] [NodeLayout Node] [KeyLayout Pubkey] [ProgramIds Pubkey]
  [LeafHash Node Pubkey] [ProgramAddress Pubkey] in
/-- Awaits calls one after the other; none is made after an exception. -/
def awaitCalls (slot : ℕ) (optionalInfo : OptionalInfo) (db : NFTDatabaseConnection Node Pubkey) :
    List (Option (IngestCall Node Pubkey)) → NFTDatabaseConnection Node Pubkey
  | some call :: calls =>
    match call.ingest db slot optionalInfo with
    | some db => awaitCalls slot optionalInfo db calls
    | none => db
  | _ => db

omit [NodeHash Node] [NodeLayout Node] [KeyLayout Pubkey] [ProgramIds Pubkey]
  [LeafHash Node Pubkey] [ProgramAddress Pubkey] in
/-- `handleLogsAtomic` or `handleInstructionsAtomic`, with the tables also when it throws. -/
def handleAtomic (slot : ℕ) (optionalInfo : OptionalInfo)
    (db : NFTDatabaseConnection Node Pubkey) :
    List (Option (List (Option (IngestCall Node Pubkey)))) →
      Except (NFTDatabaseConnection Node Pubkey) (NFTDatabaseConnection Node Pubkey)
  | [] => .ok db
  | none :: _ => .error db
  | some calls :: rest =>
    handleAtomic slot optionalInfo (awaitCalls slot optionalInfo db calls) rest

/-! ### Fetching -/

/-- The loop of `plugGapsFromSlot` over the transactions of a block.  Its caller catches what it
throws. -/
def plugTransactions (treeKey : Pubkey) (slot : ℕ) (startSeq : Option ℕ) (endSeq : ℕ)
    (db : NFTDatabaseConnection Node Pubkey) :
    List (Transaction Pubkey) → NFTDatabaseConnection Node Pubkey
  | [] => db
  | tx :: txs =>
    if tx.accountKeys.all (fun pk => decide (pk ≠ treeKey) &&
        decide (pk ≠ ProgramIds.bubblegum)) then
      plugTransactions treeKey slot startSeq endSeq db txs
    else if tx.err then plugTransactions treeKey slot startSeq endSeq db txs
    else
      match handleAtomic slot ⟨tx.signature, startSeq, some endSeq⟩ db tx.attempts with
      | .ok db => plugTransactions treeKey slot startSeq endSeq db txs
      | .error db => db

/-- `plugGapsFromSlot(connection, .., slot, startSeq, endSeq, treeKey)`. -/
def plugGapsFromSlot (getBlock : ℕ → Option (List (Transaction Pubkey))) (treeKey : Pubkey)
    (slot : ℕ) (startSeq : Option ℕ) (endSeq : ℕ) (db : NFTDatabaseConnection Node Pubkey) :
    NFTDatabaseConnection Node Pubkey :=
  match getBlock slot with
  | some blockData => plugTransactions treeKey slot startSeq endSeq db blockData
  | none => db

/-- The slots that the loop of `plugGaps` visits; without a first one it gets no block, and goes
on with `1`. -/
def slotsOf (startSlot : Option ℕ) (endSlot : ℕ) : List ℕ :=
  match startSlot with
  | some startSlot => List.range' startSlot (endSlot + 1 - startSlot)
  | none => List.range' 1 endSlot

/-- `plugGaps(connection, .., startSlot, endSlot, startSeq, endSeq)`. -/
def plugGaps (getBlock : ℕ → Option (List (Transaction Pubkey))) (treeKey : Pubkey)
    (gap : GapInfo) (db : NFTDatabaseConnection Node Pubkey) : NFTDatabaseConnection Node Pubkey :=
  (slotsOf gap.prevSlot gap.currSlot).foldl (fun db slot =>
    plugGapsFromSlot getBlock treeKey slot gap.prevSeq gap.currSeq db) db

/-- `plugGapsBatched(batchSize, missingData, ..)`. -/
def plugGapsBatched (getBlock : ℕ → Option (List (Transaction Pubkey))) (treeKey : Pubkey)
    (missingData : List GapInfo) (db : NFTDatabaseConnection Node Pubkey) :
    NFTDatabaseConnection Node Pubkey :=
  missingData.foldl (fun db gap => plugGaps getBlock treeKey gap db) db

/-- What a cluster answers. -/
structure Connection (Pubkey : Type) where
  getBlock : ℕ → Option (List (Transaction Pubkey))
  getSlot : ℕ
  getAccountInfo : Pubkey → Option (List UInt8)

/-- `fetchAndPlugGaps(connection, nftDb, minSeq, treeId, parserState)`. -/
def fetchAndPlugGaps (connection : Connection Pubkey) (db : NFTDatabaseConnection Node Pubkey)
    (minSeq : ℕ) (treeId : Pubkey) : Option (NFTDatabaseConnection Node Pubkey) := do
  let (missingData, last) ← db.getMissingData minSeq treeId
  let currSlot := connection.getSlot
  match connection.getAccountInfo treeId with
  | none => some db
  | some merkleAccount => do
    let merkleRoll ← decodeMerkleRoll merkleAccount
    let sequenceNumber ← toNumber merkleRoll.roll.sequenceNumber
    let merkleSeq := sequenceNumber - 1
    -- `null` counts as zero
    let maxDbSeq := (last.map Prod.fst).getD 0
    let maxDbSlot := (last.map Prod.snd).getD 0
    let missingData :=
      if merkleSeq - maxDbSeq > 1 ∧ maxDbSlot < currSlot then
        missingData ++ [⟨last.map Prod.fst, merkleSeq, last.map Prod.snd, currSlot⟩]
      else missingData
    some (plugGapsBatched connection.getBlock treeId missingData db)

end Index

end Candyland.Sdk.Indexer
