import Candyland.Sdk.Indexer.Instruction

/-!
# The parser of inner instructions

Bubblegum can be called by another program.  The inner instructions of a transaction have no
depth, so that the parser walks through all of them with a cursor.
-/

namespace Candyland.Sdk.Indexer

open Bubblegum (LeafHash LeafSchemaEvent NewNFTEvent ProgramAddress)
open ConcurrentMerkleTree (NodeHash)
open Gummyroll (ChangeLogEvent)

namespace InnerInstruction

variable {Node Pubkey : Type} [NodeHash Node] [NodeLayout Node] [KeyLayout Pubkey]
  [SystemProgramId Pubkey] [ProgramIds Pubkey] [DecidableEq Pubkey]
  (accountKeys : List Pubkey) (instructions : List CompiledInstruction) (currentIndex : ℕ)

/-- `parseBubblegumCreateTreeInstructions(db, .., instructions, currentIndex)`: the call that is
made and the new index. -/
def parseBubblegumCreateTreeInstructions : Option (IngestCall Node Pubkey × ℕ) := do
  let (found, count) ← findWrapInstructions accountKeys (instructions.drop currentIndex) 1
  let changeLogEvent ← decodeEventInstructionData ChangeLogEvent.layout (← found[0]?).data
  some (.createTree changeLogEvent, currentIndex + count)

/-- `parseBubblegumMintInstructions(db, .., instructions, currentIndex)`. -/
def parseBubblegumMintInstructions [LeafHash Node Pubkey] [ProgramAddress Pubkey] :
    Option (IngestCall Node Pubkey × ℕ) := do
  let (found, count) ← findWrapInstructions accountKeys (instructions.drop (currentIndex + 1)) 2
  let newLeafData ← decodeEventInstructionData NewNFTEvent.layout (← found[0]?).data
  let changeLogEvent ← decodeEventInstructionData ChangeLogEvent.layout (← found[1]?).data
  let (owner, delegate, merkleSlab) ←
    destructureBubblegumMintAccounts accountKeys (← instructions[currentIndex]?)
  let leafSchema := leafSchemaFromLeafData owner delegate merkleSlab newLeafData
  some (.mint changeLogEvent newLeafData leafSchema, currentIndex + count)

/-- `parseBubblegumReplaceLeafInstructions(db, .., instructions, currentIndex, compressed)`, which
looks at the instructions from the first one on. -/
def parseBubblegumReplaceLeafInstructions (compressed : Bool) :
    Option (IngestCall Node Pubkey × ℕ) := do
  let (found, count) ← findWrapInstructions accountKeys instructions 2
  let leafSchema ← decodeEventInstructionData LeafSchemaEvent.layout (← found[0]?).data
  let changeLogEvent ← decodeEventInstructionData ChangeLogEvent.layout (← found[1]?).data
  some (.replaceLeaf changeLogEvent leafSchema compressed, currentIndex + count)

variable [LeafHash Node Pubkey] [ProgramAddress Pubkey]

/-- `parseBubblegumExecutionContext(db, .., instructions, currentIndex)`: the call, if one is made,
and the new index. -/
def parseBubblegumExecutionContext : Option (Option (IngestCall Node Pubkey) × ℕ) := do
  let ix ← instructions[currentIndex]?
  match decodeIx ix.data with
  | some "CreateTree" =>
    (parseBubblegumCreateTreeInstructions accountKeys instructions currentIndex).map
      fun (call, next) => (some call, next)
  | some "MintV1" =>
    (parseBubblegumMintInstructions accountKeys instructions currentIndex).map
      fun (call, next) => (some call, next)
  | some "Redeem" =>
    (parseBubblegumReplaceLeafInstructions accountKeys instructions currentIndex false).map
      fun (call, next) => (some call, next)
  | some "Burn" | some "CancelRedeem" | some "Delegate" | some "Transfer" =>
    (parseBubblegumReplaceLeafInstructions accountKeys instructions currentIndex true).map
      fun (call, next) => (some call, next)
  | _ => some (none, currentIndex)

/-- The loop of `parseBubblegumInnerInstructions` from the index `i` on, with what it attempts.
The index grows with every turn, so that there are at most as many turns as instructions. -/
def innerLoop : ℕ → ℕ → List (Option (IngestCall Node Pubkey))
  | 0, _ => []
  | fuel + 1, i =>
    match instructions[i]? with
    | none => []
    | some ix =>
      match accountKeys[ix.programIdIndex]? with
      | none => [none]
      | some programId =>
        if programId = ProgramIds.bubblegum then
          match parseBubblegumExecutionContext accountKeys instructions i with
          | none => [none]
          | some (call, i) => call.toList.map some ++ innerLoop fuel (i + 1)
        else innerLoop fuel (i + 1)

/-- What `parseBubblegumInnerInstructions(db, .., accountKeys, innerInstructions)` attempts. -/
def parseBubblegumInnerInstructions : List (Option (IngestCall Node Pubkey)) :=
  innerLoop accountKeys instructions instructions.length 0

end InnerInstruction

end Candyland.Sdk.Indexer
