import Candyland.Bubblegum.Program
import Candyland.Sdk.Indexer.Database
import Candyland.Sdk.Indexer.Layouts

/-!
# What the runtime notes of an instruction

The lines of the log and the calls that the instructions of bubblegum make, in their order.
The events reach the indexer twice: `emit!` prints them, and `wrap_event` passes some of them to
a program that does nothing.
-/

namespace Candyland.Sdk.Indexer

open Bubblegum (Event)
open ConcurrentMerkleTree (NodeHash)

/-- The programs by their declared ids. -/
class ProgramIds (Pubkey : Type) [SystemProgramId Pubkey] where
  bubblegum : Pubkey
  gummyroll : Pubkey
  candyWrapper : Pubkey
  gummyroll_ne_candyWrapper : gummyroll ≠ candyWrapper
  system_ne_gummyroll : SystemProgramId.programId ≠ gummyroll
  system_ne_candyWrapper : SystemProgramId.programId ≠ candyWrapper

/-- A line of a log, by what the patterns of the indexer find in it. -/
inductive LogLine where
  /-- `Program log: Instruction: name`. -/
  | instruction (name : String)
  /-- `Program data: data`, in base 64. -/
  | programData (data : List UInt8)
  | other (text : String)
deriving DecidableEq

/-- `(string | ParsedLog)[]`. -/
inductive Logs (Pubkey : Type) where
  | nil
  | line (line : LogLine) (rest : Logs Pubkey)
  | parsedLog (programId : Pubkey) (depth : ℕ) (logs rest : Logs Pubkey)
deriving DecidableEq

/-- `ParsedLog`. -/
structure ParsedLog (Pubkey : Type) where
  programId : Pubkey
  depth : ℕ
  logs : Logs Pubkey
deriving DecidableEq

/-- A call of a program. -/
structure Call (Pubkey : Type) where
  programId : Pubkey
  accounts : List Pubkey
  data : List UInt8
deriving DecidableEq

/-- The lines that a program prints and the calls that it makes. -/
inductive Trace (Pubkey : Type) where
  | done
  | log (line : LogLine) (rest : Trace Pubkey)
  | invoke (call : Call Pubkey) (inner rest : Trace Pubkey)
deriving DecidableEq

namespace Trace

variable {Pubkey : Type}

/-- The complete log. -/
def logs (depth : ℕ) : Trace Pubkey → Logs Pubkey
  | done => .nil
  | log line rest => .line line (rest.logs depth)
  | invoke call inner rest =>
    .parsedLog call.programId (depth + 1) (inner.logs (depth + 1)) (rest.logs depth)

/-- The calls of all depths in the order in which they are made. -/
def calls : Trace Pubkey → List (Call Pubkey)
  | done => []
  | log _ rest => rest.calls
  | invoke call inner rest => call :: (inner.calls ++ rest.calls)

end Trace

/-! ### Events -/

variable {Node Pubkey : Type}

/-- The names of the events. -/
inductive EventName where
  | NewNFTEvent
  | LeafSchemaEvent
  | NFTDecompressionEvent
  | ChangeLogEvent
deriving DecidableEq

/-- The first bytes of an event that is emitted. -/
def EventName.discriminator : EventName → List UInt8
  | NewNFTEvent => [196, 35, 157, 194, 143, 50, 170, 171]
  | LeafSchemaEvent => [56, 139, 154, 164, 204, 170, 78, 204]
  | NFTDecompressionEvent => [255, 254, 123, 106, 237, 80, 198, 107]
  | ChangeLogEvent => [149, 65, 218, 16, 126, 87, 117, 175]

@[simp] theorem EventName.length_discriminator (name : EventName) :
    name.discriminator.length = 8 := by
  cases name <;> rfl

/-- The name of an event. -/
def eventName : Event Node Pubkey → EventName
  | .newNFT _ => .NewNFTEvent
  | .leafSchema _ => .LeafSchemaEvent
  | .decompression _ => .NFTDecompressionEvent
  | .changeLog _ => .ChangeLogEvent

variable [NodeHash Node] [NodeLayout Node] [KeyLayout Pubkey]

/-- `event.try_to_vec()`. -/
def tryToVec : Event Node Pubkey → Option (List UInt8)
  | .newNFT event => NewNFTEvent.layout.encode event
  | .leafSchema event => LeafSchemaEvent.layout.encode event
  | .decompression event => NFTDecompressionEvent.layout.encode event
  | .changeLog event => ChangeLogEvent.layout.encode event

/-- `emit!(event)`. -/
def emitEvent (event : Event Node Pubkey) (rest : Trace Pubkey) : Option (Trace Pubkey) := do
  let data ← tryToVec event
  some (.log (.programData ((eventName event).discriminator ++ data)) rest)

/-! ### Instructions -/

/-- What nothing of the indexer reads: the arguments of an instruction and the accounts of a proof,
how the system program creates an account, the accounts and the data of the call of gummyroll, the
lines that gummyroll prints before its event, and the lines about consumed units. -/
structure Unread (Pubkey : Type) where
  arguments : List UInt8
  remainingAccounts : List Pubkey
  createAccount : List (List Pubkey × List UInt8)
  gummyrollAccounts : List Pubkey
  gummyrollData : List UInt8
  gummyrollNotes : List String
  wrapConsumed : String
  gummyrollConsumed : String
  consumed : String

section Instructions

variable [SystemProgramId Pubkey] [ProgramIds Pubkey] (unread : Unread Pubkey)

omit [KeyLayout Pubkey] in
/-- `wrap_event(data, candy_wrapper_program)`. -/
def wrapEvent (data : List UInt8) (rest : Trace Pubkey) : Trace Pubkey :=
  .invoke ⟨ProgramIds.candyWrapper, [], data⟩ (.log (.other unread.wrapConsumed) .done) rest

omit [KeyLayout Pubkey] [ProgramIds Pubkey] in
/-- The calls of the system program for a new account. -/
def initAccount (rest : Trace Pubkey) : Trace Pubkey :=
  unread.createAccount.foldr (fun (accounts, data) rest =>
    .invoke ⟨SystemProgramId.programId, accounts, data⟩ .done rest) rest

/-- A call of gummyroll, which wraps its event and then emits it. -/
def invokeGummyroll (name : String) (changeLog : Gummyroll.ChangeLogEvent Node Pubkey)
    (rest : Trace Pubkey) : Option (Trace Pubkey) := do
  let data ← tryToVec (.changeLog changeLog)
  let emitted ← emitEvent (.changeLog changeLog) (.log (.other unread.gummyrollConsumed) .done)
  some (.invoke ⟨ProgramIds.gummyroll, unread.gummyrollAccounts, unread.gummyrollData⟩
    (.log (.instruction name) (unread.gummyrollNotes.foldr (fun text => .log (.other text))
      (wrapEvent unread data emitted))) rest)

end Instructions

end Candyland.Sdk.Indexer

namespace Candyland.Bubblegum

open ConcurrentMerkleTree (NodeHash EMPTY)
open Sdk.Indexer

variable {Node Pubkey : Type} [NodeHash Node] [NodeLayout Node] [KeyLayout Pubkey]
  [SystemProgramId Pubkey] [ProgramIds Pubkey]

/-- The first bytes of the data, as in `get_instruction_type`. -/
def Instruction.discriminator : Instruction Node Pubkey → List UInt8
  | createTree .. => [165, 83, 136, 142, 89, 202, 47, 220]
  | mintV1 .. => [145, 98, 192, 118, 184, 147, 118, 104]
  | transfer .. => [163, 52, 200, 231, 140, 3, 69, 186]
  | delegate .. => [90, 147, 75, 178, 85, 88, 4, 137]
  | burn .. => [116, 110, 29, 56, 107, 219, 42, 93]
  | redeem .. => [184, 12, 86, 149, 70, 196, 97, 225]
  | cancelRedeem .. => [111, 76, 232, 50, 39, 175, 48, 242]
  | decompressV1 .. => [54, 85, 76, 70, 228, 250, 164, 81]
  | compress .. => [82, 193, 176, 117, 176, 21, 115, 253]

/-- The accounts of the instructions with a tree, in the order of the declarations. -/
def Instruction.accounts [ProgramAddress Pubkey] : Instruction Node Pubkey → List Pubkey
  | createTree payer treeCreator merkleSlab .. =>
    [ProgramAddress.authority merkleSlab, payer, treeCreator, ProgramIds.candyWrapper,
      SystemProgramId.programId, ProgramIds.gummyroll, merkleSlab]
  | mintV1 merkleSlab mintAuthority owner leafDelegate _ =>
    [mintAuthority, ProgramAddress.authority merkleSlab, ProgramIds.candyWrapper,
      ProgramIds.gummyroll, owner, leafDelegate, merkleSlab]
  | transfer merkleSlab owner leafDelegate newOwner .. =>
    [ProgramAddress.authority merkleSlab, owner, leafDelegate, newOwner, ProgramIds.candyWrapper,
      ProgramIds.gummyroll, merkleSlab]
  | delegate merkleSlab owner previousDelegate newDelegate .. =>
    [ProgramAddress.authority merkleSlab, owner, previousDelegate, newDelegate,
      ProgramIds.candyWrapper, ProgramIds.gummyroll, merkleSlab]
  | burn merkleSlab owner leafDelegate .. =>
    [ProgramAddress.authority merkleSlab, ProgramIds.candyWrapper, ProgramIds.gummyroll, owner,
      leafDelegate, merkleSlab]
  | redeem merkleSlab owner leafDelegate _ _ _ nonce .. =>
    [ProgramAddress.authority merkleSlab, ProgramIds.candyWrapper, ProgramIds.gummyroll, owner,
      leafDelegate, merkleSlab, ProgramAddress.voucher merkleSlab nonce,
      SystemProgramId.programId]
  | cancelRedeem merkleSlab voucherKey owner .. =>
    [ProgramAddress.authority merkleSlab, ProgramIds.candyWrapper, ProgramIds.gummyroll,
      merkleSlab, voucherKey, owner]
  | _ => []

/-- The call of an executed instruction. -/
def Executed.call [ProgramAddress Pubkey] (x : Executed Node Pubkey) (unread : Unread Pubkey) :
    Call Pubkey :=
  ⟨ProgramIds.bubblegum, x.instruction.accounts ++ unread.remainingAccounts,
    x.instruction.discriminator ++ unread.arguments⟩

/-- The lines and the calls of an executed instruction; the two instructions without a tree do not
occur. -/
def Executed.trace (x : Executed Node Pubkey) (unread : Unread Pubkey) :
    Option (Trace Pubkey) := do
  let consumed := .log (.other unread.consumed) .done
  match x.instruction, x.events with
  | .createTree .., [.changeLog changeLog] =>
    let cpi ← invokeGummyroll unread "InitEmptyGummyroll" changeLog consumed
    some (.log (.instruction "CreateTree") (initAccount unread cpi))
  | .mintV1 .., [.newNFT newNft, .leafSchema leaf, .changeLog changeLog] =>
    let cpi ← invokeGummyroll unread "Append" changeLog consumed
    let emitted ← emitEvent (.leafSchema leaf) cpi
    let data ← tryToVec (.newNFT newNft : Event Node Pubkey)
    let emitted ← emitEvent (.newNFT newNft : Event Node Pubkey) (wrapEvent unread data emitted)
    some (.log (.instruction "MintV1") emitted)
  | .transfer .., [.leafSchema newLeaf, .changeLog changeLog] =>
    let cpi ← invokeGummyroll unread "ReplaceLeaf" changeLog consumed
    let emitted ← emitEvent (.leafSchema newLeaf) cpi
    some (.log (.instruction "Transfer") emitted)
  | .delegate .., [.leafSchema newLeaf, .changeLog changeLog] =>
    let cpi ← invokeGummyroll unread "ReplaceLeaf" changeLog consumed
    let emitted ← emitEvent (.leafSchema newLeaf) cpi
    -- the leaf itself is wrapped, not its event
    let data ← LeafSchema.layout.encode newLeaf.schema
    some (.log (.instruction "Delegate") (wrapEvent unread data emitted))
  | .burn .., [.leafSchema previousLeaf, .changeLog changeLog] =>
    let cpi ← invokeGummyroll unread "ReplaceLeaf" changeLog consumed
    let data ← node.encode (EMPTY : Node)
    let emitted ← emitEvent (.leafSchema previousLeaf) (wrapEvent unread data cpi)
    some (.log (.instruction "Burn") emitted)
  | .redeem .., [.leafSchema previousLeaf, .changeLog changeLog] =>
    let cpi ← invokeGummyroll unread "ReplaceLeaf" changeLog consumed
    let data ← node.encode (EMPTY : Node)
    let emitted ← emitEvent (.leafSchema previousLeaf) (wrapEvent unread data cpi)
    some (.log (.instruction "Redeem") (initAccount unread emitted))
  | .cancelRedeem .., [.leafSchema leaf, .changeLog changeLog] =>
    let cpi ← invokeGummyroll unread "ReplaceLeaf" changeLog consumed
    let data ← LeafSchema.layout.encode leaf.schema
    let emitted ← emitEvent (.leafSchema leaf) (wrapEvent unread data cpi)
    some (.log (.instruction "CancelRedeem") emitted)
  | _, _ => none

end Candyland.Bubblegum
