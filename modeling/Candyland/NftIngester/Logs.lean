import Candyland.Lib.Base58
import Candyland.Lib.Outcome

/-!
# Handling a transaction

How the ingester splits the log lines of a transaction among its instructions and hands
each instruction with its lines to the handler of its program.  Lines are lists of
characters.
-/

namespace Candyland.NftIngester

/-- A line of the log. -/
abbrev Line := List Char

/-- `"Program "`. -/
def programText : Line := ['P', 'r', 'o', 'g', 'r', 'a', 'm', ' ']

/-- `" invoke ["`. -/
def invokeText : Line := [' ', 'i', 'n', 'v', 'o', 'k', 'e', ' ', '[']

/-- The classes `\w` and `\d` of the patterns, which know all of Unicode. -/
class CharClasses where
  word : Char → Bool
  digit : Char → Bool
  word_ascii (c : Char) (h : c.toNat < 128) : word c = (c.isAlphanum || c == '_')
  digit_ascii (c : Char) (h : c.toNat < 128) : digit c = c.isDigit

/-- A `Pubkey`. -/
abbrev Key := Vector UInt8 32

/-- `Pubkey::new(bytes)`. -/
def Key.new {ε : Type} (bytes : List UInt8) : Outcome ε Key :=
  if h : bytes.length = 32 then .ok ⟨bytes.toArray, h⟩ else .panic

/-- `level.parse::<u8>()` of one character. -/
def parseU8 (level : Char) : Option ℕ := if level.isDigit then some (level.toNat - 48) else none

/-! ### `parse_logs` -/

section ParseLogs

variable [CharClasses]

/-- A match of `Program (\w*) invoke \[(\d)\]` at the beginning of a text.  No blank is in `\w`,
so that `\w*` has one place to end. -/
def capturesHere (text : Line) : Option (Line × Char) := do
  let text ← programText.isPrefixOf? text
  let program := text.takeWhile CharClasses.word
  let text ← invokeText.isPrefixOf? (text.dropWhile CharClasses.word)
  match text with
  | level :: ']' :: _ => if CharClasses.digit level then some (program, level) else none
  | _ => none

/-- `PLRE.captures(log)`, the leftmost match. -/
def captures : Line → Option (Line × Char)
  | [] => capturesHere []
  | c :: log => (capturesHere (c :: log)).or (captures log)

/-- The variable `cap`: the program and the level of the match.  A text that is not base 58 is
no program, one that is must have 32 bytes. -/
def cap (log : Line) : Outcome Unit (Option (Key × ℕ)) :=
  match captures log with
  | none => .ok none
  | some (program, level) =>
    match Base58.decode program with
    | none => .ok none
    | some bytes => do
      let program ← Key.new bytes
      match parseU8 level with
      | some level => .ok (some (program, level))
      | none => .ok none

/-- An entry of the result: the program, its lines and the level. -/
abbrev ProgramLog := Key × List Line × ℕ

/-- The body of the loop of `parse_logs`. -/
def parseLog (programLogs : List ProgramLog) (log : Line) : Outcome Unit (List ProgramLog) := do
  match ← cap log with
  | some (key, 1) => .ok (programLogs ++ [(key, [], 1)])
  | _ =>
    match programLogs.getLast? with
    | some (key, lines, level) => .ok (programLogs.dropLast ++ [(key, lines ++ [log], level)])
    | none => .panic

/-- `parse_logs(log_messages)`. -/
def parseLogs (logMessages : Option (List Line)) : Outcome Unit (List ProgramLog) :=
  match logMessages with
  | some logs => logs.foldlM parseLog []
  | none => .err ()

end ParseLogs

/-! ### `order_instructions` and `handle_transaction` -/

/-- `CompiledInstruction`. -/
structure CompiledInstruction where
  programIdIndex : UInt8
  accounts : List UInt8
  data : List UInt8
deriving DecidableEq

/-- `InnerInstructions`. -/
structure InnerInstructions where
  index : UInt8
  instructions : List CompiledInstruction
deriving DecidableEq

/-- `TransactionInfo`. -/
structure TransactionInfo where
  accountKeys : Option (List Key)
  logMessages : Option (List Line)
  innerInstructions : Option (List InnerInstructions)
  outerInstructions : Option (List CompiledInstruction)
  slot : UInt64

/-- `IxPair`, an instruction with its program. -/
abbrev IxPair := Key × CompiledInstruction

/-- `keys.get(i)`. -/
def getKey (keys : List Key) (i : ℕ) : Outcome Unit Key :=
  match keys[i]? with
  | some key => .ok key
  | none => .panic

/-- An instruction with its program. -/
def ixPair (keys : List Key) (instruction : CompiledInstruction) : Outcome Unit IxPair := do
  let programId ← getKey keys instruction.programIdIndex.toNat
  .ok (programId, instruction)

/-- `get_inner_ixs(inner_ixs, outer_index)`. -/
def getInnerIxs (innerIxs : Option (List InnerInstructions)) (outerIndex : ℕ) :
    Option InnerInstructions :=
  innerIxs.bind fun innerIxList => innerIxList.find? fun inner =>
    inner.index == UInt8.ofNat outerIndex

/-- The loop of `order_instructions` from instruction `i` on. -/
def orderFrom (keys : List Key) (innerIxList : Option (List InnerInstructions)) (i : ℕ) :
    List CompiledInstruction → Outcome Unit (List (IxPair × Option (List IxPair)))
  | [] => .ok []
  | instruction :: instructions => do
    let outer ← ixPair keys instruction
    let inner ← match getInnerIxs innerIxList i with
      | none => .ok none
      | some innerIxs => do
        let innerList ← innerIxs.instructions.mapM (ixPair keys)
        .ok (some innerList)
    let orderedIxs ← orderFrom keys innerIxList (i + 1) instructions
    .ok ((outer, inner) :: orderedIxs)

/-- `order_instructions(transaction_info)`. -/
def orderInstructions (transactionInfo : TransactionInfo) :
    Outcome Unit (List (IxPair × Option (List IxPair))) :=
  match transactionInfo.outerInstructions with
  | none => .ok []
  | some outerInstructions =>
    match transactionInfo.accountKeys with
    | none => .ok []
    | some keys => orderFrom keys transactionInfo.innerInstructions 0 outerInstructions

/-- What a handler is called with, `InstructionBundle`. -/
structure InstructionBundle where
  messageId : ℤ
  instruction : CompiledInstruction
  innerIx : Option (List IxPair)
  keys : List Key
  instructionLogs : List Line
  slot : UInt64
deriving DecidableEq

/-- The calls of handlers, each with its program, and whether the loop came to its end. -/
structure Handled where
  calls : List (Key × InstructionBundle)
  finished : Bool
deriving DecidableEq

/-- One more call before the others, if a handler responds to the program. -/
def Handled.cons (responds : Key → Bool) (program : Key) (bundle : InstructionBundle)
    (handled : Handled) : Handled :=
  { handled with
    calls := if responds program then (program, bundle) :: handled.calls else handled.calls }

/-- The bundle of an instruction with its lines. -/
def bundle (messageId : ℤ) (keys : List Key) (slot : UInt64) (instruction : CompiledInstruction)
    (innerIx : Option (List IxPair)) (instructionLogs : List Line) : InstructionBundle :=
  ⟨messageId, instruction, innerIx, keys, instructionLogs, slot⟩

/-- The loop of `handle_transaction` over the zipped instructions and logs, with the assertion
that their programs agree. -/
def handleInstructions (responds : Key → Bool) (messageId : ℤ) (keys : List Key) (slot : UInt64) :
    List (IxPair × Option (List IxPair)) → List ProgramLog → Handled
  | (outerIx, innerIx) :: instructions, parsedLog :: parsedLogs =>
    if outerIx.1 = parsedLog.1 then
      (handleInstructions responds messageId keys slot instructions parsedLogs).cons responds
        outerIx.1 (bundle messageId keys slot outerIx.2 innerIx parsedLog.2.1)
    else ⟨[], false⟩
  | _, _ => ⟨[], true⟩

/-- `handle_transaction` for one message.  `responds` are the programs with a registered parser
that responds to instructions. -/
def handleTransaction [CharClasses] (responds : Key → Bool) (messageId : ℤ)
    (transaction : TransactionInfo) : Handled :=
  match transaction.accountKeys with
  | none => ⟨[], true⟩
  | some keys =>
    match orderInstructions transaction, parseLogs transaction.logMessages with
    | .ok instructions, .ok parsedLogs =>
      handleInstructions responds messageId keys transaction.slot instructions parsedLogs
    | _, _ => ⟨[], false⟩

end Candyland.NftIngester
