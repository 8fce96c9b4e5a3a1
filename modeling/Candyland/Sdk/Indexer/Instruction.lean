import Candyland.Sdk.Indexer.Log

/-!
# The parser of instructions

When the log of a transaction is truncated, the indexer reads the data that the instructions
passed to `wrap_event`.  For a mint this is what the log has.  The five instructions that replace
a leaf do not wrap what the parser expects, so that it does not find their events.
-/

namespace Candyland.Sdk.Indexer

open Borsh (Layout)
open Bubblegum (Event Executed LeafHash LeafSchema LeafSchemaEvent NewNFTEvent ProgramAddress
  State getAssetId)
open ConcurrentMerkleTree (NodeHash EMPTY)
open Gummyroll (Build ChangeLogEvent)

variable {Node Pubkey : Type}

/-! ### Compiled instructions -/

/-- `CompiledInstruction`, with the bytes that `data` encodes. -/
structure CompiledInstruction where
  programIdIndex : ℕ
  accounts : List ℕ
  data : List UInt8
deriving DecidableEq

/-- `CompiledInnerInstruction`. -/
structure CompiledInnerInstruction where
  index : ℕ
  instructions : List CompiledInstruction
deriving DecidableEq

/-- The instruction is that of a call, with the keys of a transaction. -/
structure Compiled (accountKeys : List Pubkey) (call : Call Pubkey) (ix : CompiledInstruction) :
    Prop where
  program : accountKeys[ix.programIdIndex]? = some call.programId
  accounts : ix.accounts.map (fun i => accountKeys[i]?) = call.accounts.map some
  data : ix.data = call.data

/-- An account of the call is found by the index at its place. -/
theorem Compiled.account {accountKeys : List Pubkey} {call : Call Pubkey} {ix : CompiledInstruction}
    (h : Compiled accountKeys call ix) {j : ℕ} {key : Pubkey}
    (hkey : call.accounts[j]? = some key) :
    ∃ i, ix.accounts[j]? = some i ∧ accountKeys[i]? = some key := by
  have hget := congrArg (·[j]?) h.accounts
  simp only [List.getElem?_map, hkey, Option.map_some] at hget
  exact Option.map_eq_some_iff.1 hget

/-- The names of the instructions that the parsers know, by their first bytes. -/
def ixNames : List (List UInt8 × String) :=
  [([165, 83, 136, 142, 89, 202, 47, 220], "CreateTree"),
   ([145, 98, 192, 118, 184, 147, 118, 104], "MintV1"),
   ([111, 76, 232, 50, 39, 175, 48, 242], "CancelRedeem"),
   ([184, 12, 86, 149, 70, 196, 97, 225], "Redeem"),
   ([163, 52, 200, 231, 140, 3, 69, 186], "Transfer"),
   ([90, 147, 75, 178, 85, 88, 4, 137], "Delegate"),
   ([54, 85, 76, 70, 228, 250, 164, 81], "DecompressV1"),
   ([116, 110, 29, 56, 107, 219, 42, 93], "Burn"),
   ([82, 193, 176, 117, 176, 21, 115, 253], "Compress")]

/-- `coder.decode(data)`, of which the name is used. -/
def decodeIx (data : List UInt8) : Option String :=
  (ixNames.find? fun entry => entry.1 = data.take 8).map Prod.snd

section Utils

variable [SystemProgramId Pubkey] [ProgramIds Pubkey] [DecidableEq Pubkey]

/-- The loop of `findWrapInstructions`.  A program that is not among the keys is an exception. -/
def findWrapLoop (accountKeys : List Pubkey) (amount : ℕ) (found : List CompiledInstruction)
    (count : ℕ) : List CompiledInstruction → Option (List CompiledInstruction × ℕ)
  | [] => if found.length < amount then none else some (found, count)
  | ix :: rest =>
    if found.length < amount then do
      let programId ← accountKeys[ix.programIdIndex]?
      findWrapLoop accountKeys amount
        (if programId = ProgramIds.candyWrapper then found ++ [ix] else found) (count + 1) rest
    else some (found, count)

/-- `findWrapInstructions(accountKeys, instructions, amount)`. -/
def findWrapInstructions (accountKeys : List Pubkey) (instructions : List CompiledInstruction)
    (amount : ℕ) : Option (List CompiledInstruction × ℕ) :=
  findWrapLoop accountKeys amount [] 0 instructions

omit [SystemProgramId Pubkey] [ProgramIds Pubkey] [DecidableEq Pubkey] in
/-- `decodeEventInstructionData(idl, eventName, data)` for the layout of the event. -/
def decodeEventInstructionData {α : Type} (layout : Layout α) (data : List UInt8) : Option α :=
  (layout.decode data).map Prod.fst

omit [SystemProgramId Pubkey] [ProgramIds Pubkey] [DecidableEq Pubkey] in
/-- What is written with a layout is read with it. -/
theorem decodeEventInstructionData_self {α : Type} {layout : Layout α} {event : α}
    {data : List UInt8} (h : layout.encode event = some data) :
    decodeEventInstructionData layout data = some event := by
  rw [decodeEventInstructionData, Layout.decode_self h, Option.map_some]

omit [SystemProgramId Pubkey] [ProgramIds Pubkey] [DecidableEq Pubkey] in
/-- `destructureBubblegumMintAccounts(accountKeys, instruction)`: `owner`, `delegate` and
`merkleSlab`. -/
def destructureBubblegumMintAccounts (accountKeys : List Pubkey) (ix : CompiledInstruction) :
    Option (Pubkey × Pubkey × Pubkey) := do
  let owner ← accountKeys[← ix.accounts[4]?]?
  let delegate ← accountKeys[← ix.accounts[5]?]?
  let merkleSlab ← accountKeys[← ix.accounts[6]?]?
  some (owner, delegate, merkleSlab)

omit [SystemProgramId Pubkey] [ProgramIds Pubkey] [DecidableEq Pubkey] in
/-- `leafSchemaFromLeafData(owner, delegate, treeId, newLeafData)`.  The client knows the leaf
alone; the rest of its event, which nothing reads, is that of the program. -/
def leafSchemaFromLeafData [LeafHash Node Pubkey] [ProgramAddress Pubkey]
    (owner delegate treeId : Pubkey) (newLeafData : NewNFTEvent Pubkey) :
    LeafSchemaEvent Node Pubkey :=
  let id := getAssetId treeId newLeafData.nonce
  let dataHash := LeafHash.hashMetadata newLeafData.metadata
  let creatorHash :=
    LeafHash.hashCreators (newLeafData.metadata.creators.map fun c => (c.address, c.share))
  (LeafSchema.newV0 id owner delegate newLeafData.nonce dataHash creatorHash).toEvent

end Utils

/-! ### Parsing -/

namespace Instruction

variable [NodeHash Node] [NodeLayout Node] [KeyLayout Pubkey] [SystemProgramId Pubkey]
  [ProgramIds Pubkey] [DecidableEq Pubkey] (accountKeys : List Pubkey) (ix : CompiledInstruction)
  (innerInstructions : List CompiledInnerInstruction)

/-- `parseBubblegumCreateTree(db, .., accountKeys, innerInstructions)`, by the call that it
makes. -/
def parseBubblegumCreateTree : Option (IngestCall Node Pubkey) := do
  let changeLogEvent ← innerInstructions.foldlM (fun _ innerInstruction => do
    let (wrapIxs, _) ← findWrapInstructions accountKeys innerInstruction.instructions 1
    let changeLogEvent ← decodeEventInstructionData ChangeLogEvent.layout (← wrapIxs[0]?).data
    some (some changeLogEvent)) none
  let changeLogEvent ← changeLogEvent
  some (.createTree changeLogEvent)

/-- `parseBubblegumMint(db, .., accountKeys, instruction, innerInstructions)`. -/
def parseBubblegumMint [LeafHash Node Pubkey] [ProgramAddress Pubkey] :
    Option (IngestCall Node Pubkey) := do
  let data ← innerInstructions.foldlM (fun _ innerInstruction => do
    let (wrapIxs, _) ← findWrapInstructions accountKeys innerInstruction.instructions 2
    let newLeafData ← decodeEventInstructionData NewNFTEvent.layout (← wrapIxs[0]?).data
    let changeLogEvent ← decodeEventInstructionData ChangeLogEvent.layout (← wrapIxs[1]?).data
    some (some (newLeafData, changeLogEvent))) none
  let (owner, delegate, merkleSlab) ← destructureBubblegumMintAccounts accountKeys ix
  let (newLeafData, changeLogEvent) ← data
  let leafSchema := leafSchemaFromLeafData owner delegate merkleSlab newLeafData
  some (.mint changeLogEvent newLeafData leafSchema)

/-- `parseBubblegumReplaceLeafInstruction(db, .., accountKeys, innerInstructions, compressed)`. -/
def parseBubblegumReplaceLeafInstruction (compressed : Bool) :
    Option (IngestCall Node Pubkey) := do
  let data ← innerInstructions.foldlM (fun _ innerInstruction => do
    let (wrapIxs, _) ← findWrapInstructions accountKeys innerInstruction.instructions 2
    let leafSchema ← decodeEventInstructionData LeafSchemaEvent.layout (← wrapIxs[0]?).data
    let changeLogEvent ← decodeEventInstructionData ChangeLogEvent.layout (← wrapIxs[1]?).data
    some (some (leafSchema, changeLogEvent))) none
  let (leafSchema, changeLogEvent) ← data
  some (.replaceLeaf changeLogEvent leafSchema compressed)

/-- `parseBubblegumInstruction(db, .., accountKeys, instruction, innerInstructions)`, which makes
no call for another instruction or one without a name. -/
def parseBubblegumInstruction [LeafHash Node Pubkey] [ProgramAddress Pubkey] :
    Option (Option (IngestCall Node Pubkey)) :=
  match decodeIx ix.data with
  | some "CreateTree" => (parseBubblegumCreateTree accountKeys innerInstructions).map some
  | some "MintV1" => (parseBubblegumMint accountKeys ix innerInstructions).map some
  | some "Redeem" =>
    (parseBubblegumReplaceLeafInstruction accountKeys innerInstructions false).map some
  | some "Burn" | some "CancelRedeem" | some "Delegate" | some "Transfer" =>
    (parseBubblegumReplaceLeafInstruction accountKeys innerInstructions true).map some
  | _ => some none

end Instruction

/-! ### Wrapped data -/

section Wrapped

variable [SystemProgramId Pubkey] [ProgramIds Pubkey] [DecidableEq Pubkey]

/-- The data of the calls of `wrap_event`. -/
def wrappedData (calls : List (Call Pubkey)) : List (List UInt8) :=
  (calls.filter fun call => call.programId = ProgramIds.candyWrapper).map Call.data

@[simp] theorem wrappedData_nil : wrappedData ([] : List (Call Pubkey)) = [] := rfl

theorem wrappedData_cons_of_eq {call : Call Pubkey} (h : call.programId = ProgramIds.candyWrapper)
    (calls : List (Call Pubkey)) : wrappedData (call :: calls) = call.data :: wrappedData calls := by
  simp [wrappedData, h]

theorem wrappedData_cons_of_ne {call : Call Pubkey} (h : call.programId ≠ ProgramIds.candyWrapper)
    (calls : List (Call Pubkey)) : wrappedData (call :: calls) = wrappedData calls := by
  simp [wrappedData, h]

@[simp] theorem wrappedData_append (calls calls' : List (Call Pubkey)) :
    wrappedData (calls ++ calls') = wrappedData calls ++ wrappedData calls' := by
  simp [wrappedData]

/-- The data that are passed to `wrap_event`. -/
def Trace.wrapped (trace : Trace Pubkey) : List (List UInt8) := wrappedData trace.calls

@[simp] theorem Trace.wrapped_done : (Trace.done : Trace Pubkey).wrapped = [] := rfl

@[simp] theorem Trace.wrapped_log (line : LogLine) (rest : Trace Pubkey) :
    (Trace.log line rest).wrapped = rest.wrapped := rfl

theorem Trace.wrapped_invoke_of_ne {call : Call Pubkey}
    (h : call.programId ≠ ProgramIds.candyWrapper) (inner rest : Trace Pubkey) :
    (Trace.invoke call inner rest).wrapped = inner.wrapped ++ rest.wrapped := by
  rw [wrapped, calls, wrappedData_cons_of_ne h, wrappedData_append, wrapped, wrapped]

@[simp] theorem Trace.wrapped_wrapEvent (unread : Unread Pubkey) (data : List UInt8)
    (rest : Trace Pubkey) : (wrapEvent unread data rest).wrapped = data :: rest.wrapped := by
  rw [wrapped, wrapEvent, calls, wrappedData_cons_of_eq rfl, wrappedData_append]
  rfl

@[simp] theorem Trace.wrapped_initAccount (unread : Unread Pubkey) (rest : Trace Pubkey) :
    (initAccount unread rest).wrapped = rest.wrapped := by
  rw [initAccount]
  induction unread.createAccount with
  | nil => rfl
  | cons call calls ih =>
    rw [List.foldr_cons, wrapped_invoke_of_ne ProgramIds.system_ne_candyWrapper, ih]
    rfl

@[simp] theorem Trace.wrapped_notes (notes : List String) (rest : Trace Pubkey) :
    (notes.foldr (fun text => Trace.log (.other text)) rest).wrapped = rest.wrapped := by
  induction notes with
  | nil => rfl
  | cons text notes ih => exact ih

variable {accountKeys : List Pubkey} {calls : List (Call Pubkey)} {ixs : List CompiledInstruction}
  {trace rest : Trace Pubkey} {unread : Unread Pubkey}

/-- The loop collects wrapped data until there are enough of them. -/
theorem findWrapLoop_eq (h : List.Forall₂ (Compiled accountKeys) calls ixs) (amount : ℕ)
    (found : List CompiledInstruction) (count : ℕ) :
    (findWrapLoop accountKeys amount found count ixs).map (fun res =>
      res.1.map CompiledInstruction.data) =
      if found.length + (wrappedData calls).length < amount then none
      else some (found.map CompiledInstruction.data ++
        (wrappedData calls).take (amount - found.length)) := by
  induction h generalizing found count with
  | nil =>
    by_cases hlt : found.length < amount <;> simp [findWrapLoop, hlt]
  | @cons call ix calls ixs hcall h ih =>
    rw [findWrapLoop]
    by_cases hlt : found.length < amount
    · rw [if_pos hlt, hcall.program]
      simp only [Option.bind_eq_bind, Option.bind_some]
      by_cases hwrap : call.programId = ProgramIds.candyWrapper
      · obtain ⟨k, hk⟩ : ∃ k, amount - found.length = k + 1 :=
          ⟨amount - found.length - 1, by omega⟩
        have hk' : amount - (found.length + 1) = k := by omega
        rw [if_pos hwrap, ih, wrappedData_cons_of_eq hwrap]
        simp [hcall.data, hk, hk', Nat.add_assoc, Nat.add_comm 1]
      · rw [if_neg hwrap, ih, wrappedData_cons_of_ne hwrap]
    · have hzero : amount - found.length = 0 := by omega
      rw [if_neg hlt, if_neg (by omega), hzero]
      simp

/-- With fewer wrapped data than are looked for, nothing is found. -/
theorem findWrapInstructions_eq_none (h : List.Forall₂ (Compiled accountKeys) trace.calls ixs)
    {amount : ℕ} (hlt : trace.wrapped.length < amount) :
    findWrapInstructions accountKeys ixs amount = none := by
  have heq := findWrapLoop_eq h amount [] 0
  rw [if_pos (by simpa [Trace.wrapped] using hlt)] at heq
  exact Option.map_eq_none_iff.1 heq

/-- The first two wrapped data are found. -/
theorem findWrapInstructions_two (h : List.Forall₂ (Compiled accountKeys) trace.calls ixs)
    {data data' : List UInt8} {more : List (List UInt8)}
    (hwrapped : trace.wrapped = data :: data' :: more) :
    ∃ ix ix' count, findWrapInstructions accountKeys ixs 2 = some ([ix, ix'], count) ∧
      ix.data = data ∧ ix'.data = data' := by
  have heq := findWrapLoop_eq h 2 [] 0
  rw [← Trace.wrapped, hwrapped, if_neg (by simp)] at heq
  obtain ⟨⟨found, count⟩, hfound, hdata⟩ := Option.map_eq_some_iff.1 heq
  obtain ⟨ix, ixs', rfl, hix, hdata⟩ := List.map_eq_cons_iff.1 hdata
  obtain ⟨ix', ixs'', rfl, hix', hdata⟩ := List.map_eq_cons_iff.1 hdata
  obtain rfl := List.map_eq_nil_iff.1 hdata
  exact ⟨ix, ix', count, hfound, hix, hix'⟩

end Wrapped

/-! ### The instructions of bubblegum -/

section Wraps

variable [NodeHash Node] [NodeLayout Node] [KeyLayout Pubkey] [SystemProgramId Pubkey]
  [ProgramIds Pubkey] [DecidableEq Pubkey] {trace rest : Trace Pubkey} {unread : Unread Pubkey}

theorem wrapped_emitEvent {event : Event Node Pubkey} (h : emitEvent event rest = some trace) :
    trace.wrapped = rest.wrapped := by
  obtain ⟨data, -, htrace⟩ := Option.bind_eq_some_iff.1 h
  obtain rfl := Option.some.inj htrace
  rfl

theorem wrapped_invokeGummyroll {name : String} {event : ChangeLogEvent Node Pubkey}
    (h : invokeGummyroll unread name event rest = some trace) :
    ∃ data, ChangeLogEvent.layout.encode event = some data ∧
      trace.wrapped = data :: rest.wrapped := by
  simp only [invokeGummyroll, Option.bind_eq_bind, Option.bind_eq_some_iff,
    Option.some.injEq] at h
  obtain ⟨data, hdata, emitted, hemitted, rfl⟩ := h
  have hinner : emitted.wrapped = [] := wrapped_emitEvent hemitted
  refine ⟨data, hdata, ?_⟩
  rw [Trace.wrapped_invoke_of_ne ProgramIds.gummyroll_ne_candyWrapper]
  simp [hinner]

end Wraps

/-! ### Layouts -/

section Lengths

variable [NodeHash Node] [NodeLayout Node] [KeyLayout Pubkey] {bs : List UInt8}

/-- A leaf is longer than a node. -/
theorem length_lt_of_encode_leaf {schema : LeafSchema Node Pubkey}
    (h : LeafSchema.layout.encode schema = some bs) :
    ∃ e, node.encode schema.dataHash = some e ∧ e.length < bs.length := by
  simp only [LeafSchema.layout, Layout.encode_equiv, Equiv.coe_fn_mk] at h
  obtain ⟨version, hversion, _, h, h₁⟩ := Layout.length_of_encode_pair h
  obtain ⟨_, -, _, h, h₂⟩ := Layout.length_of_encode_pair h
  obtain ⟨_, -, _, h, h₃⟩ := Layout.length_of_encode_pair h
  obtain ⟨_, -, _, h, h₄⟩ := Layout.length_of_encode_pair h
  obtain ⟨_, -, _, h, h₅⟩ := Layout.length_of_encode_pair h
  obtain ⟨e, he, _, -, h₆⟩ := Layout.length_of_encode_pair h
  obtain rfl : [0] = version := Option.some.inj hversion
  rw [List.length_singleton] at h₁
  exact ⟨e, he, by omega⟩

/-- The event of a leaf is longer than the leaf. -/
theorem length_lt_of_encode_event {event : LeafSchemaEvent Node Pubkey}
    (h : LeafSchemaEvent.layout.encode event = some bs) :
    ∃ e, LeafSchema.layout.encode event.schema = some e ∧ e.length < bs.length := by
  simp only [LeafSchemaEvent.layout, Layout.encode_equiv, Equiv.coe_fn_mk] at h
  obtain ⟨version, hversion, _, h, h₁⟩ := Layout.length_of_encode_pair h
  obtain ⟨e, he, _, -, h₂⟩ := Layout.length_of_encode_pair h
  obtain rfl : [0] = version := Option.some.inj hversion
  rw [List.length_singleton] at h₁
  exact ⟨e, he, by omega⟩

/-- The bytes of a leaf are not read as an event of this leaf. -/
theorem decode_leaf_ne {schema : LeafSchema Node Pubkey} {event : LeafSchemaEvent Node Pubkey}
    (hencode : LeafSchema.layout.encode schema = some bs)
    (hdecode : decodeEventInstructionData LeafSchemaEvent.layout bs = some event) :
    event.schema ≠ schema := by
  rintro rfl
  obtain ⟨⟨event, rest⟩, hevent, rfl⟩ := Option.map_eq_some_iff.1 hdecode
  obtain ⟨e, he, rfl⟩ := (Layout.decode_eq_some_iff _).1 hevent
  obtain ⟨e', he', hlt⟩ := length_lt_of_encode_event he
  obtain rfl := Option.some.inj (hencode.symm.trans he')
  rw [List.length_append] at hlt
  omega

/-- The bytes of the empty node are not read as an event of a leaf. -/
theorem decode_empty (hencode : node.encode (EMPTY : Node) = some bs) :
    decodeEventInstructionData (LeafSchemaEvent.layout : Layout (LeafSchemaEvent Node Pubkey)) bs =
      none := by
  rw [Option.eq_none_iff_forall_ne_some]
  intro event hdecode
  obtain ⟨⟨event, rest⟩, hevent, rfl⟩ := Option.map_eq_some_iff.1 hdecode
  obtain ⟨e, he, rfl⟩ := (Layout.decode_eq_some_iff _).1 hevent
  obtain ⟨leaf, hleaf, hlt⟩ := length_lt_of_encode_event he
  obtain ⟨hash, hhash, hlt'⟩ := length_lt_of_encode_leaf hleaf
  have hle := NodeLayout.length_le hencode hhash
  rw [List.length_append] at hle
  omega

end Lengths

/-! ### Agreement -/

/-- What a call passes on: the event of gummyroll, the leaf and the flag. -/
def IngestCall.passed (call : IngestCall Node Pubkey) :
    ChangeLogEvent Node Pubkey × Option (LeafSchema Node Pubkey) × Option Bool :=
  (call.changeLog, call.leafSchema?.map LeafSchemaEvent.schema,
    match call with
    | .replaceLeaf _ _ compressed => some compressed
    | _ => none)

/-- Two parsers make a call, with the same data. -/
def Agree (call call' : Option (Option (IngestCall Node Pubkey))) : Prop :=
  ∃ c c', call = some (some c) ∧ call' = some (some c') ∧ c.passed = c'.passed

section Agreement

variable [NodeHash Node] [NodeLayout Node] [KeyLayout Pubkey] [SystemProgramId Pubkey]
  [ProgramIds Pubkey] [DecidableEq Pubkey] {trace : Trace Pubkey} {unread : Unread Pubkey}
  {accountKeys : List Pubkey} {ix : CompiledInstruction} {inner : CompiledInnerInstruction}

/-- With one wrapped event nothing is passed on. -/
theorem parseReplaceLeaf_one (hinner : List.Forall₂ (Compiled accountKeys) trace.calls
    inner.instructions) {data : List UInt8} (hwrapped : trace.wrapped = [data])
    (compressed : Bool) :
    (Instruction.parseBubblegumReplaceLeafInstruction accountKeys [inner] compressed :
      Option (IngestCall Node Pubkey)) = none := by
  have hlt : trace.wrapped.length < 2 := by
    simp [hwrapped]
  have hnone := findWrapInstructions_eq_none hinner hlt
  simp [Instruction.parseBubblegumReplaceLeafInstruction, hnone]

/-- The leaf that is passed on was read from the first wrapped data. -/
theorem parseReplaceLeaf_two (hinner : List.Forall₂ (Compiled accountKeys) trace.calls
    inner.instructions) {data data' : List UInt8} (hwrapped : trace.wrapped = [data, data'])
    {compressed : Bool} {call : IngestCall Node Pubkey}
    (hcall : Instruction.parseBubblegumReplaceLeafInstruction accountKeys [inner] compressed =
      some call) :
    ∃ event, decodeEventInstructionData LeafSchemaEvent.layout data = some event ∧
      call.leafSchema? = some event := by
  obtain ⟨ix, ix', count, hfind, rfl, rfl⟩ := findWrapInstructions_two hinner hwrapped
  simp only [Instruction.parseBubblegumReplaceLeafInstruction, List.foldlM_cons, hfind,
    Option.bind_eq_bind, Option.bind_some, Option.bind_eq_some_iff, Option.some.injEq] at hcall
  obtain ⟨_, ⟨_, ⟨_, hix, leaf, hleaf, _, -, changeLog, -, rfl⟩, hlast⟩, _, rfl, rfl⟩ := hcall
  obtain rfl := Option.some.inj hix
  obtain rfl := Option.some.inj (Option.some.inj hlast)
  exact ⟨leaf, hleaf, rfl⟩

end Agreement

end Candyland.Sdk.Indexer
