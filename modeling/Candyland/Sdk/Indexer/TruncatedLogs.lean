import Candyland.Sdk.Indexer.Symbolic

/-!
# The two parsers

When the log of a transaction is truncated, the indexer takes the events from the data that the
instructions passed to `wrap_event`.  For a mint both ways lead to the same call.  The five
instructions that replace a leaf wrap no leaf, a leaf that is not an event, or the empty node.
-/

namespace Candyland.Sdk.Indexer

open Bubblegum (Event Executed Instruction InstructionName LeafHash LeafSchema LeafSchemaEvent
  MetadataArgs NewNFTEvent ProgramAddress State getAssetId constraint)
open ConcurrentMerkleTree (NodeHash EMPTY)
open Gummyroll (Build ChangeLogEvent)

variable {Node Pubkey : Type} [NodeHash Node] [NodeLayout Node] [KeyLayout Pubkey]
  [SystemProgramId Pubkey] [ProgramIds Pubkey]

/-! ### What is wrapped -/

section Wraps

variable {x : Executed Node Pubkey} {unread : Unread Pubkey} {trace : Trace Pubkey}

/-- What the instructions wrap, by their kinds. -/
inductive Wraps : InstructionName → List (Event Node Pubkey) → List (List UInt8) → Prop
  | mint {newNft leaf changeLog data data'} (hdata : NewNFTEvent.layout.encode newNft = some data)
      (hchangeLog : ChangeLogEvent.layout.encode changeLog = some data') :
      Wraps .MintV1 [.newNFT newNft, .leafSchema leaf, .changeLog changeLog] [data, data']
  | none {leaf changeLog data'} : Wraps .Transfer [.leafSchema leaf, .changeLog changeLog] [data']
  | leaf {name leaf changeLog data data'} (hname : name = .Delegate ∨ name = .CancelRedeem)
      (hdata : LeafSchema.layout.encode leaf.schema = some data) :
      Wraps name [.leafSchema leaf, .changeLog changeLog] [data, data']
  | empty {name leaf changeLog data data'} (hname : name = .Burn ∨ name = .Redeem)
      (hdata : node.encode (EMPTY : Node) = some data) :
      Wraps name [.leafSchema leaf, .changeLog changeLog] [data, data']

variable [DecidableEq Pubkey]

theorem wraps_of_trace (hname : x.instruction.name ≠ .Unknown)
    (htrace : x.trace unread = some trace) :
    Wraps x.instruction.name x.events trace.wrapped := by
  obtain ⟨signers, instruction, events⟩ := x
  have hconsumed : (Trace.log (.other unread.consumed) .done : Trace Pubkey).wrapped = [] := rfl
  rw [Executed.trace] at htrace
  dsimp only at htrace
  split at htrace
  rotate_right
  · cases htrace
  all_goals simp only [Option.bind_eq_bind, Option.bind_eq_some_iff, Option.some.injEq] at htrace
  · exact absurd rfl hname
  · -- `mint_v1`
    obtain ⟨cpi, hcpi, emitted, hemitted, data, hdata, emitted', hemitted', rfl⟩ := htrace
    obtain ⟨data', hdata', hcpi⟩ := wrapped_invokeGummyroll hcpi
    rw [Trace.wrapped_log, wrapped_emitEvent hemitted', Trace.wrapped_wrapEvent,
      wrapped_emitEvent hemitted, hcpi, hconsumed]
    exact .mint hdata hdata'
  · -- `transfer`
    obtain ⟨cpi, hcpi, emitted, hemitted, rfl⟩ := htrace
    obtain ⟨data', -, hcpi⟩ := wrapped_invokeGummyroll hcpi
    rw [Trace.wrapped_log, wrapped_emitEvent hemitted, hcpi, hconsumed]
    exact .none
  · -- `delegate`
    obtain ⟨cpi, hcpi, emitted, hemitted, data, hdata, rfl⟩ := htrace
    obtain ⟨data', -, hcpi⟩ := wrapped_invokeGummyroll hcpi
    rw [Trace.wrapped_log, Trace.wrapped_wrapEvent, wrapped_emitEvent hemitted, hcpi, hconsumed]
    exact .leaf (.inl rfl) hdata
  · -- `burn`
    obtain ⟨cpi, hcpi, data, hdata, emitted, hemitted, rfl⟩ := htrace
    obtain ⟨data', -, hcpi⟩ := wrapped_invokeGummyroll hcpi
    rw [Trace.wrapped_log, wrapped_emitEvent hemitted, Trace.wrapped_wrapEvent, hcpi, hconsumed]
    exact .empty (.inl rfl) hdata
  · -- `redeem`
    obtain ⟨cpi, hcpi, data, hdata, emitted, hemitted, rfl⟩ := htrace
    obtain ⟨data', -, hcpi⟩ := wrapped_invokeGummyroll hcpi
    rw [Trace.wrapped_log, Trace.wrapped_initAccount, wrapped_emitEvent hemitted,
      Trace.wrapped_wrapEvent, hcpi, hconsumed]
    exact .empty (.inr rfl) hdata
  · -- `cancel_redeem`
    obtain ⟨cpi, hcpi, data, hdata, emitted, hemitted, rfl⟩ := htrace
    obtain ⟨data', -, hcpi⟩ := wrapped_invokeGummyroll hcpi
    rw [Trace.wrapped_log, wrapped_emitEvent hemitted, Trace.wrapped_wrapEvent, hcpi, hconsumed]
    exact .leaf (.inr rfl) hdata

end Wraps

/-! ### The parser of instructions -/

variable [ProgramAddress Pubkey] {x : Executed Node Pubkey} {unread : Unread Pubkey}
  {trace : Trace Pubkey} {accountKeys : List Pubkey} {ix : CompiledInstruction}
  {inner : CompiledInnerInstruction}

omit [NodeHash Node] [NodeLayout Node] [KeyLayout Pubkey] in
/-- The name is found by the first bytes. -/
theorem decodeIx_call (hix : Compiled accountKeys (x.call unread) ix) (entry : List UInt8 × String)
    (hentry : entry ∈ ixNames) (hfirst : entry.1 = x.instruction.discriminator) :
    decodeIx ix.data = some entry.2 := by
  have htake : ix.data.take 8 = entry.1 := by
    rw [hix.data, hfirst]
    simp only [Executed.call]
    rw [List.take_left' (by cases x.instruction <;> rfl)]
  have hfind : ∀ entry ∈ ixNames, ixNames.find? (fun e => e.1 = entry.1) = some entry := by
    decide
  rw [decodeIx, htake, hfind entry hentry, Option.map_some]

omit [NodeLayout Node] [KeyLayout Pubkey] [SystemProgramId Pubkey] [ProgramIds Pubkey] in
/-- The leaf of a mint can be made from the event of the metadata and the accounts. -/
theorem leaf_of_mint [LeafHash Node Pubkey] [DecidableEq Node] [DecidableEq Pubkey] [Build]
    {st st' : State Node Pubkey} {signers : List Pubkey}
    {slab mintAuthority owner leafDelegate : Pubkey} {message : MetadataArgs Pubkey}
    {newNft : NewNFTEvent Pubkey} {leaf : LeafSchemaEvent Node Pubkey}
    {events : List (Event Node Pubkey)}
    (hok : st.mintV1 signers slab mintAuthority owner leafDelegate message =
      .ok (.newNFT newNft :: .leafSchema leaf :: events, st')) :
    leafSchemaFromLeafData owner leafDelegate slab newNft = leaf := by
  obtain ⟨⟨⟩, -, hok⟩ := Outcome.bind_eq_ok.1 hok
  obtain ⟨count, -, hok⟩ := Outcome.bind_eq_ok.1 hok
  obtain ⟨⟨events', st₁⟩, -, hok⟩ := Outcome.bind_eq_ok.1 hok
  obtain ⟨hevents, -⟩ := Prod.mk.inj (Outcome.ok.inj hok)
  simp only [List.cons.injEq, Event.newNFT.injEq, Event.leafSchema.injEq] at hevents
  obtain ⟨rfl, rfl, -⟩ := hevents
  rfl

variable [LeafHash Node Pubkey] [DecidableEq Pubkey]

/-- From what a mint wraps and from its accounts its call is made. -/
theorem parseBubblegumMint_eq {call : Call Pubkey} {owner leafDelegate slab : Pubkey}
    {newNft : NewNFTEvent Pubkey} {changeLog : ChangeLogEvent Node Pubkey}
    {data data' : List UInt8} (hix : Compiled accountKeys call ix)
    (howner : call.accounts[4]? = some owner) (hdelegate : call.accounts[5]? = some leafDelegate)
    (hslab : call.accounts[6]? = some slab)
    (hinner : List.Forall₂ (Compiled accountKeys) trace.calls inner.instructions)
    (hwrapped : trace.wrapped = [data, data'])
    (hdata : NewNFTEvent.layout.encode newNft = some data)
    (hdata' : ChangeLogEvent.layout.encode changeLog = some data') :
    Instruction.parseBubblegumMint accountKeys ix [inner] =
      some (.mint changeLog newNft (leafSchemaFromLeafData owner leafDelegate slab newNft)) := by
  obtain ⟨wrapIx, wrapIx', count, hfind, rfl, rfl⟩ := findWrapInstructions_two hinner hwrapped
  obtain ⟨i, hi, howner⟩ := hix.account howner
  obtain ⟨i', hi', hdelegate⟩ := hix.account hdelegate
  obtain ⟨i'', hi'', hslab⟩ := hix.account hslab
  simp [Instruction.parseBubblegumMint, hfind, decodeEventInstructionData_self hdata,
    decodeEventInstructionData_self hdata', destructureBubblegumMintAccounts, hi, hi', hi'',
    howner, hdelegate, hslab]

/-- The parser of an instruction that replaces a leaf. -/
theorem parseBubblegumInstruction_replaceLeaf
    (hname : x.instruction.name ∈
      [.Transfer, .Delegate, .Burn, .Redeem, .CancelRedeem])
    (hix : Compiled accountKeys (x.call unread) ix) :
    ∃ compressed, Instruction.parseBubblegumInstruction accountKeys ix [inner] =
      (Instruction.parseBubblegumReplaceLeafInstruction accountKeys [inner] compressed).map
        (some : IngestCall Node Pubkey → _) := by
  have hdecode := decodeIx_call hix
  obtain ⟨signers, instruction, events⟩ := x
  cases instruction with
  | transfer =>
    refine ⟨true, ?_⟩
    rw [Instruction.parseBubblegumInstruction,
      hdecode ([163, 52, 200, 231, 140, 3, 69, 186], "Transfer") (by decide) rfl]
    rfl
  | delegate =>
    refine ⟨true, ?_⟩
    rw [Instruction.parseBubblegumInstruction,
      hdecode ([90, 147, 75, 178, 85, 88, 4, 137], "Delegate") (by decide) rfl]
    rfl
  | burn =>
    refine ⟨true, ?_⟩
    rw [Instruction.parseBubblegumInstruction,
      hdecode ([116, 110, 29, 56, 107, 219, 42, 93], "Burn") (by decide) rfl]
    rfl
  | redeem =>
    refine ⟨false, ?_⟩
    rw [Instruction.parseBubblegumInstruction,
      hdecode ([184, 12, 86, 149, 70, 196, 97, 225], "Redeem") (by decide) rfl]
    rfl
  | cancelRedeem =>
    refine ⟨true, ?_⟩
    rw [Instruction.parseBubblegumInstruction,
      hdecode ([111, 76, 232, 50, 39, 175, 48, 242], "CancelRedeem") (by decide) rfl]
    rfl
  | createTree | mintV1 | decompressV1 | compress => simp [Bubblegum.Instruction.name] at hname

/-! ### Agreement -/

section Agreement

omit [NodeHash Node] [NodeLayout Node] [KeyLayout Pubkey] [SystemProgramId Pubkey]
  [ProgramIds Pubkey] [ProgramAddress Pubkey] [LeafHash Node Pubkey] [DecidableEq Pubkey] in
/-- The leaf that the parser of logs passes on. -/
theorem leaf_of_ingestCall {leaf : LeafSchemaEvent Node Pubkey}
    {changeLog : ChangeLogEvent Node Pubkey} {call : IngestCall Node Pubkey}
    (hevents : x.events = [.leafSchema leaf, .changeLog changeLog])
    (hcall : x.ingestCall? = some call) : call.leafSchema? = some leaf := by
  obtain ⟨signers, instruction, events⟩ := x
  obtain rfl : events = _ := hevents
  cases instruction <;> cases hcall <;> rfl

variable (hinner : List.Forall₂ (Compiled accountKeys) trace.calls inner.instructions)
include hinner

/-- An instruction that replaces a leaf does not wrap the event of the leaf. -/
theorem not_agree_of_replaceLeaf (hname : x.instruction.name ∈
      [.Transfer, .Delegate, .Burn, .Redeem, .CancelRedeem])
    (htrace : x.trace unread = some trace) (hix : Compiled accountKeys (x.call unread) ix) :
    ¬ Agree (Instruction.parseBubblegumInstruction accountKeys ix [inner])
      (Log.parseBubblegumLog ⟨ProgramIds.bubblegum, 0, trace.logs 0⟩ :
        Option (Option (IngestCall Node Pubkey))) := by
  rintro ⟨call, call', hcall, hcall', hpassed⟩
  have hwraps := wraps_of_trace (by rintro h; simp [h] at hname) htrace
  obtain ⟨compressed, hparse⟩ := parseBubblegumInstruction_replaceLeaf hname hix
  rw [hparse, Option.map_eq_some_iff] at hcall
  obtain ⟨_, hreplace, heq⟩ := hcall
  obtain rfl := Option.some.inj heq
  rw [Log.parseBubblegumLog_trace htrace] at hcall'
  replace hcall' := Option.some.inj hcall'
  generalize hkind : x.instruction.name = kind at hname hwraps
  generalize hevents : x.events = events at hwraps
  generalize hdata : trace.wrapped = wrapped at hwraps
  cases hwraps with
  | mint => simp at hname
  | none =>
    rw [parseReplaceLeaf_one hinner hdata] at hreplace
    cases hreplace
  | leaf hkind hleaf =>
    obtain ⟨event, hevent, hschema⟩ := parseReplaceLeaf_two hinner hdata hreplace
    have hsame := congrArg (fun passed => passed.2.1) hpassed
    simp only [IngestCall.passed, hschema, leaf_of_ingestCall hevents hcall', Option.map_some,
      Option.some.injEq] at hsame
    exact decode_leaf_ne hleaf hevent hsame
  | empty hkind hempty =>
    obtain ⟨event, hevent, -⟩ := parseReplaceLeaf_two hinner hdata hreplace
    rw [decode_empty hempty] at hevent
    cases hevent

/-- The two parsers agree on the instructions that mint, and on no other. -/
theorem parseBubblegumInstruction_agrees_iff [DecidableEq Node] [Build] {st st' : State Node Pubkey}
    (hx : x.Takes st st') (hname : x.instruction.name ∈
      [.MintV1, .Transfer, .Delegate, .Burn, .Redeem, .CancelRedeem])
    (htrace : x.trace unread = some trace) (hix : Compiled accountKeys (x.call unread) ix) :
    Agree (Instruction.parseBubblegumInstruction accountKeys ix [inner])
      (Log.parseBubblegumLog ⟨ProgramIds.bubblegum, 0, trace.logs 0⟩ :
        Option (Option (IngestCall Node Pubkey))) ↔
      x.instruction.name = .MintV1 := by
  constructor
  · intro hagree
    by_contra hmint
    exact not_agree_of_replaceLeaf hinner ((List.mem_cons.1 hname).resolve_left hmint) htrace hix
      hagree
  · intro hmint
    have hwraps := wraps_of_trace (by simp [hmint]) htrace
    have hdecode := decodeIx_call hix ([145, 98, 192, 118, 184, 147, 118, 104], "MintV1")
      (by decide)
    rw [Log.parseBubblegumLog_trace htrace]
    obtain ⟨signers, instruction, events⟩ := x
    cases instruction with
    | mintV1 slab mintAuthority owner leafDelegate message =>
      generalize hdata : trace.wrapped = wrapped at hwraps
      cases hwraps with
      | @mint newNft leaf changeLog data data' hencode hencode' =>
        have hparse := parseBubblegumMint_eq hix rfl rfl rfl hinner hdata hencode hencode'
        rw [leaf_of_mint hx.2] at hparse
        refine ⟨_, .mint changeLog newNft leaf, ?_, rfl, rfl⟩
        rw [Instruction.parseBubblegumInstruction, hdecode rfl]
        exact congrArg (Option.map some) hparse
      | leaf hkind => simp [Bubblegum.Instruction.name] at hkind
      | empty hkind => simp [Bubblegum.Instruction.name] at hkind
    | createTree | transfer | delegate | burn | redeem | cancelRedeem | decompressV1
      | compress => cases hmint

end Agreement

end Candyland.Sdk.Indexer

/-! ### A mint and a transfer -/

namespace Candyland.Sdk.Indexer.Truncated

open Bubblegum (Executed Instruction Key State)
open Bubblegum.Trace (created creator alice bob)
open ConcurrentMerkleTree (Term)

/-- No proof is needed, and nothing is printed beside the events. -/
def unread : Unread Key := ⟨[], [], [], [], [], [], "", "", ""⟩

/-- The mint of the asset. -/
def minting : Executed Term Key := created.executed [creator] Bubblegum.Trace.mintV1

/-- The instruction of its transfer. -/
def transfer : Instruction Term Key := Bubblegum.Trace.transfer Bubblegum.Trace.minted alice bob

/-- The transfer. -/
def transferring : Executed Term Key :=
  Bubblegum.Trace.minted.executed [alice] transfer

section Transaction

variable (x : Executed Term Key)

/-- What the instruction prints and calls. -/
def traceOf : Trace Key := (x.trace unread).getD .done

/-- The calls of its transaction. -/
def callsOf : List (Call Key) := x.call unread :: (traceOf x).calls

/-- The keys of its transaction. -/
def keysOf : List Key := accountKeys (callsOf x)

/-- The instruction in its transaction. -/
def ixOf : CompiledInstruction := compile (keysOf x) (x.call unread)

/-- Its inner instructions. -/
def innerOf : CompiledInnerInstruction := ⟨0, (traceOf x).calls.map (compile (keysOf x))⟩

theorem trace_eq_some {x : Executed Term Key} (h : (x.trace unread).isSome) :
    x.trace unread = some (traceOf x) := by
  obtain ⟨trace, htrace⟩ := Option.isSome_iff_exists.1 h
  rw [traceOf, htrace, Option.getD_some]

theorem compiled_ixOf : Compiled (keysOf x) (x.call unread) (ixOf x) :=
  compiled_compile List.mem_cons_self

theorem compiled_innerOf :
    List.Forall₂ (Compiled (keysOf x)) (traceOf x).calls (innerOf x).instructions :=
  forall₂_compile (List.subset_cons_self _ _)

end Transaction

/-- The mint. -/
theorem minting_agrees :
    Agree (Instruction.parseBubblegumInstruction (keysOf minting) (ixOf minting) [innerOf minting])
      (Log.parseBubblegumLog ⟨ProgramIds.bubblegum, 0, (traceOf minting).logs 0⟩ :
        Option (Option (IngestCall Term Key))) := by
  have htakes : minting.Takes created (created.after [creator] Bubblegum.Trace.mintV1).2 :=
    State.takes_after trivial (by decide +kernel)
  exact (parseBubblegumInstruction_agrees_iff (compiled_innerOf minting) htakes List.mem_cons_self
    (trace_eq_some (by decide +kernel)) (compiled_ixOf minting)).2 rfl

/-- After a transfer the parser of instructions finds one wrapped event only. -/
theorem transferring_disagrees :
    transferring.Takes Bubblegum.Trace.minted (Bubblegum.Trace.minted.after [alice] transfer).2 ∧
      transferring.trace unread = some (traceOf transferring) ∧
      Compiled (keysOf transferring) (transferring.call unread) (ixOf transferring) ∧
      List.Forall₂ (Compiled (keysOf transferring)) (traceOf transferring).calls
        (innerOf transferring).instructions ∧
      ¬ Agree (Instruction.parseBubblegumInstruction (keysOf transferring) (ixOf transferring)
          [innerOf transferring])
        (Log.parseBubblegumLog ⟨ProgramIds.bubblegum, 0, (traceOf transferring).logs 0⟩ :
          Option (Option (IngestCall Term Key))) := by
  have htrace : transferring.trace unread = some (traceOf transferring) :=
    trace_eq_some (by decide +kernel)
  exact ⟨State.takes_after trivial (by decide +kernel), htrace, compiled_ixOf transferring,
    compiled_innerOf transferring,
    not_agree_of_replaceLeaf (compiled_innerOf transferring) (by decide) htrace
      (compiled_ixOf transferring)⟩

end Candyland.Sdk.Indexer.Truncated
