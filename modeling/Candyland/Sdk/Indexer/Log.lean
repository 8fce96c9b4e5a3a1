import Candyland.Sdk.Indexer.Calls
import Candyland.Sdk.Indexer.Traces

/-!
# The parser of logs

The indexer finds the instructions of bubblegum in the log of a transaction and their events
among the lines of each.  For the complete log of an executed instruction it makes the call that
belongs to the events.
-/

namespace Candyland.Sdk.Indexer

open Bubblegum (Event Executed LeafSchemaEvent NewNFTEvent)
open ConcurrentMerkleTree (NodeHash EMPTY)
open Gummyroll (ChangeLogEvent)

variable {Node Pubkey : Type} [NodeHash Node] [NodeLayout Node] [KeyLayout Pubkey]

/-! ### Decoding -/

/-- A program with a description of its events. -/
inductive Idl where
  | gummyroll
  | bubblegum
deriving DecidableEq

/-- `idl.events`, without the event of gummyroll that it never emits. -/
def Idl.events : Idl → List EventName
  | gummyroll => [.ChangeLogEvent]
  | bubblegum => [.LeafSchemaEvent, .NewNFTEvent, .NFTDecompressionEvent]

/-- Decodes the data of an event; bytes behind it are left alone. -/
def decodeAs (name : EventName) (data : List UInt8) : Option (Event Node Pubkey) :=
  match name with
  | .NewNFTEvent => (NewNFTEvent.layout.decode data).map fun (event, _) => .newNFT event
  | .LeafSchemaEvent =>
    (LeafSchemaEvent.layout.decode data).map fun (event, _) => .leafSchema event
  | .NFTDecompressionEvent =>
    (NFTDecompressionEvent.layout.decode data).map fun (event, _) => .decompression event
  | .ChangeLogEvent =>
    (ChangeLogEvent.layout.decode data).map fun (event, _) => .changeLog event

/-- `decodeEvent(data, idl)`. -/
def decodeEvent (data : List UInt8) (idl : Idl) : Option (Event Node Pubkey) := do
  let name ← idl.events.find? fun name => name.discriminator = data.take 8
  decodeAs name (data.drop 8)

/-- What is written as an event is read as this event. -/
theorem decodeAs_tryToVec {event : Event Node Pubkey} {data : List UInt8}
    (h : tryToVec event = some data) : decodeAs (eventName event) data = some event := by
  cases event with
  | newNFT event | leafSchema event | decompression event | changeLog event =>
    rw [eventName, decodeAs, Borsh.Layout.decode_self h]
    rfl

/-- An event that is emitted is found by its first bytes. -/
theorem decodeEvent_emitted {event : Event Node Pubkey} {data : List UInt8} {idl : Idl}
    (h : tryToVec event = some data) (hidl : eventName event ∈ idl.events) :
    decodeEvent ((eventName event).discriminator ++ data) idl = some event := by
  have htake : ((eventName event).discriminator ++ data).take 8 =
      (eventName event).discriminator := by
    simp
  have hdrop : ((eventName event).discriminator ++ data).drop 8 = data := by
    simp
  have hfind : idl.events.find? (fun name => decide (name.discriminator =
      (eventName event).discriminator)) = some (eventName event) := by
    generalize eventName event = name at hidl
    cases idl <;> cases name <;> first | rfl | exact absurd hidl (by decide)
  rw [decodeEvent, htake, hdrop, hfind]
  exact decodeAs_tryToVec h

/-! ### Parsing -/

namespace Log

omit [KeyLayout Pubkey] in
/-- `parseIxName(logs[0])`; no match is an exception. -/
def parseIxName : Logs Pubkey → Option String
  | .line (.instruction name) _ => some name
  | _ => none

omit [KeyLayout Pubkey] in
/-- The entries of a log, `none` for a log within it. -/
def entries : Logs Pubkey → List (Option LogLine)
  | .nil => []
  | .line line rest => some line :: entries rest
  | .parsedLog _ _ _ rest => none :: entries rest

/-- `findBubblegumEvents(logs, parser)`; an event that is not known is `null`. -/
def findBubblegumEvents : Logs Pubkey → List (Option (Event Node Pubkey))
  | .nil => []
  | .line (.programData data) rest => decodeEvent data .bubblegum :: findBubblegumEvents rest
  | .line _ rest => findBubblegumEvents rest
  | .parsedLog _ _ _ rest => findBubblegumEvents rest

/-- `parseChangelogEvent(logs, gummyroll)`: the line before the last one has the event. -/
def parseChangelogEvent (logs : Logs Pubkey) : Option (ChangeLogEvent Node Pubkey) :=
  match ((entries logs).reverse[1]? : Option (Option LogLine)) with
  | some (some (.programData data)) =>
    match decodeEvent data .gummyroll with
    | some (.changeLog event) => some event
    | _ => none
  | _ => none

/-- `parseEventGummyroll(parsedLog, gummyroll)`, which returns `null` for two instructions. -/
def parseEventGummyroll (logs : Logs Pubkey) : Option (Option (ChangeLogEvent Node Pubkey)) := do
  let ixName ← parseIxName logs
  match ixName with
  | "VerifyLeaf" | "TransferAuthority" => some none
  | _ => do
    let event ← parseChangelogEvent logs
    some (some event)

section Programs

variable [SystemProgramId Pubkey] [ProgramIds Pubkey] [DecidableEq Pubkey]

/-- The loop of `findGummyrollEvent(logs, parser)`. -/
def findGummyrollEvent (changeLog : Option (ChangeLogEvent Node Pubkey)) :
    Logs Pubkey → Option (Option (ChangeLogEvent Node Pubkey))
  | .nil => some changeLog
  | .line _ rest => findGummyrollEvent changeLog rest
  | .parsedLog programId _ logs rest =>
    if programId = ProgramIds.gummyroll then do
      let changeLog ← parseEventGummyroll logs
      findGummyrollEvent changeLog rest
    else findGummyrollEvent changeLog rest

/-- `parseBubblegumCreateTree(db, logs, ..)`, by the call that it makes.  Reading a field of
`null` is an exception. -/
def parseBubblegumCreateTree (logs : Logs Pubkey) : Option (IngestCall Node Pubkey) := do
  let changeLog ← findGummyrollEvent none logs
  let changeLog ← changeLog
  some (.createTree changeLog)

/-- `parseBubblegumMint(db, logs, ..)`. -/
def parseBubblegumMint (logs : Logs Pubkey) : Option (IngestCall Node Pubkey) := do
  let changeLog ← findGummyrollEvent none logs
  match findBubblegumEvents logs with
  | [some (.newNFT newLeafData), some (.leafSchema leafSchema)] => do
    let changeLog ← changeLog
    some (.mint changeLog newLeafData leafSchema)
  | _ => none

/-- `parseBubblegumReplaceLeaf(db, logs, .., compressed)`. -/
def parseBubblegumReplaceLeaf (logs : Logs Pubkey) (compressed : Bool) :
    Option (IngestCall Node Pubkey) := do
  let changeLog ← findGummyrollEvent none logs
  match findBubblegumEvents logs with
  | [some (.leafSchema leafSchema)] => do
    let changeLog ← changeLog
    some (.replaceLeaf changeLog leafSchema compressed)
  | _ => none

/-- `parseBubblegumLog(db, parsedLog, ..)`, which makes no call for another instruction. -/
def parseBubblegumLog (parsedLog : ParsedLog Pubkey) :
    Option (Option (IngestCall Node Pubkey)) := do
  let ixName ← parseIxName parsedLog.logs
  match ixName with
  | "CreateTree" => (parseBubblegumCreateTree parsedLog.logs).map some
  | "MintV1" => (parseBubblegumMint parsedLog.logs).map some
  | "Redeem" => (parseBubblegumReplaceLeaf parsedLog.logs false).map some
  | "CancelRedeem" => (parseBubblegumReplaceLeaf parsedLog.logs true).map some
  | "Burn" => (parseBubblegumReplaceLeaf parsedLog.logs true).map some
  | "Transfer" => (parseBubblegumReplaceLeaf parsedLog.logs true).map some
  | "Delegate" => (parseBubblegumReplaceLeaf parsedLog.logs true).map some
  | _ => some none

/-! ### The log of an executed instruction -/

section Executed

omit [SystemProgramId Pubkey] [ProgramIds Pubkey] [DecidableEq Pubkey] [NodeHash Node]
  [NodeLayout Node] [KeyLayout Pubkey] in
@[simp] theorem entries_notes (notes : List String) (rest : Trace Pubkey) (depth : ℕ) :
    entries ((notes.foldr (fun text => Trace.log (.other text)) rest).logs depth) =
      notes.map (fun text => some (.other text)) ++ entries (rest.logs depth) := by
  induction notes with
  | nil => rfl
  | cons text notes ih => simp [Trace.logs, entries, ih]

/-- What is found in a log that bubblegum prints: its events, and the last event of gummyroll. -/
structure Prints (trace : Trace Pubkey) (events : List (Event Node Pubkey))
    (event : Option (ChangeLogEvent Node Pubkey)) : Prop where
  bubblegum : findBubblegumEvents (trace.logs 0) = events.map some
  gummyroll : ∀ changeLog, findGummyrollEvent changeLog (trace.logs 0) = some (event.or changeLog)

namespace Prints

variable {unread : Unread Pubkey} {trace rest : Trace Pubkey} {events : List (Event Node Pubkey)}
  {event : Option (ChangeLogEvent Node Pubkey)}

theorem done : Prints (.done : Trace Pubkey) ([] : List (Event Node Pubkey)) none :=
  ⟨rfl, fun _ => rfl⟩

theorem other (h : Prints rest events event) (text : String) :
    Prints (.log (.other text) rest) events event := ⟨h.bubblegum, h.gummyroll⟩

theorem instruction (h : Prints rest events event) (name : String) :
    Prints (.log (.instruction name) rest) events event := ⟨h.bubblegum, h.gummyroll⟩

/-- An event that bubblegum emits. -/
theorem emit (h : Prints rest events event) {own : Event Node Pubkey}
    (hidl : eventName own ∈ Idl.bubblegum.events) (hemit : emitEvent own rest = some trace) :
    Prints trace (own :: events) event := by
  obtain ⟨data, hdata, htrace⟩ := Option.bind_eq_some_iff.1 hemit
  obtain rfl := Option.some.inj htrace
  refine ⟨?_, h.gummyroll⟩
  rw [Trace.logs, findBubblegumEvents, decodeEvent_emitted hdata hidl, h.bubblegum, List.map_cons]

theorem newNFT (h : Prints rest events event) {own : NewNFTEvent Pubkey}
    (hemit : emitEvent (.newNFT own : Event Node Pubkey) rest = some trace) :
    Prints trace (.newNFT own :: events) event :=
  h.emit (by simp [eventName, Idl.events]) hemit

theorem leafSchema (h : Prints rest events event) {own : LeafSchemaEvent Node Pubkey}
    (hemit : emitEvent (.leafSchema own) rest = some trace) :
    Prints trace (.leafSchema own :: events) event :=
  h.emit (by simp [eventName, Idl.events]) hemit

theorem wrap (h : Prints rest events event) (unread : Unread Pubkey) (data : List UInt8) :
    Prints (wrapEvent unread data rest) events event := by
  refine ⟨h.bubblegum, fun changeLog => ?_⟩
  rw [wrapEvent, Trace.logs, findGummyrollEvent, if_neg ProgramIds.gummyroll_ne_candyWrapper.symm,
    h.gummyroll]

theorem init (h : Prints rest events event) : Prints (initAccount unread rest) events event := by
  rw [initAccount]
  induction unread.createAccount with
  | nil => exact h
  | cons call calls ih =>
    refine ⟨ih.bubblegum, fun changeLog => ?_⟩
    rw [List.foldr_cons, Trace.logs, findGummyrollEvent, if_neg ProgramIds.system_ne_gummyroll,
      ih.gummyroll]

/-- The call of gummyroll with its event. -/
theorem invoke (h : Prints rest events none) {name : String}
    (hname : name ≠ "VerifyLeaf" ∧ name ≠ "TransferAuthority") {own : ChangeLogEvent Node Pubkey}
    (hinvoke : invokeGummyroll unread name own rest = some trace) :
    Prints trace events (some own) := by
  simp only [invokeGummyroll, Option.bind_eq_bind, Option.bind_eq_some_iff,
    Option.some.injEq] at hinvoke
  obtain ⟨data, -, emitted, hemitted, rfl⟩ := hinvoke
  obtain ⟨data', hdata', hemitted⟩ := Option.bind_eq_some_iff.1 hemitted
  obtain rfl := Option.some.inj hemitted
  have hdecode : decodeEvent _ .gummyroll = _ := decodeEvent_emitted hdata' List.mem_cons_self
  refine ⟨h.bubblegum, fun changeLog => ?_⟩
  rw [Trace.logs, findGummyrollEvent, if_pos rfl, parseEventGummyroll, Trace.logs, parseIxName]
  simp only [Option.bind_eq_bind, Option.bind_some]
  split
  · exact absurd rfl hname.1
  · exact absurd rfl hname.2
  · rw [parseChangelogEvent]
    simp [entries, wrapEvent, Trace.logs, hdecode, h.gummyroll]

end Prints

section Parsers

variable {trace : Trace Pubkey} {event : ChangeLogEvent Node Pubkey}
  {leaf : LeafSchemaEvent Node Pubkey} {newLeafData : NewNFTEvent Pubkey}

theorem parseBubblegumCreateTree_eq {events : List (Event Node Pubkey)}
    (h : Prints trace events (some event)) :
    parseBubblegumCreateTree (trace.logs 0) = some (.createTree event) := by
  simp [parseBubblegumCreateTree, h.gummyroll]

theorem parseBubblegumMint_eq (h : Prints trace [.newNFT newLeafData, .leafSchema leaf]
    (some event)) : parseBubblegumMint (trace.logs 0) = some (.mint event newLeafData leaf) := by
  simp [parseBubblegumMint, h.bubblegum, h.gummyroll]

theorem parseBubblegumReplaceLeaf_eq (h : Prints trace [.leafSchema leaf] (some event))
    (compressed : Bool) : parseBubblegumReplaceLeaf (trace.logs 0) compressed =
      some (.replaceLeaf event leaf compressed) := by
  simp [parseBubblegumReplaceLeaf, h.bubblegum, h.gummyroll]

end Parsers

/-- From the complete log of an executed instruction, the call for its events is made. -/
theorem parseBubblegumLog_trace {x : Executed Node Pubkey} {unread : Unread Pubkey}
    {trace : Trace Pubkey} (h : x.trace unread = some trace) :
    parseBubblegumLog ⟨ProgramIds.bubblegum, 0, trace.logs 0⟩ = some x.ingestCall? := by
  obtain ⟨signers, instruction, events⟩ := x
  have hconsumed : Prints (.log (.other unread.consumed) .done)
    ([] : List (Event Node Pubkey)) none := Prints.done.other _
  rw [Executed.trace] at h
  dsimp only at h
  split at h
  rotate_right
  · cases h
  all_goals simp only [Option.bind_eq_bind, Option.bind_eq_some_iff, Option.some.injEq] at h
  · -- `create_tree`
    obtain ⟨cpi, hcpi, rfl⟩ := h
    exact congrArg (Option.map some)
      (parseBubblegumCreateTree_eq ((hconsumed.invoke (by decide) hcpi).init.instruction _))
  · -- `mint_v1`
    obtain ⟨cpi, hcpi, emitted, hemitted, data, hdata, emitted', hemitted', rfl⟩ := h
    have hcall := ((hconsumed.invoke (by decide) hcpi).leafSchema hemitted).wrap unread data
    have hcall := (hcall.newNFT hemitted').instruction "MintV1"
    exact congrArg (Option.map some) (parseBubblegumMint_eq hcall)
  · -- `transfer`
    obtain ⟨cpi, hcpi, emitted, hemitted, rfl⟩ := h
    have hcall := (hconsumed.invoke (by decide) hcpi).leafSchema hemitted
    exact congrArg (Option.map some) (parseBubblegumReplaceLeaf_eq (hcall.instruction _) true)
  · -- `delegate`
    obtain ⟨cpi, hcpi, emitted, hemitted, data, -, rfl⟩ := h
    have hcall := (hconsumed.invoke (by decide) hcpi).leafSchema hemitted
    exact congrArg (Option.map some)
      (parseBubblegumReplaceLeaf_eq ((hcall.wrap unread data).instruction _) true)
  · -- `burn`
    obtain ⟨cpi, hcpi, data, -, emitted, hemitted, rfl⟩ := h
    have hcall := ((hconsumed.invoke (by decide) hcpi).wrap unread data).leafSchema hemitted
    exact congrArg (Option.map some) (parseBubblegumReplaceLeaf_eq (hcall.instruction _) true)
  · -- `redeem`
    obtain ⟨cpi, hcpi, data, -, emitted, hemitted, rfl⟩ := h
    have hcall := ((hconsumed.invoke (by decide) hcpi).wrap unread data).leafSchema hemitted
    exact congrArg (Option.map some) (parseBubblegumReplaceLeaf_eq (hcall.init.instruction _) false)
  · -- `cancel_redeem`
    obtain ⟨cpi, hcpi, data, -, emitted, hemitted, rfl⟩ := h
    have hcall := ((hconsumed.invoke (by decide) hcpi).wrap unread data).leafSchema hemitted
    exact congrArg (Option.map some) (parseBubblegumReplaceLeaf_eq (hcall.instruction _) true)

end Executed

/-! ### Nested logs -/

/-- The calls that are made and awaited one after the other, `none` for an exception. -/
def attempts (parsed : Option (Option (IngestCall Node Pubkey))) :
    List (Option (IngestCall Node Pubkey)) :=
  match parsed with
  | some call => call.toList.map some
  | none => [none]

/-- What `indexParsedLog(db, .., parsedLog)` attempts for the entries of a log. -/
def indexLogs : Logs Pubkey → List (Option (IngestCall Node Pubkey))
  | .nil => []
  | .line _ rest => indexLogs rest
  | .parsedLog programId depth logs rest =>
    if programId = ProgramIds.bubblegum then
      attempts (parseBubblegumLog ⟨programId, depth, logs⟩) ++ indexLogs rest
    else indexLogs logs ++ indexLogs rest

/-- What `indexParsedLog(db, .., parsedLog)` attempts. -/
def indexParsedLog (parsedLog : ParsedLog Pubkey) : List (Option (IngestCall Node Pubkey)) :=
  if parsedLog.programId = ProgramIds.bubblegum then attempts (parseBubblegumLog parsedLog)
  else indexLogs parsedLog.logs

end Programs

end Log

end Candyland.Sdk.Indexer
