import Candyland.NftIngester.Bubblegum
import Candyland.NftIngester.LogAttribution
import Candyland.Sdk.Indexer.Symbolic

/-!
# Extracting events

The events of an instruction are read out of the lines that were logged while it ran.  Any program
may log such lines, with any bytes in them.  A payload that is no event is passed over, unless it
ends before a discriminator would: then the slice for the discriminator aborts the ingester.
-/

namespace Candyland.NftIngester.EventLog

open Borsh (Layout)
open Bubblegum (LeafSchemaEvent NFTDecompressionEvent)
open ConcurrentMerkleTree (NodeHash Term)
open Gummyroll (ChangeLogEvent)
open Sdk.Indexer (KeyLayout NodeLayout)

/-- `base64::decode(data)`. -/
class Base64 where
  decode : Line → Option (List UInt8)

/-- A type of events: `T: Event + AnchorDeserialize`. -/
class AnchorEvent (α : Type) where
  discriminator : Vector UInt8 8
  layout : Layout α

variable {Node Pubkey α : Type}

instance [NodeHash Node] [NodeLayout Node] [KeyLayout Pubkey] :
    AnchorEvent (ChangeLogEvent Node Pubkey) :=
  ⟨#v[149, 65, 218, 16, 126, 87, 117, 175], Sdk.Indexer.ChangeLogEvent.layout⟩

instance [NodeHash Node] [NodeLayout Node] [KeyLayout Pubkey] :
    AnchorEvent (LeafSchemaEvent Node Pubkey) :=
  ⟨#v[56, 139, 154, 164, 204, 170, 78, 204], Sdk.Indexer.LeafSchemaEvent.layout⟩

instance [KeyLayout Pubkey] : AnchorEvent (NFTDecompressionEvent Pubkey) :=
  ⟨#v[255, 254, 123, 106, 237, 80, 198, 107], Sdk.Indexer.NFTDecompressionEvent.layout⟩

/-! ### `filter_events_from_logs` -/

section Filter

variable [CharClasses]

/-- `"Program data: "`. -/
def dataText : Line := programText ++ ['d', 'a', 't', 'a', ':', ' ']

/-- `[A-Za-z\d+/]`. -/
def base64Char (c : Char) : Bool :=
  c.isUpper || c.isLower || CharClasses.digit c || c == '+' || c == '/'

/-- `(?:[A-Za-z\d+/]{4})*(?:[A-Za-z\d+/]{3}=|[A-Za-z\d+/]{2}==)?$` matches the whole text.  The
padding is not in the class, so that there is one way to do so. -/
def base64Text : Line → Bool
  | [] => true
  | a :: b :: c :: d :: text =>
    if base64Char a && base64Char b && base64Char c && base64Char d then base64Text text
    else text.isEmpty && base64Char a && base64Char b && (base64Char c || c == '=') && d == '='
  | _ => false

/-- A match at the beginning of a text. -/
def dataHere (text : Line) : Option Line := do
  let raw ← dataText.isPrefixOf? text
  if base64Text raw then some raw else none

/-- `CLRE.captures(line)`, the group of the leftmost match. -/
def dataCaptures : Line → Option Line
  | [] => dataHere []
  | c :: line => (dataHere (c :: line)).or (dataCaptures line)

/-- `filter_events_from_logs(log_messages)`. -/
def filterEventsFromLogs (logMessages : List Line) : Outcome Unit (List Line) :=
  let events := logMessages.filterMap dataCaptures
  if events.isEmpty then .err () else .ok events

end Filter

/-! ### `handle_event` and its callers -/

section Handle

variable [CharClasses] [Base64] [AnchorEvent α]

omit [CharClasses] in
/-- `handle_event::<T>(data)`.  The slice of the first eight bytes panics on a shorter payload. -/
def handleEvent (data : Line) : Outcome IngesterError α :=
  match Base64.decode data with
  | none => .err .ChangeLogEventMalformed
  | some borshBytes =>
    if borshBytes.length < 8 then .panic
    else if borshBytes.take 8 ≠ (AnchorEvent.discriminator α).toList then
      .err .ChangeLogEventMalformed
    else
      match AnchorEvent.layout.decode (borshBytes.drop 8) with
      | none => .err .ChangeLogEventMalformed
      | some (e, _) => .ok e

omit [CharClasses] in
/-- The body of the loops over the payloads: an error is passed over. -/
def visit {β : Type} (add : β → α → β) (events : β) (data : Line) : Outcome IngesterError β :=
  match handleEvent data with
  | .ok event => .ok (add events event)
  | .err _ => .ok events
  | .panic => .panic

omit [CharClasses] in
/-- The body of the loop of `get_gummy_roll_events`. -/
def pushEvent : List α → Line → Outcome IngesterError (List α) :=
  visit fun events event => events ++ [event]

omit [CharClasses] in
/-- The body of the loop of `get_bubblegum_event`. -/
def keepEvent : Option α → Line → Outcome IngesterError (Option α) :=
  visit fun _ event => some event

/-- `get_gummy_roll_events(logs)`, where `T` is `ChangeLogEvent`. -/
def getGummyRollEvents [NodeHash Node] [NodeLayout Node] [KeyLayout Pubkey] (logs : List Line) :
    Outcome IngesterError (List (ChangeLogEvent Node Pubkey)) :=
  match filterEventsFromLogs logs with
  | .ok changeLogEvents => changeLogEvents.foldlM pushEvent []
  | .err () => .err .ChangeLogEventMalformed
  | .panic => .panic

/-- `get_bubblegum_event::<T>(logs)`. -/
def getBubblegumEvent (logs : List Line) : Outcome IngesterError α :=
  match filterEventsFromLogs logs with
  | .ok eventLogs => do
    match ← eventLogs.foldlM keepEvent none with
    | some event => .ok event
    | none => .err .CompressedAssetEventMalformed
  | .err () => .err .CompressedAssetEventMalformed
  | .panic => .panic

end Handle

/-! ### What a line says -/

section Spec

variable [CharClasses]

/-- The line ends with a data text and the payload. -/
def DataLine (line raw : Line) : Prop :=
  ∃ pre, line = pre ++ (dataText ++ raw) ∧ base64Text raw = true

/-- A payload has only characters of the class and padding. -/
theorem base64Char_of_mem {raw : Line} (h : base64Text raw = true) :
    ∀ c ∈ raw, base64Char c = true ∨ c = '=' := by
  induction raw using base64Text.induct with
  | case1 => simp
  | case2 a b c d text hchars ih =>
    rw [base64Text, if_pos hchars] at h
    simp only [Bool.and_eq_true] at hchars
    obtain ⟨⟨⟨ha, hb⟩, hc⟩, hd⟩ := hchars
    simp only [List.mem_cons, forall_eq_or_imp]
    exact ⟨.inl ha, .inl hb, .inl hc, .inl hd, ih h⟩
  | case3 a b c d text hchars =>
    rw [base64Text, if_neg hchars] at h
    simp only [Bool.and_eq_true, List.isEmpty_iff, Bool.or_eq_true, beq_iff_eq] at h
    obtain ⟨⟨⟨⟨rfl, ha⟩, hb⟩, hc⟩, hd⟩ := h
    simp only [List.mem_cons, forall_eq_or_imp]
    exact ⟨.inl ha, .inl hb, hc, .inr hd, by simp⟩
  | case4 => exact absurd h (by simp [base64Text])

/-- No payload has a colon, which every data text has. -/
theorem colon_not_mem {raw : Line} (h : base64Text raw = true) : ':' ∉ raw := by
  intro hmem
  rcases base64Char_of_mem h _ hmem with hchar | heq
  · rw [base64Char, CharClasses.digit_ascii ':' (by decide)] at hchar
    exact absurd hchar (by decide)
  · exact absurd heq (by decide)

theorem dataHere_eq_some {text raw : Line} :
    dataHere text = some raw ↔ text = dataText ++ raw ∧ base64Text raw = true := by
  rw [dataHere]
  simp only [Option.bind_eq_bind, Option.bind_eq_some_iff, List.isPrefixOf?_eq_some_iff_append_eq,
    Option.ite_none_right_eq_some, Option.some.injEq]
  constructor
  · rintro ⟨raw, rfl, hraw, rfl⟩
    exact ⟨rfl, hraw⟩
  · rintro ⟨rfl, hraw⟩
    exact ⟨raw, rfl, hraw, rfl⟩

omit [CharClasses] in
/-- A text splits in one way at the last place of a character. -/
theorem behind_last {c : Char} {before after before' after' : Line} (hafter : c ∉ after)
    (hafter' : c ∉ after') (h : before ++ c :: after = before' ++ c :: after') : after = after' := by
  rcases List.append_eq_append_iff.1 h with ⟨mid, -, hmid⟩ | ⟨mid, -, hmid⟩
  · cases mid with
    | nil => exact (List.cons.inj hmid).2
    | cons d mid =>
      rw [(List.cons.inj hmid).2] at hafter
      exact absurd (by simp) hafter
  · cases mid with
    | nil => exact (List.cons.inj hmid).2.symm
    | cons d mid =>
      rw [(List.cons.inj hmid).2] at hafter'
      exact absurd (by simp) hafter'

/-- The payload of a line is what is behind its last data text. -/
theorem DataLine.unique {line raw raw' : Line} (h : DataLine line raw) (h' : DataLine line raw') :
    raw = raw' := by
  obtain ⟨pre, rfl, hraw⟩ := h
  obtain ⟨pre', heq, hraw'⟩ := h'
  have hsplit : ∀ pre raw : Line, pre ++ (dataText ++ raw) =
      (pre ++ (programText ++ ['d', 'a', 't', 'a'])) ++ ':' :: ' ' :: raw := by
    intro pre raw
    simp [dataText]
  rw [hsplit, hsplit] at heq
  have hmem := colon_not_mem hraw
  have hmem' := colon_not_mem hraw'
  exact (List.cons.inj (behind_last (by simpa using hmem) (by simpa using hmem') heq)).2

/-- The pattern finds the payload of a data line. -/
theorem dataCaptures_eq_some {line raw : Line} : dataCaptures line = some raw ↔ DataLine line raw := by
  induction line with
  | nil =>
    rw [dataCaptures, dataHere_eq_some]
    constructor
    · rintro ⟨htext, hraw⟩
      exact ⟨[], htext, hraw⟩
    · rintro ⟨pre, htext, -⟩
      simp [dataText, programText] at htext
  | cons c line ih =>
    have hhere : ∀ {raw'}, dataHere (c :: line) = some raw' → DataLine (c :: line) raw' := by
      intro raw' h
      obtain ⟨htext, hraw⟩ := dataHere_eq_some.1 h
      exact ⟨[], htext, hraw⟩
    rw [dataCaptures, Option.or_eq_some_iff]
    constructor
    · rintro (h | ⟨-, h⟩)
      · exact hhere h
      · obtain ⟨pre, rfl, hraw⟩ := ih.1 h
        exact ⟨c :: pre, rfl, hraw⟩
    · intro h
      rcases hfirst : dataHere (c :: line) with _ | raw'
      · right
        obtain ⟨_ | ⟨d, pre⟩, htext, hraw⟩ := h
        · rw [dataHere_eq_some.2 ⟨htext, hraw⟩] at hfirst
          exact absurd hfirst (by simp)
        · exact ⟨rfl, ih.2 ⟨pre, (List.cons.inj htext).2, hraw⟩⟩
      · left
        rw [(hhere hfirst).unique h]

variable [Base64] [AnchorEvent α]

/-- The line carries the event: behind the discriminator of its type are the bytes of its fields,
and what follows does not matter. -/
def WellFormed (line : Line) (event : α) : Prop :=
  ∃ raw bytes rest, DataLine line raw ∧ AnchorEvent.layout.encode event = some bytes ∧
    Base64.decode raw = some ((AnchorEvent.discriminator α).toList ++ (bytes ++ rest))

/-- The events that the lines carry, in order; other lines are skipped. -/
inductive Extracts : List Line → List α → Prop
  | nil : Extracts [] []
  | event {line : Line} {lines : List Line} {event : α} {events : List α}
      (h : WellFormed line event) (hrest : Extracts lines events) :
      Extracts (line :: lines) (event :: events)
  | skip {line : Line} {lines : List Line} {events : List α}
      (h : ∀ event : α, ¬ WellFormed line event) (hrest : Extracts lines events) :
      Extracts (line :: lines) events

/-- A payload that ends before the end of a discriminator. -/
def TooShort (line : Line) : Prop :=
  ∃ raw bytes, DataLine line raw ∧ Base64.decode raw = some bytes ∧ bytes.length < 8

end Spec

/-! ### The loops -/

section Loops

variable [CharClasses] [Base64] [AnchorEvent α] {line raw : Line}

omit [CharClasses] in
theorem handleEvent_eq_panic :
    handleEvent raw = (.panic : Outcome IngesterError α) ↔
      ∃ bytes, Base64.decode raw = some bytes ∧ bytes.length < 8 := by
  rw [handleEvent]
  rcases Base64.decode raw with _ | bytes
  · simp
  · dsimp only
    split_ifs with hshort hdisc
    · exact iff_of_true rfl ⟨bytes, rfl, hshort⟩
    · simp [hshort]
    · rcases AnchorEvent.layout.decode (α := α) (bytes.drop 8) with _ | ⟨event, rest⟩ <;> simp [hshort]

omit [CharClasses] in
theorem handleEvent_eq_ok {event : α} :
    handleEvent raw = .ok event ↔ ∃ bytes rest, AnchorEvent.layout.encode event = some bytes ∧
      Base64.decode raw = some ((AnchorEvent.discriminator α).toList ++ (bytes ++ rest)) := by
  have hlen : (AnchorEvent.discriminator α).toList.length = 8 := by simp
  rw [handleEvent]
  constructor
  · intro h
    rcases hdecode : Base64.decode raw with _ | borshBytes
    · rw [hdecode] at h
      exact absurd h (by simp)
    · rw [hdecode] at h
      dsimp only at h
      split_ifs at h with hshort hdisc
      rcases hevent : AnchorEvent.layout.decode (α := α) (borshBytes.drop 8) with _ | ⟨event', rest⟩
      · rw [hevent] at h
        exact absurd h (by simp)
      · rw [hevent] at h
        obtain rfl := Outcome.ok.inj h
        obtain ⟨bytes, hbytes, hdrop⟩ := AnchorEvent.layout.decode_eq_some_iff.1 hevent
        refine ⟨bytes, rest, hbytes, ?_⟩
        rw [← hdrop, ← not_not.1 hdisc, List.take_append_drop]
  · rintro ⟨bytes, rest, hbytes, hdecode⟩
    rw [hdecode]
    dsimp only
    rw [if_neg (by rw [List.length_append]; omega), List.take_left' hlen, List.drop_left' hlen,
      if_neg (not_not.2 rfl), Layout.decode_encode hbytes]

theorem wellFormed_iff {event : α} (h : DataLine line raw) :
    WellFormed line event ↔ handleEvent raw = .ok event := by
  rw [handleEvent_eq_ok]
  constructor
  · rintro ⟨raw', bytes, rest, hraw', hbytes, hdecode⟩
    rw [hraw'.unique h] at hdecode
    exact ⟨bytes, rest, hbytes, hdecode⟩
  · rintro ⟨bytes, rest, hbytes, hdecode⟩
    exact ⟨raw, bytes, rest, h, hbytes, hdecode⟩

omit [AnchorEvent α] in
theorem tooShort_iff (h : DataLine line raw) :
    TooShort line ↔ ∃ bytes, Base64.decode raw = some bytes ∧ bytes.length < 8 := by
  constructor
  · rintro ⟨raw', bytes, hraw', hdecode, hlen⟩
    rw [hraw'.unique h] at hdecode
    exact ⟨bytes, hdecode, hlen⟩
  · rintro ⟨bytes, hdecode, hlen⟩
    exact ⟨raw, bytes, h, hdecode, hlen⟩

omit [AnchorEvent α] in
/-- A line without a payload has nothing that could be too short. -/
theorem not_tooShort (h : dataCaptures line = none) : ¬ TooShort line := by
  rintro ⟨raw, bytes, hraw, -, -⟩
  exact absurd (dataCaptures_eq_some.2 hraw) (by simp [h])

theorem not_wellFormed (h : dataCaptures line = none) (event : α) : ¬ WellFormed line event := by
  rintro ⟨raw, bytes, rest, hraw, -, -⟩
  exact absurd (dataCaptures_eq_some.2 hraw) (by simp [h])

/-- The events of the lines are unique. -/
theorem Extracts.unique {logs : List Line} {events events' : List α} (h : Extracts logs events)
    (h' : Extracts logs events') : events = events' := by
  have hone : ∀ {line : Line} {event event' : α}, WellFormed line event → WellFormed line event' →
      event = event' := by
    rintro line event event' ⟨raw, bytes, rest, hraw, hbytes, hdecode⟩ h'
    have hok := handleEvent_eq_ok.2 ⟨bytes, rest, hbytes, hdecode⟩
    exact Outcome.ok.inj (hok.symm.trans ((wellFormed_iff hraw).1 h'))
  induction h generalizing events' with
  | nil =>
    cases h'
    rfl
  | event h _ ih =>
    cases h' with
    | event h' hrest' => rw [hone h h', ih hrest']
    | skip h' _ => exact absurd h (h' _)
  | skip h _ ih =>
    cases h' with
    | event h' _ => exact absurd h' (h _)
    | skip _ hrest' => exact ih hrest'

/-- A loop over the payloads aborts at one that is too short, and otherwise goes through the events
of the lines. -/
theorem foldlM_visit {β : Type} (add : β → α → β) (logs : List Line) (acc : β) :
    (∃ line ∈ logs, TooShort line) ∧
        (logs.filterMap dataCaptures).foldlM (visit add) acc = .panic ∨
      (∀ line ∈ logs, ¬ TooShort line) ∧ ∃ events, Extracts logs events ∧
        (logs.filterMap dataCaptures).foldlM (visit add) acc = .ok (events.foldl add acc) := by
  induction logs generalizing acc with
  | nil => exact .inr ⟨by simp, [], .nil, rfl⟩
  | cons line logs ih =>
    rcases hline : dataCaptures line with _ | raw
    · -- nothing is captured: the line is no event
      rw [List.filterMap_cons_none hline]
      rcases ih acc with ⟨⟨bad, hmem, hbad⟩, hrun⟩ | ⟨hgood, events, hevents, hrun⟩
      · exact .inl ⟨⟨bad, List.mem_cons_of_mem _ hmem, hbad⟩, hrun⟩
      · exact .inr ⟨List.forall_mem_cons.2 ⟨not_tooShort hline, hgood⟩, events,
          .skip (not_wellFormed hline) hevents, hrun⟩
    · have hraw := dataCaptures_eq_some.1 hline
      rw [List.filterMap_cons_some hline, List.foldlM_cons]
      rcases hevent : (handleEvent raw : Outcome IngesterError α) with event | e | _
      · have hstep : visit add acc raw = .ok (add acc event) := by rw [visit, hevent]
        have hlong : ¬ TooShort line := by
          rw [tooShort_iff hraw, ← handleEvent_eq_panic (α := α), hevent]
          exact nofun
        rw [hstep]
        rcases ih (add acc event) with ⟨⟨bad, hmem, hbad⟩, hrun⟩ | ⟨hgood, events, hevents, hrun⟩
        · exact .inl ⟨⟨bad, List.mem_cons_of_mem _ hmem, hbad⟩, hrun⟩
        · exact .inr ⟨List.forall_mem_cons.2 ⟨hlong, hgood⟩, event :: events,
            .event ((wellFormed_iff hraw).2 hevent) hevents, hrun⟩
      · have hstep : visit add acc raw = .ok acc := by rw [visit, hevent]
        have hlong : ¬ TooShort line := by
          rw [tooShort_iff hraw, ← handleEvent_eq_panic (α := α), hevent]
          exact nofun
        have hnone : ∀ event : α, ¬ WellFormed line event := by
          intro event h
          rw [wellFormed_iff hraw, hevent] at h
          exact absurd h nofun
        rw [hstep]
        rcases ih acc with ⟨⟨bad, hmem, hbad⟩, hrun⟩ | ⟨hgood, events, hevents, hrun⟩
        · exact .inl ⟨⟨bad, List.mem_cons_of_mem _ hmem, hbad⟩, hrun⟩
        · exact .inr ⟨List.forall_mem_cons.2 ⟨hlong, hgood⟩, events, .skip hnone hevents, hrun⟩
      · have hstep : visit add acc raw = .panic := by rw [visit, hevent]
        rw [hstep]
        exact .inl ⟨⟨line, List.mem_cons_self, (tooShort_iff hraw).2
          (handleEvent_eq_panic.1 hevent)⟩, rfl⟩

omit [AnchorEvent α] [Base64] in
/-- Payloads were found, or there are none. -/
theorem filterEventsFromLogs_cases (logs : List Line) :
    logs.filterMap dataCaptures = [] ∧ filterEventsFromLogs logs = .err () ∨
      filterEventsFromLogs logs = .ok (logs.filterMap dataCaptures) := by
  rw [filterEventsFromLogs]
  rcases logs.filterMap dataCaptures with _ | ⟨raw, events⟩
  · exact .inl ⟨rfl, rfl⟩
  · exact .inr rfl

omit [AnchorEvent α] in
/-- Without payloads, none is too short. -/
theorem not_tooShort_of_filterMap_nil {logs : List Line} (h : logs.filterMap dataCaptures = []) :
    ∀ line ∈ logs, ¬ TooShort line := by
  intro line hline
  exact not_tooShort (List.filterMap_eq_nil_iff.1 h line hline)

theorem getBubblegumEvent_ne_panic_iff (logs : List Line) :
    (getBubblegumEvent logs : Outcome IngesterError α) ≠ .panic ↔
      ∀ line ∈ logs, ¬ TooShort line := by
  rw [getBubblegumEvent]
  rcases filterEventsFromLogs_cases logs with ⟨hnil, hfilter⟩ | hfilter
  · rw [hfilter]
    exact iff_of_true nofun (not_tooShort_of_filterMap_nil hnil)
  · rw [hfilter]
    dsimp only
    rcases foldlM_visit (fun (_ : Option α) event => some event) logs none with
      ⟨⟨line, hline, hshort⟩, hrun⟩ | ⟨hgood, events, -, hrun⟩
    · have hfold : (logs.filterMap dataCaptures).foldlM (keepEvent (α := α)) none = .panic := hrun
      rw [hfold]
      exact iff_of_false (not_not.2 rfl) fun h => h line hline hshort
    · have hfold : (logs.filterMap dataCaptures).foldlM (keepEvent (α := α)) none =
          .ok (events.foldl (fun _ event => some event) none) := hrun
      rw [hfold]
      refine iff_of_true ?_ hgood
      rcases events.foldl (fun (_ : Option α) event => some event) none with _ | event <;> exact nofun

variable {Node Pubkey : Type} [NodeHash Node] [NodeLayout Node] [KeyLayout Pubkey]

/-- The events of the instruction, or an abort. -/
theorem getGummyRollEvents_cases (logs : List Line) :
    (∃ line ∈ logs, TooShort line) ∧
        (getGummyRollEvents logs : Outcome _ (List (ChangeLogEvent Node Pubkey))) = .panic ∨
      (∀ line ∈ logs, ¬ TooShort line) ∧
        ((getGummyRollEvents logs : Outcome _ (List (ChangeLogEvent Node Pubkey))) =
            .err .ChangeLogEventMalformed ∨
          ∃ events : List (ChangeLogEvent Node Pubkey), Extracts logs events ∧
            getGummyRollEvents logs = .ok events) := by
  rw [getGummyRollEvents]
  rcases filterEventsFromLogs_cases logs with ⟨hnil, hfilter⟩ | hfilter
  · rw [hfilter]
    exact .inr ⟨not_tooShort_of_filterMap_nil hnil, .inl rfl⟩
  · rw [hfilter]
    rcases foldlM_visit (fun events (event : ChangeLogEvent Node Pubkey) => events ++ [event])
      logs [] with ⟨hshort, hrun⟩ | ⟨hgood, events, hevents, hrun⟩
    · exact .inl ⟨hshort, hrun⟩
    · refine .inr ⟨hgood, .inr ⟨events, hevents, ?_⟩⟩
      have hfold : events.foldl (fun events event => events ++ [event]) [] = events := by
        rw [List.foldl_append_eq_append, ← List.flatMap_def, List.nil_append]
        exact List.flatMap_singleton' events
      rw [hfold] at hrun
      exact hrun

end Loops

/-- Events are extracted without an abort, and they are the well-formed ones in order, exactly when
no payload ends before a discriminator would. -/
theorem getGummyRollEvents_extracts_iff {Node Pubkey : Type} [CharClasses] [Base64]
    [NodeHash Node] [NodeLayout Node] [KeyLayout Pubkey] (logs : List Line) :
    ((getGummyRollEvents logs : Outcome _ (List (ChangeLogEvent Node Pubkey))) ≠ .panic ∧
        (∀ (α : Type) [AnchorEvent α],
          (getBubblegumEvent logs : Outcome IngesterError α) ≠ .panic) ∧
        ∀ events : List (ChangeLogEvent Node Pubkey),
          getGummyRollEvents logs = .ok events → Extracts logs events) ↔
      ∀ line ∈ logs, ¬ TooShort line := by
  constructor
  · rintro ⟨-, hbubblegum, -⟩
    exact (getBubblegumEvent_ne_panic_iff logs).1 (hbubblegum (ChangeLogEvent Node Pubkey))
  · intro hgood
    rcases (getGummyRollEvents_cases logs : _ ∧ (getGummyRollEvents logs :
        Outcome IngesterError (List (ChangeLogEvent Node Pubkey))) = .panic ∨ _) with
      ⟨⟨line, hline, hshort⟩, -⟩ | ⟨-, herr | ⟨events, hevents, hok⟩⟩
    · exact absurd hshort (hgood line hline)
    · refine ⟨by rw [herr]; exact nofun, fun α _ => (getBubblegumEvent_ne_panic_iff logs).2 hgood, ?_⟩
      intro events h
      rw [herr] at h
      exact absurd h nofun
    · refine ⟨by rw [hok]; exact nofun, fun α _ => (getBubblegumEvent_ne_panic_iff logs).2 hgood, ?_⟩
      intro events' h
      rw [← Outcome.ok.inj (hok.symm.trans h)]
      exact hevents

/-! ### An empty payload -/

/-- The value of a character of the standard alphabet. -/
def sextet (c : Char) : Option Nat :=
  if c.isUpper then some (c.toNat - 65)
  else if c.isLower then some (c.toNat - 71)
  else if c.isDigit then some (c.toNat + 4)
  else if c == '+' then some 62
  else if c == '/' then some 63
  else none

/-- The bytes of four characters without padding at a time. -/
def quads : Line → Option (List UInt8)
  | [] => some []
  | a :: b :: c :: d :: raw => do
    let value := (((← sextet a) * 64 + (← sextet b)) * 64 + (← sextet c)) * 64 + (← sextet d)
    return UInt8.ofNat (value / 65536) :: UInt8.ofNat (value / 256) :: UInt8.ofNat value ::
      (← quads raw)
  | _ => none

/-- Any program can log a text with an empty payload, or one of three bytes: the ingester aborts,
although a line without any payload is only an error. -/
theorem empty_payload_aborts :
    let _ : Base64 := ⟨quads⟩
    let bad : List Line := [dataText]
    let short : List Line := [dataText ++ ['A', 'A', 'A', 'A']]
    (getGummyRollEvents bad : Outcome _ (List (ChangeLogEvent Term Bubblegum.Key))) = .panic ∧
      (getBubblegumEvent bad : Outcome _ (LeafSchemaEvent Term Bubblegum.Key)) = .panic ∧
      (getGummyRollEvents short : Outcome _ (List (ChangeLogEvent Term Bubblegum.Key))) = .panic ∧
      (getGummyRollEvents [programText] : Outcome _ (List (ChangeLogEvent Term Bubblegum.Key))) =
        .err .ChangeLogEventMalformed := by
  intro _ bad short
  refine ⟨rfl, rfl, ?_, rfl⟩
  rfl

end Candyland.NftIngester.EventLog
