import Candyland.Sdk.Indexer.InnerInstruction
import Candyland.Sdk.Indexer.TruncatedLogs

/-!
# The walk through the inner instructions

A flattened list of inner instructions is made of the calls of bubblegum, each followed by the
calls that it made, and of calls of other programs.  The parser has to pass on every call of
bubblegum, and to read its events from the wraps of that very call.

It does so for lists without a call that replaces a leaf, in which no `create_tree` stands directly
before a call of bubblegum: the events of a replacement are searched from the first inner
instruction on, and behind a `create_tree` one instruction is skipped.
-/

namespace Candyland.Sdk.Indexer

open Bubblegum (Event Executed LeafHash LeafSchemaEvent NewNFTEvent ProgramAddress State)
open ConcurrentMerkleTree (NodeHash)
open Gummyroll (Build ChangeLogEvent)

variable {Node Pubkey : Type}

/-- The element that belongs to the one behind a prefix. -/
theorem getElem?_of_forall₂ {α β : Type} {R : α → β → Prop} {before more : List α} {a : α}
    {l : List β} (h : List.Forall₂ R (before ++ a :: more) l) :
    ∃ b, l[before.length]? = some b ∧ R a b ∧
      List.Forall₂ R more (l.drop (before.length + 1)) := by
  have hdrop := List.forall₂_drop before.length h
  rw [List.drop_left] at hdrop
  obtain ⟨b, rest, hb, hrest, heq⟩ := List.forall₂_cons_left_iff.1 hdrop
  refine ⟨b, ?_, hb, ?_⟩
  · rw [← Nat.add_zero before.length, ← List.getElem?_drop, heq, List.getElem?_cons_zero]
  · rwa [← List.drop_drop, heq, List.drop_one, List.tail_cons]

/-! ### Wraps by their positions -/

section Positions

variable [SystemProgramId Pubkey] [ProgramIds Pubkey] [DecidableEq Pubkey]
  {accountKeys : List Pubkey} {calls quiet : List (Call Pubkey)} {wrap : Call Pubkey}
  {ixs : List CompiledInstruction}

/-- The positions of the first calls of `wrap_event`, at most `amount` of them, in a list that
starts at the position `pos`. -/
def wrapPositions (accountKeys : List Pubkey) (amount pos : ℕ) : List CompiledInstruction → List ℕ
  | [] => []
  | ix :: rest =>
    if amount = 0 then []
    else if accountKeys[ix.programIdIndex]? = some ProgramIds.candyWrapper then
      pos :: wrapPositions accountKeys (amount - 1) (pos + 1) rest
    else wrapPositions accountKeys amount (pos + 1) rest

@[simp] theorem wrapPositions_zero (pos : ℕ) (ixs : List CompiledInstruction) :
    wrapPositions accountKeys 0 pos ixs = [] := by
  cases ixs <;> simp [wrapPositions]

theorem findWrapLoop_positions {amount count count' : ℕ} {found found' : List CompiledInstruction}
    (h : findWrapLoop accountKeys amount found count ixs = some (found', count'))
    (before : List CompiledInstruction) :
    ∃ new, found' = found ++ new ∧
      (wrapPositions accountKeys (amount - found.length) before.length ixs).map
        ((before ++ ixs)[·]?) = new.map some := by
  induction ixs generalizing found count before with
  | nil =>
    by_cases hlt : found.length < amount
    · simp [findWrapLoop, hlt] at h
    · simp only [findWrapLoop, if_neg hlt, Option.some.injEq, Prod.mk.injEq] at h
      exact ⟨[], by simp [h.1], by simp [wrapPositions]⟩
  | cons ix ixs ih =>
    rw [findWrapLoop] at h
    by_cases hlt : found.length < amount
    · rw [if_pos hlt] at h
      obtain ⟨programId, hprogram, h⟩ := Option.bind_eq_some_iff.1 h
      have hlength : (before ++ [ix]).length = before.length + 1 := by simp
      have happend : before ++ ix :: ixs = before ++ [ix] ++ ixs := by simp
      rw [wrapPositions, if_neg (by omega), hprogram, happend, ← hlength]
      by_cases hwrap : programId = ProgramIds.candyWrapper
      · rw [if_pos hwrap] at h
        obtain ⟨new, rfl, hnew⟩ := ih h (before ++ [ix])
        rw [List.length_append, List.length_singleton, ← Nat.sub_sub] at hnew
        refine ⟨ix :: new, by simp, ?_⟩
        rw [if_pos (congrArg some hwrap), List.map_cons, hnew, List.map_cons]
        simp
      · rw [if_neg hwrap] at h
        obtain ⟨new, rfl, hnew⟩ := ih h (before ++ [ix])
        exact ⟨new, rfl, by rw [if_neg (by simpa using hwrap), hnew]⟩
    · rw [if_neg hlt] at h
      simp only [Option.some.injEq, Prod.mk.injEq] at h
      exact ⟨[], by simp [h.1], by simp [show amount - found.length = 0 by omega]⟩

/-- The instructions at the positions are those that are found. -/
theorem findWrapInstructions_positions {amount count k : ℕ} {found : List CompiledInstruction}
    (h : findWrapInstructions accountKeys (ixs.drop k) amount = some (found, count))
    (hk : k ≤ ixs.length) :
    (wrapPositions accountKeys amount k (ixs.drop k)).map (ixs[·]?) = found.map some := by
  obtain ⟨new, rfl, hnew⟩ := findWrapLoop_positions h (ixs.take k)
  rwa [List.take_append_drop, List.length_take_of_le hk] at hnew

theorem mem_wrapPositions {amount pos p : ℕ} (h : p ∈ wrapPositions accountKeys amount pos ixs) :
    pos ≤ p ∧ p < pos + ixs.length := by
  induction ixs generalizing amount pos with
  | nil => cases h
  | cons ix ixs ih =>
    rw [wrapPositions] at h
    rw [List.length_cons]
    split_ifs at h
    · cases h
    · rcases List.mem_cons.1 h with rfl | h
      · omega
      · have := ih h
        omega
    · have := ih h
      omega

theorem length_wrapPositions (h : List.Forall₂ (Compiled accountKeys) calls ixs)
    (amount pos : ℕ) :
    (wrapPositions accountKeys amount pos ixs).length = min amount (wrappedData calls).length := by
  induction h generalizing amount pos with
  | nil => simp [wrapPositions]
  | @cons call ix calls ixs hcall h ih =>
    rw [wrapPositions, hcall.program]
    split_ifs with hzero hwrap
    · simp [hzero]
    · rw [List.length_cons, ih, wrappedData_cons_of_eq (Option.some.inj hwrap), List.length_cons]
      omega
    · rw [ih, wrappedData_cons_of_ne fun hcall => hwrap (congrArg some hcall)]

theorem wrapPositions_append (amount pos : ℕ) (ixs ixs' : List CompiledInstruction) :
    wrapPositions accountKeys amount pos (ixs ++ ixs') =
      wrapPositions accountKeys amount pos ixs ++
        wrapPositions accountKeys (amount - (wrapPositions accountKeys amount pos ixs).length)
          (pos + ixs.length) ixs' := by
  induction ixs generalizing amount pos with
  | nil => simp [wrapPositions]
  | cons ix ixs ih =>
    rw [List.cons_append, wrapPositions, wrapPositions, List.length_cons]
    split_ifs with hzero hwrap
    · simp [hzero]
    · rw [ih, List.cons_append, List.length_cons, Nat.sub_sub, Nat.add_assoc pos,
        Nat.add_comm 1 ixs.length, Nat.add_comm 1]
    · rw [ih, Nat.add_assoc pos, Nat.add_comm 1 ixs.length]

/-- The loop reads up to the next wrap. -/
theorem findWrapLoop_next
    (h : List.Forall₂ (Compiled accountKeys) (quiet ++ wrap :: calls) ixs)
    (hquiet : ∀ call ∈ quiet, call.programId ≠ ProgramIds.candyWrapper)
    (hwrap : wrap.programId = ProgramIds.candyWrapper) {amount : ℕ}
    {found : List CompiledInstruction} (hlt : found.length < amount) (count pos : ℕ) :
    ∃ ix rest, ix.data = wrap.data ∧ List.Forall₂ (Compiled accountKeys) calls rest ∧
      findWrapLoop accountKeys amount found count ixs =
        findWrapLoop accountKeys amount (found ++ [ix]) (count + quiet.length + 1) rest ∧
      wrapPositions accountKeys (amount - found.length) pos ixs = (pos + quiet.length) ::
        wrapPositions accountKeys (amount - (found ++ [ix]).length) (pos + quiet.length + 1)
          rest := by
  have hzero : amount - found.length ≠ 0 := by omega
  induction quiet generalizing ixs count pos with
  | nil =>
    cases h with
    | @cons _ ix _ rest hcall h =>
      refine ⟨ix, rest, hcall.data, h, ?_, ?_⟩
      · simp [findWrapLoop, hlt, hcall.program, hwrap]
      · simp [wrapPositions, hzero, hcall.program, hwrap, Nat.sub_sub]
  | cons call quiet ih =>
    have hne := hquiet call List.mem_cons_self
    cases h with
    | @cons _ ix _ rest hcall h =>
      obtain ⟨ix', rest', hdata, h, hloop, hpositions⟩ :=
        ih h (fun call hcall => hquiet call (List.mem_cons_of_mem _ hcall)) (count + 1) (pos + 1)
      refine ⟨ix', rest', hdata, h, ?_, ?_⟩
      · rw [findWrapLoop, if_pos hlt, hcall.program]
        simp only [Option.bind_eq_bind, Option.bind_some, if_neg hne, hloop, List.length_cons]
        congr 1
        omega
      · rw [wrapPositions, if_neg hzero, hcall.program, if_neg (by simpa using hne), hpositions,
          List.length_cons]
        congr 1
        · omega
        · congr 1
          omega

theorem findWrapLoop_done {amount : ℕ} {found : List CompiledInstruction}
    (h : found.length = amount) (count : ℕ) :
    findWrapLoop accountKeys amount found count ixs = some (found, count) := by
  cases ixs <;> simp [findWrapLoop, h]

/-- The first wrap of a list. -/
theorem findWrapInstructions_next
    (h : List.Forall₂ (Compiled accountKeys) (quiet ++ wrap :: calls) ixs)
    (hquiet : ∀ call ∈ quiet, call.programId ≠ ProgramIds.candyWrapper)
    (hwrap : wrap.programId = ProgramIds.candyWrapper) (pos : ℕ) :
    ∃ ix, ix.data = wrap.data ∧
      findWrapInstructions accountKeys ixs 1 = some ([ix], quiet.length + 1) ∧
      wrapPositions accountKeys 1 pos ixs = [pos + quiet.length] := by
  have hlt : ([] : List CompiledInstruction).length < 1 := Nat.zero_lt_one
  obtain ⟨ix, rest, hdata, -, hloop, hpositions⟩ := findWrapLoop_next h hquiet hwrap hlt 0 pos
  replace hloop := hloop.trans (findWrapLoop_done (by simp) _)
  rw [Nat.zero_add] at hloop
  exact ⟨ix, hdata, hloop, by simpa using hpositions⟩

/-- The first two wraps of a list. -/
theorem findWrapInstructions_next_two {quiet' : List (Call Pubkey)} {wrap' : Call Pubkey}
    (h : List.Forall₂ (Compiled accountKeys) (quiet ++ wrap :: (quiet' ++ wrap' :: calls)) ixs)
    (hquiet : ∀ call ∈ quiet, call.programId ≠ ProgramIds.candyWrapper)
    (hwrap : wrap.programId = ProgramIds.candyWrapper)
    (hquiet' : ∀ call ∈ quiet', call.programId ≠ ProgramIds.candyWrapper)
    (hwrap' : wrap'.programId = ProgramIds.candyWrapper) (pos : ℕ) :
    ∃ ix ix', ix.data = wrap.data ∧ ix'.data = wrap'.data ∧
      findWrapInstructions accountKeys ixs 2 =
        some ([ix, ix'], quiet.length + 1 + quiet'.length + 1) ∧
      wrapPositions accountKeys 2 pos ixs =
        [pos + quiet.length, pos + quiet.length + 1 + quiet'.length] := by
  have hlt : ([] : List CompiledInstruction).length < 2 := Nat.zero_lt_two
  obtain ⟨ix, rest, hdata, h, hloop, hpositions⟩ := findWrapLoop_next h hquiet hwrap hlt 0 pos
  have hlt' : ([] ++ [ix] : List CompiledInstruction).length < 2 := Nat.one_lt_two
  obtain ⟨ix', rest', hdata', -, hloop', hpositions'⟩ :=
    findWrapLoop_next h hquiet' hwrap' hlt' (0 + quiet.length + 1) (pos + quiet.length + 1)
  replace hloop := hloop.trans (hloop'.trans (findWrapLoop_done (by simp) _))
  rw [Nat.zero_add] at hloop
  rw [hpositions'] at hpositions
  exact ⟨ix, ix', hdata, hdata', hloop, by simpa using hpositions⟩

end Positions

/-! ### The flattened list -/

section Segments

variable [NodeHash Node] [NodeLayout Node] [KeyLayout Pubkey] [SystemProgramId Pubkey]
  [ProgramIds Pubkey] [DecidableEq Pubkey] [LeafHash Node Pubkey] [ProgramAddress Pubkey]
  [DecidableEq Node] [Build]

variable (Node Pubkey) in
/-- A call of bubblegum that succeeded, with what it noted. -/
structure Execution where
  executed : Executed Node Pubkey
  unread : Unread Pubkey
  trace : Trace Pubkey
  trace_eq : executed.trace unread = some trace
  takes : ∃ st st' : State Node Pubkey, executed.Takes st st'

namespace Execution

variable (e : Execution Node Pubkey)

/-- The call and the calls that it made. -/
def calls : List (Call Pubkey) := e.executed.call e.unread :: e.trace.calls

/-- A call of `create_tree`. -/
def CreatesTree : Prop :=
  match e.executed.instruction with
  | .createTree .. => True
  | _ => False

/-- A call that replaces a leaf. -/
def ReplacesLeaf : Prop :=
  e.executed.instruction.name ∈ [.Transfer, .Delegate, .Burn, .Redeem, .CancelRedeem]

instance : Decidable e.ReplacesLeaf := inferInstanceAs (Decidable (_ ∈ _))

end Execution

variable (Node Pubkey) in
/-- A part of the list of inner instructions. -/
inductive Segment where
  | bubblegum (e : Execution Node Pubkey)
  | other (call : Call Pubkey) (programId_ne : call.programId ≠ ProgramIds.bubblegum)

namespace Segment

/-- The instructions of the part. -/
def calls : Segment Node Pubkey → List (Call Pubkey)
  | bubblegum e => e.calls
  | other call _ => [call]

/-- The part is a call of bubblegum. -/
def IsBubblegum : Segment Node Pubkey → Prop
  | bubblegum _ => True
  | other .. => False

/-- The part is a call of `create_tree`. -/
def CreatesTree : Segment Node Pubkey → Prop
  | bubblegum e => e.CreatesTree
  | other .. => False

/-- The part is a call that replaces a leaf. -/
def ReplacesLeaf : Segment Node Pubkey → Prop
  | bubblegum e => e.ReplacesLeaf
  | other .. => False

end Segment

variable (Node Pubkey) in
/-- A call of bubblegum in the list of instructions: the index at which it stands and the number
of instructions up to the end of its own calls. -/
structure Block where
  start : ℕ
  length : ℕ
  executed : Executed Node Pubkey

/-- The calls of bubblegum in a list that starts at the index `start`. -/
def blocks (start : ℕ) : List (Segment Node Pubkey) → List (Block Node Pubkey)
  | [] => []
  | .bubblegum e :: rest =>
    ⟨start, e.calls.length, e.executed⟩ :: blocks (start + e.calls.length) rest
  | .other .. :: rest => blocks (start + 1) rest

end Segments

/-! ### The walk -/

section Walk

variable [NodeHash Node] [NodeLayout Node] [KeyLayout Pubkey] [SystemProgramId Pubkey]
  [ProgramIds Pubkey] [DecidableEq Pubkey] [LeafHash Node Pubkey] [ProgramAddress Pubkey]
  (accountKeys : List Pubkey) (instructions : List CompiledInstruction)

variable (Node Pubkey) in
/-- What the parser does at an instruction of bubblegum: the index of the instruction, the positions
of the wraps that it reads, and the call that it attempts. -/
structure Step where
  index : ℕ
  wraps : List ℕ
  attempt : Option (Option (IngestCall Node Pubkey))

/-- The positions of the wraps that `parseBubblegumExecutionContext` reads. -/
def wrapsRead (currentIndex : ℕ) : List ℕ :=
  match instructions[currentIndex]?.bind fun ix => decodeIx ix.data with
  | some "CreateTree" =>
    wrapPositions accountKeys 1 currentIndex (instructions.drop currentIndex)
  | some "MintV1" =>
    wrapPositions accountKeys 2 (currentIndex + 1) (instructions.drop (currentIndex + 1))
  | some "Redeem" | some "Burn" | some "CancelRedeem" | some "Delegate" | some "Transfer" =>
    wrapPositions accountKeys 2 0 instructions
  | _ => []

open InnerInstruction in
/-- `innerLoop` with the instructions of bubblegum that it comes to and what is read for each. -/
def walk : ℕ → ℕ → List (Step Node Pubkey)
  | 0, _ => []
  | fuel + 1, i =>
    match instructions[i]? with
    | none => []
    | some ix =>
      match accountKeys[ix.programIdIndex]? with
      | none => [⟨i, [], none⟩]
      | some programId =>
        if programId = ProgramIds.bubblegum then
          match parseBubblegumExecutionContext accountKeys instructions i with
          | none => [⟨i, wrapsRead accountKeys instructions i, none⟩]
          | some (call, next) =>
            ⟨i, wrapsRead accountKeys instructions i, some call⟩ :: walk fuel (next + 1)
        else walk fuel (i + 1)

/-- What the loop attempts at a step. -/
def Step.attempts (step : Step Node Pubkey) : List (Option (IngestCall Node Pubkey)) :=
  match step.attempt with
  | none => [none]
  | some call => call.toList.map some

/-- The loop attempts what is attempted at the steps of the walk. -/
theorem innerLoop_eq_walk (fuel i : ℕ) :
    (InnerInstruction.innerLoop accountKeys instructions fuel i :
      List (Option (IngestCall Node Pubkey))) =
      (walk accountKeys instructions fuel i).flatMap Step.attempts := by
  induction fuel generalizing i with
  | zero => rfl
  | succ fuel ih =>
    rw [InnerInstruction.innerLoop, walk]
    cases instructions[i]? with
    | none => rfl
    | some ix =>
      dsimp only
      cases accountKeys[ix.programIdIndex]? with
      | none => rfl
      | some programId =>
        dsimp only
        split_ifs with hprogram
        · cases (InnerInstruction.parseBubblegumExecutionContext accountKeys instructions i :
            Option (Option (IngestCall Node Pubkey) × ℕ)) with
          | none => rfl
          | some result => simp [ih, Step.attempts]
        · exact ih (i + 1)

open InnerInstruction in
/-- The cursor never goes back. -/
theorem le_of_parseBubblegumExecutionContext {i next : ℕ}
    {call : Option (IngestCall Node Pubkey)}
    (h : parseBubblegumExecutionContext accountKeys instructions i = some (call, next)) :
    i ≤ next := by
  obtain ⟨ix, -, h⟩ := Option.bind_eq_some_iff.1 h
  have hreplace : ∀ compressed, (parseBubblegumReplaceLeafInstructions accountKeys instructions i
      compressed).map (fun res => (some res.1, res.2)) = some (call, next) → i ≤ next := by
    intro compressed h
    obtain ⟨⟨call', next'⟩, hparse, heq⟩ := Option.map_eq_some_iff.1 h
    obtain ⟨-, rfl⟩ := Prod.mk.inj heq
    simp only [parseBubblegumReplaceLeafInstructions, Option.bind_eq_bind,
      Option.bind_eq_some_iff, Option.some.injEq, Prod.mk.injEq] at hparse
    obtain ⟨_, -, _, -, _, -, _, -, _, -, -, rfl⟩ := hparse
    exact Nat.le_add_right _ _
  split at h
  · obtain ⟨⟨call', next'⟩, hparse, heq⟩ := Option.map_eq_some_iff.1 h
    obtain ⟨-, rfl⟩ := Prod.mk.inj heq
    simp only [parseBubblegumCreateTreeInstructions, Option.bind_eq_bind,
      Option.bind_eq_some_iff, Option.some.injEq, Prod.mk.injEq] at hparse
    obtain ⟨_, -, _, -, _, -, -, rfl⟩ := hparse
    exact Nat.le_add_right _ _
  · obtain ⟨⟨call', next'⟩, hparse, heq⟩ := Option.map_eq_some_iff.1 h
    obtain ⟨-, rfl⟩ := Prod.mk.inj heq
    simp only [parseBubblegumMintInstructions, Option.bind_eq_bind,
      Option.bind_eq_some_iff, Option.some.injEq, Prod.mk.injEq] at hparse
    obtain ⟨_, -, _, -, _, -, _, -, _, -, _, -, _, -, -, rfl⟩ := hparse
    exact Nat.le_add_right _ _
  all_goals first
    | exact hreplace _ h
    | exact (Prod.mk.inj (Option.some.inj h)).2.le

/-- The steps come in the order of the instructions. -/
theorem le_index_of_mem_walk {fuel i : ℕ} {step : Step Node Pubkey}
    (h : step ∈ walk accountKeys instructions fuel i) : i ≤ step.index := by
  induction fuel generalizing i with
  | zero => cases h
  | succ fuel ih =>
    rw [walk] at h
    split at h
    · cases h
    · split at h
      · rw [List.mem_singleton.1 h]
      · split_ifs at h
        · split at h
          · rw [List.mem_singleton.1 h]
          · rename_i call next hcontext
            rcases List.mem_cons.1 h with rfl | h
            · exact le_rfl
            · have hle := le_of_parseBubblegumExecutionContext _ _ hcontext
              exact (by omega : i ≤ next + 1).trans (ih h)
        · exact (Nat.le_succ i).trans (ih h)

end Walk

/-! ### The calls by their kinds -/

/-- Bubblegum is none of the programs that it calls. -/
class BubblegumApart (Pubkey : Type) [SystemProgramId Pubkey] [ProgramIds Pubkey] : Prop where
  bubblegum_ne_candyWrapper : (ProgramIds.bubblegum : Pubkey) ≠ ProgramIds.candyWrapper

section Kinds

variable [NodeHash Node] [NodeLayout Node] [KeyLayout Pubkey] [SystemProgramId Pubkey]
  [ProgramIds Pubkey] {unread : Unread Pubkey} {trace rest : Trace Pubkey}

omit [SystemProgramId Pubkey] [ProgramIds Pubkey] in
theorem calls_emitEvent {event : Event Node Pubkey} (h : emitEvent event rest = some trace) :
    trace.calls = rest.calls := by
  obtain ⟨data, -, htrace⟩ := Option.bind_eq_some_iff.1 h
  obtain rfl := Option.some.inj htrace
  rfl

omit [KeyLayout Pubkey] [ProgramIds Pubkey] in
theorem calls_initAccount (unread : Unread Pubkey) (rest : Trace Pubkey) :
    ∃ system : List (Call Pubkey), (∀ call ∈ system, call.programId = SystemProgramId.programId) ∧
      (initAccount unread rest).calls = system ++ rest.calls := by
  rw [initAccount]
  induction unread.createAccount with
  | nil => exact ⟨[], by simp, rfl⟩
  | cons call calls ih =>
    obtain ⟨system, hsystem, hcalls⟩ := ih
    refine ⟨⟨SystemProgramId.programId, call.1, call.2⟩ :: system,
      List.forall_mem_cons.2 ⟨rfl, hsystem⟩, ?_⟩
    rw [List.foldr_cons, Trace.calls, hcalls]
    rfl

omit [KeyLayout Pubkey] [SystemProgramId Pubkey] [ProgramIds Pubkey] in
theorem calls_notes (notes : List String) (rest : Trace Pubkey) :
    (notes.foldr (fun text => Trace.log (.other text)) rest).calls = rest.calls := by
  induction notes with
  | nil => rfl
  | cons text notes ih => exact ih

/-- Gummyroll wraps its event. -/
theorem calls_invokeGummyroll {name : String} {changeLog : ChangeLogEvent Node Pubkey}
    (h : invokeGummyroll unread name changeLog rest = some trace) :
    ∃ cpi : Call Pubkey, ∃ data, cpi.programId = ProgramIds.gummyroll ∧
      ChangeLogEvent.layout.encode changeLog = some data ∧
      trace.calls = cpi :: ⟨ProgramIds.candyWrapper, [], data⟩ :: rest.calls := by
  simp only [invokeGummyroll, Option.bind_eq_bind, Option.bind_eq_some_iff,
    Option.some.injEq] at h
  obtain ⟨data, hdata, emitted, hemitted, rfl⟩ := h
  have hinner : emitted.calls = [] := calls_emitEvent hemitted
  refine ⟨⟨ProgramIds.gummyroll, unread.gummyrollAccounts, unread.gummyrollData⟩, data, rfl,
    hdata, ?_⟩
  simp [Trace.calls, calls_notes, wrapEvent, hinner]

variable [DecidableEq Pubkey] [LeafHash Node Pubkey] [ProgramAddress Pubkey] [DecidableEq Node]
  [Build] {e : Execution Node Pubkey}

variable (e) in
/-- What the parser has to know of a call, by the kind of its instruction. -/
inductive Execution.Kind : Prop
  | createTree {changeLog : ChangeLogEvent Node Pubkey} {data : List UInt8}
      {quiet : List (Call Pubkey)} (hkind : e.CreatesTree) (hkind' : ¬ e.ReplacesLeaf)
      (hcalls : e.trace.calls = quiet ++ [⟨ProgramIds.candyWrapper, [], data⟩])
      (hquiet : ∀ call ∈ quiet, call.programId ≠ ProgramIds.candyWrapper)
      (hdata : ChangeLogEvent.layout.encode changeLog = some data)
      (hcall : e.executed.ingestCall? = some (.createTree changeLog))
      (hfirst : e.executed.instruction.discriminator = [165, 83, 136, 142, 89, 202, 47, 220])
  | mint {newNft : NewNFTEvent Pubkey} {changeLog : ChangeLogEvent Node Pubkey}
      {data data' : List UInt8} {gummyroll : Call Pubkey} {owner leafDelegate slab : Pubkey}
      (hkind : ¬ e.CreatesTree) (hkind' : ¬ e.ReplacesLeaf)
      (hcalls : e.trace.calls = [⟨ProgramIds.candyWrapper, [], data⟩, gummyroll,
        ⟨ProgramIds.candyWrapper, [], data'⟩])
      (hgummyroll : gummyroll.programId ≠ ProgramIds.candyWrapper)
      (hdata : NewNFTEvent.layout.encode newNft = some data)
      (hdata' : ChangeLogEvent.layout.encode changeLog = some data')
      (howner : (e.executed.call e.unread).accounts[4]? = some owner)
      (hdelegate : (e.executed.call e.unread).accounts[5]? = some leafDelegate)
      (hslab : (e.executed.call e.unread).accounts[6]? = some slab)
      (hcall : e.executed.ingestCall? =
        some (.mint changeLog newNft (leafSchemaFromLeafData owner leafDelegate slab newNft)))
      (hfirst : e.executed.instruction.discriminator = [145, 98, 192, 118, 184, 147, 118, 104])
  | replaceLeaf (hkind : e.ReplacesLeaf)

variable (e) in
theorem Execution.kind : e.Kind := by
  by_cases hreplace : e.ReplacesLeaf
  · exact .replaceLeaf hreplace
  obtain ⟨⟨signers, instruction, events⟩, unread, trace, htrace, st, st', htakes⟩ := e
  have hmade := htrace
  rw [Executed.trace] at hmade
  dsimp only at hmade
  split at hmade
  · -- `create_tree`
    simp only [Option.bind_eq_bind, Option.bind_eq_some_iff, Option.some.injEq] at hmade
    obtain ⟨cpi, hcpi, rfl⟩ := hmade
    obtain ⟨gummyroll, data, hgummyroll, hdata, hcalls⟩ := calls_invokeGummyroll hcpi
    obtain ⟨system, hsystem, hinit⟩ := calls_initAccount unread cpi
    have hall : (Trace.log (.instruction "CreateTree") (initAccount unread cpi)).calls =
        (system ++ [gummyroll]) ++ [⟨ProgramIds.candyWrapper, [], data⟩] := by
      simp [Trace.calls, hinit, hcalls]
    refine .createTree trivial hreplace hall ?_ hdata rfl rfl
    intro call hcall
    rcases List.mem_append.1 hcall with hcall | hcall
    · rw [hsystem call hcall]
      exact ProgramIds.system_ne_candyWrapper
    · rw [List.mem_singleton.1 hcall, hgummyroll]
      exact ProgramIds.gummyroll_ne_candyWrapper
  · -- `mint_v1`
    simp only [Option.bind_eq_bind, Option.bind_eq_some_iff, Option.some.injEq] at hmade
    obtain ⟨cpi, hcpi, emitted, hemitted, data, hdata, emitted', hemitted', rfl⟩ := hmade
    obtain ⟨gummyroll, data', hgummyroll, hdata', hcalls⟩ := calls_invokeGummyroll hcpi
    have hall : (Trace.log (.instruction "MintV1") emitted').calls =
        [⟨ProgramIds.candyWrapper, [], data⟩, gummyroll, ⟨ProgramIds.candyWrapper, [], data'⟩] := by
      rw [Trace.calls, calls_emitEvent hemitted', wrapEvent, Trace.calls, calls_emitEvent hemitted,
        hcalls]
      rfl
    refine .mint id hreplace hall ?_ hdata hdata' rfl rfl rfl ?_ rfl
    · rw [hgummyroll]
      exact ProgramIds.gummyroll_ne_candyWrapper
    · rw [leaf_of_mint htakes.2]
      rfl
  rotate_right
  · cases hmade
  all_goals exact absurd (by simp [Execution.ReplacesLeaf, Bubblegum.Instruction.name]) hreplace

end Kinds

/-! ### One turn of the loop -/

section Turn

variable [NodeHash Node] [NodeLayout Node] [KeyLayout Pubkey] [SystemProgramId Pubkey]
  [ProgramIds Pubkey] [DecidableEq Pubkey] [LeafHash Node Pubkey] [ProgramAddress Pubkey]
  [DecidableEq Node] [Build] {accountKeys : List Pubkey} {ixs : List CompiledInstruction}
  {before more : List (Call Pubkey)} {e : Execution Node Pubkey}

open InnerInstruction

/-- The turn for a `create_tree`. -/
theorem context_createTree [BubblegumApart Pubkey]
    (h : List.Forall₂ (Compiled accountKeys) (before ++ (e.calls ++ more)) ixs)
    {changeLog : ChangeLogEvent Node Pubkey} {data : List UInt8} {quiet : List (Call Pubkey)}
    (hcalls : e.trace.calls = quiet ++ [⟨ProgramIds.candyWrapper, [], data⟩])
    (hquiet : ∀ call ∈ quiet, call.programId ≠ ProgramIds.candyWrapper)
    (hdata : ChangeLogEvent.layout.encode changeLog = some data)
    (hfirst : e.executed.instruction.discriminator = [165, 83, 136, 142, 89, 202, 47, 220]) :
    parseBubblegumExecutionContext accountKeys ixs before.length =
        some (some (.createTree changeLog : IngestCall Node Pubkey),
          before.length + e.calls.length) ∧
      wrapsRead accountKeys ixs before.length = [before.length + quiet.length + 1] := by
  have hdrop := List.forall₂_drop before.length h
  rw [List.drop_left, Execution.calls, hcalls, ← List.cons_append, List.append_assoc,
    List.singleton_append] at hdrop
  obtain ⟨wrapIx, rfl, hfind, hpositions⟩ := findWrapInstructions_next hdrop
    (List.forall_mem_cons.2 ⟨BubblegumApart.bubblegum_ne_candyWrapper, hquiet⟩) rfl before.length
  rw [Execution.calls, List.cons_append] at h
  obtain ⟨ix, hget, hix, -⟩ := getElem?_of_forall₂ h
  have hdecode := decodeIx_call hix ([165, 83, 136, 142, 89, 202, 47, 220], "CreateTree")
    (by decide) hfirst.symm
  constructor
  · simp [parseBubblegumExecutionContext, hget, hdecode, parseBubblegumCreateTreeInstructions,
      hfind, decodeEventInstructionData_self hdata, Execution.calls, hcalls]
  · simpa [wrapsRead, hget, hdecode, Nat.add_assoc] using hpositions

/-- The turn for a `mint_v1`. -/
theorem context_mint
    (h : List.Forall₂ (Compiled accountKeys) (before ++ (e.calls ++ more)) ixs)
    {newNft : NewNFTEvent Pubkey} {changeLog : ChangeLogEvent Node Pubkey}
    {data data' : List UInt8} {gummyroll : Call Pubkey} {owner leafDelegate slab : Pubkey}
    (hcalls : e.trace.calls = [⟨ProgramIds.candyWrapper, [], data⟩, gummyroll,
      ⟨ProgramIds.candyWrapper, [], data'⟩])
    (hgummyroll : gummyroll.programId ≠ ProgramIds.candyWrapper)
    (hdata : NewNFTEvent.layout.encode newNft = some data)
    (hdata' : ChangeLogEvent.layout.encode changeLog = some data')
    (howner : (e.executed.call e.unread).accounts[4]? = some owner)
    (hdelegate : (e.executed.call e.unread).accounts[5]? = some leafDelegate)
    (hslab : (e.executed.call e.unread).accounts[6]? = some slab)
    (hfirst : e.executed.instruction.discriminator = [145, 98, 192, 118, 184, 147, 118, 104]) :
    parseBubblegumExecutionContext accountKeys ixs before.length =
        some (some (.mint changeLog newNft
          (leafSchemaFromLeafData owner leafDelegate slab newNft) : IngestCall Node Pubkey),
          before.length + 3) ∧
      wrapsRead accountKeys ixs before.length = [before.length + 1, before.length + 3] := by
  rw [Execution.calls, hcalls, List.cons_append] at h
  obtain ⟨ix, hget, hix, hrest⟩ := getElem?_of_forall₂ h
  have hrest' : List.Forall₂ (Compiled accountKeys) ([] ++ ⟨ProgramIds.candyWrapper, [], data⟩ ::
      ([gummyroll] ++ ⟨ProgramIds.candyWrapper, [], data'⟩ :: more))
      (ixs.drop (before.length + 1)) := hrest
  obtain ⟨wrapIx, wrapIx', rfl, rfl, hfind, hpositions⟩ :=
    findWrapInstructions_next_two hrest' (by simp) rfl (by simpa using hgummyroll) rfl
      (before.length + 1)
  have hdecode := decodeIx_call hix ([145, 98, 192, 118, 184, 147, 118, 104], "MintV1")
    (by decide) hfirst.symm
  obtain ⟨i, hi, howner⟩ := hix.account howner
  obtain ⟨i', hi', hdelegate⟩ := hix.account hdelegate
  obtain ⟨i'', hi'', hslab⟩ := hix.account hslab
  constructor
  · simp [parseBubblegumExecutionContext, hget, hdecode, parseBubblegumMintInstructions, hfind,
      decodeEventInstructionData_self hdata, decodeEventInstructionData_self hdata',
      destructureBubblegumMintAccounts, hi, hi', hi'', howner, hdelegate, hslab]
  · simpa [wrapsRead, hget, hdecode] using hpositions

/-- A call that replaces a leaf is decoded as such. -/
theorem context_replaceLeaf
    (h : List.Forall₂ (Compiled accountKeys) (before ++ (e.calls ++ more)) ixs)
    (hkind : e.ReplacesLeaf) :
    ∃ compressed, parseBubblegumExecutionContext accountKeys ixs before.length =
        (parseBubblegumReplaceLeafInstructions accountKeys ixs before.length compressed).map
          (fun (call, next) => ((some call : Option (IngestCall Node Pubkey)), next)) ∧
      wrapsRead accountKeys ixs before.length = wrapPositions accountKeys 2 0 ixs := by
  rw [Execution.calls, List.cons_append] at h
  obtain ⟨ix, hget, hix, -⟩ := getElem?_of_forall₂ h
  have hdecode := decodeIx_call hix
  obtain ⟨⟨signers, instruction, events⟩, unread, trace, htrace, htakes⟩ := e
  cases instruction with
  | transfer =>
    have hname := hdecode ([163, 52, 200, 231, 140, 3, 69, 186], "Transfer") (by decide) rfl
    exact ⟨true, by simp [parseBubblegumExecutionContext, hget, hname],
      by simp [wrapsRead, hget, hname]⟩
  | delegate =>
    have hname := hdecode ([90, 147, 75, 178, 85, 88, 4, 137], "Delegate") (by decide) rfl
    exact ⟨true, by simp [parseBubblegumExecutionContext, hget, hname],
      by simp [wrapsRead, hget, hname]⟩
  | burn =>
    have hname := hdecode ([116, 110, 29, 56, 107, 219, 42, 93], "Burn") (by decide) rfl
    exact ⟨true, by simp [parseBubblegumExecutionContext, hget, hname],
      by simp [wrapsRead, hget, hname]⟩
  | redeem =>
    have hname := hdecode ([184, 12, 86, 149, 70, 196, 97, 225], "Redeem") (by decide) rfl
    exact ⟨false, by simp [parseBubblegumExecutionContext, hget, hname],
      by simp [wrapsRead, hget, hname]⟩
  | cancelRedeem =>
    have hname := hdecode ([111, 76, 232, 50, 39, 175, 48, 242], "CancelRedeem") (by decide) rfl
    exact ⟨true, by simp [parseBubblegumExecutionContext, hget, hname],
      by simp [wrapsRead, hget, hname]⟩
  | createTree | mintV1 | decompressV1 | compress =>
    simp [Execution.ReplacesLeaf, Bubblegum.Instruction.name] at hkind

omit [KeyLayout Pubkey] [NodeHash Node] [NodeLayout Node] [LeafHash Node Pubkey]
  [ProgramAddress Pubkey] [DecidableEq Node] [Build] in
/-- If the first two wraps of a list are within a part of it, then they are the first two wraps of
this part. -/
theorem wrappedData_of_own {own : List (Call Pubkey)}
    (h : List.Forall₂ (Compiled accountKeys) (before ++ (own ++ more)) ixs)
    {found : List CompiledInstruction} {count : ℕ}
    (hfind : findWrapInstructions accountKeys ixs 2 = some (found, count))
    (hown : ∀ p ∈ wrapPositions accountKeys 2 0 ixs,
      before.length ≤ p ∧ p < before.length + own.length) :
    2 ≤ (wrappedData own).length ∧
      found.map CompiledInstruction.data = (wrappedData own).take 2 := by
  have hlength := h.length_eq
  simp only [List.length_append] at hlength
  have hbefore := List.forall₂_take before.length h
  have hrest := List.forall₂_drop before.length h
  rw [List.take_left] at hbefore
  rw [List.drop_left] at hrest
  have hmid := List.forall₂_take own.length hrest
  have hmore := List.forall₂_drop own.length hrest
  rw [List.take_left] at hmid
  rw [List.drop_left] at hmore
  have hfound := findWrapLoop_eq h 2 [] 0
  rw [← findWrapInstructions, hfind] at hfound
  rw [← List.take_append_drop before.length ixs, wrapPositions_append,
    ← List.take_append_drop own.length (ixs.drop before.length), wrapPositions_append] at hown
  -- nothing is read before the part
  have hnone : wrapPositions accountKeys 2 0 (ixs.take before.length) = [] := by
    refine List.eq_nil_iff_forall_not_mem.2 fun p hp => ?_
    have hmem := mem_wrapPositions hp
    have hle := hown p (List.mem_append_left _ hp)
    rw [← hbefore.length_eq] at hmem
    omega
  have hzero := length_wrapPositions hbefore 2 0
  rw [hnone, List.length_nil] at hzero
  -- and nothing behind it
  rw [hnone, List.nil_append, List.length_nil, Nat.sub_zero, ← hbefore.length_eq, Nat.zero_add,
    length_wrapPositions hmid, ← hmid.length_eq] at hown
  have hnone' : wrapPositions accountKeys (2 - min 2 (wrappedData own).length)
      (before.length + own.length) ((ixs.drop before.length).drop own.length) = [] := by
    refine List.eq_nil_iff_forall_not_mem.2 fun p hp => ?_
    have hmem := mem_wrapPositions hp
    have hle := hown p (List.mem_append_right _ hp)
    omega
  have hzero' := length_wrapPositions hmore (2 - min 2 (wrappedData own).length)
    (before.length + own.length)
  rw [hnone', List.length_nil] at hzero'
  have hempty : wrappedData before = [] := List.length_eq_zero_iff.1 (by omega)
  simp only [wrappedData_append, hempty, List.nil_append, List.length_append, List.length_nil,
    Nat.zero_add, List.map_nil, Nat.sub_zero, Option.map_some] at hfound
  split_ifs at hfound with hlt
  have htwo : 2 ≤ (wrappedData own).length := by omega
  exact ⟨htwo, (Option.some.inj hfound).trans (List.take_append_of_le_length htwo)⟩

/-- The events of a replacement are not passed on from its own wraps. -/
theorem not_own_of_replaceLeaf [BubblegumApart Pubkey]
    (h : List.Forall₂ (Compiled accountKeys) (before ++ (e.calls ++ more)) ixs)
    (hkind : e.ReplacesLeaf) {call : IngestCall Node Pubkey} {next : ℕ}
    (hcontext : parseBubblegumExecutionContext accountKeys ixs before.length =
      some (some call, next))
    (hcall : e.executed.ingestCall? = some call) :
    ¬ ∀ p ∈ wrapsRead accountKeys ixs before.length,
      before.length < p ∧ p < before.length + e.calls.length := by
  intro hown
  obtain ⟨compressed, hparse, hread⟩ := context_replaceLeaf h hkind
  rw [hparse] at hcontext
  obtain ⟨⟨call', next'⟩, hreplace, heq⟩ := Option.map_eq_some_iff.1 hcontext
  obtain ⟨heq, -⟩ := Prod.mk.inj heq
  obtain rfl := Option.some.inj heq
  simp only [parseBubblegumReplaceLeafInstructions, Option.bind_eq_bind, Option.bind_eq_some_iff,
    Option.some.injEq, Prod.mk.injEq] at hreplace
  obtain ⟨⟨found, count⟩, hfind, ix, hix, leaf, hleaf, ix', -, changeLog, -, rfl, -⟩ := hreplace
  rw [hread] at hown
  obtain ⟨htwo, hdata⟩ := wrappedData_of_own h hfind fun p hp => ⟨(hown p hp).1.le, (hown p hp).2⟩
  have hwrapped : wrappedData e.calls = e.trace.wrapped :=
    wrappedData_cons_of_ne BubblegumApart.bubblegum_ne_candyWrapper _
  have hfirst : (found.map CompiledInstruction.data)[0]? = some ix.data := by
    rw [List.getElem?_map]
    exact congrArg (Option.map CompiledInstruction.data) hix
  rw [hdata, hwrapped] at hfirst
  rw [hwrapped] at htwo
  have hwraps := wraps_of_trace (by rintro h; simp [Execution.ReplacesLeaf, h] at hkind) e.trace_eq
  rw [Execution.ReplacesLeaf] at hkind
  generalize e.executed.instruction.name = name at hkind hwraps
  generalize hevents : e.executed.events = events at hwraps
  generalize e.trace.wrapped = wrapped at htwo hfirst hwraps
  cases hwraps with
  | mint => simp at hkind
  | none => simp at htwo
  | @leaf name leaf' changeLog data data' hname hencode =>
    obtain rfl : data = ix.data := Option.some.inj hfirst
    have hsame := leaf_of_ingestCall hevents hcall
    obtain rfl := Option.some.inj hsame
    exact decode_leaf_ne hencode hleaf rfl
  | @empty name leaf' changeLog data data' hname hempty =>
    obtain rfl : data = ix.data := Option.some.inj hfirst
    rw [decode_empty hempty] at hleaf
    cases hleaf

omit [DecidableEq Node] [Build] in
theorem walk_of_length_le {i : ℕ} (h : ixs.length ≤ i) (fuel : ℕ) :
    (walk accountKeys ixs fuel i : List (Step Node Pubkey)) = [] := by
  cases fuel with
  | zero => rfl
  | succ fuel => rw [walk, List.getElem?_eq_none h]

omit [DecidableEq Node] [Build] in
/-- A call of another program is passed over. -/
theorem walk_other {call : Call Pubkey}
    (h : List.Forall₂ (Compiled accountKeys) (before ++ call :: more) ixs)
    (hne : call.programId ≠ ProgramIds.bubblegum) (fuel : ℕ) :
    (walk accountKeys ixs (fuel + 1) before.length : List (Step Node Pubkey)) =
      walk accountKeys ixs fuel (before.length + 1) := by
  obtain ⟨ix, hget, hix, -⟩ := getElem?_of_forall₂ h
  rw [walk, hget]
  dsimp only
  rw [hix.program]
  dsimp only
  rw [if_neg hne]

/-- A call of bubblegum is parsed. -/
theorem walk_bubblegum (h : List.Forall₂ (Compiled accountKeys) (before ++ (e.calls ++ more)) ixs)
    (fuel : ℕ) :
    (walk accountKeys ixs (fuel + 1) before.length : List (Step Node Pubkey)) =
      match parseBubblegumExecutionContext accountKeys ixs before.length with
      | none => [⟨before.length, wrapsRead accountKeys ixs before.length, none⟩]
      | some (call, next) =>
        ⟨before.length, wrapsRead accountKeys ixs before.length, some call⟩ ::
          walk accountKeys ixs fuel (next + 1) := by
  rw [Execution.calls, List.cons_append] at h
  obtain ⟨ix, hget, hix, -⟩ := getElem?_of_forall₂ h
  rw [walk, hget]
  dsimp only
  rw [hix.program]
  exact if_pos rfl

end Turn

/-! ### The whole walk -/

section Whole

variable [NodeHash Node] [NodeLayout Node] [KeyLayout Pubkey] [SystemProgramId Pubkey]
  [ProgramIds Pubkey] [DecidableEq Pubkey] [LeafHash Node Pubkey] [ProgramAddress Pubkey]
  [DecidableEq Node] [Build] {accountKeys : List Pubkey} {ixs : List CompiledInstruction}
  {before : List (Call Pubkey)} {segments : List (Segment Node Pubkey)}

/-- At the step the call of bubblegum is passed on, with what its own calls wrapped. -/
structure Step.Processes (step : Step Node Pubkey) (block : Block Node Pubkey) : Prop where
  index_eq : step.index = block.start
  attempt_eq : ∃ call, block.executed.ingestCall? = some call ∧ step.attempt = some (some call)
  own : ∀ p ∈ step.wraps, block.start < p ∧ p < block.start + block.length

/-- No call replaces a leaf, and none of bubblegum stands directly behind a `create_tree`. -/
def Walkable (segments : List (Segment Node Pubkey)) : Prop :=
  (∀ segment ∈ segments, ¬ segment.ReplacesLeaf) ∧
    segments.IsChain fun segment next => segment.CreatesTree → ¬ next.IsBubblegum

theorem walkable_nil : Walkable ([] : List (Segment Node Pubkey)) := by
  simp [Walkable]

theorem walkable_cons_iff {segment : Segment Node Pubkey} :
    Walkable (segment :: segments) ↔ ¬ segment.ReplacesLeaf ∧
      (segment.CreatesTree → ∀ next ∈ segments.head?, ¬ next.IsBubblegum) ∧
      Walkable segments := by
  rw [Walkable, Walkable, List.forall_mem_cons, List.isChain_cons]
  tauto

section Kinds

variable {more : List (Call Pubkey)} {e : Execution Node Pubkey} {fuel : ℕ}
  {later : List (Block Node Pubkey)} [BubblegumApart Pubkey]
  (h : List.Forall₂ (Compiled accountKeys) (before ++ (e.calls ++ more)) ixs)
include h

/-- Behind a `create_tree` one instruction is skipped. -/
theorem forall₂_walk_createTree (hkind : e.CreatesTree) :
    List.Forall₂ Step.Processes (walk accountKeys ixs (fuel + 1) before.length)
        (⟨before.length, e.calls.length, e.executed⟩ :: later) ↔
      List.Forall₂ Step.Processes
        (walk accountKeys ixs fuel (before.length + e.calls.length + 1)) later := by
  cases e.kind with
  | createTree _ _ hcalls hquiet hdata hcall hfirst =>
    obtain ⟨hcontext, hread⟩ := context_createTree h hcalls hquiet hdata hfirst
    rw [walk_bubblegum h, hcontext, hread, List.forall₂_cons]
    refine and_iff_right ⟨rfl, ⟨_, hcall, rfl⟩, fun p hp => ?_⟩
    obtain rfl := List.mem_singleton.1 hp
    have hlength : e.calls.length = _ := congrArg (·.length + 1) hcalls
    simp only [List.length_append, List.length_singleton] at hlength
    dsimp only
    omega
  | mint hkind' => exact absurd hkind hkind'
  | replaceLeaf hkind' =>
    obtain ⟨⟨signers, instruction, events⟩, unread, trace, htrace, htakes⟩ := e
    cases instruction <;> simp [Execution.ReplacesLeaf, Execution.CreatesTree,
      Bubblegum.Instruction.name] at hkind hkind'

omit [BubblegumApart Pubkey] in
/-- The walk goes on right behind a `mint_v1`. -/
theorem forall₂_walk_mint (hkind : ¬ e.CreatesTree) (hkind' : ¬ e.ReplacesLeaf) :
    List.Forall₂ Step.Processes (walk accountKeys ixs (fuel + 1) before.length)
        (⟨before.length, e.calls.length, e.executed⟩ :: later) ↔
      List.Forall₂ Step.Processes (walk accountKeys ixs fuel (before.length + e.calls.length))
        later := by
  cases e.kind with
  | createTree hcreates => exact absurd hcreates hkind
  | mint _ _ hcalls hgummyroll hdata hdata' howner hdelegate hslab hcall hfirst =>
    obtain ⟨hcontext, hread⟩ := context_mint h hcalls hgummyroll hdata hdata' howner hdelegate
      hslab hfirst
    have hlength : e.calls.length = 4 := congrArg (·.length + 1) hcalls
    rw [walk_bubblegum h, hcontext, hread, List.forall₂_cons, hlength]
    refine and_iff_right ⟨rfl, ⟨_, hcall, rfl⟩, fun p hp => ?_⟩
    simp only [List.mem_cons, List.not_mem_nil, or_false] at hp
    dsimp only
    omega
  | replaceLeaf hreplaces => exact absurd hreplaces hkind'

/-- A call that replaces a leaf is not processed. -/
theorem not_forall₂_walk_replaceLeaf (hkind : e.ReplacesLeaf) :
    ¬ List.Forall₂ Step.Processes (walk accountKeys ixs (fuel + 1) before.length)
      (⟨before.length, e.calls.length, e.executed⟩ :: later) := by
  intro hprocesses
  rw [walk_bubblegum h] at hprocesses
  split at hprocesses
  · obtain ⟨⟨-, ⟨call, -, hattempt⟩, -⟩, -⟩ := List.forall₂_cons.1 hprocesses
    cases hattempt
  · rename_i call next hcontext
    obtain ⟨⟨-, ⟨call, hcall, hattempt⟩, hown⟩, -⟩ := List.forall₂_cons.1 hprocesses
    obtain rfl := Option.some.inj hattempt
    exact not_own_of_replaceLeaf h hkind hcontext hcall hown

end Kinds

/-- The walk from the end of the first calls on. -/
theorem walk_processes_iff [BubblegumApart Pubkey] {fuel : ℕ}
    (h : List.Forall₂ (Compiled accountKeys) (before ++ segments.flatMap Segment.calls) ixs)
    (hfuel : ixs.length ≤ before.length + fuel) :
    List.Forall₂ Step.Processes (walk accountKeys ixs fuel before.length)
      (blocks before.length segments) ↔ Walkable segments := by
  induction hn : segments.length using Nat.strong_induction_on
    generalizing segments before fuel with
  | h n ih =>
    replace ih : ∀ {before : List (Call Pubkey)} {rest : List (Segment Node Pubkey)} {fuel : ℕ},
        rest.length < n →
        List.Forall₂ (Compiled accountKeys) (before ++ rest.flatMap Segment.calls) ixs →
        ixs.length ≤ before.length + fuel →
        (List.Forall₂ Step.Processes (walk accountKeys ixs fuel before.length)
          (blocks before.length rest) ↔ Walkable rest) :=
      fun hlt h hfuel => ih _ hlt h hfuel rfl
    have hlength := h.length_eq
    rw [List.length_append] at hlength
    cases segments with
    | nil =>
      rw [walk_of_length_le (by simpa using hlength.ge), blocks]
      simp [walkable_nil]
    | cons segment rest =>
      rw [List.length_cons] at hn
      rw [List.flatMap_cons] at h
      rw [List.flatMap_cons, List.length_append] at hlength
      obtain ⟨fuel, rfl⟩ : ∃ k, fuel = k + 1 := by
        have hpos : 0 < segment.calls.length := by
          cases segment <;> exact Nat.succ_pos _
        exact Nat.exists_eq_add_one.2 (by omega)
      have hrest : List.Forall₂ (Compiled accountKeys)
          ((before ++ segment.calls) ++ rest.flatMap Segment.calls) ixs := by
        rwa [List.append_assoc]
      rw [walkable_cons_iff]
      cases segment with
      | other call hne =>
        have hle : ixs.length ≤ (before ++ [call]).length + fuel := by
          simp
          omega
        have hnext := ih (by omega) hrest hle
        rw [List.length_append] at hnext
        rw [walk_other h hne, blocks]
        refine hnext.trans ?_
        simp [Segment.ReplacesLeaf, Segment.CreatesTree]
      | bubblegum e =>
        rw [blocks]
        by_cases hreplace : e.ReplacesLeaf
        · exact iff_of_false (not_forall₂_walk_replaceLeaf h hreplace) fun hok => hok.1 hreplace
        by_cases hcreate : e.CreatesTree
        · rw [forall₂_walk_createTree h hcreate]
          cases rest with
          | nil =>
            simp only [List.flatMap_nil, List.length_nil, Nat.add_zero] at hlength
            rw [walk_of_length_le (by rw [← hlength]; exact Nat.le_succ _), blocks]
            simp [walkable_nil, Segment.ReplacesLeaf, hreplace]
          | cons next rest =>
            cases next with
            | other call hne =>
              have hrest : List.Forall₂ (Compiled accountKeys)
                  (((before ++ e.calls) ++ [call]) ++ rest.flatMap Segment.calls) ixs := by
                simpa [Segment.calls] using h
              have hle : ixs.length ≤ ((before ++ e.calls) ++ [call]).length + fuel := by
                simp [Execution.calls]
                omega
              have hnext := ih (by simp at hn; omega) hrest hle
              rw [List.length_append, List.length_append] at hnext
              rw [blocks, walkable_cons_iff]
              refine hnext.trans ?_
              simp [Segment.ReplacesLeaf, Segment.CreatesTree, Segment.IsBubblegum, hreplace]
            | bubblegum e' =>
              rw [blocks]
              refine iff_of_false (fun hprocesses => ?_) fun hok => ?_
              · obtain ⟨step, steps, hstep, -, heq⟩ := List.forall₂_cons_right_iff.1 hprocesses
                have hle := le_index_of_mem_walk _ _ (heq ▸ List.mem_cons_self : step ∈ _)
                have hindex := hstep.index_eq
                dsimp only at hindex
                omega
              · exact hok.2.1 hcreate _ rfl trivial
        · rw [forall₂_walk_mint h hcreate hreplace]
          have hle : ixs.length ≤ (before ++ e.calls).length + fuel := by
            simp [Execution.calls]
            omega
          have hnext := ih (by omega) hrest hle
          rw [List.length_append] at hnext
          refine hnext.trans ?_
          simp [Segment.ReplacesLeaf, Segment.CreatesTree, hcreate, hreplace]

/-- The parser passes on every call of bubblegum from its own wraps if and only if no call replaces
a leaf and none of bubblegum stands directly behind a `create_tree`. -/
theorem parseBubblegumInnerInstructions_processes_iff [BubblegumApart Pubkey]
    (h : List.Forall₂ (Compiled accountKeys) (segments.flatMap Segment.calls) ixs) :
    (InnerInstruction.parseBubblegumInnerInstructions accountKeys ixs :
        List (Option (IngestCall Node Pubkey))) =
        (walk accountKeys ixs ixs.length 0).flatMap Step.attempts ∧
      (List.Forall₂ Step.Processes (walk accountKeys ixs ixs.length 0) (blocks 0 segments) ↔
        Walkable segments) := by
  have hall : List.Forall₂ (Compiled accountKeys) ([] ++ segments.flatMap Segment.calls) ixs := h
  exact ⟨innerLoop_eq_walk .., walk_processes_iff hall (by simp)⟩

end Whole

end Candyland.Sdk.Indexer

/-! ### A mint and a transfer among the inner instructions -/

namespace Candyland.Sdk.Indexer.Truncated

open Bubblegum (Executed Key State)
open Bubblegum.Trace (created creator alice)
open ConcurrentMerkleTree (Term)

instance : BubblegumApart Key := ⟨by decide⟩

section Flat

variable (segments : List (Segment Term Key))

/-- The calls of the list. -/
def flatCalls : List (Call Key) := segments.flatMap Segment.calls

/-- Its keys. -/
def flatKeys : List Key := accountKeys (flatCalls segments)

/-- Its instructions. -/
def flatIxs : List CompiledInstruction := (flatCalls segments).map (compile (flatKeys segments))

theorem compiled_flatIxs :
    List.Forall₂ (Compiled (flatKeys segments)) (flatCalls segments) (flatIxs segments) :=
  forall₂_compile (List.Subset.refl _)

end Flat

/-- The tree is created. -/
def creating : Execution Term Key where
  executed := State.empty.executed [creator] Bubblegum.Trace.createTree
  unread := unread
  trace := traceOf (State.empty.executed [creator] Bubblegum.Trace.createTree)
  trace_eq := trace_eq_some (by decide +kernel)
  takes := ⟨State.empty, created, State.takes_after
    ⟨rfl, 0, Bubblegum.Trace.fresh_zeroed⟩ (by decide +kernel)⟩

/-- The asset is minted. -/
def mintingExecution : Execution Term Key where
  executed := minting
  unread := unread
  trace := traceOf minting
  trace_eq := trace_eq_some (by decide +kernel)
  takes := ⟨created, _, State.takes_after trivial (by decide +kernel)⟩

/-- It is transferred. -/
def transferringExecution : Execution Term Key where
  executed := transferring
  unread := unread
  trace := traceOf transferring
  trace_eq := trace_eq_some (by decide +kernel)
  takes := ⟨Bubblegum.Trace.minted, _, State.takes_after trivial (by decide +kernel)⟩

/-- A tree is created, another program wraps data, and an asset is minted. -/
def mintSegments : List (Segment Term Key) :=
  [.bubblegum creating, .other ⟨ProgramIds.candyWrapper, [], []⟩ (by decide),
    .bubblegum mintingExecution]

/-- The creation and the mint are passed on. -/
theorem mintSegments_processed :
    List.Forall₂ Step.Processes
      (walk (flatKeys mintSegments) (flatIxs mintSegments) (flatIxs mintSegments).length 0)
      (blocks 0 mintSegments) := by
  refine (parseBubblegumInnerInstructions_processes_iff (compiled_flatIxs mintSegments)).2.2 ⟨?_, ?_⟩
  · intro segment hsegment
    simp only [mintSegments, List.mem_cons, List.not_mem_nil, or_false] at hsegment
    rcases hsegment with rfl | rfl | rfl
    · exact (by decide +kernel : ¬ creating.ReplacesLeaf)
    · exact id
    · exact (by decide +kernel : ¬ mintingExecution.ReplacesLeaf)
  · exact List.isChain_cons_cons.2 ⟨fun _ => id, List.isChain_cons_cons.2
      ⟨fun h => h.elim, List.isChain_singleton _⟩⟩

/-- A transfer alone. -/
def transferSegments : List (Segment Term Key) := [.bubblegum transferringExecution]

/-- A mint directly behind the creation of its tree. -/
def adjacentSegments : List (Segment Term Key) := [.bubblegum creating, .bubblegum mintingExecution]

/-- A transfer is not passed on, and neither is a mint directly behind the creation. -/
theorem transferSegments_not_processed :
    (¬ List.Forall₂ Step.Processes
      (walk (flatKeys transferSegments) (flatIxs transferSegments)
        (flatIxs transferSegments).length 0) (blocks 0 transferSegments)) ∧
    ¬ List.Forall₂ Step.Processes
      (walk (flatKeys adjacentSegments) (flatIxs adjacentSegments)
        (flatIxs adjacentSegments).length 0) (blocks 0 adjacentSegments) := by
  constructor
  · have hall : List.Forall₂ (Compiled (flatKeys transferSegments))
        ([] ++ transferSegments.flatMap Segment.calls) (flatIxs transferSegments) :=
      compiled_flatIxs transferSegments
    refine (walk_processes_iff hall (by simp)).not.2 fun hwalkable => ?_
    exact hwalkable.1 _ List.mem_cons_self
      (by decide +kernel : transferringExecution.ReplacesLeaf)
  · have hall : List.Forall₂ (Compiled (flatKeys adjacentSegments))
        ([] ++ adjacentSegments.flatMap Segment.calls) (flatIxs adjacentSegments) :=
      compiled_flatIxs adjacentSegments
    refine (walk_processes_iff hall (by simp)).not.2 fun hwalkable => ?_
    exact (List.isChain_cons_cons.1 hwalkable.2).1 trivial trivial

end Candyland.Sdk.Indexer.Truncated
