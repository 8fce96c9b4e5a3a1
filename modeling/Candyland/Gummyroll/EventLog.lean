import Candyland.ConcurrentMerkleTree.Push
import Candyland.Gummyroll.Run

/-!
# The ring as a log of events

Every event is made from the change log that its update left at the cursor.  So the ring
still has the change logs of the last events, whatever the hash and the arguments are.
-/

namespace Candyland.Gummyroll

open ConcurrentMerkleTree

variable {Node Pubkey : Type} [NodeHash Node] [DecidableEq Node] [DecidableEq Pubkey] [Build]
  {D B c : ℕ} [hB : BufferSize B]

/-- The newest events are those of the retained change logs. -/
structure EventLog (account : Account Node Pubkey D B)
    (events : List (ChangeLogEvent Node Pubkey)) : Prop where
  depth : D < 31
  pow : B.isPowerOfTwo
  supported : (account.header.maxDepth, account.header.maxBufferSize) ∈ supportedConstants
  size_le : account.roll.bufferSize ≤ B
  logged : ∀ k < account.roll.bufferSize, ∃ seq, events[k]? =
    some (ChangeLogEvent.ofChangeLog (account.roll.log k) account.key seq)

namespace EventLog

variable {account account' : Account Node Pubkey D B} {events : List (ChangeLogEvent Node Pubkey)}
  {ins : Instruction Node Pubkey} {event : ChangeLogEvent Node Pubkey}

/-- What one writing instruction preserves. -/
theorem exec_some (h : EventLog account events)
    (hexec : ins.exec account = .ok (some event, account')) :
    EventLog account' (event :: events) := by
  obtain ⟨call, canopy, hwrote⟩ := Instruction.exec_some hexec
  obtain ⟨r, hcall⟩ := hwrote.exec_ok
  obtain ⟨hactive, ⟨cl, hlogs⟩, hsize⟩ := Call.exec_pushed hcall
  rw [mask_succ h.pow] at hactive
  have hle := h.size_le
  refine ⟨h.depth, h.pow, ?_, ?_, ?_⟩
  · rw [hwrote.header_eq]
    exact h.supported
  · rw [hsize]
    split_ifs <;> omega
  · intro k hk
    cases k with
    | zero =>
      refine ⟨account'.roll.sequenceNumber, ?_⟩
      rw [List.getElem?_cons_zero, hwrote.event_eq, MerkleRoll.getChangeLog_eq_log, hwrote.key_eq]
    | succ k =>
      -- the older change logs have become older by one
      have hk' : k < account.roll.bufferSize := by
        rw [hsize] at hk
        split_ifs at hk <;> omega
      have hkB : k + 1 < B := by
        rw [hsize] at hk
        split_ifs at hk <;> omega
      obtain ⟨seq, hevent⟩ := h.logged k hk'
      refine ⟨seq, ?_⟩
      rw [List.getElem?_cons_succ, hevent, MerkleRoll.log_push hactive hlogs hkB, hwrote.key_eq]

/-- What any other instruction preserves. -/
theorem exec_none (h : EventLog account events) (hexec : ins.exec account = .ok (none, account')) :
    EventLog account' events := by
  obtain ⟨hroll, hkey, hdepth, hsize, -⟩ := Instruction.exec_none hexec
  refine ⟨h.depth, h.pow, ?_, ?_, ?_⟩
  · rw [hdepth, hsize]
    exact h.supported
  · rw [hroll]
    exact h.size_le
  · rw [hroll, hkey]
    exact h.logged

end EventLog

/-- The ring is the log of the newest events along every run. -/
theorem AccountRun.eventLog {P : Account Node Pubkey D B → Instruction Node Pubkey → Prop}
    {account : Account Node Pubkey D B} {ws : List (ℕ × Node)}
    {events : List (ChangeLogEvent Node Pubkey)} (h : AccountRun P c account ws events) :
    EventLog account events := by
  induction h with
  | @init account₀ account authority appendAuthority slot event hfresh h =>
    have hopened := initEmptyGummyroll_ok hfresh h
    have hinv := hopened.inv
    refine ⟨hinv.roll.depth, hinv.roll.pow, hinv.supported, hinv.roll.size_le, ?_⟩
    intro k hk
    have hzero : k = 0 := by
      have hsize := hinv.roll.size
      simp only [List.length_nil] at hsize
      omega
    subst hzero
    refine ⟨account.roll.sequenceNumber, ?_⟩
    rw [List.getElem?_cons_zero, hopened.event_eq, MerkleRoll.getChangeLog_eq_log]
  | write _ _ h ih => exact ih.exec_some h
  | read _ h ih => exact ih.exec_none h

omit [NodeHash Node] [DecidableEq Node] [DecidableEq Pubkey] [Build] hB in
theorem ChangeLogEvent.path_ofChangeLog_ne (cl : ChangeLog Node D) (id : Pubkey) (seq : ℕ) :
    (ofChangeLog cl id seq).path ≠ [] := by
  simp [ofChangeLog]

/-- Every event has the key of the account and a path. -/
theorem AccountRun.of_mem_events {P : Account Node Pubkey D B → Instruction Node Pubkey → Prop}
    {account : Account Node Pubkey D B} {ws : List (ℕ × Node)}
    {events : List (ChangeLogEvent Node Pubkey)} (h : AccountRun P c account ws events) :
    ∀ event ∈ events, event.id = account.key ∧ event.path ≠ [] := by
  induction h with
  | init hfresh h =>
    rintro event hevent
    rw [List.mem_singleton.1 hevent, (initEmptyGummyroll_ok hfresh h).event_eq]
    exact ⟨rfl, ChangeLogEvent.path_ofChangeLog_ne _ _ _⟩
  | write _ _ h ih =>
    obtain ⟨call, canopy, hwrote⟩ := Instruction.exec_some h
    rintro event (_ | ⟨_, hevent⟩)
    · rw [hwrote.event_eq, hwrote.key_eq]
      exact ⟨rfl, ChangeLogEvent.path_ofChangeLog_ne _ _ _⟩
    · rw [hwrote.key_eq]
      exact ih event hevent
  | read _ h ih =>
    obtain ⟨-, hkey, -⟩ := Instruction.exec_none h
    rw [hkey]
    exact ih

end Candyland.Gummyroll
