import Candyland.Gummyroll.Symbolic

/-!
# The events of a run

An event shows the path of one leaf after it was written, with the number of the update.
So the events of a run are determined by its writes, as long as every event names its leaf
by its position.  Indices beyond the tree are the obstacle: without a canopy and without
overflow checks `insert_or_append` lets the largest ones through.
-/

namespace Candyland.Gummyroll

open ConcurrentMerkleTree
open MerkleTree (number)

variable {Node Pubkey : Type} [NodeHash Node] {D B c : ℕ}

/-- The position that was written last, leaf `0` at the start. -/
def lastPosition : List (ℕ × Node) → ℕ
  | [] => 0
  | w :: _ => w.1

/-- The event of the last write. -/
def eventAfter (D : ℕ) (id : Pubkey) (ws : List (ℕ × Node)) : ChangeLogEvent Node Pubkey where
  id := id
  path := (List.range (D + 1)).map fun l =>
    ⟨MerkleTree.node hashv (treeAfter ws) l (lastPosition ws / 2 ^ l),
      UInt32.ofNat (number D (lastPosition ws) l)⟩
  seq := ws.length
  index := UInt32.ofNat (lastPosition ws)

/-- The events of the writes, newest first. -/
def history (D : ℕ) (id : Pubkey) : List (ℕ × Node) → List (ChangeLogEvent Node Pubkey)
  | [] => [eventAfter D id []]
  | w :: ws => eventAfter D id (w :: ws) :: history D id ws

theorem mem_history {id : Pubkey} {event : ChangeLogEvent Node Pubkey} {ws : List (ℕ × Node)} :
    event ∈ history D id ws ↔ ∃ ws', ws' <:+ ws ∧ event = eventAfter D id ws' := by
  induction ws with
  | nil => simp [history]
  | cons w ws ih =>
    rw [history, List.mem_cons, ih]
    simp only [List.suffix_cons_iff, or_and_right, exists_or, exists_eq_left]

theorem history_ne_nil (id : Pubkey) (ws : List (ℕ × Node)) : history D id ws ≠ [] := by
  cases ws <;> simp [history]

/-- Without the last `k` events the history is that of the writes before. -/
theorem drop_history {id : Pubkey} {k : ℕ} {ws : List (ℕ × Node)} (hk : k ≤ ws.length) :
    (history D id ws).drop k = history D id (ws.drop k) := by
  induction k generalizing ws with
  | zero => rfl
  | succ k ih =>
    cases ws with
    | nil => exact absurd hk (Nat.not_succ_le_zero k)
    | cons w ws => exact ih (Nat.le_of_succ_le_succ hk)

/-- The numbers of the events decrease to those of the older ones. -/
theorem history_pairwise (id : Pubkey) (ws : List (ℕ × Node)) :
    (history D id ws).Pairwise fun event event' => event'.seq < event.seq := by
  induction ws with
  | nil => exact List.pairwise_singleton _ _
  | cons w ws ih =>
    refine List.pairwise_cons.2 ⟨fun event hevent => ?_, ih⟩
    obtain ⟨ws', hws', rfl⟩ := mem_history.1 hevent
    exact Nat.lt_succ_of_le hws'.length_le

/-- The events up to one of them; only the first event is not that of a write. -/
theorem cons_suffix_history {id : Pubkey} {event : ChangeLogEvent Node Pubkey}
    {earlier : List (ChangeLogEvent Node Pubkey)} {ws : List (ℕ × Node)}
    (h : event :: earlier <:+ history D id ws) :
    ∃ ws', ws' <:+ ws ∧ event = eventAfter D id ws' ∧ (earlier = [] ↔ ws' = []) := by
  induction ws with
  | nil =>
    rw [history, List.suffix_cons_iff] at h
    rcases h with h | h
    · obtain ⟨rfl, rfl⟩ := List.cons.inj h
      exact ⟨[], List.suffix_rfl, rfl, by simp⟩
    · exact absurd (List.suffix_nil.1 h) (by simp)
  | cons w ws ih =>
    rw [history, List.suffix_cons_iff] at h
    rcases h with h | h
    · obtain ⟨rfl, rfl⟩ := List.cons.inj h
      exact ⟨w :: ws, List.suffix_rfl, rfl, by simp [history_ne_nil]⟩
    · obtain ⟨ws', hsuffix, heq⟩ := ih h
      exact ⟨ws', hsuffix.trans (List.suffix_cons _ _), heq⟩

/-- An event from a change log of the tree is the event of its write. -/
theorem ofChangeLog_eq (hD : D < 31) {cl : ChangeLog Node D} (ws : List (ℕ × Node))
    (hrec : cl.Records (treeAfter ws) (lastPosition ws)) (hi : cl.index.toNat < 2 ^ D)
    (id : Pubkey) : ChangeLogEvent.ofChangeLog cl id ws.length = eventAfter D id ws := by
  have hpath := ofChangeLog_path hD hrec hi id ws.length
  have hindex : cl.index = UInt32.ofNat (lastPosition ws) := by
    rw [← hrec.index_eq, position_of_lt hi, UInt32.ofNat_toNat]
  calc ChangeLogEvent.ofChangeLog cl id ws.length
      = ⟨id, (ChangeLogEvent.ofChangeLog cl id ws.length).path, ws.length, cl.index⟩ := rfl
    _ = eventAfter D id ws := by rw [hpath, hindex, eventAfter]

section Run

variable [DecidableEq Node] [DecidableEq Pubkey] [Build] [hB : BufferSize B]

/-- The instruction does not write through an index beyond the tree.  `insert_or_append`
could, without overflow checks and without a canopy, unless it appends on a conflict. -/
def Instruction.InTree (account : Account Node Pubkey D B) : Instruction Node Pubkey → Prop
  | insertOrAppend _ root _ index proof =>
    Build.overflowChecks = true ∨ account.canopy.nodes ≠ [] ∨ index.toNat < 2 ^ D ∨
      account.roll.conflict root proof index = true
  | _ => True

/-- The number of the next update is an `i64`. -/
def SeqBelow (account : Account Node Pubkey D B) : Prop :=
  account.roll.sequenceNumber + 1 < 2 ^ 63

namespace AccountInv

variable {account account' : Account Node Pubkey D B} {ws : List (ℕ × Node)}
  {ins : Instruction Node Pubkey} {event : ChangeLogEvent Node Pubkey}

omit [DecidableEq Pubkey] in
/-- Without a canopy an instruction in the tree has an event in the tree. -/
theorem target_lt_of_nil [CollisionFree Node] (h : AccountInv 0 account ws) {call : Call Node}
    {canopy : Canopy Node} (hwrote : Wrote account ins event account' call canopy)
    (hins : ins.InTree account) : (call.target account.roll).toNat < 2 ^ D := by
  have hlen := h.canopy.length
  have hD := h.depth_lt
  have hle := h.roll.rightmost.le
  have hpow : 2 ^ D ≤ 2 ^ 30 := Nat.pow_le_pow_right (by norm_num) (by omega)
  obtain ⟨r, hexec⟩ := hwrote.exec_ok
  cases hwrote.calls with
  | replaceLeaf hfill =>
    have hindex := UInt32.le_iff_toNat_le.1 (h.roll.setLeaf_ok hexec).2.2
    rcases (fillInProofFromCanopy_of_nil hlen hD h.depth_eq hfill).2 with hlt | ⟨-, hwrap⟩
    · exact hlt
    · exact absurd hwrap (by omega)
  | append => exact (h.roll.append_ok hexec).2
  | @insertOrAppend _ root leaf index proof proof' _ hfill =>
    obtain ⟨rfl, hrange⟩ := fillInProofFromCanopy_of_nil hlen hD h.depth_eq hfill
    have hnil : account.canopy.nodes = [] := List.eq_nil_of_length_eq_zero (by omega)
    have hok := h.roll.fillEmptyOrAppend_ok hexec
    rw [Call.target]
    by_cases hconf : account.roll.conflict root proof' index = true
    · rw [if_pos hconf] at hok ⊢
      exact hok.2
    · rw [if_neg hconf]
      rcases hins with hchecks | hcanopy | hlt | hconf'
      · rcases hrange with hlt | ⟨hoff, -⟩
        · exact hlt
        · exact absurd (hchecks.symm.trans hoff) (by simp)
      · exact absurd hnil hcanopy
      · exact hlt
      · exact absurd hconf' hconf

/-- An instruction in the tree has an event in the tree. -/
theorem index_lt [CollisionFree Node] [NonzeroHash Node] (h : AccountInv c account ws)
    (hexec : ins.exec account = .ok (some event, account')) (hins : ins.InTree account) :
    event.index.toNat < 2 ^ D := by
  obtain ⟨call, canopy, hwrote⟩ := Instruction.exec_some hexec
  rcases Nat.eq_zero_or_pos c with rfl | hc0
  · rw [(h.written hwrote).1]
    exact h.target_lt_of_nil hwrote hins
  · exact h.index_lt_of_pos hc0 hwrote

end AccountInv

theorem AccountRun.events_ne_nil {P : Account Node Pubkey D B → Instruction Node Pubkey → Prop}
    {account : Account Node Pubkey D B} {ws : List (ℕ × Node)}
    {events : List (ChangeLogEvent Node Pubkey)} (h : AccountRun P c account ws events) :
    events ≠ [] := by
  induction h with
  | init => simp
  | write => simp
  | read _ _ ih => exact ih

/-- The events of a run in the tree are the history of its writes. -/
theorem AccountRun.events_eq [CollisionFree Node] [NonzeroHash Node]
    {account : Account Node Pubkey D B} {ws : List (ℕ × Node)}
    {events : List (ChangeLogEvent Node Pubkey)}
    (hrun : AccountRun (fun account ins => ins.InTree account ∧ SeqBelow account) c account ws
      events) :
    events = history D account.key ws ∧ account.roll.sequenceNumber = ws.length ∧
      ws.length < 2 ^ 63 := by
  induction hrun with
  | @init account₀ account authority appendAuthority slot event hfresh h =>
    have hopened := initEmptyGummyroll_ok hfresh h
    obtain ⟨r, hinit⟩ := hopened.roll_ok
    obtain ⟨-, hseq, -, -, hrec, hindex⟩ := initializeRoll_eq hinit
    refine ⟨?_, hseq, by norm_num⟩
    rw [hopened.event_eq, hseq, history, MerkleRoll.getChangeLog_eq_log]
    refine congrArg (· :: []) (ofChangeLog_eq hopened.inv.depth_lt [] hrec ?_ account.key)
    rw [hindex]
    exact Nat.two_pow_pos D
  | @write account account' ws events ins event hrun hP hexec ih =>
    have hinv := hrun.inv
    obtain ⟨hevents, hseq, -⟩ := ih
    have hlt := hinv.index_lt hexec hP.1
    obtain ⟨call, canopy, hwrote⟩ := Instruction.exec_some hexec
    obtain ⟨hindex, r, hwritten⟩ := hinv.written hwrote
    have hbound : ws.length + 1 < 2 ^ 63 := by
      rw [← hseq]
      exact hP.2
    have hseq' : account'.roll.sequenceNumber = ws.length + 1 := by
      rw [hwritten.sequence, hseq]
      omega
    have hlog : account'.roll.getChangeLog.index.toNat < 2 ^ D := by
      rw [hwritten.log_index, ← hindex]
      exact hlt
    have hevent : event = eventAfter D account.key
        ((position D (call.target account.roll), ins.leaf) :: ws) := by
      rw [hwrote.event_eq, hseq']
      exact ofChangeLog_eq hinv.depth_lt ((position D (call.target account.roll), ins.leaf) :: ws)
        hwritten.records hlog account.key
    refine ⟨?_, hseq', hbound⟩
    rw [hwrote.key_eq, hindex, history, ← hevent, hevents]
  | @read account account' ws events ins hrun hexec ih =>
    obtain ⟨hroll, hkey, -⟩ := Instruction.exec_none hexec
    rw [hkey, hroll]
    exact ih

end Run

end Candyland.Gummyroll
