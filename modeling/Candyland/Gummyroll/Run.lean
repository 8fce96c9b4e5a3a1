import Candyland.Gummyroll.Program

/-!
# Runs of an account

A run starts with `init_empty_gummyroll` on a fresh account and goes on with successful
instructions.  It carries the writes and the events, newest first.  Every run of an account
is a run of its roll, and along it the canopy stays the cache of the tree.
-/

namespace Candyland.Gummyroll

open ConcurrentMerkleTree
open MerkleTree (after number numbered Under)

/-- An instruction with its arguments, its signers and its remaining accounts. -/
inductive Instruction (Node Pubkey : Type) where
  | replaceLeaf (authority : Pubkey) (root previousLeaf newLeaf : Node) (index : UInt32)
      (proof : List Node)
  | append (authority appendAuthority : Pubkey) (leaf : Node)
  | insertOrAppend (authority : Pubkey) (root leaf : Node) (index : UInt32) (proof : List Node)
  | verifyLeaf (root leaf : Node) (index : UInt32) (proof : List Node)
  | transferAuthority (authority : Pubkey) (newAuthority newAppendAuthority : Option Pubkey)

variable {Node Pubkey : Type} {D B c : ℕ}

namespace Instruction

/-- The leaf that the instruction writes, if it writes one. -/
def leaf [NodeHash Node] : Instruction Node Pubkey → Node
  | replaceLeaf _ _ _ newLeaf _ _ => newLeaf
  | append _ _ leaf => leaf
  | insertOrAppend _ _ leaf _ _ => leaf
  | verifyLeaf .. => EMPTY
  | transferAuthority .. => EMPTY

/-- The index among the arguments is a position of the tree. -/
def IndexBelow (D : ℕ) : Instruction Node Pubkey → Prop
  | replaceLeaf _ _ _ _ index _ => index.toNat < 2 ^ D
  | append .. => True
  | insertOrAppend _ _ _ index _ => index.toNat < 2 ^ D
  | verifyLeaf _ _ index _ => index.toNat < 2 ^ D
  | transferAuthority .. => True

instance : (ins : Instruction Node Pubkey) → Decidable (ins.IndexBelow D)
  | replaceLeaf _ _ _ _ index _ => inferInstanceAs (Decidable (index.toNat < 2 ^ D))
  | append .. => inferInstanceAs (Decidable True)
  | insertOrAppend _ _ _ index _ => inferInstanceAs (Decidable (index.toNat < 2 ^ D))
  | verifyLeaf _ _ index _ => inferInstanceAs (Decidable (index.toNat < 2 ^ D))
  | transferAuthority .. => inferInstanceAs (Decidable True)

variable [NodeHash Node] [DecidableEq Node] [DecidableEq Pubkey] [Build] [BufferSize B]

/-- Executes the instruction: the event, if one is emitted, and the account. -/
def exec (ins : Instruction Node Pubkey) (account : Account Node Pubkey D B) :
    Outcome GummyrollError (Option (ChangeLogEvent Node Pubkey) × Account Node Pubkey D B) :=
  match ins with
  | replaceLeaf authority root previousLeaf newLeaf index proof => do
    let (event, account) ← account.replaceLeaf authority root previousLeaf newLeaf index proof
    .ok (some event, account)
  | append authority appendAuthority leaf => do
    let (event, account) ← account.append authority appendAuthority leaf
    .ok (some event, account)
  | insertOrAppend authority root leaf index proof => do
    let (event, account) ← account.insertOrAppend authority root leaf index proof
    .ok (some event, account)
  | verifyLeaf root leaf index proof => do
    let account ← account.verifyLeaf root leaf index proof
    .ok (none, account)
  | transferAuthority authority newAuthority newAppendAuthority => do
    let account ← account.transferAuthority authority newAuthority newAppendAuthority
    .ok (none, account)

end Instruction

section Run

variable [NodeHash Node] [DecidableEq Node] [DecidableEq Pubkey] [Build] [hB : BufferSize B]

/-- An account that was allocated for a canopy of `c` levels and holds nothing but zero
bytes. -/
structure Account.Fresh (c : ℕ) (account : Account Node Pubkey D B) : Prop where
  header : account.header.maxBufferSize = 0 ∧ account.header.maxDepth = 0
  roll : account.roll = MerkleRoll.new
  trailing : account.canopy.trailing = 0
  length : account.canopy.nodes.length + 2 = 2 ^ (c + 1)
  cached : c ≤ D
  zero : ∀ node ∈ account.canopy.nodes, node = EMPTY

/-- The accounts that a run reaches in which every writing instruction satisfies `P`, with
the writes and the events. -/
inductive AccountRun (P : Account Node Pubkey D B → Instruction Node Pubkey → Prop) (c : ℕ) :
    Account Node Pubkey D B → List (ℕ × Node) → List (ChangeLogEvent Node Pubkey) → Prop
  /-- The start. -/
  | init {account₀ account : Account Node Pubkey D B} {authority appendAuthority : Pubkey}
      {slot : ℕ} {event : ChangeLogEvent Node Pubkey} (hfresh : account₀.Fresh c)
      (h : account₀.initEmptyGummyroll authority appendAuthority slot = .ok (event, account)) :
      AccountRun P c account [] [event]
  /-- An instruction that writes a leaf. -/
  | write {account account' : Account Node Pubkey D B} {ws : List (ℕ × Node)}
      {events : List (ChangeLogEvent Node Pubkey)} {ins : Instruction Node Pubkey}
      {event : ChangeLogEvent Node Pubkey} (hrun : AccountRun P c account ws events)
      (hP : P account ins) (h : ins.exec account = .ok (some event, account')) :
      AccountRun P c account' ((position D event.index, ins.leaf) :: ws) (event :: events)
  /-- An instruction that writes none. -/
  | read {account account' : Account Node Pubkey D B} {ws : List (ℕ × Node)}
      {events : List (ChangeLogEvent Node Pubkey)} {ins : Instruction Node Pubkey}
      (hrun : AccountRun P c account ws events) (h : ins.exec account = .ok (none, account')) :
      AccountRun P c account' ws events

/-- The accounts that are reachable with any arguments. -/
abbrev AccountReachable (c : ℕ) (account : Account Node Pubkey D B) (ws : List (ℕ × Node))
    (events : List (ChangeLogEvent Node Pubkey)) : Prop :=
  AccountRun (fun _ _ => True) c account ws events

/-- An account with its writes and its events. -/
structure AccountState (Node Pubkey : Type) (D B : ℕ) where
  account : Account Node Pubkey D B
  writes : List (ℕ × Node)
  events : List (ChangeLogEvent Node Pubkey)
deriving DecidableEq

/-- Executes an instruction; one that fails is undone. -/
def AccountState.step (st : AccountState Node Pubkey D B) (ins : Instruction Node Pubkey) :
    AccountState Node Pubkey D B :=
  match ins.exec st.account with
  | .ok (some event, account) =>
    ⟨account, (position D event.index, ins.leaf) :: st.writes, event :: st.events⟩
  | .ok (none, account) => { st with account := account }
  | _ => st

/-! ### What an instruction does -/

omit [NodeHash Node] [DecidableEq Node] [DecidableEq Pubkey] [Build] hB in
theorem merkleRollApplyFn_eq_ok {header : MerkleRollHeader Pubkey} {id : Pubkey}
    {roll roll' : MerkleRoll Node D B}
    {func : MerkleRoll Node D B → Outcome CMTError Node × MerkleRoll Node D B}
    {event : ChangeLogEvent Node Pubkey}
    (h : merkleRollApplyFn header id roll func = .ok (event, roll')) :
    (∃ r, func roll = (.ok r, roll')) ∧
      event = ChangeLogEvent.ofChangeLog roll'.getChangeLog id roll'.sequenceNumber := by
  rw [merkleRollApplyFn] at h
  split_ifs at h
  rcases hfunc : func roll with ⟨r | e | _, roll₁⟩
  · rw [hfunc] at h
    obtain ⟨rfl, rfl⟩ := Prod.mk.inj (Outcome.ok.inj h)
    exact ⟨⟨r, rfl⟩, rfl⟩
  · rw [hfunc] at h
    exact absurd h (by simp)
  · rw [hfunc] at h
    exact absurd h (by simp)

/-- The call of the roll that an instruction makes, and the canopy after its proof was
read. -/
inductive Calls (account : Account Node Pubkey D B) :
    Instruction Node Pubkey → Call Node → Canopy Node → Prop
  | replaceLeaf {authority : Pubkey} {root previousLeaf newLeaf : Node} {index : UInt32}
      {proof proof' : List Node} {canopy : Canopy Node}
      (hfill : fillInProofFromCanopy account.canopy account.header.maxDepth index proof =
        .ok (canopy, proof')) :
      Calls account (.replaceLeaf authority root previousLeaf newLeaf index proof)
        (.setLeaf root previousLeaf newLeaf proof' index) canopy
  | append {authority appendAuthority : Pubkey} {leaf : Node} :
      Calls account (.append authority appendAuthority leaf) (.append leaf) account.canopy
  | insertOrAppend {authority : Pubkey} {root leaf : Node} {index : UInt32}
      {proof proof' : List Node} {canopy : Canopy Node}
      (hfill : fillInProofFromCanopy account.canopy account.header.maxDepth index proof =
        .ok (canopy, proof')) :
      Calls account (.insertOrAppend authority root leaf index proof)
        (.fillEmptyOrAppend root leaf proof' index) canopy

namespace Calls

variable {account : Account Node Pubkey D B} {ins : Instruction Node Pubkey} {call : Call Node}
  {canopy : Canopy Node}

omit [DecidableEq Pubkey] hB in
theorem leaf_eq (h : Calls account ins call canopy) : call.leaf = ins.leaf := by
  cases h <;> rfl

omit [DecidableEq Pubkey] hB in
theorem below (h : Calls account ins call canopy) (hins : ins.IndexBelow D) :
    call.IndexBelow D := by
  cases h <;> exact hins

omit [DecidableEq Pubkey] hB in
theorem fill (h : Calls account ins call canopy) : canopy = account.canopy ∨
    ∃ index proof proof', fillInProofFromCanopy account.canopy account.header.maxDepth index proof =
      .ok (canopy, proof') := by
  cases h with
  | replaceLeaf hfill => exact .inr ⟨_, _, _, hfill⟩
  | append => exact .inl rfl
  | insertOrAppend hfill => exact .inr ⟨_, _, _, hfill⟩

end Calls

/-- A writing instruction makes one call of the roll and writes the path of the call to the
canopy. -/
structure Wrote (account : Account Node Pubkey D B) (ins : Instruction Node Pubkey)
    (event : ChangeLogEvent Node Pubkey) (account' : Account Node Pubkey D B)
    (call : Call Node) (canopy : Canopy Node) : Prop where
  header_eq : account'.header = account.header
  key_eq : account'.key = account.key
  calls : Calls account ins call canopy
  exec_ok : ∃ r, call.exec account.roll = (.ok r, account'.roll)
  event_eq : event =
    ChangeLogEvent.ofChangeLog account'.roll.getChangeLog account.key account'.roll.sequenceNumber
  update : updateCanopy canopy account.header.maxDepth (some event) = .ok account'.canopy

theorem Instruction.exec_some {account account' : Account Node Pubkey D B}
    {ins : Instruction Node Pubkey} {event : ChangeLogEvent Node Pubkey}
    (h : ins.exec account = .ok (some event, account')) :
    ∃ call canopy, Wrote account ins event account' call canopy := by
  cases ins with
  | replaceLeaf authority root previousLeaf newLeaf index proof =>
    obtain ⟨⟨event₁, account₁⟩, hcall, heq⟩ := Outcome.bind_eq_ok.1 h
    obtain ⟨hevent, rfl⟩ := Prod.mk.inj (Outcome.ok.inj heq)
    obtain rfl := Option.some.inj hevent
    obtain ⟨⟨⟩, -, hcall⟩ := Outcome.bind_eq_ok.1 hcall
    obtain ⟨⟨⟩, -, hcall⟩ := Outcome.bind_eq_ok.1 hcall
    obtain ⟨⟨canopy, proof'⟩, hfill, hcall⟩ := Outcome.bind_eq_ok.1 hcall
    obtain ⟨⟨event₁, roll⟩, happly, hcall⟩ := Outcome.bind_eq_ok.1 hcall
    obtain ⟨canopy', hupdate, hcall⟩ := Outcome.bind_eq_ok.1 hcall
    obtain ⟨rfl, rfl⟩ := Prod.mk.inj (Outcome.ok.inj hcall)
    obtain ⟨hexec, hevent⟩ := merkleRollApplyFn_eq_ok happly
    exact ⟨_, canopy, rfl, rfl, .replaceLeaf hfill, hexec, hevent, hupdate⟩
  | append authority appendAuthority leaf =>
    obtain ⟨⟨event₁, account₁⟩, hcall, heq⟩ := Outcome.bind_eq_ok.1 h
    obtain ⟨hevent, rfl⟩ := Prod.mk.inj (Outcome.ok.inj heq)
    obtain rfl := Option.some.inj hevent
    obtain ⟨⟨⟩, -, hcall⟩ := Outcome.bind_eq_ok.1 hcall
    obtain ⟨⟨⟩, -, hcall⟩ := Outcome.bind_eq_ok.1 hcall
    obtain ⟨⟨⟩, -, hcall⟩ := Outcome.bind_eq_ok.1 hcall
    obtain ⟨⟨event₁, roll⟩, happly, hcall⟩ := Outcome.bind_eq_ok.1 hcall
    obtain ⟨canopy', hupdate, hcall⟩ := Outcome.bind_eq_ok.1 hcall
    obtain ⟨rfl, rfl⟩ := Prod.mk.inj (Outcome.ok.inj hcall)
    obtain ⟨hexec, hevent⟩ := merkleRollApplyFn_eq_ok happly
    exact ⟨_, account.canopy, rfl, rfl, .append, hexec, hevent, hupdate⟩
  | insertOrAppend authority root leaf index proof =>
    obtain ⟨⟨event₁, account₁⟩, hcall, heq⟩ := Outcome.bind_eq_ok.1 h
    obtain ⟨hevent, rfl⟩ := Prod.mk.inj (Outcome.ok.inj heq)
    obtain rfl := Option.some.inj hevent
    obtain ⟨⟨⟩, -, hcall⟩ := Outcome.bind_eq_ok.1 hcall
    obtain ⟨⟨⟩, -, hcall⟩ := Outcome.bind_eq_ok.1 hcall
    obtain ⟨⟨canopy, proof'⟩, hfill, hcall⟩ := Outcome.bind_eq_ok.1 hcall
    obtain ⟨⟨event₁, roll⟩, happly, hcall⟩ := Outcome.bind_eq_ok.1 hcall
    obtain ⟨canopy', hupdate, hcall⟩ := Outcome.bind_eq_ok.1 hcall
    obtain ⟨rfl, rfl⟩ := Prod.mk.inj (Outcome.ok.inj hcall)
    obtain ⟨hexec, hevent⟩ := merkleRollApplyFn_eq_ok happly
    exact ⟨_, canopy, rfl, rfl, .insertOrAppend hfill, hexec, hevent, hupdate⟩
  | verifyLeaf root leaf index proof =>
    obtain ⟨account₁, -, heq⟩ := Outcome.bind_eq_ok.1 h
    exact absurd (Prod.mk.inj (Outcome.ok.inj heq)).1 (by simp)
  | transferAuthority authority newAuthority newAppendAuthority =>
    obtain ⟨account₁, -, heq⟩ := Outcome.bind_eq_ok.1 h
    exact absurd (Prod.mk.inj (Outcome.ok.inj heq)).1 (by simp)

/-- Another instruction leaves the roll as it is, and of the canopy it at most reads a
proof. -/
structure KeptRoll (account account' : Account Node Pubkey D B) : Prop where
  roll_eq : account'.roll = account.roll
  key_eq : account'.key = account.key
  depth_eq : account'.header.maxDepth = account.header.maxDepth
  size_eq : account'.header.maxBufferSize = account.header.maxBufferSize
  fill : account'.canopy = account.canopy ∨ ∃ index proof proof',
    fillInProofFromCanopy account.canopy account.header.maxDepth index proof =
      .ok (account'.canopy, proof')

theorem Instruction.exec_none {account account' : Account Node Pubkey D B}
    {ins : Instruction Node Pubkey} (h : ins.exec account = .ok (none, account')) :
    KeptRoll account account' := by
  cases ins with
  | replaceLeaf authority root previousLeaf newLeaf index proof =>
    obtain ⟨⟨event₁, account₁⟩, -, heq⟩ := Outcome.bind_eq_ok.1 h
    exact absurd (Prod.mk.inj (Outcome.ok.inj heq)).1 (by simp)
  | append authority appendAuthority leaf =>
    obtain ⟨⟨event₁, account₁⟩, -, heq⟩ := Outcome.bind_eq_ok.1 h
    exact absurd (Prod.mk.inj (Outcome.ok.inj heq)).1 (by simp)
  | insertOrAppend authority root leaf index proof =>
    obtain ⟨⟨event₁, account₁⟩, -, heq⟩ := Outcome.bind_eq_ok.1 h
    exact absurd (Prod.mk.inj (Outcome.ok.inj heq)).1 (by simp)
  | verifyLeaf root leaf index proof =>
    obtain ⟨account₁, hverify, heq⟩ := Outcome.bind_eq_ok.1 h
    obtain ⟨-, rfl⟩ := Prod.mk.inj (Outcome.ok.inj heq)
    obtain ⟨⟨⟩, -, hverify⟩ := Outcome.bind_eq_ok.1 hverify
    obtain ⟨⟨canopy, proof'⟩, hfill, hverify⟩ := Outcome.bind_eq_ok.1 hverify
    obtain ⟨⟨event, roll⟩, happly, hverify⟩ := Outcome.bind_eq_ok.1 hverify
    obtain rfl := Outcome.ok.inj hverify
    obtain ⟨⟨r, hexec⟩, -⟩ := merkleRollApplyFn_eq_ok happly
    have hroll := MerkleRoll.proveLeaf_snd account.roll root leaf proof' index
    rw [hexec] at hroll
    exact ⟨hroll, rfl, rfl, rfl, .inr ⟨index, proof, proof', hfill⟩⟩
  | transferAuthority authority newAuthority newAppendAuthority =>
    obtain ⟨account₁, htransfer, heq⟩ := Outcome.bind_eq_ok.1 h
    obtain ⟨-, rfl⟩ := Prod.mk.inj (Outcome.ok.inj heq)
    obtain ⟨⟨⟩, -, htransfer⟩ := Outcome.bind_eq_ok.1 htransfer
    obtain rfl := Outcome.ok.inj htransfer
    exact ⟨rfl, rfl, rfl, rfl, .inl rfl⟩

/-! ### The invariant of the account -/

omit [NodeHash Node] [DecidableEq Node] [DecidableEq Pubkey] [Build] hB in
/-- The macros support trees of at least three levels. -/
theorem three_le_of_supported {depth size : UInt32} (h : (depth, size) ∈ supportedConstants) :
    3 ≤ depth.toNat := by
  have hall : ∀ p ∈ supportedConstants, 3 ≤ p.1 := by simp [supportedConstants]
  exact UInt32.le_iff_toNat_le.1 (hall _ h)

/-- The roll stands for the tree after the writes, and the canopy caches its `c` levels
below the root. -/
structure AccountInv (c : ℕ) (account : Account Node Pubkey D B) (ws : List (ℕ × Node)) :
    Prop where
  roll : Inv (fun _ => EMPTY) account.roll ws
  canopy : CanopyInv D c (treeAfter ws) account.canopy.nodes
  trailing : account.canopy.trailing = 0
  cached : c ≤ D
  depth_eq : account.header.maxDepth.toNat = D
  supported : (account.header.maxDepth, account.header.maxBufferSize) ∈ supportedConstants

namespace AccountInv

variable {account account' : Account Node Pubkey D B} {ws : List (ℕ × Node)}

omit [DecidableEq Node] [DecidableEq Pubkey] [Build] hB in
theorem depth_lt (h : AccountInv c account ws) : D < 31 := h.roll.depth

omit [DecidableEq Node] [DecidableEq Pubkey] [Build] hB in
theorem three_le (h : AccountInv c account ws) : 3 ≤ D := by
  rw [← h.depth_eq]
  exact three_le_of_supported h.supported

omit [DecidableEq Pubkey] hB in
/-- Reading a proof keeps the canopy a cache of the tree. -/
theorem fill [NonzeroHash Node] (h : AccountInv c account ws) {canopy : Canopy Node}
    {index : UInt32} {proof proof' : List Node}
    (hfill : fillInProofFromCanopy account.canopy account.header.maxDepth index proof =
      .ok (canopy, proof')) :
    CanopyInv D c (treeAfter ws) canopy.nodes ∧ canopy.trailing = 0 :=
  fillInProofFromCanopy_inv h.canopy h.cached h.depth_lt h.depth_eq hfill

omit [DecidableEq Pubkey] hB in
theorem calls [NonzeroHash Node] (h : AccountInv c account ws) {ins : Instruction Node Pubkey}
    {call : Call Node} {canopy : Canopy Node} (hcalls : Calls account ins call canopy) :
    CanopyInv D c (treeAfter ws) canopy.nodes ∧ canopy.trailing = 0 := by
  rcases hcalls.fill with rfl | ⟨index, proof, proof', hfill⟩
  · exact ⟨h.canopy, h.trailing⟩
  · exact h.fill hfill

omit [DecidableEq Pubkey] in
/-- The call of an instruction writes through the index of the event. -/
theorem written [CollisionFree Node] (h : AccountInv c account ws) {ins : Instruction Node Pubkey}
    {event : ChangeLogEvent Node Pubkey} {call : Call Node} {canopy : Canopy Node}
    (hwrote : Wrote account ins event account' call canopy) :
    event.index = call.target account.roll ∧
      ∃ r, Written (fun _ => EMPTY) account.roll ws (call.target account.roll) ins.leaf r
        account'.roll := by
  obtain ⟨r, hexec⟩ := hwrote.exec_ok
  have hwritten := h.roll.exec_ok hexec
  rw [hwrote.calls.leaf_eq] at hwritten
  refine ⟨?_, r, hwritten⟩
  rw [hwrote.event_eq]
  exact hwritten.log_index

omit [DecidableEq Pubkey] in
/-- A canopy bounds the index of the event. -/
theorem index_lt_of_pos [NonzeroHash Node] (h : AccountInv c account ws) (hc0 : 0 < c)
    {ins : Instruction Node Pubkey} {event : ChangeLogEvent Node Pubkey} {call : Call Node}
    {canopy : Canopy Node} (hwrote : Wrote account ins event account' call canopy) :
    event.index.toNat < 2 ^ D := by
  have hthree := h.three_le
  have hlen := (h.calls hwrote.calls).1.length
  have hupdate := hwrote.update
  rw [hwrote.event_eq] at hupdate ⊢
  exact lt_of_updateCanopy hlen hc0 h.cached (by omega) h.depth_lt h.depth_eq hupdate

/-- What one writing instruction preserves. -/
theorem exec_some [CollisionFree Node] [NonzeroHash Node] (h : AccountInv c account ws)
    {ins : Instruction Node Pubkey} {event : ChangeLogEvent Node Pubkey}
    (hexec : ins.exec account = .ok (some event, account')) :
    AccountInv c account' ((position D event.index, ins.leaf) :: ws) := by
  obtain ⟨call, canopy, hwrote⟩ := Instruction.exec_some hexec
  obtain ⟨hindex, r, hwritten⟩ := h.written hwrote
  have hcanopy := h.calls hwrote.calls
  have hupdate := hwrote.update
  have hlen := length_of_updateCanopy hupdate
  refine ⟨?_, ?_, hlen.2.2, h.cached, ?_, ?_⟩
  · rw [hindex]
    exact hwritten.inv
  · rcases Nat.eq_zero_or_pos c with rfl | hc0
    · exact .of_zero (by rw [hlen.1, hcanopy.1.length])
    · -- the canopy bounds the index, so that its path is numbered as in the tree
      have hrec := hwritten.records
      have hlt := h.index_lt_of_pos hc0 hwrote
      rw [hwrote.event_eq] at hupdate hlt
      obtain ⟨canopy', hinv, -, heq⟩ := updateCanopy_eq hcanopy.1 hcanopy.2 h.cached h.depth_lt
        h.depth_eq hrec hlt account.key account'.roll.sequenceNumber
      rw [hupdate] at heq
      rw [hindex, Outcome.ok.inj heq]
      exact hinv
  · rw [hwrote.header_eq]
    exact h.depth_eq
  · rw [hwrote.header_eq]
    exact h.supported

/-- The roll goes on with one call. -/
theorem run_exec_some [CollisionFree Node] (h : AccountInv c account ws)
    {Q : MerkleRoll Node D B → Call Node → Prop} (hrun : Run Q account.roll ws)
    {ins : Instruction Node Pubkey} {event : ChangeLogEvent Node Pubkey}
    (hexec : ins.exec account = .ok (some event, account'))
    (hQ : ∀ call : Call Node, (ins.IndexBelow D → call.IndexBelow D) → Q account.roll call) :
    Run Q account'.roll ((position D event.index, ins.leaf) :: ws) := by
  obtain ⟨call, canopy, hwrote⟩ := Instruction.exec_some hexec
  obtain ⟨r, hok⟩ := hwrote.exec_ok
  rw [(h.written hwrote).1, ← hwrote.calls.leaf_eq]
  exact .ok hrun (hQ call hwrote.calls.below) hok

/-- What any other instruction preserves. -/
theorem exec_none [NonzeroHash Node] (h : AccountInv c account ws)
    {ins : Instruction Node Pubkey} (hexec : ins.exec account = .ok (none, account')) :
    AccountInv c account' ws := by
  obtain ⟨hroll, -, hdepth, hsize, hfill⟩ := Instruction.exec_none hexec
  have hcanopy : CanopyInv D c (treeAfter ws) account'.canopy.nodes ∧
      account'.canopy.trailing = 0 := by
    rcases hfill with heq | ⟨index, proof, proof', hfill⟩
    · rw [heq]
      exact ⟨h.canopy, h.trailing⟩
    · exact h.fill hfill
  refine ⟨?_, hcanopy.1, hcanopy.2, h.cached, ?_, ?_⟩
  · rw [hroll]
    exact h.roll
  · rw [hdepth]
    exact h.depth_eq
  · rw [hdepth, hsize]
    exact h.supported

end AccountInv

/-- What `init_empty_gummyroll` does to a fresh account. -/
structure Opened (c : ℕ) (authority appendAuthority : Pubkey) (slot : ℕ)
    (event : ChangeLogEvent Node Pubkey) (account : Account Node Pubkey D B) : Prop where
  inv : AccountInv c account []
  roll_ok : ∃ r, MerkleRoll.initializeRoll MerkleRoll.new = (.ok r, account.roll)
  header_eq : account.header = ⟨UInt32.ofNat B, UInt32.ofNat D, authority, appendAuthority, slot⟩
  event_eq : event =
    ChangeLogEvent.ofChangeLog account.roll.getChangeLog account.key account.roll.sequenceNumber

theorem initEmptyGummyroll_ok {account₀ account : Account Node Pubkey D B}
    {authority appendAuthority : Pubkey} {slot : ℕ} {event : ChangeLogEvent Node Pubkey}
    (hfresh : account₀.Fresh c)
    (h : account₀.initEmptyGummyroll authority appendAuthority slot = .ok (event, account)) :
    Opened c authority appendAuthority slot event account := by
  rw [Account.initEmptyGummyroll, MerkleRollHeader.initialize, if_pos hfresh.header] at h
  obtain ⟨⟨⟩, hsupported, h⟩ := Outcome.bind_eq_ok.1 h
  obtain ⟨⟨event₁, roll⟩, happly, h⟩ := Outcome.bind_eq_ok.1 h
  obtain ⟨canopy, hupdate, h⟩ := Outcome.bind_eq_ok.1 h
  obtain ⟨rfl, rfl⟩ := Prod.mk.inj (Outcome.ok.inj h)
  obtain ⟨⟨r, hinit⟩, hevent⟩ := merkleRollApplyFn_eq_ok happly
  rw [hfresh.roll] at hinit
  have hinv := (initializeRoll_eq hinit).1
  have hD : D < 31 := hinv.depth
  rw [merkleRollGetSize] at hsupported
  split_ifs at hsupported with hmem
  obtain ⟨⟨⟩, -, hupdate⟩ := Outcome.bind_eq_ok.1 hupdate
  obtain ⟨pathLen, -, hupdate⟩ := Outcome.bind_eq_ok.1 hupdate
  obtain rfl := Outcome.ok.inj hupdate
  refine ⟨⟨hinv, ?_, hfresh.trailing, hfresh.cached, ?_, hmem⟩, ⟨r, hinit⟩, rfl, hevent⟩
  · exact .of_eq_empty hfresh.length hfresh.zero
  · exact UInt32.toNat_ofNat'.trans (Nat.mod_eq_of_lt (by omega))

/-- It succeeds for the constants that the roll and the macros support. -/
theorem initEmptyGummyroll_isOk_iff {account₀ : Account Node Pubkey D B} (hfresh : account₀.Fresh c)
    (authority appendAuthority : Pubkey) (slot : ℕ) :
    (∃ res, account₀.initEmptyGummyroll authority appendAuthority slot = .ok res) ↔
      checkBounds D B = true ∧ (UInt32.ofNat D, UInt32.ofNat B) ∈ supportedConstants := by
  constructor
  · rintro ⟨⟨event, account⟩, hok⟩
    have hopened := initEmptyGummyroll_ok hfresh hok
    have hsupported := hopened.inv.supported
    rw [hopened.header_eq] at hsupported
    exact ⟨checkBounds_iff.2 ⟨hopened.inv.roll.depth, hopened.inv.roll.pow⟩, hsupported⟩
  · rintro ⟨hcheck, hsupported⟩
    have hD : D < 31 := (checkBounds_iff.1 hcheck).1
    have hdepth : (UInt32.ofNat D).toNat = D :=
      UInt32.toNat_ofNat'.trans (Nat.mod_eq_of_lt (by omega))
    rw [Account.initEmptyGummyroll, MerkleRollHeader.initialize, if_pos hfresh.header]
    dsimp only
    rw [merkleRollGetSize, if_pos hsupported, merkleRollApplyFn, if_pos hsupported, updateCanopy,
      checkCanopyBytes_eq hfresh.trailing,
      getCachedPathLength_eq hfresh.length hfresh.cached hD hdepth,
      MerkleRoll.initializeRoll, if_pos hcheck]
    exact ⟨_, rfl⟩

section Runs

variable {P : Account Node Pubkey D B → Instruction Node Pubkey → Prop}
  {account : Account Node Pubkey D B} {ws : List (ℕ × Node)}
  {events : List (ChangeLogEvent Node Pubkey)}

/-- The invariant holds along every run. -/
theorem AccountRun.inv [CollisionFree Node] [NonzeroHash Node] (h : AccountRun P c account ws events) :
    AccountInv c account ws := by
  induction h with
  | init hfresh h => exact (initEmptyGummyroll_ok hfresh h).inv
  | write _ _ h ih => exact ih.exec_some h
  | read _ h ih => exact ih.exec_none h

/-- A run of the account is a run of its roll. -/
theorem AccountRun.run [CollisionFree Node] [NonzeroHash Node]
    {Q : MerkleRoll Node D B → Call Node → Prop}
    (hPQ : ∀ (account : Account Node Pubkey D B) ins (call : Call Node), P account ins →
      (ins.IndexBelow D → call.IndexBelow D) → Q account.roll call)
    (h : AccountRun P c account ws events) : Run Q account.roll ws := by
  induction h with
  | init hfresh h =>
    obtain ⟨r, hinit⟩ := (initEmptyGummyroll_ok hfresh h).roll_ok
    exact .init hinit
  | write hrun hP h ih => exact hrun.inv.run_exec_some ih h fun call => hPQ _ _ call hP
  | read _ h ih =>
    rw [(Instruction.exec_none h).roll_eq]
    exact ih

end Runs

end Run

end Candyland.Gummyroll
