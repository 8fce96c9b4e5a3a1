import Candyland.Bubblegum.Program

/-!
# Calls of gummyroll

What a call of gummyroll that bubblegum signs does to the leaves of a tree.  A replacement is
accepted only for the current leaf at its position, and only a call at the first free position
takes up a new one.
-/

namespace Candyland.Bubblegum

open ConcurrentMerkleTree
open Gummyroll

variable {Node Pubkey : Type} [NodeHash Node]

namespace Tree

omit [NodeHash Node] in
/-- `rightmost_proof.index`: the number of leaves that were appended. -/
def count (self : Tree Node Pubkey) : ℕ := self.slab.account.roll.rightmostProof.index.toNat

omit [NodeHash Node] in
/-- The leaf that an index addresses. -/
def position (self : Tree Node Pubkey) (index : UInt32) : ℕ :=
  ConcurrentMerkleTree.position self.depth index

variable [DecidableEq Node] [DecidableEq Pubkey] [Build]

/-- A tree at the address of a slab that only the authority for the slab can change. -/
structure Made [ProgramAddress Pubkey] (merkleSlab : Pubkey) (tree : Tree Node Pubkey) : Prop where
  reachable : ∃ c, AccountReachable c tree.slab.account tree.slab.writes tree.slab.events
  key_eq : tree.slab.account.key = merkleSlab
  authority_eq : tree.slab.account.header.authority = ProgramAddress.authority merkleSlab

/-- What a call that writes a leaf does to a tree. -/
structure Wrote [ProgramAddress Pubkey] (merkleSlab : Pubkey) (tree : Tree Node Pubkey) (i : ℕ)
    (leaf : Node) (event : ChangeLogEvent Node Pubkey) (tree' : Tree Node Pubkey) : Prop where
  made : tree'.Made merkleSlab
  leaf_eq : tree'.leaf = Function.update tree.leaf i leaf
  count_eq : tree'.count = if i = tree.count then tree.count + 1 else tree.count
  depth_eq : tree'.depth = tree.depth
  append_eq : tree'.slab.account.header.appendAuthority = tree.slab.account.header.appendAuthority
  events_eq : tree'.slab.events = event :: tree.slab.events

omit [NodeHash Node] [DecidableEq Node] [DecidableEq Pubkey] [Build] in
/-- The calls of gummyroll that bubblegum makes. -/
def Calls : Gummyroll.Instruction Node Pubkey → Prop
  | .replaceLeaf .. => True
  | .append .. => True
  | _ => False

/-- A successful call writes a leaf and emits one event. -/
theorem invoke_ok {ins : Gummyroll.Instruction Node Pubkey} {tree tree' : Tree Node Pubkey}
    {events : List (Event Node Pubkey)} (hok : tree.invoke ins = .ok (events, tree'))
    (hins : Calls ins) :
    ∃ event account, ins.exec tree.slab.account = .ok (some event, account) ∧
      events = [.changeLog event] ∧ tree' = { tree with
        slab := ⟨account, (ConcurrentMerkleTree.position tree.depth event.index, ins.leaf) ::
          tree.slab.writes, event :: tree.slab.events⟩ } := by
  rw [invoke] at hok
  split at hok
  · rename_i event account hexec
    obtain ⟨rfl, rfl⟩ := Prod.mk.inj (Outcome.ok.inj hok)
    exact ⟨event, account, hexec, rfl, rfl⟩
  · -- neither of the two calls succeeds without an event
    rename_i account hexec
    cases ins with
    | replaceLeaf | append =>
      obtain ⟨⟨_, _⟩, -, heq⟩ := Outcome.bind_eq_ok.1 hexec
      exact absurd (Prod.mk.inj (Outcome.ok.inj heq)).1 (by simp)
    | insertOrAppend | verifyLeaf | transferAuthority => exact False.elim hins
  · exact absurd hok (by simp)
  · exact absurd hok (by simp)

section Calls

variable [CollisionFree Node] [NonzeroHash Node] [ProgramAddress Pubkey] {merkleSlab : Pubkey}
  {tree : Tree Node Pubkey}

namespace Made

theorem exists_inv (h : tree.Made merkleSlab) :
    ∃ c, AccountInv c tree.slab.account tree.slab.writes := by
  obtain ⟨c, hrun⟩ := h.reachable
  exact ⟨c, hrun.inv⟩

/-- A tree has fewer leaves than there are indices. -/
theorem count_le (h : tree.Made merkleSlab) : tree.count ≤ 2 ^ 30 := by
  obtain ⟨c, hinv⟩ := h.exists_inv
  have hD := hinv.depth_lt
  exact hinv.roll.rightmost.le.trans (Nat.pow_le_pow_right (by norm_num) (by omega))

/-- A call that emits an event writes a leaf through the index of the event. -/
theorem wrote (h : tree.Made merkleSlab) {ins : Gummyroll.Instruction Node Pubkey}
    {event : ChangeLogEvent Node Pubkey}
    {account : Account Node Pubkey tree.depth tree.bufferSize}
    (hexec : ins.exec tree.slab.account = .ok (some event, account)) :
    tree.Wrote merkleSlab (tree.position event.index) ins.leaf event
      { tree with slab := ⟨account, (ConcurrentMerkleTree.position tree.depth event.index,
          ins.leaf) :: tree.slab.writes, event :: tree.slab.events⟩ } := by
  obtain ⟨c, hrun⟩ := h.reachable
  obtain ⟨call, canopy, hwrote⟩ := Gummyroll.Instruction.exec_some hexec
  obtain ⟨hindex, r, hwritten⟩ := hrun.inv.written hwrote
  refine ⟨⟨⟨c, .write hrun trivial hexec⟩, ?_, ?_⟩, ?_, ?_, rfl, ?_, rfl⟩
  · exact hwrote.key_eq.trans h.key_eq
  · exact (congrArg MerkleRollHeader.authority hwrote.header_eq).trans h.authority_eq
  · rfl
  · simp only [count, position, hindex]
    exact hwritten.rightmost_index
  · exact congrArg MerkleRollHeader.appendAuthority hwrote.header_eq

end Made

/-- A successful replacement. -/
theorem invoke_replaceLeaf (h : tree.Made merkleSlab) {authority : Pubkey}
    {root previousLeaf newLeaf : Node} {index : UInt32} {proof : List Node}
    {events : List (Event Node Pubkey)} {tree' : Tree Node Pubkey}
    (hok : tree.invoke (.replaceLeaf authority root previousLeaf newLeaf index proof) =
      .ok (events, tree')) :
    previousLeaf = tree.leaf (tree.position index) ∧
      ∃ event, events = [.changeLog event] ∧ event.index = index ∧
        tree.Wrote merkleSlab (tree.position index) newLeaf event tree' := by
  obtain ⟨event, account, hexec, rfl, rfl⟩ := invoke_ok hok trivial
  have hwrote := h.wrote hexec
  obtain ⟨c, hinv⟩ := h.exists_inv
  obtain ⟨call, canopy, hcalled⟩ := Gummyroll.Instruction.exec_some hexec
  obtain ⟨hindex, -⟩ := hinv.written hcalled
  obtain ⟨r, hcall⟩ := hcalled.exec_ok
  cases hcalled.calls with
  | replaceLeaf hfill =>
    have hprevious := (hinv.roll.setLeaf_ok hcall).1
    have hevent : event.index = index := hindex
    have hposition : tree.position event.index = tree.position index := by rw [hevent]
    rw [hposition] at hwrote
    exact ⟨hprevious, event, rfl, hevent, hwrote⟩

/-- A successful append. -/
theorem invoke_append (h : tree.Made merkleSlab) {authority appendAuthority : Pubkey}
    {leaf : Node} {events : List (Event Node Pubkey)} {tree' : Tree Node Pubkey}
    (hok : tree.invoke (.append authority appendAuthority leaf) = .ok (events, tree')) :
    tree.slab.account.header.appendAuthority = appendAuthority ∧
      ∃ event, events = [.changeLog event] ∧ tree.position event.index = tree.count ∧
        tree.Wrote merkleSlab tree.count leaf event tree' := by
  obtain ⟨event, account, hexec, rfl, rfl⟩ := invoke_ok hok trivial
  have hwrote := h.wrote hexec
  obtain ⟨c, hinv⟩ := h.exists_inv
  obtain ⟨call, canopy, hcalled⟩ := Gummyroll.Instruction.exec_some hexec
  obtain ⟨hindex, -⟩ := hinv.written hcalled
  obtain ⟨r, hcall⟩ := hcalled.exec_ok
  obtain ⟨⟨_, _⟩, happend, -⟩ := Outcome.bind_eq_ok.1 hexec
  obtain ⟨⟨⟩, -, happend⟩ := Outcome.bind_eq_ok.1 happend
  obtain ⟨⟨⟩, hauthority, -⟩ := Outcome.bind_eq_ok.1 happend
  cases hcalled.calls with
  | append =>
    have hlt := (hinv.roll.append_ok hcall).2
    have hevent : event.index = tree.slab.account.roll.rightmostProof.index := hindex
    have hposition : tree.position event.index = tree.count := by
      rw [hevent]
      exact position_of_lt hlt
    rw [hposition] at hwrote
    exact ⟨Outcome.assert_eq_ok.1 hauthority, event, rfl, hposition, hwrote⟩

omit [CollisionFree Node] [NonzeroHash Node] in
/-- A tree from `init_empty_gummyroll`. -/
theorem made_of_init {c D B : ℕ} {size : BufferSize B} {account₀ account : Account Node Pubkey D B}
    {appendAuthority : Pubkey} {slot : ℕ} {event : ChangeLogEvent Node Pubkey}
    (hfresh : account₀.Fresh c) (hkey : account₀.key = merkleSlab)
    (h : account₀.initEmptyGummyroll (ProgramAddress.authority merkleSlab) appendAuthority slot =
      .ok (event, account)) :
    let tree : Tree Node Pubkey := ⟨D, B, size, ⟨account, [], [event]⟩⟩
    tree.Made merkleSlab ∧ tree.count = 0 ∧ (∀ i, tree.leaf i = EMPTY) ∧
      account.header.appendAuthority = appendAuthority := by
  have hopened := initEmptyGummyroll_ok hfresh h
  obtain ⟨r, hinit⟩ := hopened.roll_ok
  have hzero := (initializeRoll_eq hinit).2.2.2.1
  refine ⟨⟨⟨c, .init hfresh h⟩, ?_, ?_⟩, ?_, ?_, ?_⟩
  · rw [← hkey]
    rw [Account.initEmptyGummyroll, MerkleRollHeader.initialize, if_pos hfresh.header] at h
    obtain ⟨⟨⟩, -, h⟩ := Outcome.bind_eq_ok.1 h
    obtain ⟨⟨event₁, roll⟩, -, h⟩ := Outcome.bind_eq_ok.1 h
    obtain ⟨canopy, -, h⟩ := Outcome.bind_eq_ok.1 h
    obtain ⟨-, rfl⟩ := Prod.mk.inj (Outcome.ok.inj h)
    rfl
  · exact congrArg MerkleRollHeader.authority hopened.header_eq
  · exact congrArg UInt32.toNat hzero
  · intro i
    rfl
  · exact congrArg MerkleRollHeader.appendAuthority hopened.header_eq

end Calls

end Tree

end Candyland.Bubblegum
