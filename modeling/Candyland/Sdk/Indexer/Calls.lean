import Candyland.Bubblegum.Events
import Candyland.Gummyroll.EventLog
import Candyland.Sdk.Indexer.Database

/-!
# What the indexer makes of a run

The calls that an executed instruction leads to, and how they belong to the history of its tree.
-/

namespace Candyland.Bubblegum

open ConcurrentMerkleTree (NodeHash CollisionFree NonzeroHash treeAfter)
open Gummyroll (Account AccountRun Build ChangeLogEvent eventAfter lastPosition)
open Sdk.Indexer (IngestCall)

variable {Node Pubkey : Type}

/-- The call of the indexer for the events of an instruction. -/
def Executed.ingestCall? (x : Executed Node Pubkey) : Option (IngestCall Node Pubkey) :=
  match x.instruction, x.events with
  | .createTree .., [.changeLog changeLog] => some (.createTree changeLog)
  | .mintV1 .., [.newNFT newLeafData, .leafSchema leafSchema, .changeLog changeLog] =>
    some (.mint changeLog newLeafData leafSchema)
  | .redeem .., [.leafSchema leafSchema, .changeLog changeLog] =>
    some (.replaceLeaf changeLog leafSchema false)
  | .cancelRedeem .., [.leafSchema leafSchema, .changeLog changeLog] =>
    some (.replaceLeaf changeLog leafSchema true)
  | .burn .., [.leafSchema leafSchema, .changeLog changeLog] =>
    some (.replaceLeaf changeLog leafSchema true)
  | .transfer .., [.leafSchema leafSchema, .changeLog changeLog] =>
    some (.replaceLeaf changeLog leafSchema true)
  | .delegate .., [.leafSchema leafSchema, .changeLog changeLog] =>
    some (.replaceLeaf changeLog leafSchema true)
  | _, _ => none

variable [NodeHash Node] [LeafHash Node Pubkey] [ProgramAddress Pubkey] [DecidableEq Node]
  [DecidableEq Pubkey] [Build] [CollisionFree Node] [NonzeroHash Node]
  [CollisionFreeLeaf Node Pubkey] [InjectiveAddress Pubkey] {st st' : State Node Pubkey}
  {slab : Pubkey} {L : Ledger Node Pubkey} {x : Executed Node Pubkey}

section Step

variable {events : List (Event Node Pubkey)} {root leaf : Node} {index : UInt32}
  {proof : List Node}

omit [InjectiveAddress Pubkey] in
/-- The leaf of a schema is replaced at the position of its nonce. -/
theorem State.Represents.replaceLeaf_position (h : st.Represents L) (s : LeafSchema Node Pubkey)
    (hok : st.replaceLeaf slab root s.toNode leaf index proof = .ok (events, st')) :
    ∃ tree event, st.trees slab = some tree ∧ events = [.changeLog event] ∧
      tree.position event.index = s.nonce.toNat := by
  obtain ⟨lives, tree, tree', -, hshows, hinvoke, -⟩ := h.invoke hok
  obtain ⟨hprevious, event, hevents, hindex, -⟩ := Tree.invoke_replaceLeaf hshows.made hinvoke
  obtain ⟨-, hposition, -⟩ := hshows.live hprevious.symm
  exact ⟨tree, event, hshows.tree_eq, hevents, by rw [hindex, hposition]⟩

omit [InjectiveAddress Pubkey] in
/-- An instruction that names a tree is passed on with its event of gummyroll, and the event has
the index of the asset. -/
theorem Executed.Takes.ingestCall (hx : x.Takes st st') (hrep : st.Represents L)
    (hname : x.instruction.tree? = some slab) :
    ∃ call, x.ingestCall? = some call ∧ changeLogs x.events = [call.changeLog] ∧
      match call.leafSchema? with
      | none => st.trees slab = none
      | some s => ∃ tree, st.trees slab = some tree ∧
          tree.position call.changeLog.index = s.schema.nonce.toNat := by
  obtain ⟨signers, instruction, events⟩ := x
  obtain ⟨-, hok⟩ := hx
  cases instruction with
  | createTree payer treeCreator slab₁ size account slot =>
    obtain rfl := Option.some.inj hname
    obtain ⟨⟨⟩, hnone, hok⟩ := Outcome.bind_eq_ok.1 hok
    obtain ⟨⟨⟩, -, hok⟩ := Outcome.bind_eq_ok.1 hok
    split at hok
    · obtain ⟨rfl, -⟩ := Prod.mk.inj (Outcome.ok.inj hok)
      exact ⟨_, rfl, rfl, hrep.tree_eq_none (constraint_eq_ok.1 hnone)⟩
    · exact absurd hok (by simp)
    · exact absurd hok (by simp)
  | mintV1 =>
    obtain rfl := Option.some.inj hname
    obtain ⟨⟨⟩, -, hok⟩ := Outcome.bind_eq_ok.1 hok
    obtain ⟨count, hcount, hok⟩ := Outcome.bind_eq_ok.1 hok
    obtain ⟨⟨events₁, st₁⟩, happend, hok⟩ := Outcome.bind_eq_ok.1 hok
    obtain ⟨rfl, -⟩ := Prod.mk.inj (Outcome.ok.inj hok)
    obtain ⟨lives, tree, tree', -, hshows, hinvoke, -⟩ := hrep.invoke happend
    obtain ⟨-, event, rfl, hposition, -⟩ := Tree.invoke_append hshows.made hinvoke
    refine ⟨_, rfl, rfl, tree, hshows.tree_eq, hposition.trans ?_⟩
    -- the counter is the number of leaves
    have hnonce : st.nonces _ = some (UInt64.ofNat lives.length) := hshows.nonce_eq
    rw [State.nonce, hnonce] at hcount
    obtain rfl := Outcome.ok.inj hcount
    rw [hshows.count_eq]
    exact (hshows.nonce_toNat le_rfl).symm
  | transfer | delegate | burn =>
    obtain rfl := Option.some.inj hname
    obtain ⟨count, -, hok⟩ := Outcome.bind_eq_ok.1 hok
    obtain ⟨⟨⟩, -, hok⟩ := Outcome.bind_eq_ok.1 hok
    obtain ⟨⟨events₁, st₁⟩, hreplace, hok⟩ := Outcome.bind_eq_ok.1 hok
    obtain ⟨rfl, -⟩ := Prod.mk.inj (Outcome.ok.inj hok)
    obtain ⟨tree, event, htree, rfl, hposition⟩ := hrep.replaceLeaf_position _ hreplace
    exact ⟨_, rfl, rfl, tree, htree, hposition⟩
  | redeem =>
    obtain rfl := Option.some.inj hname
    obtain ⟨count, -, hok⟩ := Outcome.bind_eq_ok.1 hok
    obtain ⟨⟨⟩, -, hok⟩ := Outcome.bind_eq_ok.1 hok
    obtain ⟨⟨⟩, -, hok⟩ := Outcome.bind_eq_ok.1 hok
    obtain ⟨⟨events₁, st₁⟩, hreplace, hok⟩ := Outcome.bind_eq_ok.1 hok
    obtain ⟨rfl, -⟩ := Prod.mk.inj (Outcome.ok.inj hok)
    obtain ⟨tree, event, htree, rfl, hposition⟩ := hrep.replaceLeaf_position _ hreplace
    exact ⟨_, rfl, rfl, tree, htree, hposition⟩
  | cancelRedeem =>
    obtain rfl := Option.some.inj hname
    obtain ⟨count, -, hok⟩ := Outcome.bind_eq_ok.1 hok
    obtain ⟨voucher, hvoucher, hok⟩ := Outcome.bind_eq_ok.1 hok
    obtain ⟨⟨⟩, haddress, hok⟩ := Outcome.bind_eq_ok.1 hok
    obtain ⟨⟨⟩, -, hok⟩ := Outcome.bind_eq_ok.1 hok
    obtain ⟨⟨⟩, -, hok⟩ := Outcome.bind_eq_ok.1 hok
    obtain ⟨⟨events₁, st₁⟩, hreplace, hok⟩ := Outcome.bind_eq_ok.1 hok
    obtain ⟨rfl, -⟩ := Prod.mk.inj (Outcome.ok.inj hok)
    obtain rfl := constraint_eq_ok.1 haddress
    -- the voucher has the index of the leaf that it stands for
    obtain ⟨lives, tree, hL, hshows, -, -, hposition, -⟩ := hrep.redeemed (State.voucher_eq_ok.1 hvoucher)
    obtain ⟨lives₁, tree₁, tree', hL₁, hshows₁, hinvoke, -⟩ := hrep.invoke hreplace
    obtain rfl := Option.some.inj (hshows.tree_eq.symm.trans hshows₁.tree_eq)
    obtain ⟨-, event, rfl, hindex, -⟩ := Tree.invoke_replaceLeaf hshows.made hinvoke
    refine ⟨_, rfl, rfl, tree, hshows.tree_eq, ?_⟩
    simp only [Sdk.Indexer.IngestCall.changeLog, hindex]
    exact hposition
  | decompressV1 | compress => exact absurd hname (by simp [Instruction.tree?])

end Step

section Runs

variable {history : List (Executed Node Pubkey)}

/-- A delivered event is one of its tree, with the position of its asset.  The first event of a
tree is that of its creation. -/
theorem Reachable.call_suffix (h : Reachable history st) (hx : x ∈ history)
    (hname : x.instruction.tree? = some slab) {call : IngestCall Node Pubkey}
    (hcall : x.ingestCall? = some call) :
    ∃ tree earlier, st.trees slab = some tree ∧
      (call.changeLog :: earlier) <:+ tree.slab.events ∧
      match call.leafSchema? with
      | none => earlier = []
      | some s => earlier ≠ [] ∧ tree.position call.changeLog.index = s.schema.nonce.toNat := by
  induction h with
  | refl => cases hx
  | @step history st st' x₁ h hx₁ ih =>
    obtain ⟨L, hrep, -⟩ := Reachable.ledger h
    have htrees := hx₁.trees fun _ hnone => hrep.tree_eq_none hnone
    rcases List.mem_cons.1 hx with rfl | hx
    · -- the instruction itself
      rw [hname] at htrees
      obtain ⟨event, tree', hevents, hstep, heq⟩ := htrees
      obtain ⟨call₁, hcall₁, hevents₁, hmatch⟩ := hx₁.ingestCall hrep hname
      obtain rfl := Option.some.inj (hcall.symm.trans hcall₁)
      obtain rfl : event = call.changeLog := by
        simpa using hevents.symm.trans hevents₁
      have htree' : st'.trees slab = some tree' := by rw [heq, Function.update_self]
      refine ⟨tree', tree'.slab.events.tail, htree', ?_, ?_⟩
      · generalize st.trees slab = before at hstep
        cases hstep <;> exact List.suffix_rfl
      · cases hschema : call.leafSchema? with
        | none =>
          rw [hschema] at hmatch
          rw [hmatch] at hstep
          cases hstep
          rfl
        | some s =>
          rw [hschema] at hmatch
          obtain ⟨tree, htree, hposition⟩ := hmatch
          obtain ⟨lives, -, hshows⟩ := hrep.tree htree
          obtain ⟨c, hrun⟩ := hshows.made.reachable
          rw [htree] at hstep
          cases hstep with
          | write hcalls hexec => exact ⟨hrun.events_ne_nil, hposition⟩
    · -- an earlier one, whose event stays in the history of its tree
      obtain ⟨tree, earlier, htree, hsuffix, hmatch⟩ := ih hx
      cases hname₁ : x₁.instruction.tree? with
      | none =>
        rw [hname₁] at htrees
        rw [htrees.2]
        exact ⟨tree, earlier, htree, hsuffix, hmatch⟩
      | some slab₁ =>
        rw [hname₁] at htrees
        obtain ⟨event, tree', -, hstep, heq⟩ := htrees
        rw [heq]
        by_cases hslab : slab = slab₁
        · subst hslab
          rw [htree] at hstep
          cases hstep with
          | write hcalls hexec =>
            exact ⟨_, earlier, Function.update_self .., hsuffix.trans (List.suffix_cons _ _), hmatch⟩
        · rw [Function.update_of_ne hslab]
          exact ⟨tree, earlier, htree, hsuffix, hmatch⟩

/-- What is known of a tree whose updates can be numbered. -/
structure Tree.Logged (slab : Pubkey) (tree : Tree Node Pubkey) : Prop where
  three_le : 3 ≤ tree.depth
  depth_lt : tree.depth < 31
  bound : ∀ w ∈ tree.slab.writes, w.1 < 2 ^ tree.depth
  events_eq : tree.slab.events = Gummyroll.history tree.depth slab tree.slab.writes
  sequence_eq : tree.slab.account.roll.sequenceNumber = tree.slab.writes.length
  inv : ConcurrentMerkleTree.Inv (fun _ => ConcurrentMerkleTree.EMPTY) tree.slab.account.roll
    tree.slab.writes
  log_index : ∀ m < tree.slab.account.roll.bufferSize,
    (tree.slab.account.roll.log m).index.toNat < 2 ^ tree.depth

theorem Reachable.logged (h : Reachable history st) {tree : Tree Node Pubkey}
    (htree : st.trees slab = some tree)
    (hseq : tree.slab.account.roll.sequenceNumber < 2 ^ 63) : tree.Logged slab := by
  obtain ⟨L, hrep, -⟩ := Reachable.ledger h
  obtain ⟨lives, -, hshows⟩ := hrep.tree htree
  obtain ⟨c, hrun⟩ := h.tree_run htree hseq
  obtain ⟨hevents, hsequence, -⟩ := hrun.events_eq
  refine ⟨hrun.inv.three_le, hrun.inv.depth_lt, hrun.inv.roll.bound,
    by rw [hevents, hshows.made.key_eq], hsequence, hrun.inv.roll, ?_⟩
  -- a retained change log is one of the events
  intro m hm
  obtain ⟨seq, hlog⟩ := hrun.eventLog.logged m hm
  rw [hevents] at hlog
  obtain ⟨ws, hws, hevent⟩ := Gummyroll.mem_history.1 (List.mem_of_getElem? hlog)
  have hindex : (tree.slab.account.roll.log m).index = UInt32.ofNat (lastPosition ws) :=
    congrArg ChangeLogEvent.index hevent
  rw [hindex, UInt32.toNat_ofNat']
  refine (Nat.mod_le _ _).trans_lt ?_
  cases ws with
  | nil => exact Nat.two_pow_pos _
  | cons w ws => exact hrun.inv.roll.bound w (hws.subset List.mem_cons_self)

/-- As long as the updates can be numbered, the event is that of a write. -/
theorem Reachable.call_eq (h : Reachable history st) (hx : x ∈ history)
    (hname : x.instruction.tree? = some slab) {call : IngestCall Node Pubkey}
    (hcall : x.ingestCall? = some call) {tree : Tree Node Pubkey}
    (htree : st.trees slab = some tree) (hlogged : tree.Logged slab) :
    ∃ ws, ws <:+ tree.slab.writes ∧ call.changeLog = eventAfter tree.depth slab ws ∧
      match call.leafSchema? with
      | none => ws = []
      | some s => ws ≠ [] ∧ lastPosition ws = s.schema.nonce.toNat := by
  obtain ⟨tree₁, earlier, htree₁, hsuffix, hmatch⟩ := h.call_suffix hx hname hcall
  obtain rfl := Option.some.inj (htree.symm.trans htree₁)
  rw [hlogged.events_eq] at hsuffix
  obtain ⟨ws, hws, heq, hnil⟩ := Gummyroll.cons_suffix_history hsuffix
  refine ⟨ws, hws, heq, ?_⟩
  split at hmatch
  · exact hnil.1 hmatch
  · obtain ⟨hne, hposition⟩ := hmatch
    have hlast : lastPosition ws < 2 ^ tree.depth := by
      cases ws with
      | nil => exact Nat.two_pow_pos _
      | cons w ws => exact hlogged.bound w (hws.subset List.mem_cons_self)
    have htoNat : (UInt32.ofNat (lastPosition ws)).toNat = lastPosition ws := by
      have hpow := Nat.pow_le_pow_right (n := 2) (by norm_num) hlogged.depth_lt.le
      rw [UInt32.toNat_ofNat']
      exact Nat.mod_eq_of_lt (by omega)
    refine ⟨fun h => hne (hnil.2 h), ?_⟩
    rw [heq, Tree.position, ConcurrentMerkleTree.position, eventAfter, htoNat,
      Nat.mod_eq_of_lt hlast] at hposition
    exact hposition

/-- A leaf that was written is at the position of its nonce. -/
theorem Reachable.nonce_of_write (h : Reachable history st) {tree : Tree Node Pubkey}
    (htree : st.trees slab = some tree) {w : ℕ × Node} (hw : w ∈ tree.slab.writes)
    {s : LeafSchema Node Pubkey} (hs : w.2 = s.toNode) : s.nonce.toNat = w.1 := by
  induction h generalizing tree with
  | refl => exact absurd htree (by simp [State.empty])
  | @step history st st' x h hx ih =>
    obtain ⟨L, hrep, -⟩ := Reachable.ledger h
    obtain ⟨L', -, hrep'⟩ := hrep.step hx
    obtain ⟨lives, -, hshows⟩ := hrep'.tree htree
    have htrees := hx.trees fun _ hnone => hrep.tree_eq_none hnone
    cases hname : x.instruction.tree? with
    | none =>
      rw [hname] at htrees
      exact ih (by rw [← htrees.2, htree]) hw
    | some slab₁ =>
      rw [hname] at htrees
      obtain ⟨event, tree', -, hstep, heq⟩ := htrees
      rw [heq] at htree
      by_cases hslab : slab = slab₁
      · subst hslab
        rw [Function.update_self] at htree
        obtain rfl := Option.some.inj htree
        generalize hbefore : st.trees slab = before at hstep
        cases hstep with
        | init => cases hw
        | write hcalls hexec =>
          rcases List.mem_cons.1 hw with rfl | hw
          · exact (hshows.live ((Function.update_self ..).trans hs)).2.1
          · exact ih hbefore hw
      · rw [Function.update_of_ne hslab] at htree
        exact ih htree hw

end Runs

end Candyland.Bubblegum
