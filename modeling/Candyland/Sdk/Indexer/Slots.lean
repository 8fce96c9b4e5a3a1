import Candyland.Sdk.Indexer.TreeRows

/-!
# The slots of a history

Instructions are executed in slots that do not decrease.  So the events of a tree with larger
numbers are in later slots, and an event is in one slot only.
-/

namespace Candyland.Bubblegum

open ConcurrentMerkleTree (NodeHash CollisionFree NonzeroHash)
open Gummyroll (Build)
open Sdk.Indexer (IngestCall)

variable {Node Pubkey : Type}

/-- What is passed on names a tree. -/
theorem Executed.tree_of_ingestCall {x : Executed Node Pubkey} {call : IngestCall Node Pubkey}
    (hcall : x.ingestCall? = some call) : ∃ slab, x.instruction.tree? = some slab := by
  obtain ⟨signers, instruction, events⟩ := x
  cases instruction with
  | decompressV1 | compress => cases hcall
  | createTree | mintV1 | transfer | delegate | burn | redeem | cancelRedeem => exact ⟨_, rfl⟩

variable [NodeHash Node] [LeafHash Node Pubkey] [ProgramAddress Pubkey] [DecidableEq Node]
  [DecidableEq Pubkey] [Build] [CollisionFree Node] [NonzeroHash Node]
  [CollisionFreeLeaf Node Pubkey] [InjectiveAddress Pubkey] {st : State Node Pubkey}
  {slab : Pubkey} {history : List (Executed Node Pubkey)} {x : Executed Node Pubkey}
  {call : IngestCall Node Pubkey}

/-- The event of gummyroll of an instruction that names a tree. -/
theorem Reachable.changeLogs_eq (h : Reachable history st) (hx : x ∈ history)
    (hname : x.instruction.tree? = some slab) :
    ∃ call, x.ingestCall? = some call ∧ changeLogs x.events = [call.changeLog] := by
  induction h with
  | refl => cases hx
  | step h hx₁ ih =>
    rcases List.mem_cons.1 hx with rfl | hx
    · obtain ⟨L, hrep, -⟩ := Reachable.ledger h
      obtain ⟨call, hcall, hevents, -⟩ := hx₁.ingestCall hrep hname
      exact ⟨call, hcall, hevents⟩
    · exact ih hx

/-- The key and the path of an event, and the nonce of a leaf. -/
theorem Reachable.call_regular (h : Reachable history st) (hx : x ∈ history)
    (hname : x.instruction.tree? = some slab) (hcall : x.ingestCall? = some call) :
    call.changeLog.id = slab ∧ call.changeLog.path ≠ [] ∧
      ∀ s, call.leafSchema? = some s → s.schema.nonce.toNat < 2 ^ 53 := by
  obtain ⟨tree, earlier, htree, hsuffix, hmatch⟩ := h.call_suffix hx hname hcall
  obtain ⟨L, hrep, -⟩ := Reachable.ledger h
  obtain ⟨lives, -, hshows⟩ := hrep.tree htree
  obtain ⟨c, hrun⟩ := hshows.made.reachable
  obtain ⟨hid, hpath⟩ := hrun.of_mem_events _ (hsuffix.subset List.mem_cons_self)
  refine ⟨hid.trans hshows.made.key_eq, hpath, fun s hs => ?_⟩
  rw [hs] at hmatch
  rw [← hmatch.2]
  -- the leaf is in the tree
  have hlt : tree.position call.changeLog.index < 2 ^ tree.depth := Nat.mod_lt _ (by positivity)
  exact hlt.trans (Nat.pow_lt_pow_right (by norm_num) (hrun.inv.depth_lt.trans (by norm_num)))

/-! ### Slots -/

section Slots

variable {history : List (ℕ × Executed Node Pubkey)}

/-- An instruction that names the tree was executed in the slot and is passed on so. -/
def OnChain (history : List (ℕ × Executed Node Pubkey)) (slab : Pubkey) (slot : ℕ)
    (call : IngestCall Node Pubkey) : Prop :=
  ∃ x, (slot, x) ∈ history ∧ x.instruction.tree? = some slab ∧ x.ingestCall? = some call

/-- Every event of a tree was emitted in a slot. -/
theorem Reachable.exists_onChain (h : Reachable (history.map Prod.snd) st)
    {tree : Tree Node Pubkey} (htree : st.trees slab = some tree)
    {event : Gummyroll.ChangeLogEvent Node Pubkey} (hevent : event ∈ tree.slab.events) :
    ∃ slot call, OnChain history slab slot call ∧ call.changeLog = event := by
  have hevents := h.tree_events slab
  rw [htree, Option.map_some, Option.getD_some] at hevents
  rw [hevents, List.mem_flatMap] at hevent
  obtain ⟨x, hx, hmem⟩ := hevent
  obtain ⟨hx, hname⟩ := List.mem_filter.1 hx
  obtain ⟨call, hcall, hlogs⟩ := h.changeLogs_eq hx (of_decide_eq_true hname)
  obtain ⟨⟨slot, x⟩, hslot, rfl⟩ := List.mem_map.1 hx
  rw [hlogs, List.mem_singleton] at hmem
  exact ⟨slot, call, ⟨x, hslot, of_decide_eq_true hname, hcall⟩, hmem.symm⟩

/-- The events of a tree with larger numbers are in later slots. -/
theorem Reachable.slots_ordered (h : Reachable (history.map Prod.snd) st)
    (hslots : history.Pairwise fun a b => b.1 ≤ a.1) {tree : Tree Node Pubkey}
    (htree : st.trees slab = some tree) (hlogged : tree.Logged slab) {slot slot' : ℕ}
    {call call' : IngestCall Node Pubkey} (hcall : OnChain history slab slot call)
    (hcall' : OnChain history slab slot' call') :
    (call.changeLog.seq < call'.changeLog.seq → slot ≤ slot') ∧
      (call.changeLog.seq = call'.changeLog.seq → slot = slot' ∧ call = call') := by
  obtain ⟨x, hx, hname, hx'⟩ := hcall
  obtain ⟨y, hy, hname', hy'⟩ := hcall'
  -- the instructions that name the tree, with decreasing numbers and slots
  have hevents := h.tree_events slab
  rw [htree, Option.map_some, Option.getD_some, hlogged.events_eq, List.filter_map,
    List.flatMap_map] at hevents
  have hpairwise := Gummyroll.history_pairwise (D := tree.depth) slab tree.slab.writes
  rw [hevents, List.pairwise_flatMap] at hpairwise
  have hboth := (hslots.filter _).and hpairwise.2
  have hordered := List.Pairwise.forall_of_forall_of_flip
    (R := fun a b : ℕ × Executed Node Pubkey => ∀ e ∈ changeLogs a.2.events,
      ∀ e' ∈ changeLogs b.2.events, (e.seq < e'.seq → a.1 ≤ b.1) ∧ (e.seq = e'.seq → a = b))
    (fun a _ e _ e' _ => ⟨fun _ => le_rfl, fun _ => rfl⟩)
    (hboth.imp fun ⟨_, hlt⟩ e he e' he' => by have := hlt e he e' he'; omega)
    (hboth.imp fun ⟨hle, hlt⟩ e he e' he' =>
      ⟨fun _ => hle, fun heq => by have := hlt e' he' e he; omega⟩)
  -- the two instructions are among them
  have hmem : ∀ p ∈ history, p.2.instruction.tree? = some slab →
      p ∈ history.filter ((fun x => decide (x.instruction.tree? = some slab)) ∘ Prod.snd) :=
    fun p hp hname => List.mem_filter.2 ⟨hp, by simpa using hname⟩
  have hlog : ∀ p ∈ history, p.2.instruction.tree? = some slab → ∀ call,
      p.2.ingestCall? = some call → call.changeLog ∈ changeLogs p.2.events := by
    intro p hp hname call hcall
    obtain ⟨call', hcall', hevents⟩ := h.changeLogs_eq (List.mem_map_of_mem hp) hname
    rw [hcall] at hcall'
    rw [hevents, Option.some.inj hcall']
    exact List.mem_singleton_self _
  obtain ⟨hlt, heq⟩ := hordered (hmem _ hx hname) (hmem _ hy hname') _ (hlog _ hx hname _ hx') _
    (hlog _ hy hname' _ hy')
  refine ⟨hlt, fun hseq => ?_⟩
  obtain ⟨rfl, rfl⟩ := Prod.mk.inj (heq hseq)
  exact ⟨rfl, Option.some.inj (hx'.symm.trans hy')⟩

end Slots

end Candyland.Bubblegum
