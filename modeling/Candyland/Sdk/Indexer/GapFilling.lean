import Candyland.Sdk.Indexer.Fetching
import Candyland.Sdk.Indexer.InferredProofs
import Candyland.Sdk.Indexer.Slots
import Candyland.Sdk.Indexer.TruncatedLogs

/-!
# The filling of gaps

Between two sequence numbers that the tables have, the backfiller fetches all that are missing.
Behind the last one it stops two numbers too early, so that the newest event of a tree is there
only if it has been there before.
-/

namespace Candyland.Sdk.Indexer

open Bubblegum (Executed LeafHash ProgramAddress State Tree)
open ConcurrentMerkleTree (NodeHash CollisionFree NonzeroHash treeAfter)
open Gummyroll (Build ChangeLogEvent eventAfter lastPosition)

variable {Node Pubkey : Type} [DecidableEq Pubkey] [SystemProgramId Pubkey]
  {db db' : NFTDatabaseConnection Node Pubkey}

/-! ### Completeness -/

omit [SystemProgramId Pubkey] [DecidableEq Pubkey] in
/-- The tables hold the rows of an event, whatever its slot and its transaction are. -/
def NFTDatabaseConnection.HoldsChangeLog (self : NFTDatabaseConnection Node Pubkey)
    (event : ChangeLogEvent Node Pubkey) : Prop :=
  ∀ row ∈ merkleRows event "" 0 event.id,
    ∃ row' ∈ self.merkle, row'.key = row.key ∧ row'.level = row.level ∧ row'.hash = row.hash

instance [DecidableEq Node] (event : ChangeLogEvent Node Pubkey) :
    Decidable (db.HoldsChangeLog event) :=
  inferInstanceAs (Decidable (∀ row ∈ _, ∃ row' ∈ db.merkle, _))

section Held

variable [NodeHash Node] {D : ℕ} {tree : Pubkey} {ws ws' : List (ℕ × Node)} {held : ℕ → Prop}

omit [SystemProgramId Pubkey] [DecidableEq Pubkey] in
/-- The rows of a write are there when its event was ingested. -/
theorem holdsChangeLog_iff (h : Holds db D tree ws held) (hbound : ∀ w ∈ ws, w.1 < 2 ^ D)
    (hD : D < 31) (hws : ws' <:+ ws) (hne : ws' ≠ []) :
    db.HoldsChangeLog (eventAfter D tree ws') ↔ held ws'.length := by
  have hlast := lastPosition_lt hbound hws
  have hrows : NFTDatabaseConnection.merkleRows (eventAfter D tree ws') "" 0 tree = _ :=
    merkleRows_eventAfter hD hlast "" 0
  constructor
  · intro hholds
    obtain ⟨row', hrow', hkey, -⟩ := hholds _ (by
      rw [show (eventAfter D tree ws').id = tree from rfl, hrows]
      exact List.mem_map_of_mem (List.mem_range.2 (Nat.succ_pos D)))
    simp only [MerkleRow.key, Prod.mk.injEq] at hkey
    obtain ⟨htree, hseq, -⟩ := hkey
    rw [← hseq]
    exact (seq_of_row h hrow' htree).2.2.1
  · intro hheld row hrow
    rw [show (eventAfter D tree ws').id = tree from rfl, hrows] at hrow
    obtain ⟨l, hl, rfl⟩ := List.mem_map.1 hrow
    have hl : l ≤ D := Nat.lt_succ_iff.1 (List.mem_range.1 hl)
    obtain ⟨row', hrow', hkey⟩ :=
      h.mem_merkle ws' hws hne hheld _ ((onPath_iff hlast).2 ⟨l, hl, rfl⟩)
    have hkey' := hkey
    simp only [MerkleRow.key, Prod.mk.injEq] at hkey'
    obtain ⟨htree, hseq, hidx⟩ := hkey'
    obtain ⟨ws'', hws'', -, -, -, hseq'', hlevel, hhash⟩ := h.of_mem_merkle row' hrow' htree
    -- the row is that of this write
    have hsuffix := List.suffix_of_suffix_length_le hws'' hws (by omega)
    obtain rfl := hsuffix.eq_of_length (by omega)
    refine ⟨row', hrow', hkey, ?_, ?_⟩
    · rw [hlevel, hidx, MerkleTree.number_log2 hlast hl, Nat.sub_sub_self hl]
    · rw [hhash, hidx, MerkleTree.numbered_number _ hlast hl]

end Held

section Run

variable [NodeHash Node] [NodeLayout Node] [KeyLayout Pubkey] [ProgramIds Pubkey]
  [LeafHash Node Pubkey] [ProgramAddress Pubkey] [DecidableEq Node] [Build] [CollisionFree Node]
  [NonzeroHash Node] [Bubblegum.CollisionFreeLeaf Node Pubkey]
  [Bubblegum.InjectiveAddress Pubkey] {st : State Node Pubkey} {slab : Pubkey}
  {tree : Tree Node Pubkey} {history : List (ℕ × Executed Node Pubkey)}
  {deliveries : List (Delivery Node Pubkey)} {connection : Connection Pubkey}

/-- The cluster has executed the history: every block is complete and parses, and the account of
the tree is the current one. -/
structure Serves (connection : Connection Pubkey) (history : List (ℕ × Executed Node Pubkey))
    (slab : Pubkey) (tree : Tree Node Pubkey) : Prop where
  parse : BlocksParse connection.getBlock fun slot (call : IngestCall Node Pubkey) =>
    ∃ x, (slot, x) ∈ history ∧ x.ingestCall? = some call
  full : ∀ slot x, (slot, x) ∈ history → ∀ call, x.ingestCall? = some call →
    BlockMakes connection.getBlock slab slot call
  account : ∃ data roll, connection.getAccountInfo slab = some data ∧
    decodeMerkleRoll data = some roll ∧
    toNumber roll.roll.sequenceNumber = some tree.slab.account.roll.sequenceNumber

/-- What was delivered for the tree are events of the history with their slots. -/
def DeliveredFrom (history : List (ℕ × Executed Node Pubkey)) (slab : Pubkey)
    (deliveries : List (Delivery Node Pubkey)) : Prop :=
  ∀ d ∈ deliveries, d.call.changeLog.id = slab → Bubblegum.OnChain history slab d.slot d.call

omit [SystemProgramId Pubkey] [DecidableEq Pubkey] [NodeHash Node] [NodeLayout Node]
  [KeyLayout Pubkey] [ProgramIds Pubkey] [LeafHash Node Pubkey] [ProgramAddress Pubkey]
  [DecidableEq Node] [Build] [CollisionFree Node] [NonzeroHash Node]
  [Bubblegum.CollisionFreeLeaf Node Pubkey] [Bubblegum.InjectiveAddress Pubkey] in
theorem DeliveredFrom.fromHistory (h : DeliveredFrom history slab deliveries) :
    FromHistory deliveries slab (history.map Prod.snd) := by
  intro d hd hid
  obtain ⟨x, hx, hname, hcall⟩ := h d hd hid
  exact ⟨x, List.mem_map_of_mem hx, hname, hcall⟩

omit [NodeHash Node] [NodeLayout Node] [KeyLayout Pubkey] [ProgramIds Pubkey]
  [LeafHash Node Pubkey] [ProgramAddress Pubkey] [DecidableEq Node] [Build] [CollisionFree Node]
  [NonzeroHash Node] [Bubblegum.CollisionFreeLeaf Node Pubkey]
  [Bubblegum.InjectiveAddress Pubkey] in
/-- A row of the tree has the slot of its event. -/
theorem onChain_of_row (h : DeliveredFrom history slab deliveries) {row : MerkleRow Node Pubkey}
    (hrow : row ∈ (ingestAll deliveries).merkle) (htree : row.treeId = slab) :
    ∃ call, Bubblegum.OnChain history slab row.slot call ∧ call.changeLog.seq = row.seq := by
  obtain ⟨d, hd, hrow⟩ := exists_of_mem_merkle hrow
  obtain ⟨hid, hseq⟩ := Delivery.of_mem_nodeRows hrow
  refine ⟨d.call, ?_, hseq.symm⟩
  have hslot : row.slot = d.slot := by
    rw [Delivery.nodeRows] at hrow
    split_ifs at hrow
    · obtain ⟨x, -, rfl⟩ := List.mem_map.1 hrow
      rfl
    · cases hrow
  rw [hslot]
  exact h d hd (hid.symm.trans htree)

omit [NodeLayout Node] [KeyLayout Pubkey] [ProgramIds Pubkey] in
/-- After events of the history have been fetched, the tables are those of more deliveries. -/
theorem Fetched.more_deliveries (h : Bubblegum.Reachable (history.map Prod.snd) st)
    (hdel : DeliveredFrom history slab deliveries) {made : ℕ → IngestCall Node Pubkey → Prop}
    (hfetched : Fetched made (ingestAll deliveries) db')
    (hmade : ∀ slot call, made slot call → ∃ x, (slot, x) ∈ history ∧ x.ingestCall? = some call) :
    ∃ all, db' = ingestAll all ∧ DeliveredFrom history slab all ∧
      ∀ seq, Ingested all slab seq ↔ Ingested deliveries slab seq ∨
        ∃ slot call, made slot call ∧ call.changeLog.id = slab ∧ call.changeLog.seq = seq := by
  obtain ⟨fills, rfl, hfills⟩ := hfetched
  refine ⟨deliveries ++ fills, by simp [ingestAll], ?_, fun seq => ?_⟩
  · intro d hd hid
    rcases List.mem_append.1 hd with hd | hd
    · exact hdel d hd hid
    · obtain ⟨x, hx, hcall⟩ := hmade _ _ ((hfills _ _).1 ⟨d, hd, rfl, rfl⟩)
      obtain ⟨slab', hname⟩ := Executed.tree_of_ingestCall hcall
      obtain ⟨hid', -⟩ := h.call_regular (List.mem_map_of_mem hx) hname hcall
      rw [← hid, hid']
      exact ⟨x, hx, hname, hcall⟩
  · constructor
    · rintro ⟨d, hd, hid, hseq⟩
      rcases List.mem_append.1 hd with hd | hd
      · exact .inl ⟨d, hd, hid, hseq⟩
      · exact .inr ⟨_, _, (hfills _ _).1 ⟨d, hd, rfl, rfl⟩, hid, hseq⟩
    · rintro (⟨d, hd, hid, hseq⟩ | ⟨slot, call, hcall, hid, hseq⟩)
      · exact ⟨d, List.mem_append_left _ hd, hid, hseq⟩
      · obtain ⟨d, hd, -, rfl⟩ := (hfills slot call).2 hcall
        exact ⟨d, List.mem_append_right _ hd, hid, hseq⟩

omit [DecidableEq Node] [Build] [CollisionFree Node] [NonzeroHash Node]
  [Bubblegum.CollisionFreeLeaf Node Pubkey] [Bubblegum.InjectiveAddress Pubkey] in
/-- The gaps that `fetchAndPlugGaps` fills: those between rows, and a last one that ends before the
last but one event. -/
theorem fetchAndPlugGaps_eq (hserves : Serves connection history slab tree)
    (hone : ∀ row ∈ db.merkle, ∀ row' ∈ db.merkle, row.treeId = slab → row'.treeId = slab →
      row.seq = row'.seq → row.slot = row'.slot) (minSeq : ℕ) :
    ∃ gaps missingData, findGaps (db.seqSlots minSeq slab) = some gaps ∧ gaps ⊆ missingData ∧
      (∀ gap ∈ missingData, gap ∈ gaps ∨
        gap.currSeq = tree.slab.account.roll.sequenceNumber - 1) ∧
      fetchAndPlugGaps connection db minSeq slab =
        some (plugGapsBatched connection.getBlock slab missingData db) := by
  obtain ⟨data, roll, hdata, hdecode, hnumber⟩ := hserves.account
  obtain ⟨gaps, hgaps, -⟩ := findGaps_spec (seqSlots_pairwise minSeq hone)
  rw [fetchAndPlugGaps, NFTDatabaseConnection.getMissingData, hgaps]
  simp only [Option.bind_eq_bind, Option.bind_some, hdata, hdecode, hnumber]
  split_ifs
  · refine ⟨gaps, _, rfl, List.subset_append_left _ _, ?_, rfl⟩
    intro gap hgap
    rcases List.mem_append.1 hgap with hgap | hgap
    · exact .inl hgap
    · exact .inr (by rw [List.mem_singleton.1 hgap])
  · exact ⟨gaps, gaps, rfl, List.Subset.refl _, fun gap hgap => .inl hgap, rfl⟩

end Run

/-! ### A chain with three events -/

section Chain

open Bubblegum (Key)
open Bubblegum.Trace (alice creator createTree mintV1 slab)
open ConcurrentMerkleTree (Term)
open Truncated (unread traceOf keysOf ixOf innerOf trace_eq_some)

/-- The transaction of an instruction. -/
def txOf (x : Executed Term Key) : Transaction Key where
  signature := ""
  err := false
  accountKeys := keysOf x
  logMessages := .parsed [⟨ProgramIds.bubblegum, 0, (traceOf x).logs 0⟩]
  instructions := [ixOf x]
  innerInstructions := [innerOf x]

theorem attempts_txOf {x : Executed Term Key} (h : (x.trace unread).isSome) :
    (txOf x).attempts = [some (x.ingestCall?.toList.map some)] := by
  simp [Transaction.attempts, txOf, Log.indexParsedLog, Log.attempts,
    Log.parseBubblegumLog_trace (trace_eq_some h)]

/-- The data of an account for the sizes of the trace. -/
def accountBytes (sequenceNumber : ℕ) : List UInt8 :=
  Bytes.le 4 8 ++ Bytes.le 4 3 ++ List.replicate 72 0 ++ Bytes.le 8 sequenceNumber ++
    List.replicate 1240 0

/-- A cluster that has executed the instructions. -/
def chain (history : List (ℕ × Executed Term Key)) (sequenceNumber : ℕ) : Connection Key where
  getBlock slot := some ((history.reverse.filter fun p => p.1 = slot).map fun p => txOf p.2)
  getSlot := (history.map Prod.fst).foldr max 0
  getAccountInfo _ := some (accountBytes sequenceNumber)

theorem serves_chain {history : List (ℕ × Executed Term Key)} {tree : Tree Term Key}
    (htraces : ∀ p ∈ history, (p.2.trace unread).isSome) {roll : OnChainMerkleRoll}
    (hdecode : decodeMerkleRoll (accountBytes tree.slab.account.roll.sequenceNumber) = some roll)
    (hnumber : toNumber roll.roll.sequenceNumber =
      some tree.slab.account.roll.sequenceNumber) :
    Serves (chain history tree.slab.account.roll.sequenceNumber) history slab tree where
  parse := by
    rintro slot block hblock tx htx -
    obtain rfl := Option.some.inj hblock
    obtain ⟨⟨slot', x⟩, hx, rfl⟩ := List.mem_map.1 htx
    obtain ⟨hmem, hslot⟩ := List.mem_filter.1 hx
    obtain rfl : slot' = slot := of_decide_eq_true hslot
    replace hmem := List.mem_reverse.1 hmem
    rw [attempts_txOf (htraces _ hmem)]
    intro cs hcs
    refine ⟨_, List.mem_singleton.1 hcs, fun c hc => ?_⟩
    obtain ⟨call, hcall, rfl⟩ := List.mem_map.1 hc
    exact ⟨call, rfl, x, hmem, by simpa using hcall⟩
  full := by
    intro slot x hx call hcall
    refine ⟨_, rfl, txOf x, ?_, .inr ?_, rfl, x.ingestCall?.toList.map some, ?_, ?_⟩
    · exact List.mem_map.2 ⟨(slot, x), List.mem_filter.2 ⟨List.mem_reverse.2 hx, by simp⟩, rfl⟩
    · exact List.mem_flatMap.2 ⟨x.call unread, List.mem_cons_self, List.mem_cons_self⟩
    · rw [attempts_txOf (htraces _ hx)]
      exact List.mem_singleton_self _
    · simp [hcall]
  account := ⟨_, roll, rfl, hdecode, hnumber⟩

/-- The mint of the trace. -/
def firstMint : Executed Term Key := Bubblegum.Trace.created.executed [creator] mintV1

/-- The transfer after two mints. -/
def resale : Executed Term Key := mintedTwice.executed [alice] sale

/-- The instructions with their slots. -/
def saleSlots : List (ℕ × Executed Term Key) :=
  [(6, resale), (5, secondMint), (4, firstMint), (3, State.empty.executed [creator] createTree)]

/-- What the tables hold when the events of these instructions were ingested. -/
def deliveredOf (l : List (ℕ × Executed Term Key)) : List (Delivery Term Key) :=
  l.filterMap fun p => deliveryOf p.1 "" p.2

theorem deliveredFrom_saleSlots {l : List (ℕ × Executed Term Key)} (h : l ⊆ saleSlots) :
    DeliveredFrom saleSlots slab (deliveredOf l) := by
  rintro d hd -
  obtain ⟨⟨slot, x⟩, hx, hdelivery⟩ := List.mem_filterMap.1 hd
  have hslot : d.slot = slot := by
    simp only [deliveryOf] at hdelivery
    split at hdelivery
    · split_ifs at hdelivery
      rw [← Option.some.inj hdelivery]
    · cases hdelivery
  rw [hslot]
  refine ⟨x, h hx, tree?_of_mem_saleHistory ?_, call_of_deliveryOf hdelivery⟩
  have hmem : x ∈ saleSlots.map Prod.snd := List.mem_map_of_mem (h hx)
  exact hmem

theorem reachable_saleSlots : Bubblegum.Reachable (saleSlots.map Prod.snd) sold := reachable_sold

/-- The decoded account after the transfer. -/
theorem decode_accountBytes :
    (decodeMerkleRoll (accountBytes 3)).map (fun roll => roll.roll.sequenceNumber) = some 3 := by
  decide +kernel

/-- The facts about the chain after the transfer. -/
theorem serves_saleSlots {tree : Tree Term Key} (htree : sold.trees slab = some tree) :
    tree.slab.account.roll.sequenceNumber = 3 ∧
      Serves (chain saleSlots 3) saleSlots slab tree := by
  have hseq : (sold.trees slab).map (fun tree => tree.slab.account.roll.sequenceNumber) =
      some 3 := by
    decide +kernel
  rw [htree] at hseq
  replace hseq : tree.slab.account.roll.sequenceNumber = 3 := Option.some.inj hseq
  obtain ⟨roll, hroll, hnumber⟩ := Option.map_eq_some_iff.1 decode_accountBytes
  have htraces : ∀ p ∈ saleSlots, (p.2.trace unread).isSome := by
    decide +kernel
  have hserves := serves_chain htraces (by rw [hseq]; exact hroll)
    (by rw [hnumber, hseq]; rfl)
  rw [hseq] at hserves
  exact ⟨hseq, hserves⟩

/-- The number of the first mint is the smallest one that is held. -/
theorem isLeast_one {l : List (Delivery Term Key)}
    (hone : ∃ row ∈ (ingestAll l).merkle, row.treeId = slab ∧ row.seq = 1)
    (hle : ∀ row ∈ (ingestAll l).merkle, 1 ≤ row.seq) :
    IsLeast {seq | 0 ≤ seq ∧ ∃ row ∈ (ingestAll l).merkle, row.treeId = slab ∧ row.seq = seq}
      1 := by
  refine ⟨⟨Nat.zero_le 1, hone⟩, ?_⟩
  rintro seq ⟨-, row, hrow, -, rfl⟩
  exact hle row hrow

end Chain

end Candyland.Sdk.Indexer
