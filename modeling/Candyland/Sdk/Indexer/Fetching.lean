import Candyland.Sdk.Indexer.ArrivalOrder
import Candyland.Sdk.Indexer.Backfiller

/-!
# What the backfiller fetches

The gaps in a list of sequence numbers, and the calls that are made for them: those of the blocks
in the slots of a gap whose numbers are in it.
-/

namespace Candyland.Sdk.Indexer

open Bubblegum (LeafHash ProgramAddress)
open ConcurrentMerkleTree (NodeHash)

/-! ### Gaps -/

section Gaps

variable {res : List (ℕ × ℕ)} {gaps : List GapInfo} {p c : ℕ × ℕ} {k : ℕ}

/-- The gap between two pairs. -/
def GapInfo.between (prev curr : ℕ × ℕ) : GapInfo := ⟨some prev.1, curr.1, some prev.2, curr.2⟩

/-- In a list of increasing numbers every gap is between two of its pairs, and a number that is
missing is in a gap. -/
theorem findGaps_spec (h : res.Pairwise fun a b => a.1 < b.1) :
    ∃ gaps, findGaps res = some gaps ∧
      (∀ gap ∈ gaps, ∃ prev ∈ res, ∃ curr ∈ res, gap = .between prev curr) ∧
      ∀ p ∈ res, ∀ c ∈ res, ∀ k, p.1 < k → k < c.1 → (∀ x ∈ res, x.1 ≠ k) →
        ∃ prev ∈ res, ∃ curr ∈ res, .between prev curr ∈ gaps ∧ prev.1 < k ∧ k < curr.1 := by
  induction res with
  | nil => exact ⟨[], rfl, by simp, by simp⟩
  | cons a res ih =>
    rw [List.pairwise_cons] at h
    obtain ⟨gaps, hgaps, hends, hfound⟩ := ih h.2
    cases res with
    | nil =>
      refine ⟨[], rfl, by simp, ?_⟩
      intro p hp c hc k hpk hkc
      rw [List.mem_singleton.1 hp] at hpk
      rw [List.mem_singleton.1 hc] at hkc
      omega
    | cons b res =>
      have hab : a.1 < b.1 := h.1 b List.mem_cons_self
      rw [findGaps, if_neg hab.ne', hgaps]
      simp only [Option.bind_eq_bind, Option.bind_some]
      have hends' : ∀ gap ∈ gaps, ∃ prev ∈ a :: b :: res, ∃ curr ∈ a :: b :: res,
          gap = .between prev curr := by
        intro gap hgap
        obtain ⟨prev, hprev, curr, hcurr, rfl⟩ := hends gap hgap
        exact ⟨prev, List.mem_cons_of_mem _ hprev, curr, List.mem_cons_of_mem _ hcurr, rfl⟩
      -- a number behind the second pair is found by induction
      have hlater : ∀ c ∈ a :: b :: res, ∀ k, b.1 < k → k < c.1 →
          (∀ x ∈ a :: b :: res, x.1 ≠ k) → ∃ prev ∈ a :: b :: res, ∃ curr ∈ a :: b :: res,
            .between prev curr ∈ gaps ∧ prev.1 < k ∧ k < curr.1 := by
        intro c hc k hbk hkc hk
        have hc' : c ∈ b :: res := by
          refine (List.mem_cons.1 hc).resolve_left ?_
          rintro rfl
          omega
        obtain ⟨prev, hprev, curr, hcurr, hgap⟩ := hfound b List.mem_cons_self c hc' k hbk hkc
          fun x hx => hk x (List.mem_cons_of_mem _ hx)
        exact ⟨prev, List.mem_cons_of_mem _ hprev, curr, List.mem_cons_of_mem _ hcurr, hgap⟩
      have hstart : ∀ p ∈ a :: b :: res, ∀ k, p.1 < k → a.1 < k := by
        intro p hp k hpk
        rcases List.mem_cons.1 hp with rfl | hp
        · exact hpk
        · exact (h.1 p hp).trans hpk
      split_ifs with hgap
      · refine ⟨.between a b :: gaps, rfl, ?_, ?_⟩
        · rintro gap (_ | ⟨_, hmem⟩)
          · exact ⟨a, by simp, b, by simp, rfl⟩
          · exact hends' gap hmem
        · intro p hp c hc k hpk hkc hk
          rcases lt_trichotomy k b.1 with hkb | hkb | hbk
          · exact ⟨a, by simp, b, by simp, List.mem_cons_self, hstart p hp k hpk, hkb⟩
          · exact absurd hkb.symm (hk b (by simp))
          · obtain ⟨prev, hprev, curr, hcurr, hmem, hlt⟩ := hlater c hc k hbk hkc hk
            exact ⟨prev, hprev, curr, hcurr, List.mem_cons_of_mem _ hmem, hlt⟩
      · refine ⟨gaps, rfl, hends', ?_⟩
        intro p hp c hc k hpk hkc hk
        have hak := hstart p hp k hpk
        have hkb : k ≠ b.1 := fun heq => hk b (by simp) heq.symm
        exact hlater c hc k (by omega) hkc hk

end Gaps

section SeqSlots

variable {Node Pubkey : Type} [DecidableEq Pubkey] {db : NFTDatabaseConnection Node Pubkey}
  {minSeq : ℕ} {treeId : Pubkey}

theorem mem_seqSlots {p : ℕ × ℕ} : p ∈ db.seqSlots minSeq treeId ↔
    ∃ row ∈ db.merkle, row.treeId = treeId ∧ minSeq ≤ row.seq ∧ p = (row.seq, row.slot) := by
  rw [NFTDatabaseConnection.seqSlots, (Table.orderBy_perm _ _).mem_iff, List.mem_dedup,
    List.mem_map]
  simp only [List.mem_filter, Bool.and_eq_true, decide_eq_true_eq, and_assoc, eq_comm (b := p)]

/-- When a number has one slot, the pairs are in the order of increasing numbers. -/
theorem seqSlots_pairwise (minSeq : ℕ) (hone : ∀ row ∈ db.merkle, ∀ row' ∈ db.merkle,
      row.treeId = treeId → row'.treeId = treeId → row.seq = row'.seq → row.slot = row'.slot) :
    (db.seqSlots minSeq treeId).Pairwise fun a b => a.1 < b.1 := by
  have hnodup : (db.seqSlots minSeq treeId).Nodup :=
    (Table.orderBy_perm _ _).nodup_iff.2 (List.nodup_dedup _)
  refine ((Table.orderBy_pairwise _ _).and hnodup).imp_of_mem ?_
  rintro a b ha hb ⟨hle, hne⟩
  refine lt_of_le_of_ne hle fun heq => hne ?_
  obtain ⟨row, hrow, htree, -, rfl⟩ := mem_seqSlots.1 ha
  obtain ⟨row', hrow', htree', -, rfl⟩ := mem_seqSlots.1 hb
  exact Prod.ext heq (hone row hrow row' hrow' htree htree' heq)

end SeqSlots

/-! ### What is fetched -/

variable {Node Pubkey : Type} [DecidableEq Pubkey]

omit [DecidableEq Pubkey] in
/-- The call does not throw: the event has a path, and the nonce is a number. -/
structure IngestCall.Regular (call : IngestCall Node Pubkey) : Prop where
  path_ne : call.changeLog.path ≠ []
  nonce : ∀ s, call.leafSchema? = some s → s.schema.nonce.toNat < 2 ^ 53

variable [SystemProgramId Pubkey] {slot : ℕ} {txId : String} {lo : Option ℕ} {hi : ℕ}
  {db db' db'' : NFTDatabaseConnection Node Pubkey}

theorem IngestCall.Regular.ingest_eq {call : IngestCall Node Pubkey} (h : call.Regular)
    (db : NFTDatabaseConnection Node Pubkey) : call.ingest db slot ⟨txId, lo, some hi⟩ =
      if skipTx call.changeLog.seq lo (some hi) then some db
      else some (deliver db ⟨call, slot, txId, h.path_ne⟩) := by
  obtain ⟨leaf, path, hpath⟩ := List.exists_cons_of_ne_nil h.path_ne
  have hnonce := h.nonce
  cases call with
  | createTree changeLog =>
    cases hskip : skipTx changeLog.seq lo (some hi) <;>
      simp [ingest, ingestBubblegumCreateTree, deliver, IngestCall.changeLog, hskip]
  | mint changeLog newLeafData leafSchema =>
    replace hpath : changeLog.path = leaf :: path := hpath
    have hnumber : toNumber leafSchema.schema.nonce.toNat = some leafSchema.schema.nonce.toNat :=
      if_pos (hnonce leafSchema rfl)
    cases hskip : skipTx changeLog.seq lo (some hi) <;>
      simp [ingest, ingestBubblegumMint, NFTDatabaseConnection.updateLeafSchema, deliver,
        IngestCall.changeLog, hskip, hnumber, hpath]
  | replaceLeaf changeLog leafSchema compressed =>
    replace hpath : changeLog.path = leaf :: path := hpath
    have hnumber : toNumber leafSchema.schema.nonce.toNat = some leafSchema.schema.nonce.toNat :=
      if_pos (hnonce leafSchema rfl)
    cases hskip : skipTx changeLog.seq lo (some hi) <;>
      simp [ingest, ingestBubblegumReplaceLeaf, NFTDatabaseConnection.updateLeafSchema, deliver,
        IngestCall.changeLog, hskip, hnumber, hpath]

/-- The second tables are the first ones after some calls have been made, which are exactly these
with their slots. -/
def Fetched (made : ℕ → IngestCall Node Pubkey → Prop)
    (db db' : NFTDatabaseConnection Node Pubkey) : Prop :=
  ∃ fills : List (Delivery Node Pubkey), db' = fills.foldl deliver db ∧
    ∀ slot call, (∃ f ∈ fills, f.slot = slot ∧ f.call = call) ↔ made slot call

namespace Fetched

variable {made made' : ℕ → IngestCall Node Pubkey → Prop}

theorem nothing (h : ∀ slot call, ¬ made slot call) : Fetched made db db :=
  ⟨[], rfl, fun slot call => by simp [h slot call]⟩

theorem one (d : Delivery Node Pubkey) :
    Fetched (fun slot call => slot = d.slot ∧ call = d.call) db (deliver db d) :=
  ⟨[d], rfl, fun slot call => by simp [eq_comm]⟩

theorem trans (h : Fetched made db db') (h' : Fetched made' db' db'') :
    Fetched (fun slot call => made slot call ∨ made' slot call) db db'' := by
  obtain ⟨fills, rfl, hfills⟩ := h
  obtain ⟨fills', rfl, hfills'⟩ := h'
  refine ⟨fills ++ fills', by rw [List.foldl_append], fun slot call => ?_⟩
  simp only [← hfills, ← hfills', List.mem_append, or_and_right, exists_or]

theorem congr (h : Fetched made db db') (hiff : ∀ slot call, made slot call ↔ made' slot call) :
    Fetched made' db db' := by
  obtain ⟨fills, hdb, hfills⟩ := h
  exact ⟨fills, hdb, fun slot call => (hfills slot call).trans (hiff slot call)⟩

/-- What the turns of a loop fetch. -/
theorem foldl {ι : Type} {step : NFTDatabaseConnection Node Pubkey → ι →
      NFTDatabaseConnection Node Pubkey} {made : ι → ℕ → IngestCall Node Pubkey → Prop}
    {l : List ι} (h : ∀ i ∈ l, ∀ db, Fetched (made i) db (step db i))
    (db : NFTDatabaseConnection Node Pubkey) :
    Fetched (fun slot call => ∃ i ∈ l, made i slot call) db (l.foldl step db) := by
  induction l generalizing db with
  | nil => exact nothing (by simp)
  | cons i l ih =>
    have hrest := ih (fun j hj => h j (List.mem_cons_of_mem _ hj)) (step db i)
    exact ((h i List.mem_cons_self db).trans hrest).congr (by simp)

end Fetched

/-- The calls are made and do not throw. -/
theorem awaitCalls_fetched {calls : List (Option (IngestCall Node Pubkey))}
    (h : ∀ c ∈ calls, ∃ call, c = some call ∧ call.Regular)
    (db : NFTDatabaseConnection Node Pubkey) :
    Fetched (fun slot' call => slot' = slot ∧ some call ∈ calls ∧
      skipTx call.changeLog.seq lo (some hi) = false) db
      (awaitCalls slot ⟨txId, lo, some hi⟩ db calls) := by
  induction calls generalizing db with
  | nil => exact .nothing (by simp)
  | cons c calls ih =>
    obtain ⟨call, rfl, hregular⟩ := h c List.mem_cons_self
    have hrest := ih fun c hc => h c (List.mem_cons_of_mem _ hc)
    rw [awaitCalls, hregular.ingest_eq]
    cases hskip : skipTx call.changeLog.seq lo (some hi) with
    | true =>
      refine (hrest db).congr fun slot' call' => ?_
      constructor
      · rintro ⟨rfl, hmem, hrange⟩
        exact ⟨rfl, List.mem_cons_of_mem _ hmem, hrange⟩
      · rintro ⟨rfl, hmem, hrange⟩
        refine ⟨rfl, (List.mem_cons.1 hmem).resolve_left ?_, hrange⟩
        rintro heq
        rw [Option.some.inj heq, hskip] at hrange
        cases hrange
    | false =>
      refine ((Fetched.one _).trans (hrest _)).congr fun slot' call' => ?_
      constructor
      · rintro (⟨rfl, rfl⟩ | ⟨rfl, hmem, hrange⟩)
        · exact ⟨rfl, List.mem_cons_self, hskip⟩
        · exact ⟨rfl, List.mem_cons_of_mem _ hmem, hrange⟩
      · rintro ⟨rfl, hmem, hrange⟩
        rcases List.mem_cons.1 hmem with heq | hmem
        · exact .inl ⟨rfl, Option.some.inj heq⟩
        · exact .inr ⟨rfl, hmem, hrange⟩

/-- What is attempted for a transaction are calls with a property, and none of it fails. -/
def Parses (P : IngestCall Node Pubkey → Prop)
    (attempts : List (Option (List (Option (IngestCall Node Pubkey))))) : Prop :=
  ∀ cs ∈ attempts, ∃ calls, cs = some calls ∧ ∀ c ∈ calls, ∃ call, c = some call ∧ P call

/-- The call is attempted. -/
def Attempted (attempts : List (Option (List (Option (IngestCall Node Pubkey)))))
    (call : IngestCall Node Pubkey) : Prop :=
  ∃ calls, some calls ∈ attempts ∧ some call ∈ calls

omit [DecidableEq Pubkey] [SystemProgramId Pubkey] in
theorem Parses.imp {P Q : IngestCall Node Pubkey → Prop}
    {attempts : List (Option (List (Option (IngestCall Node Pubkey))))} (h : Parses P attempts)
    (hPQ : ∀ call, P call → Q call) : Parses Q attempts := by
  intro cs hcs
  obtain ⟨calls, rfl, hcalls⟩ := h cs hcs
  refine ⟨calls, rfl, fun c hc => ?_⟩
  obtain ⟨call, rfl, hcall⟩ := hcalls c hc
  exact ⟨call, rfl, hPQ call hcall⟩

omit [DecidableEq Pubkey] [SystemProgramId Pubkey] in
theorem Parses.of_attempted {P : IngestCall Node Pubkey → Prop}
    {attempts : List (Option (List (Option (IngestCall Node Pubkey))))} (h : Parses P attempts)
    {call : IngestCall Node Pubkey} (hcall : Attempted attempts call) : P call := by
  obtain ⟨calls, hcalls, hmem⟩ := hcall
  obtain ⟨_, heq, hP⟩ := h _ hcalls
  obtain rfl := Option.some.inj heq
  obtain ⟨_, heq, hP⟩ := hP _ hmem
  obtain rfl := Option.some.inj heq
  exact hP

/-- A transaction that parses is handled to its end. -/
theorem handleAtomic_fetched {attempts : List (Option (List (Option (IngestCall Node Pubkey))))}
    (h : Parses IngestCall.Regular attempts) (db : NFTDatabaseConnection Node Pubkey) :
    ∃ db', handleAtomic slot ⟨txId, lo, some hi⟩ db attempts = .ok db' ∧
      Fetched (fun slot' call => slot' = slot ∧ Attempted attempts call ∧
        skipTx call.changeLog.seq lo (some hi) = false) db db' := by
  induction attempts generalizing db with
  | nil => exact ⟨db, rfl, .nothing (by simp [Attempted])⟩
  | cons cs attempts ih =>
    obtain ⟨calls, rfl, hcalls⟩ := h cs List.mem_cons_self
    obtain ⟨db', hdb', hrest⟩ := ih (fun cs hcs => h cs (List.mem_cons_of_mem _ hcs))
      (awaitCalls slot ⟨txId, lo, some hi⟩ db calls)
    refine ⟨db', hdb', ((awaitCalls_fetched hcalls db).trans hrest).congr fun slot' call => ?_⟩
    simp only [Attempted, List.mem_cons, Option.some.injEq, or_and_right, exists_or,
      exists_eq_left]
    tauto

section Blocks

variable [NodeHash Node] [NodeLayout Node] [KeyLayout Pubkey] [ProgramIds Pubkey]
  [LeafHash Node Pubkey] [ProgramAddress Pubkey] {treeKey : Pubkey}
  {getBlock : ℕ → Option (List (Transaction Pubkey))}

/-- A call of a transaction that the backfiller does not leave out. -/
def Transaction.Makes (treeKey : Pubkey) (tx : Transaction Pubkey)
    (call : IngestCall Node Pubkey) : Prop :=
  (treeKey ∈ tx.accountKeys ∨ ProgramIds.bubblegum ∈ tx.accountKeys) ∧ tx.err = false ∧
    Attempted tx.attempts call

/-- The calls of a block. -/
def BlockMakes (getBlock : ℕ → Option (List (Transaction Pubkey))) (treeKey : Pubkey) (slot : ℕ)
    (call : IngestCall Node Pubkey) : Prop :=
  ∃ block, getBlock slot = some block ∧ ∃ tx ∈ block, tx.Makes treeKey call

/-- All transactions of all blocks parse. -/
def BlocksParse (getBlock : ℕ → Option (List (Transaction Pubkey)))
    (P : ℕ → IngestCall Node Pubkey → Prop) : Prop :=
  ∀ slot block, getBlock slot = some block → ∀ tx ∈ block, tx.err = false →
    Parses (P slot) tx.attempts

/-- The loop over the transactions. -/
theorem plugTransactions_fetched {txs : List (Transaction Pubkey)}
    (h : ∀ tx ∈ txs, tx.err = false →
      Parses (IngestCall.Regular : IngestCall Node Pubkey → Prop) tx.attempts)
    (db : NFTDatabaseConnection Node Pubkey) :
    Fetched (fun slot' call => slot' = slot ∧ (∃ tx ∈ txs, tx.Makes treeKey call) ∧
      skipTx call.changeLog.seq lo (some hi) = false) db
      (plugTransactions treeKey slot lo hi db txs) := by
  induction txs generalizing db with
  | nil => exact .nothing (by simp)
  | cons tx txs ih =>
    have hrest := ih fun tx htx => h tx (List.mem_cons_of_mem _ htx)
    simp only [List.mem_cons, or_and_right, exists_or, exists_eq_left]
    rw [plugTransactions]
    split_ifs with hkeys herr
    · -- the keys are not there
      refine (hrest db).congr fun slot' call => ?_
      have hnot : ¬ tx.Makes treeKey call := by
        rintro ⟨htree | hbubblegum, -⟩
        · simpa using List.all_eq_true.1 hkeys _ htree
        · simpa using List.all_eq_true.1 hkeys _ hbubblegum
      simp [hnot]
    · -- it failed
      refine (hrest db).congr fun slot' call => ?_
      have hnot : ¬ tx.Makes treeKey call := by
        rintro ⟨-, hok, -⟩
        rw [herr] at hok
        cases hok
      simp [hnot]
    · have hok : tx.err = false := by simpa using herr
      have hmem : treeKey ∈ tx.accountKeys ∨ ProgramIds.bubblegum ∈ tx.accountKeys := by
        by_contra hnone
        rw [not_or] at hnone
        refine hkeys (List.all_eq_true.2 fun pk hpk => ?_)
        simp only [Bool.and_eq_true, decide_eq_true_eq]
        exact ⟨fun heq => hnone.1 (heq ▸ hpk), fun heq => hnone.2 (heq ▸ hpk)⟩
      obtain ⟨db', hdb', hfetched⟩ := handleAtomic_fetched (h tx List.mem_cons_self hok) db
      rw [hdb']
      refine (hfetched.trans (hrest db')).congr fun slot' call => ?_
      have hmakes : tx.Makes treeKey call ↔ Attempted tx.attempts call := by
        simp [Transaction.Makes, hmem, hok]
      simp only [hmakes]
      tauto

/-- One slot. -/
theorem plugGapsFromSlot_fetched
    (h : BlocksParse getBlock fun _ => (IngestCall.Regular : IngestCall Node Pubkey → Prop))
    (slot : ℕ) (db : NFTDatabaseConnection Node Pubkey) :
    Fetched (fun slot' call => slot' = slot ∧ BlockMakes getBlock treeKey slot call ∧
      skipTx call.changeLog.seq lo (some hi) = false) db
      (plugGapsFromSlot getBlock treeKey slot lo hi db) := by
  rw [plugGapsFromSlot]
  cases hblock : getBlock slot with
  | none => exact .nothing (by simp [BlockMakes, hblock])
  | some block =>
    refine (plugTransactions_fetched (h slot block hblock) db).congr fun slot' call => ?_
    simp [BlockMakes, hblock]

/-- One gap. -/
theorem plugGaps_fetched
    (h : BlocksParse getBlock fun _ => (IngestCall.Regular : IngestCall Node Pubkey → Prop))
    (gap : GapInfo) (db : NFTDatabaseConnection Node Pubkey) :
    Fetched (fun slot call => slot ∈ slotsOf gap.prevSlot gap.currSlot ∧
      BlockMakes getBlock treeKey slot call ∧
        skipTx call.changeLog.seq gap.prevSeq (some gap.currSeq) = false) db
      (plugGaps getBlock treeKey gap db) := by
  refine (Fetched.foldl (fun slot _ db => plugGapsFromSlot_fetched h slot db) db).congr ?_
  intro slot call
  constructor
  · rintro ⟨i, hi, rfl, hcall⟩
    exact ⟨hi, hcall⟩
  · rintro ⟨hslot, hcall⟩
    exact ⟨slot, hslot, rfl, hcall⟩

/-- A list of gaps. -/
theorem plugGapsBatched_fetched
    (h : BlocksParse getBlock fun _ => (IngestCall.Regular : IngestCall Node Pubkey → Prop))
    (gaps : List GapInfo) (db : NFTDatabaseConnection Node Pubkey) :
    Fetched (fun slot call => ∃ gap ∈ gaps, slot ∈ slotsOf gap.prevSlot gap.currSlot ∧
      BlockMakes getBlock treeKey slot call ∧
        skipTx call.changeLog.seq gap.prevSeq (some gap.currSeq) = false) db
      (plugGapsBatched getBlock treeKey gaps db) :=
  Fetched.foldl (fun gap _ db => plugGaps_fetched h gap db) db

end Blocks

end Candyland.Sdk.Indexer
