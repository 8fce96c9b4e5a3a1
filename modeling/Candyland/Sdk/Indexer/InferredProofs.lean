import Candyland.ConcurrentMerkleTree.InferredProofs
import Candyland.Sdk.Indexer.GapFree

/-!
# Proofs from tables with a gap

Once an event is missing, the siblings of a leaf are taken from before the gap and the leaf is the
current one.  Such a proof has a root that the tree may never have had; the chain takes it as
long as its ring goes back beyond the gap.
-/

namespace Candyland.Sdk.Indexer

open Bubblegum (Executed LeafHash LeafSchema State Tree)
open ConcurrentMerkleTree (NodeHash CollisionFree NonzeroHash EMPTY hashv treeAfter siblings)
open Gummyroll (lastPosition)
open NftIngester (OnPath)

variable {Node Pubkey : Type} {D : ℕ} [NodeHash Node] [DecidableEq Pubkey]
  {db : NFTDatabaseConnection Node Pubkey} {tree : Pubkey} {ws : List (ℕ × Node)} {held : ℕ → Prop}

/-! ### Queries -/

section Queries

variable (h : Holds db D tree ws held) (hbound : ∀ w ∈ ws, w.1 < 2 ^ D)

omit [NodeHash Node] in
theorem exists_suffix {k : ℕ} (hk : k ≤ ws.length) : ∃ ws', ws' <:+ ws ∧ ws'.length = k :=
  ⟨ws.drop (ws.length - k), List.drop_suffix _ _, by rw [List.length_drop]; omega⟩

include h hbound

omit [DecidableEq Pubkey] in
/-- Every event that is held has a row for the root. -/
theorem exists_root_row {k : ℕ} (hpos : 0 < k) (hk : k ≤ ws.length) (hheld : held k) :
    ∃ row ∈ db.merkle, row.treeId = tree ∧ row.seq = k ∧ row.level = D := by
  obtain ⟨ws', hws', rfl⟩ := exists_suffix hk
  have hpath : OnPath D (lastPosition ws') 1 := by
    rw [onPath_iff (lastPosition_lt hbound hws')]
    refine ⟨D, le_rfl, ?_⟩
    rw [MerkleTree.number, Nat.div_eq_of_lt (lastPosition_lt hbound hws')]
    simp
  obtain ⟨row, hrow, hkey⟩ :=
    h.mem_merkle ws' hws' (List.length_pos_iff.1 hpos) hheld 1 hpath
  simp only [MerkleRow.key, Prod.mk.injEq] at hkey
  obtain ⟨htree, hseq, hidx⟩ := hkey
  obtain ⟨-, -, -, -, -, -, hlevel, -⟩ := h.of_mem_merkle row hrow htree
  have hlog : Nat.log2 1 = 0 := by decide
  rw [hidx, hlog, Nat.sub_zero] at hlevel
  exact ⟨row, hrow, htree, hseq, hlevel⟩

omit [DecidableEq Pubkey] hbound in
/-- Every row is that of an event that is held. -/
theorem seq_of_row {row : MerkleRow Node Pubkey} (hrow : row ∈ db.merkle)
    (htree : row.treeId = tree) :
    0 < row.seq ∧ row.seq ≤ ws.length ∧ held row.seq ∧ row.level ≤ D := by
  obtain ⟨ws', hws', hne, hheld, -, hseq, hlevel, -⟩ := h.of_mem_merkle row hrow htree
  rw [hseq, hlevel]
  exact ⟨List.length_pos_iff.2 hne, hws'.length_le, hheld, Nat.sub_le _ _⟩

/-- The largest number is at least that of every event that is held. -/
theorem getMaxSeq_ge {k : ℕ} (hpos : 0 < k) (hk : k ≤ ws.length) (hheld : held k) :
    ∃ latest, db.getMaxSeq tree = some latest ∧ k ≤ latest := by
  obtain ⟨row, hrow, htree, hseq, -⟩ := exists_root_row h hbound hpos hk hheld
  have hmem : k ∈ (db.merkle.filter fun row => decide (row.treeId = tree)).map MerkleRow.seq :=
    List.mem_map.2 ⟨row, List.mem_filter.2 ⟨hrow, by simpa using htree⟩, hseq⟩
  cases hmax : db.getMaxSeq tree with
  | none =>
    rw [NFTDatabaseConnection.getMaxSeq, List.max?_eq_none_iff] at hmax
    rw [hmax] at hmem
    cases hmem
  | some latest => exact ⟨latest, rfl, (List.max?_eq_some_iff.1 hmax).2 k hmem⟩

/-- The largest level is that of the root. -/
theorem getDepth_eq {k : ℕ} (hpos : 0 < k) (hk : k ≤ ws.length) (hheld : held k) :
    db.getDepth tree = some D := by
  obtain ⟨row, hrow, htree, -, hlevel⟩ := exists_root_row h hbound hpos hk hheld
  rw [NFTDatabaseConnection.getDepth, List.max?_eq_some_iff]
  constructor
  · exact List.mem_map.2 ⟨row, List.mem_filter.2 ⟨hrow, by simpa using htree⟩, hlevel⟩
  · intro level hmem
    obtain ⟨row', hrow', rfl⟩ := List.mem_map.1 hmem
    obtain ⟨hmem', htree'⟩ := List.mem_filter.1 hrow'
    exact (seq_of_row h hmem' (by simpa using htree')).2.2.2

/-- The gap is found behind the events that are held without one. -/
theorem gapIndex_eq {m : ℕ} (hpos : 0 < m) (hm : m ≤ ws.length)
    (hfirst : ∀ k, 1 ≤ k → k ≤ m → held k) (hgap : ¬ held (m + 1)) :
    db.gapIndex tree = some m := by
  obtain ⟨row, hrow, htree, hseq, -⟩ := exists_root_row h hbound hpos hm (hfirst m hpos le_rfl)
  rw [NFTDatabaseConnection.gapIndex, ← hseq]
  refine Table.head?_orderBy ?_ ?_
  · simp only [List.mem_filter, Bool.and_eq_true, Bool.not_eq_true', List.any_eq_false,
      decide_eq_true_eq, not_and]
    refine ⟨hrow, ?_, htree⟩
    intro row' hrow' hseq' htree'
    rw [hseq] at hseq'
    exact hgap (hseq' ▸ (seq_of_row h hrow' htree').2.2.1)
  · simp only [List.mem_filter, Bool.and_eq_true, Bool.not_eq_true', List.any_eq_false,
      decide_eq_true_eq, not_and]
    rintro row' ⟨hrow', hlast, htree'⟩
    -- a smaller number has a successor
    by_contra hlt
    obtain ⟨row'', hrow'', htree'', hseq'', -⟩ := exists_root_row h hbound
      (Nat.succ_pos row'.seq) (by omega) (hfirst (row'.seq + 1) (by omega) (by omega))
    exact hlast row'' hrow'' hseq'' htree''

end Queries

/-! ### Proofs -/

section Run

variable [DecidableEq Node] [LeafHash Node Pubkey] [Bubblegum.ProgramAddress Pubkey]
  [Gummyroll.Build] [CollisionFree Node] [NonzeroHash Node] [Bubblegum.CollisionFreeLeaf Node Pubkey]
  [Bubblegum.InjectiveAddress Pubkey] [SystemProgramId Pubkey] {st : State Node Pubkey}
  {slab : Pubkey} {history : List (Executed Node Pubkey)}
  {deliveries : List (Delivery Node Pubkey)}

omit [Bubblegum.ProgramAddress Pubkey] [Gummyroll.Build] [CollisionFree Node] [NonzeroHash Node]
  [Bubblegum.CollisionFreeLeaf Node Pubkey] [Bubblegum.InjectiveAddress Pubkey]
  [SystemProgramId Pubkey] in
/-- The first events without a gap, a gap and a row with the current leaf: the proof has the
siblings from before the gap. -/
theorem getInferredProof_eq (h : Holds db D tree ws held) (hbound : ∀ w ∈ ws, w.1 < 2 ^ D)
    (hnonce : ∀ w ∈ ws, ∀ s : LeafSchema Node Pubkey, w.2 = s.toNode → s.nonce.toNat = w.1)
    (hD : D < 31) (hD0 : D ≠ 0) {m k : ℕ} (hpos : 0 < m) (hmk : m < k) (hk : k ≤ ws.length)
    (hfirst : ∀ k, 1 ≤ k → k ≤ m → held k) (hgap : ¬ held (m + 1)) (hlater : held k)
    {s : LeafSchema Node Pubkey} (hi : s.nonce.toNat < 2 ^ D)
    (hrow : ∃ row ∈ db.leafSchema, row.treeId = tree ∧ row.leafHash = s.toNode) (check : Bool) :
    ∃ proof, db.getInferredProof s.toNode tree check = some proof ∧ proof.leaf = s.toNode ∧
      proof.index = s.nonce.toNat ∧
      proof.proofNodes = siblings D (treeAfter (ws.drop (ws.length - m))) s.nonce.toNat ∧
      proof.root = MerkleTree.climb hashv s.toNode (MerkleTree.sibling hashv
        (treeAfter (ws.drop (ws.length - m))) s.nonce.toNat) s.nonce.toNat D := by
  obtain ⟨latest, hlatest, hle⟩ := getMaxSeq_ge h hbound (by omega) hk hlater
  have hdepth := getDepth_eq h hbound (by omega) hk hlater
  have hgapIndex := gapIndex_eq h hbound hpos (by omega) hfirst hgap
  -- the row that is found has the nonce of the asset
  obtain ⟨row, hfind⟩ : ∃ row, db.leafSchema.find?
      (fun l => decide (l.leafHash = s.toNode) && decide (l.treeId = tree)) = some row := by
    obtain ⟨row, hmem, htree, hhash⟩ := hrow
    refine Option.isSome_iff_exists.1 (List.find?_isSome.2 ⟨row, hmem, ?_⟩)
    simp [htree, hhash]
  have hprop := List.find?_some hfind
  simp only [Bool.and_eq_true, decide_eq_true_eq] at hprop
  have hrowNonce := nonce_of_leafHash h hnonce (List.mem_of_find?_eq_some hfind) hprop.2 hprop.1
  -- the rows up to the gap are those of the writes before it
  have hlen : (ws.drop (ws.length - m)).length = m := by
    rw [List.length_drop]
    omega
  have hupto : UpTo ws (ws.drop (ws.length - m)) held (some m) := by
    intro ws'' hws'' hne''
    rw [truthy_some (by omega)]
    constructor
    · intro hsuffix
      have hle'' := hsuffix.length_le
      rw [hlen] at hle''
      refine ⟨hfirst _ (List.length_pos_iff.2 hne'') hle'', ?_⟩
      rintro m' ⟨⟩
      exact hle''
    · rintro ⟨-, hmax⟩
      refine List.suffix_of_suffix_length_le hws'' (List.drop_suffix _ _) ?_
      rw [hlen]
      exact hmax m rfl
  have hne : ws.drop (ws.length - m) ≠ [] := List.length_pos_iff.1 (by omega)
  have hproof := generateProof_leaf h hbound (List.drop_suffix _ _) hne hupto hD hi s.toNode
    row.dataHash row.creatorHash row.nonce row.owner row.delegate check
  have hpow := Nat.pow_lt_pow_right (a := 2) (by norm_num) hD
  have hidx : shiftLeft 1 D + (s.nonce.toNat : ℤ) = ((2 ^ D + s.nonce.toNat : ℕ) : ℤ) := by
    rw [shiftLeft_one hD]
    push_cast
    ring
  refine ⟨⟨s.toNode, MerkleTree.climb hashv s.toNode (MerkleTree.sibling hashv
      (treeAfter (ws.drop (ws.length - m))) s.nonce.toNat) s.nonce.toNat D,
    siblings D (treeAfter (ws.drop (ws.length - m))) s.nonce.toNat, s.nonce.toNat, row.nonce,
    row.dataHash, row.creatorHash, row.owner, row.delegate⟩, ?_, rfl, rfl, rfl, rfl⟩
  rw [NFTDatabaseConnection.getInferredProof, hlatest, truthy_some (by omega), hgapIndex]
  simp only [Option.bind_eq_bind, Option.bind_some, if_pos (show m < latest by omega)]
  rw [NFTDatabaseConnection.inferProofWithKnownGap, hdepth, truthy_some hD0, hfind]
  simp only [Option.bind_eq_bind, Option.bind_some, hrowNonce, hidx]
  rw [hrowNonce] at hproof
  rw [hproof]
  simp only [truthy_some (show m ≠ 0 by omega), Option.isSome_some, if_true]
  rw [verifyProof, generateRoot_eq (by omega) (by omega) _ rfl rfl]
  simp

/-- A table with the first events, a gap and later events: for a live asset whose row has the
current leaf, the proof that is inferred is taken by the chain, as long as the ring goes back
beyond the gap. -/
theorem getInferredProof_accepted (h : Bubblegum.Reachable history st) {tree : Tree Node Pubkey}
    (htree : st.trees slab = some tree)
    (hseq : tree.slab.account.roll.sequenceNumber < 2 ^ 63)
    (hdeliveries : FromHistory deliveries slab history) {m : ℕ} (hpos : 1 ≤ m)
    (hfirst : ∀ seq, 1 ≤ seq → seq ≤ m → Ingested deliveries slab seq)
    (hgap : ¬ Ingested deliveries slab (m + 1))
    (hlater : ∃ seq, m < seq ∧ Ingested deliveries slab seq)
    (hring : tree.slab.account.roll.sequenceNumber - m ≤ tree.bufferSize - 1)
    {i : ℕ} {s : LeafSchema Node Pubkey} (hlive : tree.leaf i = s.toNode)
    (hrow : ∃ row ∈ (ingestAll deliveries).leafSchema, row.treeId = slab ∧
      row.nonce = s.nonce.toNat ∧ row.leafHash = tree.leaf i) (check : Bool) :
    ∃ proof, (ingestAll deliveries).getInferredProof (tree.leaf i) slab check = some proof ∧
      proof.index = s.nonce.toNat ∧
      ∀ newLeaf, ∃ r roll', tree.slab.account.roll.setLeaf proof.root proof.leaf newLeaf
        proof.proofNodes (UInt32.ofNat proof.index.toNat) = (.ok r, roll') := by
  have hlogged := h.logged htree (by omega)
  have hholds := holds_ingestAll h htree hlogged hdeliveries
  have hnonce : ∀ w ∈ tree.slab.writes, ∀ s : LeafSchema Node Pubkey, w.2 = s.toNode →
      s.nonce.toNat = w.1 := fun w hw s hs => h.nonce_of_write htree hw hs
  obtain ⟨L, hrep, -⟩ := Bubblegum.Reachable.ledger h
  obtain ⟨lives, -, hshows⟩ := hrep.tree htree
  obtain rfl : s.nonce.toNat = i := (hshows.live hlive).2.1
  obtain ⟨ws', hws', -, hlast, -⟩ := exists_last_write
    (show treeAfter tree.slab.writes s.nonce.toNat ≠ EMPTY from
      fun hempty => s.toNode_ne_empty (hlive.symm.trans hempty))
  have hi : s.nonce.toNat < 2 ^ tree.depth := by
    rw [← hlast]
    exact lastPosition_lt hlogged.bound hws'
  -- a later event is that of a write
  obtain ⟨k, hmk, hk, hheld⟩ : ∃ k, m < k ∧ k ≤ tree.slab.writes.length ∧
      Ingested deliveries slab k := by
    obtain ⟨k, hmk, d, hd, hid, hk⟩ := hlater
    obtain ⟨x, hx, hname, hcall⟩ := hdeliveries d hd hid
    obtain ⟨ws, hws, hevent, -⟩ := h.call_eq hx hname hcall htree hlogged
    refine ⟨k, hmk, ?_, d, hd, hid, hk⟩
    rw [← hk, hevent]
    exact hws.length_le
  have hthree := hlogged.three_le
  obtain ⟨row, hmem, hrowTree, -, hrowHash⟩ := hrow
  obtain ⟨proof, hproof, hleaf, hindex, hnodes, hroot⟩ := getInferredProof_eq hholds hlogged.bound
    hnonce hlogged.depth_lt (by omega) hpos hmk hk hfirst hgap hheld hi
    ⟨row, hmem, hrowTree, hrowHash.trans hlive⟩ check
  refine ⟨proof, by rw [hlive, hproof], hindex, ?_⟩
  intro newLeaf
  have hD := hlogged.depth_lt
  have hpow := Nat.pow_lt_pow_right (a := 2) (by norm_num) hD
  have htoNat : (UInt32.ofNat s.nonce.toNat).toNat = s.nonce.toNat := by
    rw [UInt32.toNat_ofNat']
    exact Nat.mod_eq_of_lt (by omega)
  -- a leaf that is not empty lies before the first free position
  have hle : UInt32.ofNat s.nonce.toNat ≤ tree.slab.account.roll.rightmostProof.index := by
    rw [UInt32.le_iff_toNat_le, htoNat]
    by_contra hlt
    exact s.toNode_ne_empty (hlive.symm.trans
      (hlogged.inv.rightmost.empty _ (not_le.1 hlt).le hi))
  have hsize := tree.size.pos
  have hsequence := hlogged.sequence_eq
  have hset := hlogged.inv.setLeaf_inferred (g := tree.slab.writes.length - m) (by omega)
    (Nat.sub_le _ _) (by omega) (i := UInt32.ofNat s.nonce.toNat) (by rw [htoNat]; exact hi) hle
    ?_ newLeaf
  · rw [htoNat] at hset
    rw [hleaf, hindex, hnodes, hroot, Int.toNat_natCast, ← hlive]
    exact hset
  · intro m' hm' hposition
    rw [ConcurrentMerkleTree.position_of_lt (by rw [htoNat]; exact hi),
      ConcurrentMerkleTree.position_of_lt (hlogged.log_index m' hm')] at hposition
    exact UInt32.toNat_inj.1 hposition

end Run

/-! ### Two mints and a transfer -/

section Trace

open Bubblegum (Instruction Key Reachable)
open Bubblegum.Trace (alice bob creator creatorHash dataHash mintHistory mintV1 slab)
open ConcurrentMerkleTree (Term)

/-- The second asset of the trace. -/
def secondAsset : LeafSchema Term Key :=
  .newV0 (Bubblegum.getAssetId slab 1) alice alice 1 dataHash creatorHash

/-- The accounts after a second mint. -/
def mintedTwice : State Term Key := (Bubblegum.Trace.minted.after [creator] mintV1).2

/-- The second mint. -/
def secondMint : Executed Term Key := Bubblegum.Trace.minted.executed [creator] mintV1

theorem reachable_mintedTwice : Reachable (secondMint :: mintHistory) mintedTwice :=
  .step Bubblegum.Trace.reachable_minted (State.takes_after trivial (by decide +kernel))

/-- The first asset goes to another owner. -/
def sale : Instruction Term Key :=
  .transfer slab alice alice bob (mintedTwice.root slab) dataHash creatorHash 0 0
    [secondAsset.toNode]

/-- The accounts after the transfer. -/
def sold : State Term Key := (mintedTwice.after [alice] sale).2

/-- The instructions up to the transfer. -/
def saleHistory : List (Executed Term Key) :=
  mintedTwice.executed [alice] sale :: secondMint :: mintHistory

theorem reachable_sold : Reachable saleHistory sold :=
  .step reachable_mintedTwice (State.takes_after trivial (by decide +kernel))

example : sold.leaf slab 0 = some (assetOf bob).toNode ∧
    sold.leaf slab 1 = some secondAsset.toNode := by
  decide +kernel

theorem tree?_of_mem_saleHistory {x : Executed Term Key} (hx : x ∈ saleHistory) :
    x.instruction.tree? = some slab := by
  simp only [saleHistory, mintHistory, List.mem_cons, List.not_mem_nil, or_false] at hx
  rcases hx with rfl | rfl | rfl | rfl <;> rfl

/-- The event of the second mint is missing: the root of the proof is none that the tree had, and
the chain takes it. -/
theorem getInferredProof_accepted_sold :
    let deliveries := [mintedTwice.executed [alice] sale,
      Bubblegum.Trace.created.executed [creator] mintV1].filterMap (deliveryOf 1 "")
    ∃ tree proof, sold.trees slab = some tree ∧
      (ingestAll deliveries).getInferredProof (assetOf bob).toNode slab true = some proof ∧
      proof.root ∉ [Bubblegum.Trace.created, Bubblegum.Trace.minted, mintedTwice, sold].map
        (fun st => st.root slab) ∧
      ∀ newLeaf, ∃ r roll', tree.slab.account.roll.setLeaf proof.root proof.leaf newLeaf
        proof.proofNodes 0 = (.ok r, roll') := by
  intro deliveries
  have hfacts : (sold.trees slab).map (fun tree => (tree.leaf 0,
      tree.slab.account.roll.sequenceNumber, tree.bufferSize)) =
      some ((assetOf bob).toNode, 3, 8) := by decide +kernel
  obtain ⟨tree, htree⟩ : ∃ tree, sold.trees slab = some tree :=
    Option.isSome_iff_exists.1 (by decide +kernel)
  rw [htree] at hfacts
  obtain ⟨hlive, hfacts⟩ := Prod.mk.inj (Option.some.inj hfacts)
  obtain ⟨hseq, hbuffer⟩ := Prod.mk.inj hfacts
  have hdeliveries : FromHistory deliveries slab saleHistory := by
    rintro d hd -
    obtain ⟨x, hx, hdelivery⟩ := List.mem_filterMap.1 hd
    have hmem : x ∈ saleHistory := by
      simp only [List.mem_cons, List.not_mem_nil, or_false] at hx
      rcases hx with rfl | rfl <;> simp [saleHistory, mintHistory]
    exact ⟨x, hmem, tree?_of_mem_saleHistory hmem, call_of_deliveryOf hdelivery⟩
  have hingested : Ingested deliveries slab 1 ∧ ¬ Ingested deliveries slab 2 ∧
      Ingested deliveries slab 3 := by
    unfold Ingested
    decide +kernel
  have hrow : ∃ row ∈ (ingestAll deliveries).leafSchema, row.treeId = slab ∧ row.nonce = 0 ∧
      row.leafHash = (assetOf bob).toNode := by decide +kernel
  obtain ⟨proof, hproof, hindex, hset⟩ := getInferredProof_accepted reachable_sold htree
    (by omega) hdeliveries le_rfl (fun seq hpos hle => by
      obtain rfl : seq = 1 := by omega
      exact hingested.1) hingested.2.1 ⟨3, by norm_num, hingested.2.2⟩ (by omega) hlive
    (by rw [hlive]; exact hrow) true
  rw [hlive] at hproof
  refine ⟨tree, proof, htree, hproof, ?_, ?_⟩
  · have hroot : ((ingestAll deliveries).getInferredProof (assetOf bob).toNode slab true).map
        Proof.root ∉ [Bubblegum.Trace.created, Bubblegum.Trace.minted, mintedTwice, sold].map
          (fun st => some (st.root slab)) := by decide +kernel
    rw [hproof] at hroot
    simpa using hroot
  · rw [hindex] at hset
    exact hset

/-- The first event is missing: nothing is inferred, for the second asset has no proof. -/
theorem getInferredProof_without_first :
    let deliveries := [secondMint].filterMap (deliveryOf 1 "")
    Reachable (secondMint :: mintHistory) mintedTwice ∧
      FromHistory deliveries slab (secondMint :: mintHistory) ∧
      ¬ Ingested deliveries slab 1 ∧ Ingested deliveries slab 2 ∧
      (∃ row ∈ (ingestAll deliveries).leafSchema, row.treeId = slab ∧ row.nonce = 1 ∧
        row.leafHash = secondAsset.toNode) ∧
      ∃ tree, mintedTwice.trees slab = some tree ∧ tree.leaf 1 = secondAsset.toNode ∧
        tree.slab.account.roll.sequenceNumber - 0 ≤ tree.bufferSize - 1 ∧
        (ingestAll deliveries).getInferredProof (tree.leaf 1) slab true = none := by
  intro deliveries
  have hfacts : (mintedTwice.trees slab).map (fun tree => (tree.leaf 1,
      tree.slab.account.roll.sequenceNumber, tree.bufferSize)) =
      some (secondAsset.toNode, 2, 8) := by decide +kernel
  obtain ⟨tree, htree⟩ : ∃ tree, mintedTwice.trees slab = some tree :=
    Option.isSome_iff_exists.1 (by decide +kernel)
  rw [htree] at hfacts
  obtain ⟨hlive, hfacts⟩ := Prod.mk.inj (Option.some.inj hfacts)
  obtain ⟨hseq, hbuffer⟩ := Prod.mk.inj hfacts
  have hingested : ¬ Ingested deliveries slab 1 ∧ Ingested deliveries slab 2 := by
    unfold Ingested
    decide +kernel
  refine ⟨reachable_mintedTwice, ?_, hingested.1, hingested.2, by decide +kernel, tree, htree, hlive,
    by omega, by rw [hlive]; decide +kernel⟩
  rintro d hd -
  obtain ⟨x, hx, hdelivery⟩ := List.mem_filterMap.1 hd
  obtain rfl := List.mem_singleton.1 hx
  exact ⟨secondMint, List.mem_cons_self, rfl, call_of_deliveryOf hdelivery⟩

end Trace

end Candyland.Sdk.Indexer
