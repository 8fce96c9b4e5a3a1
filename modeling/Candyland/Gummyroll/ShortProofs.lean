import Candyland.Gummyroll.Completion
import Candyland.ConcurrentMerkleTree.AppendAsWrite

/-!
# Shortened proofs

`fill_in_proof` lets a client leave out the upper nodes of a proof as long as they are empty nodes.
The canopy is appended behind the nodes that were sent, however.  With a canopy the shortened proof
has the cached nodes on the wrong levels, and no client can leave out anything below the canopy.
-/

namespace Candyland.Gummyroll

open ConcurrentMerkleTree
open MerkleTree (sibling)

variable {Node Pubkey : Type} [NodeHash Node] [DecidableEq Node] {D B c : ℕ} [hB : BufferSize B]

omit [DecidableEq Node] in
/-- Nodes that are left out at the end are filled in if they are empty nodes. -/
theorem fillInProof_take {T : ℕ → Node} {i m : ℕ} (hm : m ≤ D)
    (hempty : ∀ l, m ≤ l → l < D → sibling hashv T i l = emptyNode l) :
    fillInProof D ((siblings D T i).take m) = fillInProof D (siblings D T i) := by
  have hlen : (siblings D T i).length = D := by simp [siblings]
  have hlen' : ((siblings D T i).take m).length = m := by
    rw [List.length_take, hlen, min_eq_left hm]
  rcases hshort : fillInProof D ((siblings D T i).take m) with _ | short
  · exact absurd (fillInProof_eq_none.1 hshort) (by omega)
  · obtain ⟨full, hfull, hlevels⟩ := fillInProof_siblings D T i
    rw [hfull]
    congr 1
    refine vector_eq_of_levels fun l hl => ?_
    rw [hlevels l hl, levels_of_lt _ hl, fillInProof_getElem hshort hl]
    split_ifs with hlt
    · simp [siblings]
    · exact (hempty l (by omega) hl).symm

/-- The roll sees a proof only after it was filled in. -/
theorem calls_eq_of_fill (roll : MerkleRoll Node D B) {proofVec proofVec' : List Node}
    (h : fillInProof D proofVec = fillInProof D proofVec') (index : UInt32) :
    (∀ root previousLeaf newLeaf, roll.setLeaf root previousLeaf newLeaf proofVec index =
        roll.setLeaf root previousLeaf newLeaf proofVec' index) ∧
      (∀ root leaf, roll.fillEmptyOrAppend root leaf proofVec index =
        roll.fillEmptyOrAppend root leaf proofVec' index) ∧
      ∀ root leaf, roll.proveLeaf root leaf proofVec index =
        roll.proveLeaf root leaf proofVec' index := by
  refine ⟨fun root previousLeaf newLeaf => ?_, fun root leaf => ?_, fun root leaf => ?_⟩
  · rw [MerkleRoll.setLeaf, MerkleRoll.setLeaf, h]
  · rw [MerkleRoll.fillEmptyOrAppend, MerkleRoll.fillEmptyOrAppend, h]
  · rw [MerkleRoll.proveLeaf, MerkleRoll.proveLeaf, h]

/-- For the current root nothing is replayed, and a proof with a wrong node does not pass. -/
theorem checkValidLeaf_of_ne [CollisionFree Node] {base : ℕ → Node} {roll : MerkleRoll Node D B}
    {ws : List (ℕ × Node)} (h : RingInv base roll ws) {index : UInt32} {proof : Vector Node D}
    {l : ℕ} (hl : l < D)
    (hne : levels proof l ≠ sibling hashv (MerkleTree.after base ws) (position D index) l)
    (leaf : Node) (allow : Bool) :
    roll.checkValidLeaf roll.getChangeLog.root leaf proof index allow = .ok (false, proof) := by
  have hD : D < 31 := h.depth
  have hroot : ¬ recompute leaf proof index = roll.getChangeLog.root := by
    rw [h.current_root, recompute_eq_root_iff (by omega)]
    exact fun hvalid => hne (hvalid.2 l hl)
  rw [roll.checkValidLeaf_of_found h.pow h.size_le h.size_pos
    (by rw [← MerkleRoll.getChangeLog_eq_log]) (fun m hm => absurd hm (Nat.not_lt_zero m)),
    MerkleRoll.checkReplay, MerkleRoll.replayLogs]
  simp only [if_true, hroot, decide_false]

omit [DecidableEq Node] hB in
/-- A write behind the first free position fails an assertion. -/
theorem updateBuffersFromProof_beyond {roll : MerkleRoll Node D B} (hD : D < 31) {index : UInt32}
    (hgt : roll.rightmostProof.index.toNat < index.toNat) (hi : index.toNat < 2 ^ D) (w : Node)
    (proof : Vector Node D) :
    ∃ roll', roll.updateBuffersFromProof w proof index = (.panic, roll') := by
  have hcap : roll.rightmostProof.index < capacity D := by
    rw [UInt32.lt_iff_toNat_lt, capacity_toNat hD]
    omega
  have hlt : ¬ index < roll.rightmostProof.index := by
    rw [UInt32.lt_iff_toNat_lt]
    omega
  have hne : index ≠ roll.rightmostProof.index := by
    rintro rfl
    exact lt_irrefl _ hgt
  rw [MerkleRoll.updateBuffersFromProof]
  dsimp only
  rw [if_pos hcap, if_neg hlt, if_neg hne]
  exact ⟨_, rfl⟩

section Instructions

variable [DecidableEq Pubkey] [Build]

omit hB [DecidableEq Pubkey] in
/-- The completion of a proof puts the same nodes behind whatever was sent. -/
theorem fillInProofFromCanopy_append (canopyBytes : Canopy Node) (maxDepth index : UInt32)
    (proof : List Node) :
    fillInProofFromCanopy canopyBytes maxDepth index proof =
      fillInProofFromCanopy canopyBytes maxDepth index [] >>= fun res =>
        .ok (res.1, proof ++ res.2) := by
  simp only [fillInProofFromCanopy, bind_assoc]
  rfl

/-- The instructions that check a proof of leaf `index` do with its first `m` siblings exactly what
they do with all siblings below the canopy. -/
def SameAsFull (account : Account Node Pubkey D B) (T : ℕ → Node) (c : ℕ) (index : UInt32) (m : ℕ) :
    Prop :=
  let short := (siblings D T index.toNat).take m
  let full := (siblings D T index.toNat).take (D - c)
  (∀ authority root previousLeaf newLeaf,
      account.replaceLeaf authority root previousLeaf newLeaf index short =
        account.replaceLeaf authority root previousLeaf newLeaf index full) ∧
    (∀ authority root leaf, account.insertOrAppend authority root leaf index short =
      account.insertOrAppend authority root leaf index full) ∧
    ∀ root leaf, account.verifyLeaf root leaf index short = account.verifyLeaf root leaf index full

variable {account : Account Node Pubkey D B} {ws : List (ℕ × Node)}
  {events : List (ChangeLogEvent Node Pubkey)} {index : UInt32} {m : ℕ}

/-- Without a canopy shortened proofs are completed by the roll. -/
theorem AccountInv.sameAsFull_of_zero [NonzeroHash Node] (h : AccountInv 0 account ws)
    (hi : index.toNat < 2 ^ D) (hm : m ≤ D)
    (hempty : ∀ l, m ≤ l → l < D → sibling hashv (treeAfter ws) index.toNat l = emptyNode l) :
    SameAsFull account (treeAfter ws) 0 index m := by
  obtain ⟨canopy', -, -, hfill⟩ := fillInProofFromCanopy_eq h.canopy h.trailing h.cached h.depth_lt
    h.depth_eq hi []
  have hfill' : ∀ proof, fillInProofFromCanopy account.canopy account.header.maxDepth index proof =
      .ok (canopy', proof) := by
    intro proof
    rw [fillInProofFromCanopy_append, hfill]
    simp
  have hfull : (siblings D (treeAfter ws) index.toNat).take (D - 0) =
      siblings D (treeAfter ws) index.toNat := List.take_of_length_le (by simp [siblings])
  obtain ⟨hset, hinsert, hprove⟩ := calls_eq_of_fill account.roll
    (fillInProof_take hm hempty) index
  rw [SameAsFull, hfull]
  refine ⟨fun authority root previousLeaf newLeaf => ?_, fun authority root leaf => ?_,
    fun root leaf => ?_⟩
  · simp only [Account.replaceLeaf, hfill', Outcome.ok_bind, merkleRollApplyFn, hset]
  · simp only [Account.insertOrAppend, hfill', Outcome.ok_bind, merkleRollApplyFn, hinsert]
  · simp only [Account.verifyLeaf, hfill', Outcome.ok_bind, merkleRollApplyFn, hprove]

omit hB [DecidableEq Pubkey] in
/-- With a canopy the cached nodes end up on the wrong levels of a shortened proof, where no node of
theirs can be. -/
theorem AccountInv.fill_short [CollisionFree Node] [NonzeroHash Node] (h : AccountInv c account ws)
    (hc : 0 < c) (hi : index.toNat < 2 ^ D) (hm : m < D - c)
    (hempty : sibling hashv (treeAfter ws) index.toNat m = emptyNode m) :
    ∃ canopy' proofVec proof, fillInProofFromCanopy account.canopy account.header.maxDepth index
        ((siblings D (treeAfter ws) index.toNat).take m) = .ok (canopy', proofVec) ∧
      fillInProof D proofVec = some proof ∧
      levels proof m ≠ sibling hashv (treeAfter ws) index.toNat m := by
  obtain ⟨canopy', -, -, hfill⟩ := fillInProofFromCanopy_eq h.canopy h.trailing h.cached h.depth_lt
    h.depth_eq hi ((siblings D (treeAfter ws) index.toNat).take m)
  have hcached := h.cached
  have hlen : ((siblings D (treeAfter ws) index.toNat).take m).length = m := by
    rw [List.length_take, siblings, List.length_map, List.length_range]
    omega
  rcases hproof : fillInProof D ((siblings D (treeAfter ws) index.toNat).take m ++
    (List.range' (D - c) c).map (sibling hashv (treeAfter ws) index.toNat)) with _ | proof
  · have hlong := fillInProof_eq_none.1 hproof
    rw [List.length_append, hlen, List.length_map, List.length_range'] at hlong
    omega
  · refine ⟨canopy', _, proof, hfill, hproof, ?_⟩
    -- on level `m` is the node from level `D - c`
    rw [levels_of_lt _ (by omega), fillInProof_getElem hproof (by omega), dif_pos (by
      rw [List.length_append, hlen, List.length_map, List.length_range']
      omega)]
    simp only [List.getElem_append_right hlen.le, hlen, Nat.sub_self, List.getElem_map,
      List.getElem_range', hempty, emptyNode_eq_uniform]
    exact MerkleTree.node_ne_uniform CollisionFree.hashv_inj NonzeroHash.hashv_ne_empty _
      (by omega) _

/-- A shortened proof is treated like the full one if and only if there is no canopy, or nothing was
left out. -/
theorem sameAsFull_iff [CollisionFree Node] [NonzeroHash Node]
    (hrun : AccountReachable c account ws events) (hi : index.toNat < 2 ^ D) (hm : m ≤ D - c)
    (hempty : ∀ l, m ≤ l → l < D - c → sibling hashv (treeAfter ws) index.toNat l = emptyNode l) :
    SameAsFull account (treeAfter ws) c index m ↔ c = 0 ∨ m = D - c := by
  have hinv := hrun.inv
  constructor
  · intro hsame
    by_contra hcond
    obtain ⟨hc, hne⟩ := not_or.1 hcond
    have hlt : m < D - c := lt_of_le_of_ne hm hne
    have hposition : position D index = index.toNat := position_of_lt hi
    obtain ⟨-, hinsert, hverify⟩ := hsame
    obtain ⟨canopy', -, -, hfill⟩ := fillInProofFromCanopy_eq hinv.canopy hinv.trailing hinv.cached
      hinv.depth_lt hinv.depth_eq hi ((siblings D (treeAfter ws) index.toNat).take (D - c))
    rw [siblings_take_append hinv.cached] at hfill
    obtain ⟨full, hfull, hlevels⟩ := fillInProof_siblings D (treeAfter ws) index.toNat
    obtain ⟨canopy'', proofVec, short, hfill', hshort, hwrong⟩ :=
      hinv.fill_short (Nat.pos_of_ne_zero hc) hi hlt (hempty m le_rfl hlt)
    have hvalid : ∀ allow, account.roll.checkValidLeaf account.roll.getChangeLog.root
        (treeAfter ws index.toNat) full index allow = .ok (true, full) := by
      have hhead := hinv.roll.checkValidLeaf_head (by rw [hposition]; exact hlevels)
      rwa [hposition] at hhead
    have hinvalid := checkValidLeaf_of_ne hinv.roll.toRingInv (show m < D by omega)
      (by rw [hposition]; exact hwrong)
    have hcheck : checkBounds D B = true := checkBounds_iff.2 ⟨hinv.depth_lt, hinv.roll.pow⟩
    by_cases hle : index ≤ account.roll.rightmostProof.index
    · -- `verify_leaf` accepts the full proof only
      have heq := hverify account.roll.getChangeLog.root (treeAfter ws index.toNat)
      simp only [Account.verifyLeaf, merkleRollGetSize, if_pos hinv.supported, hfill, hfill',
        Outcome.ok_bind, merkleRollApplyFn] at heq
      rw [account.roll.proveLeaf_eq hcheck _ _ hfull hle,
        account.roll.proveLeaf_eq hcheck _ _ hshort hle, hvalid, hinvalid] at heq
      exact absurd heq (by simp)
    · -- `insert_or_append` panics on the full proof only
      have hgt : account.roll.rightmostProof.index.toNat < index.toNat :=
        not_le.1 (UInt32.le_iff_toNat_le.not.1 hle)
      have hvacant : treeAfter ws index.toNat = EMPTY :=
        hinv.roll.rightmost.empty _ hgt.le hi
      rw [hvacant] at hvalid
      have hbeyond : account.roll.updateInternalCounters.rightmostProof.index.toNat < index.toNat := hgt
      obtain ⟨roll', hpanic⟩ := updateBuffersFromProof_beyond hinv.depth_lt hbeyond hi EMPTY full
      have heq := hinsert account.header.authority account.roll.getChangeLog.root EMPTY
      simp only [Account.insertOrAppend, merkleRollGetSize,
        if_pos hinv.supported, hfill, hfill', Outcome.ok_bind, merkleRollApplyFn,
        MerkleRoll.fillEmptyOrAppend, if_pos hcheck, hfull, hshort, MerkleRoll.tryApplyProof, hvalid,
        hinvalid, if_true, hpanic] at heq
      exact absurd heq (by simp [Outcome.assert])
  · rintro (rfl | rfl)
    · exact hinv.sameAsFull_of_zero hi hm hempty
    · exact ⟨fun _ _ _ _ => rfl, fun _ _ _ => rfl, fun _ _ => rfl⟩

end Instructions

/-- In a tree with two leaves the upper two siblings of leaf `0` are empty nodes.  Without a canopy
they need not be sent. -/
theorem sameAsFull_iff_two :
    let st := accountTrace 0 [.append 0 0 (.leaf 1), .append 0 0 (.leaf 2)]
    SameAsFull st.account (treeAfter st.writes) 0 0 1 := by
  intro st
  have hrun : AccountReachable 0 st.account st.writes st.events :=
    accountRun_trace (show 0 ≤ 3 by norm_num) fun _ _ _ => trivial
  refine (sameAsFull_iff hrun (by decide) (by norm_num) fun l hle hlt => ?_).2 (.inl rfl)
  interval_cases l <;> decide +kernel

/-- With a canopy of one level the sibling on level `1` must be sent although it is empty. -/
theorem short_proof_rejected :
    let st := accountTrace 1 [.append 0 0 (.leaf 1), .append 0 0 (.leaf 2)]
    let T := treeAfter st.writes
    let root := MerkleTree.root hashv 3 T
    AccountReachable 1 st.account st.writes st.events ∧ sibling hashv T 0 1 = emptyNode 1 ∧
      st.account.verifyLeaf root (.leaf 1) 0 ((siblings 3 T 0).take 2) =
        .ok (st.step (.verifyLeaf root (.leaf 1) 0 ((siblings 3 T 0).take 2))).account ∧
      st.account.verifyLeaf root (.leaf 1) 0 ((siblings 3 T 0).take 1) =
        .err .ConcurrentMerkleTreeError ∧
      st.account.replaceLeaf 0 root (.leaf 1) (.leaf 9) 0 ((siblings 3 T 0).take 1) =
        .err .ConcurrentMerkleTreeError := by
  intro st T root
  have hrun : AccountReachable 1 st.account st.writes st.events :=
    accountRun_trace (show 1 ≤ 3 by norm_num) fun _ _ _ => trivial
  exact ⟨hrun, by decide +kernel, by decide +kernel, by decide +kernel, by decide +kernel⟩

end Candyland.Gummyroll
