import Candyland.ConcurrentMerkleTree.StaleProofs

/-!
# Proofs with siblings of an earlier tree

A proof of the current leaf with siblings from before the last writes.  Its root is none that the
tree ever had, as a rule, and then the fallback of `check_valid_leaf` replays all retained change
logs but the oldest.  This brings the siblings up to date when they are not older than these.
-/

namespace Candyland.ConcurrentMerkleTree

open MerkleTree (after sibling)

variable {Node : Type} [NodeHash Node] [DecidableEq Node] {D B : ℕ} [hB : BufferSize B]
  {roll : MerkleRoll Node D B} {ws : List (ℕ × Node)} {g k : ℕ}

/-- Replaying at least the writes that the siblings lack makes a proof of the current leaf
valid. -/
theorem RingInv.checkReplay_current_leaf [CollisionFree Node]
    (h : RingInv (fun _ => EMPTY) roll ws) (hD0 : 0 < D) (hgk : g ≤ k) (hk : k ≤ ws.length)
    (hkB : k ≤ B) {leafIndex : UInt32}
    (halias : ∀ m < k, position D leafIndex = position D (roll.log m).index →
      leafIndex = (roll.log m).index)
    {proof : Vector Node D} (hproof : ∀ l < D, levels proof l =
      sibling hashv (treeAfter (ws.drop g)) (position D leafIndex) l) :
    ∃ proof', roll.checkReplay (treeAfter ws (position D leafIndex)) proof leafIndex k =
      .ok (true, proof') := by
  obtain ⟨proof', -, hcheck⟩ := h.checkReplay_eq (treeAfter ws (position D leafIndex)) (.inl hD0)
    hk hkB halias hproof
  have hleaf : (MerkleTree.replay hashv (fun _ => EMPTY) ws (position D leafIndex) k
      (sibling hashv (treeAfter (ws.drop g)) (position D leafIndex),
        treeAfter ws (position D leafIndex))).2 = treeAfter ws (position D leafIndex) := by
    rw [MerkleTree.replay_snd, ite_self]
  have hsiblings : ∀ l < D, (MerkleTree.replay hashv (fun _ => EMPTY) ws (position D leafIndex) k
      (sibling hashv (treeAfter (ws.drop g)) (position D leafIndex),
        treeAfter ws (position D leafIndex))).1 l =
        sibling hashv (treeAfter ws) (position D leafIndex) l := by
    intro l _
    rw [MerkleTree.replay_fst]
    split_ifs with hwrite
    · rfl
    · -- no write since then lies beside the path at this level
      refine (MerkleTree.sibling_after_drop hashv fun w hw hsplits => hwrite ⟨w, ?_, hsplits⟩).symm
      exact List.take_subset_take_left _ hgk hw
  rw [if_pos hleaf, decide_eq_true ⟨rfl, hsiblings⟩] at hcheck
  exact ⟨proof', hcheck⟩

/-- The current leaf with the siblings of `g` writes ago, and the root that they lead to, pass the
check when the ring has more slots than that. -/
theorem RingInv.checkValidLeaf_inferred [hH : CollisionFree Node]
    (h : RingInv (fun _ => EMPTY) roll ws) (hD0 : 0 < D) (hg : g ≤ ws.length) (hgB : g < B)
    {leafIndex : UInt32} (hi : leafIndex.toNat < 2 ^ D)
    (halias : ∀ m < roll.bufferSize, position D leafIndex = position D (roll.log m).index →
      leafIndex = (roll.log m).index)
    {proof : Vector Node D} (hproof : ∀ l < D, levels proof l =
      sibling hashv (treeAfter (ws.drop g)) leafIndex.toNat l) :
    ∃ proof', roll.checkValidLeaf
      (MerkleTree.climb hashv (treeAfter ws leafIndex.toNat)
        (sibling hashv (treeAfter (ws.drop g)) leafIndex.toNat) leafIndex.toNat D)
      (treeAfter ws leafIndex.toNat) proof leafIndex true = .ok (true, proof') := by
  have hpos : position D leafIndex = leafIndex.toNat := position_of_lt hi
  have hsize := h.size
  rw [← hpos] at hproof
  rcases roll.exists_youngest (MerkleTree.climb hashv (treeAfter ws leafIndex.toNat)
    (sibling hashv (treeAfter (ws.drop g)) leafIndex.toNat) leafIndex.toNat D) with hno | ⟨k, hk, hroot, hyoung⟩
  · -- the root is unknown, so it is not the current one
    have hg0 : g ≠ 0 := by
      rintro rfl
      refine hno 0 h.size_pos ?_
      rw [h.log_root h.size_pos, List.drop_zero, MerkleTree.climb_sibling_root hashv _ hi]
    rw [roll.checkValidLeaf_of_not_found h.pow h.size_le h.size_pos hno, if_pos rfl,
      if_neg (by omega), ← hpos]
    refine h.checkReplay_current_leaf hD0 (by omega) (by omega) (by omega) ?_ hproof
    exact fun m hm => halias m (by omega)
  · -- the root is that of a tree with this leaf and these siblings
    rw [h.log_root hk] at hroot
    obtain ⟨-, hsiblings⟩ := MerkleTree.climb_eq_root hH.hashv_inj hi hroot.symm
    rw [roll.checkValidLeaf_of_found h.pow h.size_le hk ((h.log_root hk).trans hroot) hyoung,
      ← hpos]
    refine h.checkReplay_current_leaf hD0 le_rfl (by omega) (by omega) ?_ ?_
    · exact fun m hm => halias m (by omega)
    · intro l hl
      rw [hproof l hl, hpos]
      exact hsiblings l hl

/-- `set_leaf` takes such a proof. -/
theorem Inv.setLeaf_inferred [CollisionFree Node] (h : Inv (fun _ => EMPTY) roll ws) (hD0 : 0 < D)
    (hg : g ≤ ws.length) (hgB : g < B) {i : UInt32} (hi : i.toNat < 2 ^ D)
    (hle : i ≤ roll.rightmostProof.index)
    (halias : ∀ m < roll.bufferSize, position D i = position D (roll.log m).index →
      i = (roll.log m).index) (w : Node) :
    ∃ r roll', roll.setLeaf
      (MerkleTree.climb hashv (treeAfter ws i.toNat)
        (sibling hashv (treeAfter (ws.drop g)) i.toNat) i.toNat D)
      (treeAfter ws i.toNat) w (siblings D (treeAfter (ws.drop g)) i.toNat) i = (.ok r, roll') := by
  obtain ⟨proof, hfill, hproof⟩ := fillInProof_siblings D (treeAfter (ws.drop g)) i.toNat
  obtain ⟨proof', hcheck⟩ := h.checkValidLeaf_inferred hD0 hg hgB hi halias hproof
  rw [MerkleRoll.setLeaf_eq (checkBounds_iff.2 ⟨h.depth, h.pow⟩) _ _ _ hfill hle]
  exact MerkleRoll.tryApplyProof_isOk h.depth (fun _ => ⟨hD0, hle⟩) hcheck w

end Candyland.ConcurrentMerkleTree
