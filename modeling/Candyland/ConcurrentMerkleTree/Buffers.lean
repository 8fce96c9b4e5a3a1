import Candyland.ConcurrentMerkleTree.AppendAsWrite
import Candyland.ConcurrentMerkleTree.IndexBound
import Candyland.ConcurrentMerkleTree.Push

/-!
# What the two buffers hold

A roll keeps two things of its tree: the ring of change logs and the rightmost path.  Here the
invariant is read off along a run, in the words of the program: the counters as functions of the
number of updates, each retained change log as the root and the path of its update, and the
rightmost path as the proof of the last leaf.
-/

namespace Candyland.ConcurrentMerkleTree

open CircularBuffer (back next)
open MerkleTree (after sibling)

variable {Node : Type} [NodeHash Node] [DecidableEq Node] {D B : ℕ} [hB : BufferSize B]
  {roll : MerkleRoll Node D B} {ws : List (ℕ × Node)}

/-! ### The ring of change logs -/

/-- `sequence_number` counts the updates; a `u64` holds the count up to its maximum. -/
theorem Run.sequenceNumber_eq [CollisionFree Node] {P : MerkleRoll Node D B → Call Node → Prop}
    (hrun : Run P roll ws) (hlen : ws.length < 2 ^ 64) : roll.sequenceNumber = ws.length := by
  induction hrun with
  | init h => exact (initializeRoll_eq h).2.1
  | @ok roll roll' ws c r hrun _ hok ih =>
    rw [List.length_cons] at hlen
    rw [(hrun.inv.exec_ok hok).sequence, ih (by omega), List.length_cons]
    omega
  | err _ h ih =>
    rw [Call.exec_err h]
    exact ih hlen

/-- Every update advances `active_index` by one around the ring. -/
theorem Run.activeIndex_eq [CollisionFree Node] {P : MerkleRoll Node D B → Call Node → Prop}
    (hrun : Run P roll ws) : (roll.activeIndex : ℕ) = ws.length % B := by
  induction hrun with
  | init h =>
    rw [MerkleRoll.initializeRoll] at h
    split_ifs at h
    · obtain ⟨-, rfl⟩ := Prod.mk.inj h
      exact (Nat.zero_mod B).symm
    · exact absurd (Prod.mk.inj h).1 (by simp)
  | @ok roll _ ws _ _ hrun _ hok ih =>
    have hnext : ((next roll.activeIndex : Fin B) : ℕ) = (roll.activeIndex + 1) % B := rfl
    rw [(Call.exec_pushed hok).active, mask_succ hrun.inv.pow, hnext, ih, Nat.mod_add_mod,
      List.length_cons]
  | err _ h ih =>
    rw [Call.exec_err h]
    exact ih

/-- A retained change log has the root after its update, the index that the update wrote and the
nodes from that leaf upward. -/
structure ChangeLog.Describes (changeLog : ChangeLog Node D) (ws : List (ℕ × Node)) : Prop where
  root_eq : changeLog.root = MerkleTree.root hashv D (treeAfter ws)
  index_eq : ∀ w ∈ ws.head?, changeLog.index.toNat = w.1
  path_eq : ∀ w ∈ ws.head?, ∀ l (hl : l < D),
    changeLog.path[l] = MerkleTree.node hashv (treeAfter ws) l (w.1 / 2 ^ l)

/-- In a run with indices of the tree, the change log of age `k` describes the update that `k`
others followed. -/
theorem Run.log_describes [CollisionFree Node] (hrun : Run (fun _ c => c.IndexBelow D) roll ws)
    {k : ℕ} (hk : k < roll.bufferSize) : (roll.log k).Describes (ws.drop k) := by
  have hinv := hrun.inv
  have hkB : k < B := hk.trans_le hinv.size_le
  have hindex := ((hrun.mono (Q := fun roll c => c.Guarded roll) fun _ _ => .inr).log_index k hk).2
  have hhead : ∀ w ∈ (ws.drop k).head?, ∃ h : k < ws.length, ws[k] = w := by
    intro w hw
    rw [List.head?_drop] at hw
    exact List.getElem?_eq_some_iff.1 hw
  refine ⟨hinv.log_root hk, fun w hw => ?_, fun w hw => ?_⟩
  · obtain ⟨hlt, rfl⟩ := hhead w hw
    exact hindex hlt
  · obtain ⟨hlt, rfl⟩ := hhead w hw
    exact (hinv.log_records hlt hkB).path_eq

/-- The state of the ring after `n` updates with indices of the tree, and that a failed call leaves
it as it is. -/
theorem changeLogs_after [CollisionFree Node] (hrun : Run (fun _ c => c.IndexBelow D) roll ws)
    (hlen : ws.length < 2 ^ 64) :
    roll.sequenceNumber = ws.length ∧ (roll.activeIndex : ℕ) = ws.length % B ∧
      roll.bufferSize = min (ws.length + 1) B ∧
      (∀ k < roll.bufferSize, ∀ j : Fin B,
        ((j : ℕ) : ℤ) = ((roll.activeIndex : ℕ) - k : ℤ) % B →
          roll.changeLogs[j].Describes (ws.drop k)) ∧
      ∀ (c : Call Node) (e : CMTError) (roll' : MerkleRoll Node D B),
        c.exec roll = (.err e, roll') → roll' = roll := by
  refine ⟨hrun.sequenceNumber_eq hlen, hrun.activeIndex_eq, hrun.inv.size, ?_,
    fun c e roll' herr => Call.exec_err herr⟩
  intro k hk j hj
  rw [← CircularBuffer.back_eq_emod, Int.natCast_inj, ← Fin.ext_iff] at hj
  rw [hj]
  exact hrun.log_describes hk

/-- Eight appends go once around a ring of eight; three slots back from the cursor is slot `5`. -/
theorem changeLogs_after_eight :
    (appended 8).1.sequenceNumber = 8 ∧ ((appended 8).1.activeIndex : ℕ) = 0 ∧
      (appended 8).1.changeLogs[5].Describes ((appended 8).2.drop 3) := by
  have hbelow : ∀ (node : Term) (_ : MerkleRoll Term 3 8), (Call.append node).IndexBelow 3 :=
    fun _ _ => trivial
  have hlength : (appended 8).2.length = 8 := by decide +kernel
  obtain ⟨hseq, hactive, hsize, hlogs, -⟩ :=
    changeLogs_after (run_appended hbelow 8) (by rw [hlength]; decide)
  rw [hlength] at hseq hactive hsize
  refine ⟨hseq, hactive, hlogs 3 (by rw [hsize]; decide) 5 ?_⟩
  rw [hactive]
  decide

/-! ### The rightmost path -/

/-- With `T` the leaves and `n` the first free position: from `n` on all leaves are empty, the path
of an empty tree is made of empty nodes, and otherwise, unless the tree is full, the path is the
proof of leaf `n - 1` and leads to the current root. -/
theorem rightmostProof_eq [CollisionFree Node] (hrun : Reachable roll ws) :
    let T := treeAfter ws
    let path := roll.rightmostProof
    let n := path.index.toNat
    (∀ q, n ≤ q → q < 2 ^ D → T q = EMPTY) ∧
      (n = 0 → ∀ l (hl : l < D), path.proof[l] = emptyNode l) ∧
      (0 < n → n < 2 ^ D →
        path.leaf = T (n - 1) ∧ (∀ l (hl : l < D), path.proof[l] = sibling hashv T (n - 1) l) ∧
          recompute path.leaf path.proof (path.index - 1) = roll.getChangeLog.root) := by
  intro T path n
  have h := hrun.inv
  have hD : D < 31 := h.depth
  refine ⟨h.rightmost.empty, fun hn l hl => ?_, fun hpos hlt => ?_⟩
  · have hproof := h.rightmost.proof_eq (show n < 2 ^ D by rw [hn]; positivity) l hl
    rw [levels_of_lt _ hl, show path.index.toNat - 1 = 0 by omega] at hproof
    rw [hproof, emptyNode_eq_uniform]
    refine MerkleTree.node_eq_uniform hashv fun q hq => h.rightmost.empty q (hn.trans_le q.zero_le) ?_
    exact Bits.lt_of_div_eq_xor_one hq (Nat.two_pow_pos D) hl
  · have hpred : position D (path.index - 1) = n - 1 := by
      rw [position_of_lt (by rw [toNat_sub_one hpos]; omega), toNat_sub_one hpos]
    have hleaf := h.rightmost.leaf_eq hpos hlt
    have hproof := h.rightmost.proof_eq hlt
    refine ⟨hleaf, fun l hl => ?_, ?_⟩
    · rw [← levels_of_lt _ hl, hproof l hl]
    · rw [hleaf, ← hpred, recompute_siblings (by omega) (by rwa [hpred]), h.current_root]

/-- After three appends the path is that of the leaf at position `2`. -/
theorem rightmostProof_eq_three :
    recompute (appended 3).1.rightmostProof.leaf (appended 3).1.rightmostProof.proof 2 =
      (appended 3).1.getChangeLog.root := by
  have hindex : (appended 3).1.rightmostProof.index = 3 := by decide +kernel
  have h := (rightmostProof_eq (run_appended (P := fun _ _ => True) (fun _ _ => trivial) 3)).2.2
  rw [hindex] at h
  exact (h (by decide) (by decide)).2.2

end Candyland.ConcurrentMerkleTree
