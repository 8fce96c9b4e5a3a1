import Candyland.ConcurrentMerkleTree.Symbolic

/-!
# The roll refines an array of leaves

What the roll is for: it is an array of `2 ^ D` leaves, all empty at first, of which
only the root is published.  A call writes one leaf or fails and does nothing; what a
failed check, a stale proof or a conflict does inside the roll does not show.

The second part is soundness: whatever root, proof and index somebody makes up, only
the leaves of the current tree are accepted.
-/

namespace Candyland.ConcurrentMerkleTree

variable {Node : Type} [NodeHash Node] [DecidableEq Node] {D B : ℕ} [hB : BufferSize B]

/-- One call with the given outcome, seen on the array `T`: the leaf `i` is overwritten
with `w` and the new root is returned and published, or nothing happens. -/
def ArrayStep (D : ℕ) (T : ℕ → Node) (i : ℕ) (w : Node) (roll roll' : MerkleRoll Node D B) :
    Outcome CMTError Node → Prop
  | .ok r =>
    i < 2 ^ D ∧ r = MerkleTree.root hashv D (Function.update T i w) ∧
      roll'.getChangeLog.root = MerkleTree.root hashv D (Function.update T i w) ∧
      roll'.rightmostProof.index.toNat =
        if i = roll.rightmostProof.index.toNat then roll.rightmostProof.index.toNat + 1
        else roll.rightmostProof.index.toNat
  | .err _ => roll' = roll
  | .panic => True

/-- In a run with indices of the tree, every call is a step of the array, and the run
goes on with the array that the step leaves behind. -/
theorem exec_arrayStep [CollisionFree Node] {roll roll' : MerkleRoll Node D B}
    {ws : List (ℕ × Node)} (hrun : Run (fun _ c => c.IndexBelow D) roll ws) {c : Call Node}
    (hc : c.IndexBelow D) {out : Outcome CMTError Node} (hexec : c.exec roll = (out, roll')) :
    ArrayStep D (treeAfter ws) (c.target roll).toNat c.leaf roll roll' out ∧
      ∀ r, out = .ok r →
        Run (fun _ c => c.IndexBelow D) roll' (((c.target roll).toNat, c.leaf) :: ws) := by
  have hinv := hrun.inv
  cases out with
  | ok r =>
    have hlt := hinv.target_lt hc hexec
    have hwritten := hinv.exec_ok hexec
    rw [← position_of_lt hlt]
    refine ⟨⟨position_lt D _, hwritten.result, hwritten.inv.current_root, ?_⟩, fun _ _ => ?_⟩
    · exact hwritten.rightmost_index
    · exact .ok hrun hc hexec
  | err e => exact ⟨Call.exec_err hexec, fun r h => absurd h (by simp)⟩
  | panic => exact ⟨trivial, fun r h => absurd h (by simp)⟩

/-- A `fill_empty_or_append` that comes too late for its index appends instead. -/
theorem exec_arrayStep_conflict :
    let st := appended 2
    let T := treeAfter (st.2.drop 1)
    let c := Call.fillEmptyOrAppend (MerkleTree.root hashv 3 T) (Term.leaf 3) (siblings 3 T 1) 1
    ArrayStep 3 (treeAfter st.2) 2 (.leaf 3) st.1 (c.exec st.1).2
      (.ok (MerkleTree.root hashv 3 (Function.update (treeAfter st.2) 2 (.leaf 3)))) := by
  intro st T c
  have hrun : Run (fun _ c => c.IndexBelow 3) st.1 st.2 := run_appended (fun _ _ => trivial) 2
  have htarget : (c.target st.1).toNat = 2 := by decide +kernel
  have hexec : c.exec st.1 = (.ok (MerkleTree.root hashv 3
      (Function.update (treeAfter st.2) 2 (.leaf 3))), (c.exec st.1).2) :=
    Prod.ext (by decide +kernel) rfl
  have hbelow : c.IndexBelow 3 := by decide
  have hstep := (exec_arrayStep hrun hbelow hexec).1
  rw [htarget] at hstep
  exact hstep

/-! ### No forged leaf -/

/-- Whatever is accepted at an index of the tree is the leaf there, and
`fill_empty_or_append` fills empty leaves only. -/
theorem accepted_leaf_current [CollisionFree Node] {roll : MerkleRoll Node D B}
    {ws : List (ℕ × Node)} (hrun : Reachable roll ws) (currentRoot v w : Node)
    (proofVec : List Node) {index : UInt32} (hindex : index.toNat < 2 ^ D) :
    roll.getChangeLog.root = MerkleTree.root hashv D (treeAfter ws) ∧
      (∀ r roll', roll.proveLeaf currentRoot v proofVec index = (.ok r, roll') →
        treeAfter ws index.toNat = v) ∧
      (∀ r roll', roll.setLeaf currentRoot v w proofVec index = (.ok r, roll') →
        treeAfter ws index.toNat = v) ∧
      ∀ r roll', roll.fillEmptyOrAppend currentRoot w proofVec index = (.ok r, roll') →
        roll'.getChangeLog.index = index → treeAfter ws index.toNat = EMPTY := by
  have hinv := hrun.inv
  have hpos := position_of_lt hindex
  refine ⟨hinv.current_root, fun r roll' hok => ?_, fun r roll' hok => ?_, fun r roll' hok hwrite => ?_⟩
  · rw [← hpos]
    exact (hinv.proveLeaf_ok hok).1.symm
  · rw [← hpos]
    exact (hinv.setLeaf_ok hok).1.symm
  · have hfill := hinv.fillEmptyOrAppend_ok hok
    split_ifs at hfill with hconf
    · -- a conflict appends at the first free position, which is empty
      obtain ⟨hwritten, hlt⟩ := hfill
      have heq : roll.rightmostProof.index = index := hwritten.log_index.symm.trans hwrite
      rw [← heq]
      exact hinv.rightmost.empty _ le_rfl hlt
    · rw [← hpos]
      exact hfill.1.symm

/-- A proof from before the last write, shortened by its empty nodes. -/
theorem accepted_leaf_current_stale :
    let st := appended 3
    let T := treeAfter (st.2.drop 1)
    (st.1.proveLeaf (MerkleTree.root hashv 3 T) (.leaf 1) ((siblings 3 T 0).take 1) 0).1 = .ok EMPTY ∧
      treeAfter st.2 0 = .leaf 1 := by
  intro st T
  have hrun : Reachable st.1 st.2 := run_appended (fun _ _ => trivial) 3
  have hok : st.1.proveLeaf (MerkleTree.root hashv 3 T) (.leaf 1) ((siblings 3 T 0).take 1) 0 =
      (.ok EMPTY, st.1) := Prod.ext (by decide +kernel) (by decide +kernel)
  obtain ⟨-, hprove, -⟩ := accepted_leaf_current hrun (MerkleTree.root hashv 3 T) (.leaf 1)
    EMPTY ((siblings 3 T 0).take 1) (show (0 : UInt32).toNat < 2 ^ 3 by decide)
  exact ⟨by rw [hok], hprove _ _ hok⟩

end Candyland.ConcurrentMerkleTree
