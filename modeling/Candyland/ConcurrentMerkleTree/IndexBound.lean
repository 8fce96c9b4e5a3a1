import Candyland.ConcurrentMerkleTree.Success
import Candyland.ConcurrentMerkleTree.Symbolic

/-!
# Indices beyond the tree

Only the low `D` bits of an index take part in hashing.  `set_leaf` and `prove_leaf`
compare the index with `rightmost_proof.index`, which keeps it below `2 ^ D` until the
tree is full; then `2 ^ D` itself passes.  `fill_empty_or_append` compares it on a
partial tree only, by the assertion in `update_buffers_from_proof`.
-/

namespace Candyland.ConcurrentMerkleTree

open MerkleTree (after)

variable {Node : Type} [NodeHash Node] [DecidableEq Node] {D B : ℕ} [hB : BufferSize B]

/-- The call has an index of the tree, or there is a free position left. -/
def Call.Guarded (roll : MerkleRoll Node D B) (c : Call Node) : Prop :=
  roll.rightmostProof.index.toNat < 2 ^ D ∨ c.IndexBelow D

/-- Every call that succeeds with this index has an index of the tree; an append on a
conflict does not use the index. -/
def MerkleRoll.IndexSafe (roll : MerkleRoll Node D B) (index : UInt32) : Prop :=
  ∀ (currentRoot leaf newLeaf : Node) (proofVec : List Node) (r : Node)
    (roll' : MerkleRoll Node D B),
    (roll.proveLeaf currentRoot leaf proofVec index = (.ok r, roll') → index.toNat < 2 ^ D) ∧
      (roll.setLeaf currentRoot leaf newLeaf proofVec index = (.ok r, roll') →
        index.toNat < 2 ^ D) ∧
      (roll.fillEmptyOrAppend currentRoot newLeaf proofVec index = (.ok r, roll') →
        roll.conflict currentRoot proofVec index = false → index.toNat < 2 ^ D)

/-! ### Stored indices -/

theorem Inv.guarded_target_lt [CollisionFree Node] {base : ℕ → Node}
    {roll roll' : MerkleRoll Node D B} {ws : List (ℕ × Node)} (h : Inv base roll ws)
    {c : Call Node} (hc : c.Guarded roll) {r : Node} (hok : c.exec roll = (.ok r, roll')) :
    (c.target roll).toNat < 2 ^ D := by
  rcases hc with hpart | hbelow
  · exact ((h.exec_ok hok).in_range hpart).trans_lt hpart
  · exact h.target_lt hbelow hok

/-- In a run of guarded calls every retained change log names the leaf that was
written. -/
theorem Run.log_index [CollisionFree Node] {roll : MerkleRoll Node D B} {ws : List (ℕ × Node)}
    (hrun : Run (fun roll c => c.Guarded roll) roll ws) :
    ∀ m < roll.bufferSize, (roll.log m).index.toNat < 2 ^ D ∧
      ∀ hm : m < ws.length, (roll.log m).index.toNat = ws[m].1 := by
  have hinv := hrun.inv
  induction hrun with
  | init h =>
    intro m hm
    obtain ⟨-, -, -, -, -, hindex⟩ := initializeRoll_eq h
    obtain rfl : m = 0 := by
      have := hinv.size
      simp only [List.length_nil] at this
      omega
    rw [hindex]
    exact ⟨by positivity, fun hm => absurd hm (by simp)⟩
  | @ok roll roll' ws c r hrun hP hok ih =>
    have hwritten := hrun.inv.exec_ok hok
    have hlt := hrun.inv.guarded_target_lt hP hok
    intro m hm
    cases m with
    | zero =>
      rw [← MerkleRoll.getChangeLog_eq_log, hwritten.log_index]
      exact ⟨hlt, fun _ => (position_of_lt hlt).symm⟩
    | succ m =>
      have hsize := hrun.inv.size
      have hsize' := hinv.size
      simp only [List.length_cons] at hsize'
      obtain ⟨hbound, hpos⟩ := ih hrun.inv m (by omega)
      rw [hwritten.log_succ m (by omega)]
      exact ⟨hbound, fun hm => hpos (by simpa using hm)⟩
  | err hrun h ih =>
    rw [Call.exec_err h]
    exact ih hrun.inv

example : (List.range 5).map (fun m => ((appended 5).1.log m).index) = [4, 3, 2, 1, 0] := by
  decide +kernel

/-- In such a run no change log carries another index of a leaf. -/
theorem Run.noAlias [CollisionFree Node] {roll : MerkleRoll Node D B} {ws : List (ℕ × Node)}
    (hrun : Run (fun roll c => c.Guarded roll) roll ws) {i : UInt32} (hi : i.toNat < 2 ^ D)
    (currentRoot : Node) : roll.NoAlias currentRoot i := by
  intro m hm _ hpos
  rw [position_of_lt hi, position_of_lt (hrun.log_index m hm).1] at hpos
  exact UInt32.toNat_inj.1 hpos

/-! ### Which indices are safe -/

/-- Indices below `2 ^ D` are the only ones that ever succeed, except on a full tree:
there `2 ^ D` is taken for leaf `0`, and `fill_empty_or_append` takes any index for the
leaf of its low bits if this is empty. -/
theorem Inv.indexSafe_iff [CollisionFree Node] {base : ℕ → Node} {roll : MerkleRoll Node D B}
    {ws : List (ℕ × Node)} (h : Inv base roll ws) (index : UInt32) :
    roll.IndexSafe index ↔ ¬ (roll.rightmostProof.index.toNat = 2 ^ D ∧
      (index.toNat = 2 ^ D ∨ 2 ^ D ≤ index.toNat ∧ after base ws (position D index) = EMPTY)) := by
  have hD : D < 31 := h.depth
  have hle := h.rightmost.le
  have hcheck : checkBounds D B = true := checkBounds_iff.2 ⟨h.depth, h.pow⟩
  obtain ⟨proof, hfill, hproof⟩ := fillInProof_siblings D (after base ws) (position D index)
  obtain ⟨proof₁, hvalid₁⟩ := h.checkValidLeaf_current index hproof true
  obtain ⟨proof₀, hvalid₀⟩ := h.checkValidLeaf_current index hproof false
  constructor
  · rintro hsafe ⟨hfull, hindex | ⟨hindex, hempty⟩⟩
    · -- the leaf at position `0` can be proved through `2 ^ D`
      have hidx : index ≤ roll.rightmostProof.index := UInt32.le_iff_toNat_le.2 (by omega)
      have hok := roll.proveLeaf_eq hcheck (MerkleTree.root hashv D (after base ws))
        (after base ws (position D index)) hfill hidx
      rw [hvalid₁] at hok
      have := (hsafe _ _ EMPTY _ _ _).1 hok
      omega
    · -- an empty leaf can be filled through any of its indices
      rw [hempty] at hvalid₀
      obtain ⟨r, roll', hok⟩ := MerkleRoll.tryApplyProof_isOk hD
        (fun hlt => absurd hlt (by omega)) hvalid₀ EMPTY
      have hconf : roll.conflict (MerkleTree.root hashv D (after base ws))
          (siblings D (after base ws) (position D index)) index = false := by
        rw [Bool.eq_false_iff, ne_eq, MerkleRoll.conflict_iff hfill, hvalid₀]
        simp
      have hres := roll.fillEmptyOrAppend_eq (MerkleTree.root hashv D (after base ws)) EMPTY
        (siblings D (after base ws) (position D index)) index hcheck
      rw [hconf, if_neg (by simp), hfill] at hres
      have := (hsafe _ EMPTY _ _ _ _).2.2 (hres.trans hok) hconf
      omega
  · rintro hcond currentRoot leaf newLeaf proofVec r roll'
    have hbound : index ≤ roll.rightmostProof.index → index.toNat < 2 ^ D := by
      intro hidx
      have := UInt32.le_iff_toNat_le.1 hidx
      by_contra hge
      exact hcond ⟨by omega, .inl (by omega)⟩
    refine ⟨fun hok => hbound (h.proveLeaf_ok hok).2.2, fun hok => hbound (h.setLeaf_ok hok).2.2,
      fun hok hconf => ?_⟩
    have hres := h.fillEmptyOrAppend_ok hok
    rw [hconf, if_neg (by simp)] at hres
    obtain ⟨hempty, hwritten⟩ := hres
    by_contra hge
    refine hcond ⟨?_, .inr ⟨by omega, hempty.symm⟩⟩
    by_contra hne
    have := hwritten.in_range (by omega)
    omega

/-! ### The index bound -/

/-- In a run of guarded calls every change log names the leaf that was written, and in
every state the indices that are accepted below `2 ^ D` only are exactly these. -/
theorem stored_index_bound [CollisionFree Node] :
    (∀ {roll : MerkleRoll Node D B} {ws : List (ℕ × Node)},
      Run (fun roll c => c.Guarded roll) roll ws → ∀ m < roll.bufferSize,
        (roll.log m).index.toNat < 2 ^ D ∧
          ∀ hm : m < ws.length, (roll.log m).index.toNat = ws[m].1) ∧
      ∀ {roll : MerkleRoll Node D B} {ws : List (ℕ × Node)}, Reachable roll ws → ∀ index,
        roll.IndexSafe index ↔ ¬ (roll.rightmostProof.index.toNat = 2 ^ D ∧
          (index.toNat = 2 ^ D ∨
            2 ^ D ≤ index.toNat ∧ treeAfter ws (position D index) = EMPTY)) :=
  ⟨fun hrun => hrun.log_index, fun hrun index => hrun.inv.indexSafe_iff index⟩

/-- On a full tree with an empty leaf `1`. -/
theorem stored_index_bound_full :
    let st := (Call.setLeaf (MerkleTree.root hashv 3 (treeAfter (appended 8).2)) (.leaf 2) (.leaf 0)
      (siblings 3 (treeAfter (appended 8).2) 1) 1).step (appended 8)
    st.1.getChangeLog.index.toNat = 1 ∧ ¬ st.1.IndexSafe 9 ∧ st.1.IndexSafe 10 := by
  intro st
  obtain ⟨hstored, hsafe⟩ := @stored_index_bound Term _ _ 3 8 _ _
  have hrun : Run (fun roll c => c.Guarded roll) st.1 st.2 :=
    (run_appended (fun _ _ => .inr trivial) 8).step (.inr (by decide))
  have hreach : Reachable st.1 st.2 := hrun.mono fun _ _ _ => trivial
  refine ⟨?_, ?_, ?_⟩
  · rw [MerkleRoll.getChangeLog_eq_log,
      (hstored hrun 0 (by decide +kernel)).2 (by decide +kernel)]
    decide +kernel
  · rw [hsafe hreach]
    decide +kernel
  · rw [hsafe hreach]
    decide +kernel

/-- A full tree takes index `8` for leaf `0` and stores it. -/
theorem full_tree_stores_capacity :
    let st := appended 8
    let res := st.1.setLeaf (MerkleTree.root hashv 3 (treeAfter st.2)) (.leaf 1) (.leaf 9)
      (siblings 3 (treeAfter st.2) 0) 8
    Reachable st.1 st.2 ∧
      res.1 = .ok (MerkleTree.root hashv 3 (Function.update (treeAfter st.2) 0 (.leaf 9))) ∧
      res.2.getChangeLog.index.toNat = 2 ^ 3 := by
  intro st res
  refine ⟨run_appended (fun _ _ => trivial) 8, ?_, ?_⟩
  · decide +kernel
  · decide +kernel

end Candyland.ConcurrentMerkleTree
