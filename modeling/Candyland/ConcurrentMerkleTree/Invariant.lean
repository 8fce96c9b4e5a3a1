import Candyland.ConcurrentMerkleTree.FastForward

/-!
# The invariant of the roll

The roll never stores its tree.  The invariant says which tree it stands for: the
leaves after a history of writes, newest first, on a tree that was there at the start.
The ring holds the paths of the last writes, and the rightmost path is that of the
last leaf that was appended.

From the invariant follow the two properties of `check_valid_leaf` that everything
else uses: what it accepts is true of the current tree, and a replay that makes the
proof current makes it accept.
-/

namespace Candyland.ConcurrentMerkleTree

open CircularBuffer (back next Window)
open MerkleTree (after sibling replay)

variable {Node : Type} [NodeHash Node] [DecidableEq Node] {D B : ℕ} [hB : BufferSize B]

/-- What the change log of age `k` holds after the writes `ws`: the root of that time
and, unless it is the one from before all writes, the path of its write. -/
def Entry (base : ℕ → Node) (ws : List (ℕ × Node)) (k : ℕ) (cl : ChangeLog Node D) : Prop :=
  cl.root = MerkleTree.root hashv D (after base (ws.drop k)) ∧
    ∀ h : k < ws.length, cl.Records (after base (ws.drop k)) ws[k].1

/-- The ring is the window of the last writes. -/
structure RingInv (base : ℕ → Node) (roll : MerkleRoll Node D B) (ws : List (ℕ × Node)) :
    Prop where
  depth : D < 31
  pow : B.isPowerOfTwo
  size : roll.bufferSize = min (ws.length + 1) B
  logs : Window roll.changeLogs roll.activeIndex roll.bufferSize (Entry base ws)
  bound : ∀ w ∈ ws, w.1 < 2 ^ D

/-- The rightmost path belongs to the leaf before the first free position, and from
there on all leaves are empty.  The path of an empty tree is that of leaf `0`. -/
structure Rightmost (path : Path Node D) (T : ℕ → Node) : Prop where
  le : path.index.toNat ≤ 2 ^ D
  empty : ∀ q, path.index.toNat ≤ q → q < 2 ^ D → T q = EMPTY
  leaf_eq : 0 < path.index.toNat → path.index.toNat < 2 ^ D →
    path.leaf = T (path.index.toNat - 1)
  proof_eq : path.index.toNat < 2 ^ D →
    ∀ l < D, levels path.proof l = sibling hashv T (path.index.toNat - 1) l

/-- The roll stands for the tree after the writes `ws`. -/
structure Inv (base : ℕ → Node) (roll : MerkleRoll Node D B) (ws : List (ℕ × Node)) : Prop
    extends RingInv base roll ws where
  rightmost : Rightmost roll.rightmostProof (after base ws)

namespace RingInv

variable {base : ℕ → Node} {roll : MerkleRoll Node D B} {ws : List (ℕ × Node)}

omit [DecidableEq Node] hB in
theorem size_le (h : RingInv base roll ws) : roll.bufferSize ≤ B := by
  rw [h.size]
  exact min_le_right _ _

omit [DecidableEq Node] in
theorem size_pos (h : RingInv base roll ws) : 0 < roll.bufferSize := by
  rw [h.size]
  exact lt_min (Nat.succ_pos _) hB.pos

omit [DecidableEq Node] hB in
theorem log_root (h : RingInv base roll ws) {k : ℕ} (hk : k < roll.bufferSize) :
    (roll.log k).root = MerkleTree.root hashv D (after base (ws.drop k)) :=
  (h.logs k hk).1

omit [DecidableEq Node] hB in
theorem log_records (h : RingInv base roll ws) {k : ℕ} (hk : k < ws.length) (hkB : k < B) :
    (roll.log k).Records (after base (ws.drop k)) ws[k].1 :=
  (h.logs k (by rw [h.size]; omega)).2 hk

omit [DecidableEq Node] in
/-- The root of the roll is the root of its tree. -/
theorem current_root (h : RingInv base roll ws) :
    roll.getChangeLog.root = MerkleTree.root hashv D (after base ws) := by
  rw [MerkleRoll.getChangeLog_eq_log, h.log_root h.size_pos, List.drop_zero]

omit [DecidableEq Node] hB in
/-- Writing a change log behind the advanced cursor adds a write to the history. -/
theorem push (h : RingInv base roll ws) {roll' : MerkleRoll Node D B} {cl : ChangeLog Node D}
    {j : ℕ} {w : Node} (hj : j < 2 ^ D)
    (hcl : cl.Records (Function.update (after base ws) j w) j)
    (hactive : roll'.activeIndex = next roll.activeIndex)
    (hlogs : roll'.changeLogs = roll.changeLogs.set roll'.activeIndex cl)
    (hsize : roll'.bufferSize = min (ws.length + 2) B) :
    RingInv base roll' ((j, w) :: ws) := by
  have hwindow : ∀ a, a = next roll.activeIndex → Window (roll.changeLogs.set a cl) a
      (min (ws.length + 2) B) (Entry base ((j, w) :: ws)) := by
    rintro a rfl k hk
    have hpush := h.logs.push (Q := Entry base ((j, w) :: ws)) (x := cl)
      ⟨hcl.root_eq, fun _ => hcl⟩ fun k _ y hy => ⟨hy.1, fun hlt => hy.2 (by simpa using hlt)⟩
    refine hpush k ?_
    rw [h.size]
    omega
  refine ⟨h.depth, h.pow, hsize, ?_, ?_⟩
  · rw [hlogs, hsize]
    exact hwindow _ hactive
  · intro w' hw'
    rcases List.mem_cons.1 hw' with rfl | hw'
    · exact hj
    · exact h.bound w' hw'

omit [DecidableEq Node] in
/-- The counters advance as `push` needs them. -/
theorem counters (h : RingInv base roll ws) :
    roll.updateInternalCounters.activeIndex = next roll.activeIndex ∧
      roll.updateInternalCounters.bufferSize = min (ws.length + 2) B := by
  refine ⟨mask_succ h.pow _, ?_⟩
  have hsize := h.size
  simp only [MerkleRoll.updateInternalCounters]
  split_ifs <;> omega

/-! ### Replaying change logs -/

omit [DecidableEq Node] hB in
/-- The change logs of the last `k` updates act on a proof as the replay of the last `k`
writes, unless one of them carries another index of the same leaf. -/
theorem replayLogs_eq (h : RingInv base roll ws) (hD0 : 0 < D) {leafIndex : UInt32} {k : ℕ}
    (hk : k ≤ ws.length) (hkB : k ≤ B)
    (halias : ∀ m < k, position D leafIndex = position D (roll.log m).index →
      leafIndex = (roll.log m).index)
    {proof : Vector Node D} {leaf : Node} {s : ℕ → Node} (hproof : ∀ l < D, levels proof l = s l) :
    let st := replay hashv base ws (position D leafIndex) k (s, leaf)
    ∃ proof', roll.replayLogs leafIndex k (proof, leaf) = some (proof', st.2) ∧
      ∀ l < D, levels proof' l = st.1 l := by
  induction k generalizing proof leaf s with
  | zero => exact ⟨proof, rfl, hproof⟩
  | succ k ih =>
    have hrec := h.log_records (show k < ws.length by omega) (by omega)
    obtain ⟨proof₁, hupd, hproof₁⟩ := hrec.updateProofOrLeaf_eq hD0 (by have := h.depth; omega)
      leafIndex leaf (fun hpos => halias k (by omega) (hpos.trans hrec.index_eq.symm)) hproof
    obtain ⟨proof₂, hrest, hproof₂⟩ := ih (by omega) (by omega)
      (fun m hm => halias m (by omega)) hproof₁
    have hget : ws[k]? = some ws[k] := List.getElem?_eq_getElem (by omega)
    refine ⟨proof₂, ?_, ?_⟩
    · rw [MerkleRoll.replayLogs, hupd, Option.bind_some, hrest, replay, hget]
    · rw [replay, hget]
      exact hproof₂

/-- Without such an obstacle the outcome is decided by what the replay makes of the leaf
and of the siblings. -/
theorem checkReplay_eq [CollisionFree Node] (h : RingInv base roll ws) (leaf : Node)
    {leafIndex : UInt32} {k : ℕ} (hD0 : 0 < D ∨ k = 0) (hk : k ≤ ws.length) (hkB : k ≤ B)
    (halias : ∀ m < k, position D leafIndex = position D (roll.log m).index →
      leafIndex = (roll.log m).index)
    {proof : Vector Node D} {s : ℕ → Node} (hproof : ∀ l < D, levels proof l = s l) :
    let i := position D leafIndex
    let st := replay hashv base ws i k (s, leaf)
    ∃ proof', (∀ l < D, levels proof' l = st.1 l) ∧
      roll.checkReplay leaf proof leafIndex k =
        if st.2 = leaf then
          .ok (decide (leaf = after base ws i ∧
            ∀ l < D, st.1 l = sibling hashv (after base ws) i l), proof')
        else .err .LeafContentsModified := by
  intro i st
  have hreplay : ∃ proof', roll.replayLogs leafIndex k (proof, leaf) = some (proof', st.2) ∧
      ∀ l < D, levels proof' l = st.1 l := by
    rcases hD0 with hD0 | rfl
    · exact h.replayLogs_eq hD0 hk hkB halias hproof
    · exact ⟨proof, rfl, hproof⟩
  obtain ⟨proof', hlogs, hproof'⟩ := hreplay
  refine ⟨proof', hproof', ?_⟩
  have hD : D < 31 := h.depth
  rw [MerkleRoll.checkReplay, hlogs]
  dsimp only
  by_cases hleaf : st.2 = leaf
  · rw [if_pos hleaf, if_pos hleaf, hleaf, h.current_root]
    congr 2
    rw [decide_eq_decide, recompute_eq_root_iff (by omega)]
    refine and_congr_right fun _ => forall₂_congr fun l hl => ?_
    rw [hproof' l hl]
  · rw [if_neg hleaf, if_neg hleaf]

end RingInv

/-! ### Soundness -/

namespace MerkleRoll

variable {roll : MerkleRoll Node D B} {T : ℕ → Node} {leaf : Node} {proof proof' : Vector Node D}
  {leafIndex : UInt32}

omit hB in
/-- Whatever is replayed, an accepted proof is the sibling path of the tree with the current root
and an accepted leaf is its leaf. -/
theorem checkReplay_sound [CollisionFree Node] (hD : D < 31)
    (hcurrent : roll.getChangeLog.root = MerkleTree.root hashv D T) {k : ℕ}
    (hok : roll.checkReplay leaf proof leafIndex k = .ok (true, proof')) :
    leaf = T (position D leafIndex) ∧
      ∀ l < D, levels proof' l = sibling hashv T (position D leafIndex) l := by
  rw [MerkleRoll.checkReplay] at hok
  cases hst : roll.replayLogs leafIndex k (proof, leaf) with
  | none => rw [hst] at hok; exact absurd hok (by simp)
  | some st =>
    obtain ⟨proof₁, updatedLeaf⟩ := st
    rw [hst] at hok
    dsimp only at hok
    split_ifs at hok with hleaf
    simp only [Outcome.ok.injEq, Prod.mk.injEq, decide_eq_true_eq] at hok
    obtain ⟨hroot, rfl⟩ := hok
    rw [hleaf, hcurrent] at hroot
    exact (recompute_eq_root_iff (by omega)).1 hroot

theorem checkValidLeaf_sound [CollisionFree Node] (hD : D < 31) (hpow : B.isPowerOfTwo)
    (hsize : roll.bufferSize ≤ B) (hpos : 0 < roll.bufferSize)
    (hcurrent : roll.getChangeLog.root = MerkleTree.root hashv D T) {currentRoot : Node}
    {allow : Bool}
    (hok : roll.checkValidLeaf currentRoot leaf proof leafIndex allow = .ok (true, proof')) :
    leaf = T (position D leafIndex) ∧
      ∀ l < D, levels proof' l = sibling hashv T (position D leafIndex) l := by
  rcases roll.exists_youngest currentRoot with hnone | ⟨k, hk, hroot, hyoung⟩
  · rw [roll.checkValidLeaf_of_not_found hpow hsize hpos hnone] at hok
    cases allow with
    | false => exact absurd hok (by simp)
    | true => exact checkReplay_sound hD hcurrent hok
  · rw [roll.checkValidLeaf_of_found hpow hsize hk hroot hyoung] at hok
    exact checkReplay_sound hD hcurrent hok

end MerkleRoll

theorem RingInv.checkValidLeaf_sound [CollisionFree Node] {base : ℕ → Node}
    {roll : MerkleRoll Node D B} {ws : List (ℕ × Node)} (h : RingInv base roll ws)
    {currentRoot leaf : Node} {proof proof' : Vector Node D} {leafIndex : UInt32} {allow : Bool}
    (hok : roll.checkValidLeaf currentRoot leaf proof leafIndex allow = .ok (true, proof')) :
    leaf = after base ws (position D leafIndex) ∧
      ∀ l < D, levels proof' l = sibling hashv (after base ws) (position D leafIndex) l :=
  roll.checkValidLeaf_sound h.depth h.pow h.size_le h.size_pos h.current_root hok

end Candyland.ConcurrentMerkleTree
