import Candyland.ConcurrentMerkleTree.IndexBound

/-!
# Proofs from an earlier tree

Which proofs of an earlier tree are still accepted: one from within the buffer always,
unless a change log carries another index of its leaf, and one from just before the
buffer only if the skipped oldest change log does not matter.
-/

namespace Candyland.ConcurrentMerkleTree

open MerkleTree (after sibling replay)

variable {Node : Type} [NodeHash Node] [DecidableEq Node] {D B : ℕ} [hB : BufferSize B]

/-! ### Trees without levels -/

section DepthZero

variable {roll : MerkleRoll Node 0 B}

theorem MerkleRoll.tryApplyProof_depth_zero (h0 : roll.rightmostProof.index = 0)
    (currentRoot leaf w : Node) (proof : Vector Node 0) (index : UInt32) (allow : Bool) (r : Node) :
    (roll.tryApplyProof currentRoot leaf w proof index allow).1 ≠ .ok r := by
  rw [tryApplyProof]
  cases roll.checkValidLeaf currentRoot leaf proof index allow with
  | panic => simp
  | err error => simp
  | ok res =>
    obtain ⟨validRoot, proof'⟩ := res
    cases validRoot with
    | false => simp
    | true =>
      have hrm : roll.updateInternalCounters.rightmostProof.index = 0 := h0
      have hcap : (0 : UInt32) < capacity 0 := by decide
      dsimp only
      rw [if_pos rfl, updateBuffersFromProof]
      dsimp only
      rw [hrm, if_pos hcap, if_neg (UInt32.not_lt.2 (UInt32.zero_le))]
      split_ifs
      · simp [ChangeLog.getLeaf]
      · simp

theorem MerkleRoll.append_depth_zero (h0 : roll.rightmostProof.index = 0) (node r : Node) :
    (roll.append node).1 ≠ .ok r := by
  rw [append, h0, if_neg (UInt32.not_le.2 (show (0 : UInt32) < capacity 0 by decide)),
    if_pos rfl, initializeTreeFromAppend]
  split_ifs
  · simp
  · exact tryApplyProof_depth_zero h0 _ _ _ _ _ _ _
  · simp
  · simp

theorem Call.exec_depth_zero (h0 : roll.rightmostProof.index = 0) (c : Call Node) (r : Node) :
    (c.exec roll).1 ≠ .ok r := by
  cases c with
  | append node => exact MerkleRoll.append_depth_zero h0 node r
  | setLeaf currentRoot previousLeaf newLeaf proofVec index =>
    rw [exec, MerkleRoll.setLeaf]
    split_ifs
    · simp
    · cases fillInProof 0 proofVec with
      | none => simp
      | some proof => exact MerkleRoll.tryApplyProof_depth_zero h0 _ _ _ _ _ _ _
    · simp
  | fillEmptyOrAppend currentRoot leaf proofVec index =>
    rw [exec]
    by_cases hcheck : checkBounds 0 B = true
    · rw [MerkleRoll.fillEmptyOrAppend_eq _ _ _ _ hcheck]
      split_ifs
      · exact MerkleRoll.append_depth_zero h0 leaf r
      · cases fillInProof 0 proofVec with
        | none => simp
        | some proof => exact MerkleRoll.tryApplyProof_depth_zero h0 _ _ _ _ _ _ _
    · rw [MerkleRoll.fillEmptyOrAppend, if_neg hcheck]
      simp

/-- Nothing can be written to a tree without levels. -/
theorem Run.depth_zero {P : MerkleRoll Node 0 B → Call Node → Prop} {ws : List (ℕ × Node)}
    (hrun : Run P roll ws) : ws = [] ∧ roll.rightmostProof.index = 0 := by
  induction hrun with
  | init h =>
    obtain ⟨-, -, -, hindex, -⟩ := initializeRoll_eq h
    exact ⟨rfl, hindex⟩
  | @ok roll roll' ws c r hrun hP hok ih =>
    have hne := Call.exec_depth_zero ih.2 c r
    rw [hok] at hne
    exact absurd rfl hne
  | err hrun h ih =>
    rw [Call.exec_err h]
    exact ih

end DepthZero

/-! ### Proofs within the buffer -/

/-- A leaf, its path and the root of the tree of `k` writes ago are accepted when the
leaf is unchanged, and are rejected with a modified leaf otherwise. -/
def FastForwards (roll : MerkleRoll Node D B) (ws : List (ℕ × Node)) (k : ℕ) (i : UInt32) :
    Prop :=
  let T := treeAfter (ws.drop k)
  let root := MerkleTree.root hashv D T
  (treeAfter ws i.toNat = T i.toNat →
    roll.proveLeaf root (T i.toNat) (siblings D T i.toNat) i = (.ok EMPTY, roll) ∧
      ∀ w, ∃ r roll', roll.setLeaf root (T i.toNat) w (siblings D T i.toNat) i = (.ok r, roll')) ∧
    (treeAfter ws i.toNat ≠ T i.toNat →
      roll.proveLeaf root (T i.toNat) (siblings D T i.toNat) i =
          (.err .LeafContentsModified, roll) ∧
        ∀ w, roll.setLeaf root (T i.toNat) w (siblings D T i.toNat) i =
          (.err .LeafContentsModified, roll))

section Retained

variable {roll : MerkleRoll Node D B} {ws : List (ℕ × Node)} {k : ℕ} {i : UInt32}

theorem Inv.fastForwards [CollisionFree Node] (h : Inv (fun _ => EMPTY) roll ws) (hD0 : 0 < D)
    (hk : k < roll.bufferSize) (hi : i.toNat < 2 ^ D) (hle : i ≤ roll.rightmostProof.index)
    (halias : roll.NoAlias (MerkleTree.root hashv D (treeAfter (ws.drop k))) i) :
    FastForwards roll ws k i := by
  have hcheck : checkBounds D B = true := checkBounds_iff.2 ⟨h.depth, h.pow⟩
  obtain ⟨proof, hfill, hproof⟩ := fillInProof_siblings D (treeAfter (ws.drop k)) i.toNat
  rw [← position_of_lt hi] at hproof
  have hstale := h.checkValidLeaf_stale ⟨k, hk, h.log_root hk⟩ (.inl hD0) halias hproof true
  rw [position_of_lt hi] at hstale
  obtain ⟨hmod, hvalid⟩ := hstale
  refine ⟨fun heq => ?_, fun hne => ?_⟩
  · obtain ⟨proof', hok, -⟩ := hvalid heq
    refine ⟨?_, fun w => ?_⟩
    · rw [roll.proveLeaf_eq hcheck _ _ hfill hle, hok]
      rfl
    · rw [roll.setLeaf_eq hcheck _ _ w hfill hle]
      exact MerkleRoll.tryApplyProof_isOk h.depth (fun _ => ⟨hD0, hle⟩) hok w
  · have herr := hmod hne
    refine ⟨?_, fun w => ?_⟩
    · rw [roll.proveLeaf_eq hcheck _ _ hfill hle, herr]
    · rw [roll.setLeaf_eq hcheck _ _ w hfill hle, MerkleRoll.tryApplyProof, herr]

/-- On an aliased index `prove_leaf` panics. -/
theorem Inv.proveLeaf_alias (h : Inv (fun _ => EMPTY) roll ws) (hk : k < roll.bufferSize)
    (hle : i ≤ roll.rightmostProof.index)
    (halias : ¬ roll.NoAlias (MerkleTree.root hashv D (treeAfter (ws.drop k))) i) (leaf : Node) :
    roll.proveLeaf (MerkleTree.root hashv D (treeAfter (ws.drop k))) leaf
      (siblings D (treeAfter (ws.drop k)) i.toNat) i = (.panic, roll) := by
  have hcheck : checkBounds D B = true := checkBounds_iff.2 ⟨h.depth, h.pow⟩
  obtain ⟨proof, hfill, -⟩ := fillInProof_siblings D (treeAfter (ws.drop k)) i.toNat
  rw [roll.proveLeaf_eq hcheck _ _ hfill hle,
    h.checkValidLeaf_alias ⟨k, hk, h.log_root hk⟩ halias]

end Retained

/-- In a run of guarded calls every retained root is good for a proof, and in any run it
is good for a proof of leaf `i` exactly when the tree has levels and no younger change log
carries another index of `i`. -/
theorem fastForwards_iff [CollisionFree Node] :
    (∀ {roll : MerkleRoll Node D B} {ws : List (ℕ × Node)},
      Run (fun roll c => c.Guarded roll) roll ws → 0 < D → ∀ k < roll.bufferSize,
        ∀ i : UInt32, i.toNat < 2 ^ D → i ≤ roll.rightmostProof.index →
          FastForwards roll ws k i) ∧
      ∀ {roll : MerkleRoll Node D B} {ws : List (ℕ × Node)}, Reachable roll ws →
        ∀ k < roll.bufferSize, ∀ i : UInt32, i.toNat < 2 ^ D → i ≤ roll.rightmostProof.index →
          (FastForwards roll ws k i ↔
            0 < D ∧ roll.NoAlias (MerkleTree.root hashv D (treeAfter (ws.drop k))) i) := by
  refine ⟨fun {roll ws} hrun hD0 k hk i hi hle => ?_, fun {roll ws} hrun k hk i hi hle => ?_⟩
  · exact hrun.inv.fastForwards hD0 hk hi hle (hrun.noAlias hi _)
  · constructor
    · intro hff
      refine ⟨?_, ?_⟩
      · rcases Nat.eq_zero_or_pos D with rfl | hD0
        · obtain ⟨rfl, hrm⟩ := hrun.depth_zero
          obtain ⟨r, roll', hok⟩ := (hff.1 (by simp)).2 EMPTY
          exact absurd (congrArg Prod.fst hok)
            (Call.exec_depth_zero hrm (.setLeaf _ _ EMPTY _ i) r)
        · exact hD0
      · by_contra halias
        have hpanic := hrun.inv.proveLeaf_alias hk hle halias
          (treeAfter (ws.drop k) i.toNat)
        by_cases heq : treeAfter ws i.toNat = treeAfter (ws.drop k) i.toNat
        · have hok := (hff.1 heq).1
          rw [hpanic] at hok
          exact absurd (Prod.mk.inj hok).1 (by simp)
        · have herr := (hff.2 heq).1
          rw [hpanic] at herr
          exact absurd (Prod.mk.inj herr).1 (by simp)
    · rintro ⟨hD0, halias⟩
      exact hrun.inv.fastForwards hD0 hk hi hle halias

/-- The full tree after leaf `0` was overwritten through index `8`. -/
def aliased : MerkleRoll Term 3 8 × List (ℕ × Term) :=
  (Call.setLeaf (MerkleTree.root hashv 3 (treeAfter (appended 8).2)) (.leaf 1) (.leaf 9)
    (siblings 3 (treeAfter (appended 8).2) 0) 8).step (appended 8)

theorem reachable_aliased : Reachable aliased.1 aliased.2 :=
  (run_appended (fun _ _ => trivial) 8).step trivial

-- the newest change log has another index of the leaf
example : aliased.1.getChangeLog.index = 8 ∧ treeAfter aliased.2 0 = .leaf 9 := by
  decide +kernel

/-- A proof of leaf `0` from before a write elsewhere, and one from before a write to
leaf `0` through index `8`. -/
theorem fastForwards_iff_full :
    FastForwards (appended 8).1 (appended 8).2 1 0 ∧ ¬ FastForwards aliased.1 aliased.2 1 0 := by
  obtain ⟨hguarded, hiff⟩ := @fastForwards_iff Term _ _ 3 8 _ _
  constructor
  · exact hguarded (run_appended (fun _ _ => .inr trivial) 8) (by decide) 1 (by decide +kernel) 0
      (by decide) (by decide +kernel)
  · rw [hiff reachable_aliased 1 (by decide +kernel) 0 (by decide) (by decide +kernel)]
    decide +kernel

/-- After that write the proof of leaf `0` is met with a panic, not with an error. -/
theorem prove_leaf_panics_on_alias :
    let T := treeAfter (aliased.2.drop 1)
    Reachable aliased.1 aliased.2 ∧ 1 < aliased.1.bufferSize ∧ treeAfter aliased.2 0 ≠ T 0 ∧
      (aliased.1.proveLeaf (MerkleTree.root hashv 3 T) (T 0) (siblings 3 T 0) 0).1 = .panic := by
  intro T
  exact ⟨reachable_aliased, by decide +kernel, by decide +kernel, by decide +kernel⟩

/-! ### Proofs from just before the buffer -/

section Fallback

variable {roll : MerkleRoll Node D B} {ws : List (ℕ × Node)}

/-- Replaying the last `k` writes, none of them to the leaf, on a path of an earlier
tree: the check passes when this makes the path current. -/
theorem RingInv.checkReplay_untouched [CollisionFree Node] (h : RingInv (fun _ => EMPTY) roll ws)
    (hD0 : 0 < D) {k m : ℕ} (hk : k ≤ ws.length) (hkB : k ≤ B) (hkm : k ≤ m) {leafIndex : UInt32}
    (huntouched : ∀ w ∈ ws.take m, w.1 ≠ position D leafIndex) {proof : Vector Node D}
    (hproof : ∀ l < D, levels proof l =
      sibling hashv (treeAfter (ws.drop m)) (position D leafIndex) l) :
    let i := position D leafIndex
    let T := treeAfter (ws.drop m)
    ∃ proof', roll.checkReplay (T i) proof leafIndex k =
      .ok (decide (∀ l < D, (replay hashv (fun _ => EMPTY) ws i k (sibling hashv T i, T i)).1 l =
        sibling hashv (treeAfter ws) i l), proof') := by
  intro i T
  have hleaf : (replay hashv (fun _ => EMPTY) ws i k (sibling hashv T i, T i)).2 = T i := by
    rw [MerkleTree.replay_snd, if_neg]
    rintro ⟨w, hw, hwi⟩
    exact huntouched w (List.take_subset_take_left _ hkm hw) hwi
  have halias : ∀ j < k, position D leafIndex = position D (roll.log j).index →
      leafIndex = (roll.log j).index := by
    intro j hj hpos
    rw [(h.log_records (by omega) (by omega)).index_eq] at hpos
    have hmem : ws[j] ∈ ws.take m := List.mem_take_iff_getElem.2 ⟨j, by omega, rfl⟩
    exact absurd hpos.symm (huntouched _ hmem)
  obtain ⟨proof', -, hcheck⟩ := h.checkReplay_eq (T i) (.inl hD0) hk hkB halias hproof
  rw [hleaf, if_pos rfl] at hcheck
  have hcur : T i = treeAfter ws i := (MerkleTree.after_drop huntouched).symm
  refine ⟨proof', ?_⟩
  rw [hcheck]
  congr 2
  rw [decide_eq_decide]
  exact and_iff_right hcur

/-- The fallback of `check_valid_leaf` for an unknown root, on a full buffer and a leaf
that was not touched: the check passes when the buffer has one slot, or when the write in
the skipped oldest slot lies beside the path of the leaf at a level where a later one
does. -/
theorem RingInv.checkValidLeaf_fallback [hH : CollisionFree Node]
    (h : RingInv (fun _ => EMPTY) roll ws) (hD0 : 0 < D) (hlen : B ≤ ws.length)
    {leafIndex : UInt32} (huntouched : ∀ w ∈ ws.take B, w.1 ≠ position D leafIndex)
    (hroot : ∀ k < B, (roll.log k).root ≠ MerkleTree.root hashv D (treeAfter (ws.drop B)))
    {proof : Vector Node D}
    (hproof : ∀ l < D, levels proof l =
      sibling hashv (treeAfter (ws.drop B)) (position D leafIndex) l) :
    let i := position D leafIndex
    ∃ b proof', roll.checkValidLeaf (MerkleTree.root hashv D (treeAfter (ws.drop B)))
        (treeAfter (ws.drop B) i) proof leafIndex true = .ok (b, proof') ∧
      (b = true ↔ B = 1 ∨ ∃ t, ∃ ht : t < B - 1,
        (i ^^^ ws[t].1).log2 = (i ^^^ ws[B - 1].1).log2) := by
  intro i
  have hsize : roll.bufferSize = B := by
    rw [h.size]
    omega
  have hcheck := roll.checkValidLeaf_of_not_found h.pow h.size_le h.size_pos
    (fun k hk => hroot k (by omega)) (treeAfter (ws.drop B) i) proof leafIndex true
  rw [hcheck, if_pos rfl, hsize]
  by_cases hone : B = 1
  · -- the only slot is replayed
    obtain ⟨proof', hreplay⟩ := h.checkReplay_untouched hD0 hlen le_rfl le_rfl huntouched hproof
    rw [if_pos hone, hreplay]
    refine ⟨_, _, rfl, ?_⟩
    rw [decide_eq_true_iff]
    exact ⟨fun _ => .inl hone, fun _ l _ => MerkleTree.replay_stale hashv ws i l B _⟩
  · obtain ⟨k, hk⟩ := Nat.exists_eq_succ_of_ne_zero hB.pos.ne'
    obtain ⟨proof', hreplay⟩ := h.checkReplay_untouched hD0 (show B - 1 ≤ ws.length by omega)
      (by omega) (by omega) huntouched hproof
    rw [if_neg hone, hreplay]
    refine ⟨_, _, rfl, ?_⟩
    have hi : i < 2 ^ D := position_lt D leafIndex
    have hne : ∀ t (ht : t < B), i ≠ ws[t].1 := fun t ht heq =>
      huntouched ws[t] (List.mem_take_iff_getElem.2 ⟨t, by omega, rfl⟩) heq.symm
    have hchanged : MerkleTree.root hashv D (treeAfter (ws.drop (B - 1))) ≠
        MerkleTree.root hashv D (treeAfter (ws.drop (B - 1 + 1))) := by
      rw [Nat.sub_add_cancel hB.pos, ← h.log_root (by omega)]
      exact hroot (B - 1) (by omega)
    have hskip := MerkleTree.replay_skip_iff hashv hH.hashv_inj (show B - 1 < ws.length by omega) hi
      (h.bound _ (List.getElem_mem _)) (hne _ (by omega)) hchanged (treeAfter (ws.drop B) i)
    rw [Nat.sub_add_cancel hB.pos] at hskip
    rw [decide_eq_true_iff, hskip, or_iff_right hone]
    constructor
    · rintro ⟨w, hw, hs⟩
      obtain ⟨t, ht, rfl⟩ := List.mem_take_iff_getElem.1 hw
      exact ⟨t, by omega, ((Bits.splits_iff (hne t (by omega)) _).1 hs).symm⟩
    · rintro ⟨t, ht, hlog⟩
      refine ⟨ws[t], List.mem_take_iff_getElem.2 ⟨t, by omega, rfl⟩, ?_⟩
      exact (Bits.splits_iff (hne t (by omega)) _).2 hlog.symm

/-- What was valid just before the writes that fill the buffer, and was not touched by
them, is still accepted exactly when the index is not beyond the first free position and
the buffer has one slot, still has the root, or has a later write beside the path of the
leaf at the level of the oldest one, which `fast_forward_proof` skips. -/
theorem full_buffer_replay_iff [CollisionFree Node] (hrun : Reachable roll ws)
    (hlen : B ≤ ws.length) {i : UInt32} (hi : i.toNat < 2 ^ D)
    (huntouched : ∀ w ∈ ws.take B, w.1 ≠ i.toNat) {v : Node} {proofVec : List Node}
    {proof : Vector Node D} (hfill : fillInProof D proofVec = some proof)
    (hvalid : recompute v proof i = MerkleTree.root hashv D (treeAfter (ws.drop B))) :
    let root := MerkleTree.root hashv D (treeAfter (ws.drop B))
    (∃ r roll', roll.proveLeaf root v proofVec i = (.ok r, roll')) ∧
        (∀ w, ∃ r roll', roll.setLeaf root v w proofVec i = (.ok r, roll')) ↔
      i ≤ roll.rightmostProof.index ∧
        (B = 1 ∨ (∃ k < B, (roll.log k).root = root) ∨
          ∃ t, ∃ ht : t < B - 1, (i.toNat ^^^ ws[t].1).log2 = (i.toNat ^^^ ws[B - 1].1).log2) := by
  intro root
  have h := hrun.inv
  have hD : D < 31 := h.depth
  have hcheckb : checkBounds D B = true := checkBounds_iff.2 ⟨h.depth, h.pow⟩
  have hsize : roll.bufferSize = B := by
    rw [h.size]
    omega
  have hD0 : 0 < D := by
    rcases Nat.eq_zero_or_pos D with rfl | hD0
    · have hnil := hrun.depth_zero.1
      rw [hnil] at hlen
      exact absurd hB.pos (by simpa using hlen)
    · exact hD0
  obtain ⟨hv, hproof⟩ := (recompute_eq_root_iff (by omega)).1 hvalid
  rw [← position_of_lt hi] at huntouched ⊢
  -- the outcome of the check for an index that is not beyond the first free position
  have hcheck : ∃ b proof', roll.checkValidLeaf root v proof i true = .ok (b, proof') ∧
      (b = true ↔ B = 1 ∨ (∃ k < B, (roll.log k).root = root) ∨ ∃ t, ∃ ht : t < B - 1,
        (position D i ^^^ ws[t].1).log2 = (position D i ^^^ ws[B - 1].1).log2) := by
    by_cases hfound : ∃ k < B, (roll.log k).root = root
    · have hnoalias : roll.NoAlias root i := by
        intro m hm _ hpos
        rw [(h.log_records (by omega) (by omega)).index_eq] at hpos
        have hmem : ws[m] ∈ ws.take B := List.mem_take_iff_getElem.2 ⟨m, by omega, rfl⟩
        exact absurd hpos.symm (huntouched _ hmem)
      obtain ⟨proof', hok, -⟩ := (h.checkValidLeaf_stale (by rwa [hsize]) (.inl hD0) hnoalias
        hproof true).2 (MerkleTree.after_drop huntouched)
      rw [← hv] at hok
      exact ⟨true, proof', hok, by simp [hfound]⟩
    · have hroot : ∀ k < B, (roll.log k).root ≠ root := fun k hk heq => hfound ⟨k, hk, heq⟩
      obtain ⟨b, proof', hok, hb⟩ := h.checkValidLeaf_fallback hD0 hlen huntouched hroot hproof
      rw [← hv] at hok
      exact ⟨b, proof', hok, by rw [hb, or_iff_right hfound]⟩
  obtain ⟨b, proof', hok, hb⟩ := hcheck
  rw [← hb]
  constructor
  · rintro ⟨⟨r, roll', hprove⟩, -⟩
    have hle := (h.proveLeaf_ok hprove).2.2
    rw [roll.proveLeaf_eq hcheckb _ _ hfill hle, hok] at hprove
    refine ⟨hle, ?_⟩
    cases b with
    | true => rfl
    | false => exact absurd (Prod.mk.inj hprove).1 (by simp)
  · rintro ⟨hle, rfl⟩
    refine ⟨⟨EMPTY, roll, ?_⟩, fun w => ?_⟩
    · rw [roll.proveLeaf_eq hcheckb _ _ hfill hle, hok]
      rfl
    · rw [roll.setLeaf_eq hcheckb _ _ w hfill hle]
      exact MerkleRoll.tryApplyProof_isOk hD (fun _ => ⟨hD0, hle⟩) hok w

end Fallback

/-- Two leaves; then the eight writes that fill the buffer: one to leaf `1`, six appends
and one to leaf `q`. -/
def overwritten (q : UInt32) : MerkleRoll Term 3 8 × List (ℕ × Term) :=
  let T := treeAfter (appended 2).2
  let st := (Call.setLeaf (MerkleTree.root hashv 3 T) (.leaf 2) (.leaf 20) (siblings 3 T 1) 1).step
    (appended 2)
  let st' := ([3, 4, 5, 6, 7, 8].map fun n => Call.append (.leaf n)).foldl Call.step st
  let T' := treeAfter st'.2
  (Call.setLeaf (MerkleTree.root hashv 3 T') (T' q.toNat) (.leaf 30) (siblings 3 T' q.toNat) q).step
    st'

theorem reachable_overwritten (q : UInt32) :
    Reachable (overwritten q).1 (overwritten q).2 := by
  have hrun : Reachable (appended 2).1 (appended 2).2 := run_appended (fun _ _ => trivial) 2
  exact ((hrun.step trivial).foldl_step fun _ _ _ => trivial).step trivial

example : (overwritten 4).2.map (fun w => w.1) = [4, 7, 6, 5, 4, 3, 2, 1, 1, 0] := by
  decide +kernel

/-- The proof of leaf `0` from before these writes is accepted when the last one is to
leaf `1` again. -/
theorem full_buffer_replay_iff_overwritten :
    let st := overwritten 1
    let T := treeAfter (st.2.drop 8)
    ∃ r roll', st.1.proveLeaf (MerkleTree.root hashv 3 T) (T 0) (siblings 3 T 0) 0 =
      (.ok r, roll') := by
  intro st T
  have hvalid : recompute (T 0) ⟨(siblings 3 T 0).toArray, rfl⟩ 0 = MerkleTree.root hashv 3 T := by
    decide +kernel
  have hiff := full_buffer_replay_iff (reachable_overwritten 1) (show 8 ≤ st.2.length by decide +kernel)
    (by decide) (show ∀ w ∈ st.2.take 8, w.1 ≠ (0 : UInt32).toNat by decide +kernel)
    (show fillInProof 3 (siblings 3 T 0) = _ by decide +kernel) hvalid
  exact (hiff.2 ⟨by decide +kernel, .inr (.inr ⟨0, by decide, by decide +kernel⟩)⟩).1

/-- The proof of leaf `0` is as old as the buffer allows, but rejected. -/
theorem full_buffer_replay_rejects :
    let st := overwritten 4
    let T := treeAfter (st.2.drop 8)
    Reachable st.1 st.2 ∧ 8 ≤ st.2.length ∧ (∀ w ∈ st.2.take 8, w.1 ≠ 0) ∧
      recompute (T 0) ⟨(siblings 3 T 0).toArray, rfl⟩ 0 = MerkleTree.root hashv 3 T ∧
      (st.1.proveLeaf (MerkleTree.root hashv 3 T) (T 0) (siblings 3 T 0) 0).1 =
        .err .InvalidProof := by
  intro st T
  exact ⟨reachable_overwritten 4, by decide +kernel, by decide +kernel, by decide +kernel,
    by decide +kernel⟩

end Candyland.ConcurrentMerkleTree
