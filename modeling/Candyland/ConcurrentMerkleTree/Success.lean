import Candyland.ConcurrentMerkleTree.Run

/-!
# Which calls succeed

The converse of soundness.  A path of an earlier tree is brought up to date by the
change logs of the writes made since, so that the check passes when the leaf is
unchanged and reports a modified leaf otherwise.  The one obstacle is a change log
that carries another index of the same leaf, on which the replay panics.
-/

namespace Candyland.ConcurrentMerkleTree

open MerkleTree (after sibling replay)

variable {Node : Type} [NodeHash Node] [DecidableEq Node] {D B : ℕ} [hB : BufferSize B]

/-! ### Patching never fails on indices of different leaves -/

omit [NodeHash Node] [DecidableEq Node] in
theorem ChangeLog.updateProofOrLeaf_isSome {self : ChangeLog Node D} {leafIndex : UInt32}
    (hD0 : 0 < D) (hD : D ≤ 32)
    (halias : position D leafIndex = position D self.index → leafIndex = self.index)
    (proof : Vector Node D) (leaf : Node) :
    ∃ st, self.updateProofOrLeaf leafIndex proof leaf = some st := by
  by_cases hpos : position D leafIndex = position D self.index
  · refine ⟨(proof, self.path[0]), ?_⟩
    rw [updateProofOrLeaf, if_neg (not_not.2 (halias hpos)), getLeaf,
      Vector.getElem?_eq_getElem hD0]
    rfl
  · obtain ⟨_, hupd⟩ := updateProofOrLeaf_ne proof leaf hD hpos
    exact ⟨_, hupd⟩

namespace MerkleRoll

variable {roll : MerkleRoll Node D B}

omit [DecidableEq Node] in
/-- A verified write goes through on a full tree, and on a partial one up to the first
free position. -/
theorem updateBuffersFromProof_isOk (hD : D < 31) {index : UInt32}
    (h : roll.rightmostProof.index.toNat < 2 ^ D → 0 < D ∧ index ≤ roll.rightmostProof.index)
    (w : Node) (proof : Vector Node D) :
    ∃ r roll', roll.updateInternalCounters.updateBuffersFromProof w proof index =
      (.ok r, roll') := by
  have hrm : roll.updateInternalCounters.rightmostProof = roll.rightmostProof := rfl
  generalize roll.updateInternalCounters = old at hrm
  rw [updateBuffersFromProof]
  have hclindex : (old.changeLogs[old.activeIndex].replaceAndRecomputePath index w proof).2.index =
    index := rfl
  generalize old.changeLogs[old.activeIndex].replaceAndRecomputePath index w proof = res
    at hclindex
  obtain ⟨root, cl⟩ := res
  dsimp only at hclindex ⊢
  simp only [UInt32.lt_iff_toNat_lt, capacity_toNat hD, hrm]
  split_ifs with hpart hlt heq
  · -- the rightmost path belongs to another leaf or to this very index
    have hsub := toNat_sub_one (show 0 < roll.rightmostProof.index.toNat by omega)
    have halias : position D (roll.rightmostProof.index - 1) = position D cl.index →
        roll.rightmostProof.index - 1 = cl.index := by
      intro hpos
      rw [hclindex, position_of_lt (by omega), position_of_lt (by omega)] at hpos
      rw [hclindex, ← UInt32.toNat_inj, hpos]
    obtain ⟨⟨proof', leaf'⟩, hupd⟩ := ChangeLog.updateProofOrLeaf_isSome (h hpart).1 (by omega)
      halias roll.rightmostProof.proof roll.rightmostProof.leaf
    rw [hupd]
    exact ⟨_, _, rfl⟩
  · have hleaf : cl.getLeaf = some cl.path[0] := Vector.getElem?_eq_getElem (h hpart).1
    rw [hleaf]
    exact ⟨_, _, rfl⟩
  · exfalso
    have hle := UInt32.le_iff_toNat_le.1 (h hpart).2
    exact heq (UInt32.toNat_inj.1 (by omega))
  · exact ⟨_, _, rfl⟩

/-! ### Replaying on an aliased index -/

omit [NodeHash Node] [DecidableEq Node] hB in
/-- The replay panics on another index of the same leaf. -/
theorem replayLogs_alias (hD : D ≤ 32) {leafIndex : UInt32} {k : ℕ}
    (halias : ∃ m < k, position D leafIndex = position D (roll.log m).index ∧
      leafIndex ≠ (roll.log m).index) (st : Vector Node D × Node) :
    roll.replayLogs leafIndex k st = none := by
  induction k generalizing st with
  | zero =>
    obtain ⟨m, hm, -⟩ := halias
    exact absurd hm (Nat.not_lt_zero m)
  | succ k ih =>
    rw [replayLogs]
    obtain ⟨m, hm, hpos, hne⟩ := halias
    rcases Nat.lt_succ_iff_lt_or_eq.1 hm with hm | rfl
    · cases (roll.log k).updateProofOrLeaf leafIndex st.1 st.2 with
      | none => rfl
      | some st' => exact ih ⟨m, hm, hpos, hne⟩ st'
    · rw [ChangeLog.updateProofOrLeaf_alias _ _ hD hne hpos]
      rfl

/-- No change log that the replay for `currentRoot` goes over, which are those younger
than the youngest with this root, carries another index of the same leaf. -/
def NoAlias (roll : MerkleRoll Node D B) (currentRoot : Node) (leafIndex : UInt32) : Prop :=
  ∀ m < roll.bufferSize, (∀ m' ≤ m, (roll.log m').root ≠ currentRoot) →
    position D leafIndex = position D (roll.log m).index → leafIndex = (roll.log m).index

instance (currentRoot : Node) (leafIndex : UInt32) :
    Decidable (roll.NoAlias currentRoot leafIndex) := by
  unfold NoAlias
  infer_instance

omit [NodeHash Node] [DecidableEq Node] hB in
/-- For the current root nothing is replayed. -/
theorem noAlias_current {currentRoot : Node} (h : (roll.log 0).root = currentRoot)
    (leafIndex : UInt32) : roll.NoAlias currentRoot leafIndex :=
  fun m _ hother _ => absurd h (hother 0 (Nat.zero_le m))

/-! ### The calls in terms of their check -/

/-- Two proofs of one leaf that are checked with the same result. -/
def SameCheck (roll : MerkleRoll Node D B) (currentRoot : Node) (index : UInt32)
    (proofVec proofVec' : List Node) : Prop :=
  ∃ proof proof', fillInProof D proofVec = some proof ∧ fillInProof D proofVec' = some proof' ∧
    ∀ leaf allow, roll.checkValidLeaf currentRoot leaf proof index allow =
      roll.checkValidLeaf currentRoot leaf proof' index allow

namespace SameCheck

variable {currentRoot : Node} {index : UInt32} {proofVec proofVec' : List Node}

theorem proveLeaf_eq (h : roll.SameCheck currentRoot index proofVec proofVec') (leaf : Node) :
    roll.proveLeaf currentRoot leaf proofVec index =
      roll.proveLeaf currentRoot leaf proofVec' index := by
  obtain ⟨proof, proof', hfill, hfill', hcheck⟩ := h
  rw [proveLeaf, proveLeaf, hfill, hfill']
  simp only [hcheck]

theorem setLeaf_eq (h : roll.SameCheck currentRoot index proofVec proofVec')
    (previousLeaf newLeaf : Node) :
    roll.setLeaf currentRoot previousLeaf newLeaf proofVec index =
      roll.setLeaf currentRoot previousLeaf newLeaf proofVec' index := by
  obtain ⟨proof, proof', hfill, hfill', hcheck⟩ := h
  rw [setLeaf, setLeaf, hfill, hfill']
  simp only [tryApplyProof, hcheck]

theorem fillEmptyOrAppend_eq (h : roll.SameCheck currentRoot index proofVec proofVec')
    (leaf : Node) :
    roll.fillEmptyOrAppend currentRoot leaf proofVec index =
      roll.fillEmptyOrAppend currentRoot leaf proofVec' index := by
  obtain ⟨proof, proof', hfill, hfill', hcheck⟩ := h
  rw [fillEmptyOrAppend, fillEmptyOrAppend, hfill, hfill']
  simp only [tryApplyProof, hcheck]

end SameCheck

theorem proveLeaf_eq (hcheck : checkBounds D B = true) (currentRoot leaf : Node)
    {proofVec : List Node} {proof : Vector Node D} (hfill : fillInProof D proofVec = some proof)
    {leafIndex : UInt32} (hle : leafIndex ≤ roll.rightmostProof.index) :
    roll.proveLeaf currentRoot leaf proofVec leafIndex =
      (match roll.checkValidLeaf currentRoot leaf proof leafIndex true with
      | .panic => .panic
      | .err error => .err error
      | .ok (validRoot, _) => if validRoot then .ok EMPTY else .err .InvalidProof, roll) := by
  rw [proveLeaf, if_pos hcheck, if_neg (UInt32.not_lt.2 hle), hfill]
  dsimp only
  cases roll.checkValidLeaf currentRoot leaf proof leafIndex true with
  | panic => rfl
  | err error => rfl
  | ok res =>
    obtain ⟨validRoot, proof'⟩ := res
    cases validRoot <;> rfl

theorem setLeaf_eq (hcheck : checkBounds D B = true) (currentRoot leaf w : Node)
    {proofVec : List Node} {proof : Vector Node D} (hfill : fillInProof D proofVec = some proof)
    {index : UInt32} (hle : index ≤ roll.rightmostProof.index) :
    roll.setLeaf currentRoot leaf w proofVec index =
      roll.tryApplyProof currentRoot leaf w proof index true := by
  rw [setLeaf, if_pos hcheck, if_neg (UInt32.not_lt.2 hle), hfill]

/-- A valid check lets the write through. -/
theorem tryApplyProof_isOk (hD : D < 31) {index : UInt32}
    (h : roll.rightmostProof.index.toNat < 2 ^ D → 0 < D ∧ index ≤ roll.rightmostProof.index)
    {currentRoot leaf : Node} {proof proof' : Vector Node D} {allow : Bool}
    (hcheck : roll.checkValidLeaf currentRoot leaf proof index allow = .ok (true, proof'))
    (w : Node) :
    ∃ r roll', roll.tryApplyProof currentRoot leaf w proof index allow = (.ok r, roll') := by
  rw [tryApplyProof, hcheck]
  exact updateBuffersFromProof_isOk hD h w proof'

end MerkleRoll

omit [DecidableEq Node] in
/-- A full list of siblings is taken as it is. -/
theorem fillInProof_siblings (D : ℕ) (T : ℕ → Node) (i : ℕ) :
    ∃ proof, fillInProof D (siblings D T i) = some proof ∧
      ∀ l < D, levels proof l = sibling hashv T i l := by
  have hlen : (siblings D T i).length = D := by simp [siblings]
  cases hfill : fillInProof D (siblings D T i) with
  | none => exact absurd (fillInProof_eq_none.1 hfill) (by omega)
  | some proof =>
    refine ⟨proof, rfl, fun l hl => ?_⟩
    rw [levels_of_lt _ hl, fillInProof_getElem hfill hl, dif_pos (by omega)]
    simp [siblings]

/-! ### Proofs from an earlier tree -/

namespace RingInv

variable {base : ℕ → Node} {roll : MerkleRoll Node D B} {ws : List (ℕ × Node)}

omit [DecidableEq Node] hB in
/-- A tree with the root of `j` writes ago has the leaves and siblings of that time. -/
theorem after_drop_eq [hH : CollisionFree Node] (h : RingInv base roll ws) {j : ℕ}
    (hj : j < roll.bufferSize) {T : ℕ → Node}
    (hroot : (roll.log j).root = MerkleTree.root hashv D T) :
    ∀ q < 2 ^ D, T q = after base (ws.drop j) q := by
  rw [h.log_root hj] at hroot
  exact MerkleTree.root_inj hH.hashv_inj hroot.symm

/-- Fast-forwarding a path of a tree whose root is retained: the check passes with the
current path when the leaf is what it was, and else reports a modified leaf. -/
theorem checkValidLeaf_stale [CollisionFree Node] (h : RingInv base roll ws) {T : ℕ → Node}
    (hfound : ∃ k < roll.bufferSize, (roll.log k).root = MerkleTree.root hashv D T)
    {leafIndex : UInt32}
    (hD0 : 0 < D ∨ (roll.log 0).root = MerkleTree.root hashv D T)
    (halias : roll.NoAlias (MerkleTree.root hashv D T) leafIndex) {proof : Vector Node D}
    (hproof : ∀ l < D, levels proof l = sibling hashv T (position D leafIndex) l)
    (allow : Bool) :
    let i := position D leafIndex
    (after base ws i ≠ T i → roll.checkValidLeaf (MerkleTree.root hashv D T) (T i) proof leafIndex
        allow = .err .LeafContentsModified) ∧
      (after base ws i = T i → ∃ proof', roll.checkValidLeaf (MerkleTree.root hashv D T) (T i)
          proof leafIndex allow = .ok (true, proof') ∧
        ∀ l < D, levels proof' l = sibling hashv (after base ws) i l) := by
  intro i
  have hi : i < 2 ^ D := position_lt D leafIndex
  rcases roll.exists_youngest (MerkleTree.root hashv D T) with hnone | ⟨j, hj, hroot, hyoung⟩
  · obtain ⟨k, hk, hroot⟩ := hfound
    exact absurd hroot (hnone k hk)
  have hjsize := h.size
  have hT := h.after_drop_eq hj hroot
  rw [roll.checkValidLeaf_of_found h.pow h.size_le hj hroot hyoung]
  have hcur : ∀ l < D, (replay hashv base ws i j (sibling hashv T i, T i)).1 l =
      sibling hashv (after base ws) i l := by
    intro l hl
    rw [← MerkleTree.replay_stale hashv ws i l j (T i), MerkleTree.replay_fst,
      MerkleTree.replay_fst]
    dsimp only
    rw [MerkleTree.sibling_congr hashv hT hi hl]
  have hleaf : (replay hashv base ws i j (sibling hashv T i, T i)).2 = after base ws i := by
    rw [hT i hi, MerkleTree.replay_stale_leaf]
  have hj0 : 0 < D ∨ j = 0 := by
    refine hD0.imp_right fun h0 => ?_
    by_contra hne
    exact hyoung 0 (Nat.pos_of_ne_zero hne) h0
  have hnoalias : ∀ m < j, position D leafIndex = position D (roll.log m).index →
      leafIndex = (roll.log m).index := fun m hm hpos =>
    halias m (by omega) (fun m' hm' => hyoung m' (by omega)) hpos
  obtain ⟨proof', hproof', hcheck⟩ := h.checkReplay_eq (T i) hj0 (by omega) (by omega) hnoalias
    hproof
  rw [hleaf] at hcheck
  rw [hcheck]
  refine ⟨fun hne => if_neg hne, fun heq => ⟨proof', ?_, fun l hl => ?_⟩⟩
  · rw [if_pos heq, decide_eq_true ⟨heq.symm, hcur⟩]
  · rw [hproof' l hl]
    exact hcur l hl

omit [DecidableEq Node] hB in
/-- Siblings that are current already are replayed on as if they were old. -/
theorem replayLogs_congr (h : RingInv base roll ws) (hD0 : 0 < D) {leafIndex : UInt32} {j : ℕ}
    (hj : j < roll.bufferSize)
    (halias : ∀ m < j, position D leafIndex = position D (roll.log m).index →
      leafIndex = (roll.log m).index) {old mixed : Vector Node D}
    (hold : ∀ l < D, levels old l = sibling hashv (after base (ws.drop j)) (position D leafIndex) l)
    (hmixed : ∀ l < D, levels mixed l = levels old l ∨
      levels mixed l = sibling hashv (after base ws) (position D leafIndex) l) (leaf : Node) :
    roll.replayLogs leafIndex j (mixed, leaf) = roll.replayLogs leafIndex j (old, leaf) := by
  have hjsize := h.size
  have hreplay : ∀ proof : Vector Node D,
      let st := replay hashv base ws (position D leafIndex) j (levels proof, leaf)
      ∃ proof', roll.replayLogs leafIndex j (proof, leaf) = some (proof', st.2) ∧
        ∀ l < D, levels proof' l = st.1 l := fun proof =>
    h.replayLogs_eq hD0 (by omega) (by omega) halias fun _ _ => rfl
  obtain ⟨old', hlogs, hold'⟩ := hreplay old
  obtain ⟨mixed', hlogs', hmixed'⟩ := hreplay mixed
  rw [hlogs, hlogs']
  have hlevels : ∀ l < D, levels mixed' l = levels old' l := by
    intro l hl
    rw [hmixed' l hl, hold' l hl, MerkleTree.replay_fst, MerkleTree.replay_fst]
    split_ifs with hnew
    · rfl
    · -- a sibling that no write lies under was current at the start
      have hsame : sibling hashv (after base ws) (position D leafIndex) l =
          sibling hashv (after base (ws.drop j)) (position D leafIndex) l :=
        MerkleTree.sibling_after_drop hashv fun w hw hs => hnew ⟨w, hw, hs⟩
      rcases hmixed l hl with heq | heq
      · exact heq
      · exact heq.trans (hsame.trans (hold l hl).symm)
  have hvec : mixed' = old' := Vector.ext fun l hl => by
    rw [← levels_of_lt _ hl, ← levels_of_lt _ hl, hlevels l hl]
  rw [hvec, MerkleTree.replay_snd, MerkleTree.replay_snd]

/-- A proof of an earlier tree is checked with the same result after some of its siblings
are brought up to date. -/
theorem checkValidLeaf_congr [CollisionFree Node] (h : RingInv base roll ws) (hD0 : 0 < D)
    {leafIndex : UInt32} {T : ℕ → Node}
    (hfound : ∃ k < roll.bufferSize, (roll.log k).root = MerkleTree.root hashv D T)
    (halias : roll.NoAlias (MerkleTree.root hashv D T) leafIndex) {old mixed : Vector Node D}
    (hold : ∀ l < D, levels old l = sibling hashv T (position D leafIndex) l)
    (hmixed : ∀ l < D, levels mixed l = levels old l ∨
      levels mixed l = sibling hashv (after base ws) (position D leafIndex) l) (leaf : Node)
    (allow : Bool) :
    roll.checkValidLeaf (MerkleTree.root hashv D T) leaf mixed leafIndex allow =
      roll.checkValidLeaf (MerkleTree.root hashv D T) leaf old leafIndex allow := by
  have hi : position D leafIndex < 2 ^ D := position_lt D leafIndex
  rcases roll.exists_youngest (MerkleTree.root hashv D T) with hnone | ⟨j, hj, hroot, hyoung⟩
  · obtain ⟨k, hk, hroot⟩ := hfound
    exact absurd hroot (hnone k hk)
  have hT := h.after_drop_eq hj hroot
  rw [roll.checkValidLeaf_of_found h.pow h.size_le hj hroot hyoung,
    roll.checkValidLeaf_of_found h.pow h.size_le hj hroot hyoung, MerkleRoll.checkReplay,
    MerkleRoll.checkReplay, h.replayLogs_congr hD0 hj
      (fun m hm hpos => halias m (by omega) (fun m' hm' => hyoung m' (by omega)) hpos)
      (fun l hl => by rw [hold l hl, MerkleTree.sibling_congr hashv hT hi hl]) hmixed]

/-- The current path of a leaf passes the check as it is. -/
theorem checkValidLeaf_current [CollisionFree Node] (h : RingInv base roll ws)
    (leafIndex : UInt32) {proof : Vector Node D}
    (hproof : ∀ l < D, levels proof l = sibling hashv (after base ws) (position D leafIndex) l)
    (allow : Bool) :
    ∃ proof', roll.checkValidLeaf (MerkleTree.root hashv D (after base ws))
      (after base ws (position D leafIndex)) proof leafIndex allow = .ok (true, proof') := by
  have hroot : (roll.log 0).root = MerkleTree.root hashv D (after base ws) :=
    h.log_root h.size_pos
  obtain ⟨proof', hok, -⟩ := (h.checkValidLeaf_stale ⟨0, h.size_pos, hroot⟩ (.inr hroot)
    (MerkleRoll.noAlias_current hroot leafIndex) hproof allow).2 rfl
  exact ⟨proof', hok⟩

/-- With such an obstacle the check panics. -/
theorem checkValidLeaf_alias (h : RingInv base roll ws) {currentRoot : Node}
    (hfound : ∃ k < roll.bufferSize, (roll.log k).root = currentRoot) {leafIndex : UInt32}
    (halias : ¬ roll.NoAlias currentRoot leafIndex) (leaf : Node) (proof : Vector Node D)
    (allow : Bool) : roll.checkValidLeaf currentRoot leaf proof leafIndex allow = .panic := by
  rcases roll.exists_youngest currentRoot with hnone | ⟨j, hj, hroot, hyoung⟩
  · obtain ⟨k, hk, hroot⟩ := hfound
    exact absurd hroot (hnone k hk)
  simp only [MerkleRoll.NoAlias, not_forall] at halias
  obtain ⟨m, hm, hother, hpos, hne⟩ := halias
  have hmj : m < j := by
    by_contra hle
    exact hother j (not_lt.1 hle) hroot
  have hD : D < 31 := h.depth
  rw [roll.checkValidLeaf_of_found h.pow h.size_le hj hroot hyoung, MerkleRoll.checkReplay,
    MerkleRoll.replayLogs_alias (by omega) ⟨m, hmj, hpos, hne⟩]

/-- A full list of siblings of an earlier tree, some of which are brought up to date. -/
theorem sameCheck [CollisionFree Node] (h : RingInv base roll ws) (hD0 : 0 < D) {i : UInt32}
    (hi : i.toNat < 2 ^ D) {T : ℕ → Node}
    (hfound : ∃ k < roll.bufferSize, (roll.log k).root = MerkleTree.root hashv D T)
    (halias : roll.NoAlias (MerkleTree.root hashv D T) i) {mixed : List Node}
    (hlen : mixed.length = D)
    (hmixed : ∀ l (hl : l < mixed.length), mixed[l] = sibling hashv T i.toNat l ∨
      mixed[l] = sibling hashv (after base ws) i.toNat l) :
    roll.SameCheck (MerkleTree.root hashv D T) i mixed (siblings D T i.toNat) := by
  obtain ⟨old, hold, hlevels⟩ := fillInProof_siblings D T i.toNat
  cases hfill : fillInProof D mixed with
  | none => exact absurd (fillInProof_eq_none.1 hfill) (by omega)
  | some proof =>
    rw [← position_of_lt hi] at hlevels hmixed
    refine ⟨proof, old, hfill, hold, fun leaf allow =>
      h.checkValidLeaf_congr hD0 hfound halias hlevels (fun l hl => ?_) leaf allow⟩
    rw [levels_of_lt _ hl, fillInProof_getElem hfill hl, dif_pos (by omega), hlevels l hl]
    exact hmixed l (by omega)

end RingInv

end Candyland.ConcurrentMerkleTree
