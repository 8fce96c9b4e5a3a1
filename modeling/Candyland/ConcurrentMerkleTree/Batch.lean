import Candyland.Lib.Snapshots
import Candyland.ConcurrentMerkleTree.FillEmpty

/-!
# Rolls that start with a root

`initialize_with_root` checks that the given path hashes to the root, but not that all leaves to
the right of the path are empty.  After it `append` may do more than one write: where the new leaf
is a left child, it takes everything beside it for empty.  The invariant here allows for this.  It
has the tree after every update, where the invariant of a roll from `initialize` has the leaf that
was written.
-/

namespace Candyland.ConcurrentMerkleTree

open CircularBuffer (next Window)
open MerkleTree (sibling latest Framed graft replayTrees)

variable {Node : Type} [NodeHash Node] [DecidableEq Node] {D B : ℕ} [hB : BufferSize B]

/-- What the change log of age `k` holds after the updates `ts`. -/
def SnapshotEntry (base : ℕ → Node) (ts : List (ℕ × (ℕ → Node))) (k : ℕ) (cl : ChangeLog Node D) :
    Prop :=
  cl.root = MerkleTree.root hashv D (latest base (ts.drop k)) ∧
    ∀ h : k < ts.length, cl.Records ts[k].2 ts[k].1

/-- The path is that of the leaf before the first free position. -/
structure LastPath (path : Path Node D) (T : ℕ → Node) : Prop where
  leaf_eq : 0 < path.index.toNat → path.index.toNat < 2 ^ D →
    path.leaf = T (path.index.toNat - 1)
  proof_eq : 0 < path.index.toNat → path.index.toNat < 2 ^ D →
    ∀ l < D, levels path.proof l = sibling hashv T (path.index.toNat - 1) l

/-- The roll stands for the last of the trees. -/
structure SnapshotInv (base : ℕ → Node) (roll : MerkleRoll Node D B)
    (ts : List (ℕ × (ℕ → Node))) : Prop where
  depth : D < 31
  pow : B.isPowerOfTwo
  size : roll.bufferSize = min (ts.length + 1) B
  logs : Window roll.changeLogs roll.activeIndex roll.bufferSize (SnapshotEntry base ts)
  bound : ∀ u ∈ ts, u.1 < 2 ^ D ∧ u.1 < roll.rightmostProof.index.toNat
  framed : Framed hashv base ts
  last : LastPath roll.rightmostProof (latest base ts)

namespace SnapshotInv

variable {base : ℕ → Node} {roll : MerkleRoll Node D B} {ts : List (ℕ × (ℕ → Node))}

omit [DecidableEq Node] hB in
theorem size_le (h : SnapshotInv base roll ts) : roll.bufferSize ≤ B := by
  rw [h.size]
  exact min_le_right _ _

omit [DecidableEq Node] in
theorem size_pos (h : SnapshotInv base roll ts) : 0 < roll.bufferSize := by
  rw [h.size]
  exact lt_min (Nat.succ_pos _) hB.pos

omit [DecidableEq Node] in
/-- The root of the roll is the root of its tree. -/
theorem current_root (h : SnapshotInv base roll ts) :
    roll.getChangeLog.root = MerkleTree.root hashv D (latest base ts) := by
  rw [MerkleRoll.getChangeLog_eq_log]
  exact (h.logs 0 h.size_pos).1

omit [DecidableEq Node] hB in
theorem log_records (h : SnapshotInv base roll ts) {k : ℕ} (hk : k < ts.length) (hkB : k < B) :
    (roll.log k).Records ts[k].2 ts[k].1 :=
  (h.logs k (by rw [h.size]; omega)).2 hk

omit [DecidableEq Node] in
/-- The counters advance with every update. -/
theorem counters (h : SnapshotInv base roll ts) :
    roll.updateInternalCounters.activeIndex = next roll.activeIndex ∧
      roll.updateInternalCounters.bufferSize = min (ts.length + 2) B := by
  refine ⟨mask_succ h.pow _, ?_⟩
  have hsize := h.size
  simp only [MerkleRoll.updateInternalCounters]
  split_ifs <;> omega

omit [DecidableEq Node] in
/-- Writing the change log of an update behind the advanced cursor. -/
theorem push (h : SnapshotInv base roll ts) {roll' : MerkleRoll Node D B} {cl : ChangeLog Node D}
    {j : ℕ} {T : ℕ → Node} (hcl : cl.Records T j)
    (hactive : roll'.activeIndex = roll.updateInternalCounters.activeIndex)
    (hlogs : roll'.changeLogs = roll.changeLogs.set roll'.activeIndex cl)
    (hsize : roll'.bufferSize = roll.updateInternalCounters.bufferSize)
    (hj : j < 2 ^ D ∧ j < roll'.rightmostProof.index.toNat)
    (hmono : roll.rightmostProof.index.toNat ≤ roll'.rightmostProof.index.toNat)
    (hframe : ∀ u ∈ ts, ∀ l, u.1 / 2 ^ l ≠ j / 2 ^ l → MerkleTree.node hashv T l (u.1 / 2 ^ l) =
      MerkleTree.node hashv (latest base ts) l (u.1 / 2 ^ l))
    (hlast : LastPath roll'.rightmostProof T) : SnapshotInv base roll' ((j, T) :: ts) := by
  rw [h.counters.1] at hactive
  rw [h.counters.2] at hsize
  have hwindow : ∀ a, a = next roll.activeIndex → Window (roll.changeLogs.set a cl) a
      (min (ts.length + 2) B) (SnapshotEntry base ((j, T) :: ts)) := by
    rintro a rfl k hk
    have hpush := h.logs.push (Q := SnapshotEntry base ((j, T) :: ts)) (x := cl)
      ⟨hcl.root_eq, fun _ => hcl⟩ fun k _ y hy => ⟨hy.1, fun hlt => hy.2 (by simpa using hlt)⟩
    refine hpush k ?_
    rw [h.size]
    omega
  refine ⟨h.depth, h.pow, hsize, ?_, ?_, ⟨h.framed, hframe⟩, hlast⟩
  · rw [hlogs, hsize]
    exact hwindow _ hactive
  · intro u hu
    rcases List.mem_cons.1 hu with rfl | hu
    · exact hj
    · obtain ⟨hD, hn⟩ := h.bound u hu
      exact ⟨hD, by omega⟩

end SnapshotInv

/-! ### What an update does -/

section Update

variable {roll roll' : MerkleRoll Node D B} {T : ℕ → Node}

/-- `roll'` is `roll` after an update through position `j` that made the tree `T'`. -/
structure Updated (roll : MerkleRoll Node D B) (j : ℕ) (T' : ℕ → Node)
    (roll' : MerkleRoll Node D B) : Prop where
  records : roll'.getChangeLog.Records T' j
  active : roll'.activeIndex = roll.updateInternalCounters.activeIndex
  logs : roll'.changeLogs = roll.changeLogs.set roll'.activeIndex roll'.getChangeLog
  size : roll'.bufferSize = roll.updateInternalCounters.bufferSize
  below : j < 2 ^ D ∧ j < roll'.rightmostProof.index.toNat
  mono : roll.rightmostProof.index.toNat ≤ roll'.rightmostProof.index.toNat
  last : LastPath roll'.rightmostProof T'

omit [DecidableEq Node] in
/-- A write through a current proof. -/
theorem updated_of_updateBuffersFromProof (hD : D < 31) (hlast : LastPath roll.rightmostProof T)
    {w r : Node} {proof : Vector Node D} {index : UInt32}
    (hproof : ∀ l < D, levels proof l = sibling hashv T (position D index) l)
    (hok : roll.updateInternalCounters.updateBuffersFromProof w proof index = (.ok r, roll')) :
    Updated roll (position D index) (Function.update T (position D index) w) roll' := by
  have hrm : roll.updateInternalCounters.rightmostProof = roll.rightmostProof := rfl
  have hlogs : roll.updateInternalCounters.changeLogs = roll.changeLogs := rfl
  have hrec := ChangeLog.records_replaceAndRecomputePath
    (roll.updateInternalCounters.changeLogs[roll.updateInternalCounters.activeIndex]) w
    (by omega) hproof
  have hclindex : ((roll.updateInternalCounters.changeLogs[
      roll.updateInternalCounters.activeIndex]).replaceAndRecomputePath index w proof).2.index =
    index := rfl
  rw [MerkleRoll.updateBuffersFromProof] at hok
  generalize (roll.updateInternalCounters.changeLogs[
    roll.updateInternalCounters.activeIndex]).replaceAndRecomputePath index w proof = res
    at hok hrec hclindex
  obtain ⟨root, cl⟩ := res
  dsimp only at hrec hclindex
  have hpos := position_lt D index
  simp only [UInt32.lt_iff_toNat_lt, capacity_toNat hD, hrm] at hok
  split_ifs at hok with hpart hlt heq
  · -- an old leaf of a partial tree
    have hidx : position D index = index.toNat := position_of_lt (by omega)
    have hn : 0 < roll.rightmostProof.index.toNat := by omega
    have hsub := toNat_sub_one hn
    have hposn : position D (roll.rightmostProof.index - 1) =
        roll.rightmostProof.index.toNat - 1 := by
      rw [position_of_lt (by omega), hsub]
    have hD0 : 0 < D := by
      rcases Nat.eq_zero_or_pos D with rfl | hD0
      · omega
      · exact hD0
    obtain ⟨proof', hupd, hproof'⟩ := hrec.updateProofOrLeaf_eq hD0 (by omega)
      (roll.rightmostProof.index - 1) roll.rightmostProof.leaf
      (fun hsame => by rw [hclindex, ← UInt32.toNat_inj, ← hidx, ← hsame, hposn, hsub])
      (fun l hl => hlast.proof_eq hn hpart l hl)
    rw [hposn, hlast.leaf_eq hn hpart] at hupd hproof'
    rw [hlast.leaf_eq hn hpart, hupd] at hok
    obtain ⟨-, rfl⟩ := Prod.mk.inj hok
    refine ⟨?_, rfl, ?_, rfl, ⟨hpos, by dsimp only; omega⟩, le_rfl, fun _ _ => ?_, fun _ _ l hl => ?_⟩
    · simpa [MerkleRoll.getChangeLog] using hrec
    · simp [MerkleRoll.getChangeLog, hlogs]
    · rw [MerkleTree.patch_update_snd]
    · rw [hproof' l hl, MerkleTree.patch_update_fst]
  · -- the first free position
    have hsame : index.toNat = roll.rightmostProof.index.toNat := by rw [heq]
    have hidx : position D index = index.toNat := position_of_lt (by omega)
    cases hleaf : cl.getLeaf with
    | none => rw [hleaf] at hok; exact absurd (Prod.mk.inj hok).1 (by simp)
    | some leaf =>
      rw [hleaf] at hok
      obtain ⟨-, rfl⟩ := Prod.mk.inj hok
      obtain ⟨hD0, hpath⟩ := Vector.getElem?_eq_some_iff.1 hleaf
      have hw : leaf = w := by
        rw [← hpath, hrec.path_eq 0 hD0, pow_zero, Nat.div_one, MerkleTree.node_zero,
          Function.update_self]
      have hsucc : (index + 1).toNat = index.toNat + 1 := toNat_add_one hD (by omega)
      refine ⟨?_, rfl, ?_, rfl, ⟨hpos, by dsimp only; omega⟩, by dsimp only; omega, fun _ _ => ?_,
        fun _ _ l hl => ?_⟩
      · simpa [MerkleRoll.getChangeLog] using hrec
      · simp [MerkleRoll.getChangeLog, hlogs]
      · dsimp only
        rw [hsucc, Nat.add_sub_cancel, ← hidx, Function.update_self, hw]
      · dsimp only
        rw [hsucc, Nat.add_sub_cancel, ← hidx, MerkleTree.sibling_update_self, hproof l hl]
  · exact absurd (Prod.mk.inj hok).1 (by simp)
  · -- a full tree
    obtain ⟨-, rfl⟩ := Prod.mk.inj hok
    refine ⟨?_, rfl, ?_, rfl, ⟨hpos, by dsimp only; omega⟩, le_rfl, fun _ hlt => ?_,
      fun _ hlt => ?_⟩
    · simpa [MerkleRoll.getChangeLog] using hrec
    · simp [MerkleRoll.getChangeLog, hlogs]
    · exact absurd hlt hpart
    · exact absurd hlt hpart

omit [DecidableEq Node] in
/-- What the loop of `append` makes of any tree: the new leaf takes the place of the subtree up to
the intersection. -/
theorem AppendTrees.graft {n t : ℕ} (hodd : Bits.OddMultiple n t) (leaf : Node) :
    MerkleRoll.AppendTrees T (graft EMPTY T n t leaf) n t where
  low l hl := by
    rw [emptyNode_eq_uniform]
    refine MerkleTree.node_eq_uniform hashv fun q hq => ?_
    have hne : q ≠ n := by
      rintro rfl
      exact Bits.xor_one_ne _ hq.symm
    have hhalf : q / 2 ^ (l + 1) = n / 2 ^ (l + 1) := by
      rw [Bits.div_pow_succ, Bits.div_pow_succ, hq, Bits.xor_one_div_two]
    have hdiv : q / 2 ^ t = n / 2 ^ t := by
      obtain ⟨d, rfl⟩ := Nat.exists_eq_add_of_le (show l + 1 ≤ t from hl)
      rw [pow_add, ← Nat.div_div_eq_div_mul, ← Nat.div_div_eq_div_mul, hhalf]
    rw [MerkleTree.graft, if_neg hne, if_pos hdiv]
  meet := by
    rw [sibling, Bits.xor_one_of_odd hodd.odd, hodd.div_eq le_rfl, Nat.add_sub_cancel]
    refine MerkleTree.node_congr hashv fun q hq => MerkleTree.graft_of_div_ne ?_
    rw [hq, hodd.div_eq le_rfl]
    omega
  high l hl := by
    rw [sibling, sibling, hodd.div_pred hl]
    refine MerkleTree.node_congr hashv fun q hq => MerkleTree.graft_of_div_ne fun hdiv => ?_
    obtain ⟨d, rfl⟩ := Nat.exists_eq_add_of_le hl.le
    rw [pow_add, ← Nat.div_div_eq_div_mul, ← Nat.div_div_eq_div_mul, hdiv] at hq
    exact Bits.xor_one_ne _ hq.symm

/-- An `append` behind other leaves. -/
theorem updated_of_append_pos (hD : D < 31) (hpow : B.isPowerOfTwo)
    (hlast : LastPath roll.rightmostProof T) (hpos : 0 < roll.rightmostProof.index.toNat)
    (hn : roll.rightmostProof.index.toNat < 2 ^ D) {leaf : Node} (hleaf : leaf ≠ EMPTY) :
    let n := roll.rightmostProof.index.toNat
    ∃ r roll', roll.append leaf = (.ok r, roll') ∧
      Updated roll n (graft EMPTY T n (trailingZeros roll.rightmostProof.index) leaf) roll' ∧
      roll'.rightmostProof.index.toNat = n + 1 := by
  intro n
  have hcap : ¬ roll.rightmostProof.index ≥ capacity D := by
    rw [ge_iff_le, UInt32.le_iff_toNat_le, capacity_toNat hD]
    exact not_le.2 hn
  have hne : roll.rightmostProof.index ≠ 0 := by
    rintro hzero
    rw [hzero] at hpos
    exact absurd hpos (by simp)
  have hodd : Bits.OddMultiple n (trailingZeros roll.rightmostProof.index) :=
    oddMultiple_trailingZeros hne
  have hloop := MerkleRoll.appendLoop_inv hD rfl hpos (AppendTrees.graft (T := T) hodd leaf)
    (hlast.leaf_eq hpos hn) (fun l hl => hlast.proof_eq hpos hn l hl)
  have hself := MerkleTree.graft_self EMPTY leaf T n (trailingZeros roll.rightmostProof.index)
  rw [hself] at hloop
  have hsucc : (roll.rightmostProof.index + 1).toNat = n + 1 := toNat_add_one hD hn
  have hposition : position D roll.rightmostProof.index = n := position_of_lt hn
  rw [MerkleRoll.append, if_pos (checkBounds_iff.2 ⟨hD, hpow⟩), if_neg hleaf, if_neg hcap,
    if_neg hne]
  generalize MerkleTree.graft EMPTY T n (trailingZeros roll.rightmostProof.index) leaf = T'
    at hloop hself ⊢
  dsimp only at hloop ⊢
  generalize Nat.fold D (MerkleRoll.appendStep roll.rightmostProof.index)
    ⟨Vector.replicate D EMPTY, leaf, roll.rightmostProof.leaf, roll.rightmostProof.proof⟩ = s
    at hloop ⊢
  refine ⟨_, _, rfl, ⟨?_, rfl, ?_, rfl, ⟨hn, ?_⟩, ?_, fun _ _ => ?_, fun _ _ l hl => ?_⟩, hsucc⟩
  · have hroot : s.node = MerkleTree.root hashv D T' := by
      rw [hloop.node_eq, Nat.div_eq_of_lt hn, MerkleTree.root]
    rw [show (MerkleRoll.getChangeLog _) = _ from Vector.getElem_set_self _]
    exact ⟨hroot, hposition, fun l hl => hloop.changes l hl hl⟩
  · simp [MerkleRoll.getChangeLog, MerkleRoll.updateInternalCounters]
  · rw [hsucc]
    exact Nat.lt_succ_self n
  · rw [hsucc]
    exact Nat.le_succ n
  · dsimp only
    rw [hsucc, Nat.add_sub_cancel, hself]
  · dsimp only
    rw [hsucc, Nat.add_sub_cancel, hloop.proof_new l hl hl]

end Update

/-! ### Runs of updates -/

namespace SnapshotInv

variable {base : ℕ → Node} {roll roll' : MerkleRoll Node D B} {ts : List (ℕ × (ℕ → Node))}

omit [DecidableEq Node] in
theorem updated (h : SnapshotInv base roll ts) {j : ℕ} {T' : ℕ → Node} (hupd : Updated roll j T' roll')
    (hframe : ∀ u ∈ ts, ∀ l, u.1 / 2 ^ l ≠ j / 2 ^ l → MerkleTree.node hashv T' l (u.1 / 2 ^ l) =
      MerkleTree.node hashv (latest base ts) l (u.1 / 2 ^ l)) :
    SnapshotInv base roll' ((j, T') :: ts) :=
  h.push hupd.records hupd.active hupd.logs hupd.size hupd.below hupd.mono hframe hupd.last

/-- A write through a proof that passed the check. -/
theorem tryApplyProof_ok [CollisionFree Node] (h : SnapshotInv base roll ts)
    {currentRoot leaf w r : Node} {proof : Vector Node D} {index : UInt32} {allow : Bool}
    (hok : roll.tryApplyProof currentRoot leaf w proof index allow = (.ok r, roll')) :
    ∃ j T', SnapshotInv base roll' ((j, T') :: ts) := by
  rw [MerkleRoll.tryApplyProof] at hok
  cases hcheck : roll.checkValidLeaf currentRoot leaf proof index allow with
  | panic => rw [hcheck] at hok; exact absurd (Prod.mk.inj hok).1 (by simp)
  | err error => rw [hcheck] at hok; exact absurd (Prod.mk.inj hok).1 (by simp)
  | ok res =>
    obtain ⟨validRoot, proof'⟩ := res
    rw [hcheck] at hok
    dsimp only at hok
    split_ifs at hok with hvalid
    · subst hvalid
      obtain ⟨-, hproof'⟩ :=
        roll.checkValidLeaf_sound h.depth h.pow h.size_le h.size_pos h.current_root hcheck
      have hupd := updated_of_updateBuffersFromProof h.depth h.last hproof' hok
      exact ⟨_, _, h.updated hupd fun u _ l hne => MerkleTree.node_update_of_ne hashv hne⟩
    · exact absurd (Prod.mk.inj hok).1 (by simp)

theorem append_ok [CollisionFree Node] (h : SnapshotInv base roll ts) {leaf r : Node}
    (hok : roll.append leaf = (.ok r, roll')) : ∃ j T', SnapshotInv base roll' ((j, T') :: ts) := by
  have hD : D < 31 := h.depth
  have hbranch := hok
  rw [MerkleRoll.append] at hbranch
  split_ifs at hbranch with hcheck hleaf hfull hzero
  · exact absurd (Prod.mk.inj hbranch).1 (by simp)
  · exact absurd (Prod.mk.inj hbranch).1 (by simp)
  · -- the first leaf is written through a proof
    rw [MerkleRoll.initializeTreeFromAppend] at hbranch
    split_ifs at hbranch
    · exact h.tryApplyProof_ok hbranch
    · exact absurd (Prod.mk.inj hbranch).1 (by simp)
  · have hn : roll.rightmostProof.index.toNat < 2 ^ D := by
      rwa [ge_iff_le, UInt32.le_iff_toNat_le, capacity_toNat hD, not_le] at hfull
    have hpos : 0 < roll.rightmostProof.index.toNat := by
      rwa [Nat.pos_iff_ne_zero, ne_eq, ← UInt32.toNat_zero, UInt32.toNat_inj]
    obtain ⟨r₁, roll₁, hok₁, hupd, -⟩ := updated_of_append_pos hD h.pow h.last hpos hn hleaf
    obtain ⟨-, rfl⟩ := Prod.mk.inj (hok.symm.trans hok₁)
    -- earlier leaves are before the new one
    refine ⟨_, _, h.updated hupd fun u hu l hne => ?_⟩
    exact MerkleTree.node_graft_of_lt (oddMultiple_trailingZeros hzero).mod_eq (h.bound u hu).2 hne
  · exact absurd (Prod.mk.inj hbranch).1 (by simp)

/-- The invariant holds after every successful call. -/
theorem exec_ok [CollisionFree Node] (h : SnapshotInv base roll ts) {c : Call Node} {r : Node}
    (hok : c.exec roll = (.ok r, roll')) : ∃ j T', SnapshotInv base roll' ((j, T') :: ts) := by
  cases c with
  | append node => exact h.append_ok hok
  | setLeaf currentRoot previousLeaf newLeaf proofVec index =>
    rw [Call.exec, MerkleRoll.setLeaf] at hok
    split_ifs at hok
    · exact absurd (Prod.mk.inj hok).1 (by simp)
    · cases hfill : fillInProof D proofVec with
      | none => rw [hfill] at hok; exact absurd (Prod.mk.inj hok).1 (by simp)
      | some proof => rw [hfill] at hok; exact h.tryApplyProof_ok hok
    · exact absurd (Prod.mk.inj hok).1 (by simp)
  | fillEmptyOrAppend currentRoot leaf proofVec index =>
    rw [Call.exec, MerkleRoll.fillEmptyOrAppend_eq _ _ _ _ (checkBounds_iff.2 ⟨h.depth, h.pow⟩)]
      at hok
    split_ifs at hok
    · exact h.append_ok hok
    · cases hfill : fillInProof D proofVec with
      | none => rw [hfill] at hok; exact absurd (Prod.mk.inj hok).1 (by simp)
      | some proof => rw [hfill] at hok; exact h.tryApplyProof_ok hok

end SnapshotInv

/-- `roll` comes from `start` by `n` successful updates. -/
inductive Updates (start : MerkleRoll Node D B) : ℕ → MerkleRoll Node D B → Prop
  | refl : Updates start 0 start
  | ok {n : ℕ} {roll roll' : MerkleRoll Node D B} {c : Call Node} {r : Node}
      (hrun : Updates start n roll) (h : c.exec roll = (.ok r, roll')) : Updates start (n + 1) roll'

theorem Updates.inv [CollisionFree Node] {base : ℕ → Node} {start roll : MerkleRoll Node D B} {n : ℕ}
    (hrun : Updates start n roll) (h : SnapshotInv base start []) :
    ∃ ts, SnapshotInv base roll ts ∧ ts.length = n := by
  induction hrun with
  | refl => exact ⟨[], h, rfl⟩
  | ok _ hok ih =>
    obtain ⟨ts, hinv, hlen⟩ := ih
    obtain ⟨j, T', hinv'⟩ := hinv.exec_ok hok
    exact ⟨_, hinv', by rw [List.length_cons, hlen]⟩

/-! ### The two starts -/

/-- The change logs of a roll on which no update was made are those of the zeroed account, but for
the root in the first and, after `initialize`, its path. -/
structure BatchStart (root leaf : Node) (proof : Vector Node D) (index : UInt32)
    (start : MerkleRoll Node D B) : Prop where
  bounds : checkBounds D B = true
  root_eq : root = recompute leaf proof index
  head_root : (start.log 0).root = root
  size : start.bufferSize = 1
  last_eq : start.rightmostProof = ⟨proof, leaf, index + 1⟩
  index_eq : ∀ k, (start.log k).index = 0
  path_eq : ∀ k l (hl : l < D), (start.log k).path[l] = EMPTY

theorem initializeWithRoot_batchStart {root leaf r : Node} {proofVec : List Node} {index : UInt32}
    {start : MerkleRoll Node D B}
    (h : (MerkleRoll.new : MerkleRoll Node D B).initializeWithRoot root leaf proofVec index =
      (.ok r, start)) :
    r = root ∧ ∃ proof, (∀ l (hl : l < D), proofVec[l]? = some proof[l]) ∧
      BatchStart root leaf proof index start := by
  rw [MerkleRoll.initializeWithRoot] at h
  dsimp only at h
  split_ifs at h with hcheck hlen hroot
  · obtain ⟨hr, rfl⟩ := Prod.mk.inj h
    refine ⟨(Outcome.ok.inj hr).symm, ⟨proofVec.toArray, by simpa using hlen⟩, fun l hl => ?_,
      hcheck, hroot, ?_, rfl, rfl, fun k => ?_, fun k l hl => ?_⟩
    · rw [List.getElem?_eq_getElem (by omega)]
      rfl
    · simp [MerkleRoll.log]
    · rw [MerkleRoll.log, Fin.getElem_fin, Vector.getElem_set]
      split_ifs
      · simp [MerkleRoll.new, ChangeLog.default, Vector.get]
      · simp [MerkleRoll.new, ChangeLog.default]
    · simp only [MerkleRoll.log, Fin.getElem_fin, Vector.getElem_set]
      split_ifs
      · simp [MerkleRoll.new, ChangeLog.default, Vector.get]
      · simp [MerkleRoll.new, ChangeLog.default]
  · exact absurd (Prod.mk.inj h).1 (by simp)
  · exact absurd (Prod.mk.inj h).1 (by simp)
  · exact absurd (Prod.mk.inj h).1 (by simp)

/-- The position before the first free one is that of the last leaf of the batch. -/
theorem pred_next {index : UInt32} (hpos : 0 < (index + 1).toNat) :
    index.toNat = (index + 1).toNat - 1 := by
  have hlt := index.toNat_lt
  rw [UInt32.toNat_add, UInt32.toNat_one] at hpos ⊢
  omega

omit [DecidableEq Node] in
theorem BatchStart.inv [CollisionFree Node] {base : ℕ → Node} {leaf : Node}
    {proof : Vector Node D} {index : UInt32} {start : MerkleRoll Node D B}
    (h : BatchStart (MerkleTree.root hashv D base) leaf proof index start) :
    SnapshotInv base start [] := by
  obtain ⟨hD, hpow⟩ := checkBounds_iff.1 h.bounds
  obtain ⟨hleaf, hproof⟩ := (recompute_eq_root_iff (by omega)).1 h.root_eq.symm
  have hposition : 0 < start.rightmostProof.index.toNat →
      start.rightmostProof.index.toNat < 2 ^ D →
        position D index = start.rightmostProof.index.toNat - 1 := by
    rw [h.last_eq]
    dsimp only
    intro hpos hlt
    have hpred := pred_next hpos
    rw [← hpred]
    exact position_of_lt (by omega)
  refine ⟨hD, hpow, ?_, ?_, by simp, trivial, fun hpos hlt => ?_, fun hpos hlt l hl => ?_⟩
  · have hB1 := hB.pos
    rw [h.size, List.length_nil]
    omega
  · intro k hk
    rw [h.size] at hk
    obtain rfl : k = 0 := by omega
    exact ⟨h.head_root, fun hlt => absurd hlt (by simp)⟩
  · rw [← hposition hpos hlt, h.last_eq]
    exact hleaf
  · rw [← hposition hpos hlt, h.last_eq]
    exact hproof l hl

theorem snapshotInv_initializeRoll {start : MerkleRoll Node D B} {r : Node}
    (h : MerkleRoll.initializeRoll MerkleRoll.new = (.ok r, start)) :
    SnapshotInv (fun _ => EMPTY) start [] := by
  obtain ⟨hinv, -, -, hindex, -⟩ := initializeRoll_eq h
  refine ⟨hinv.depth, hinv.pow, hinv.size, ?_, by simp, trivial, fun hpos => ?_, fun hpos => ?_⟩
  · intro k hk
    refine ⟨?_, fun hlt => absurd hlt (by simp)⟩
    rw [List.drop_nil]
    simpa using (hinv.logs k hk).1
  · rw [hindex] at hpos
    exact absurd hpos (by simp)
  · rw [hindex] at hpos
    exact absurd hpos (by simp)

end Candyland.ConcurrentMerkleTree
