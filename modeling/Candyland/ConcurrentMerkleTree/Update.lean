import Candyland.ConcurrentMerkleTree.Invariant

/-!
# What a write does

Every successful call ends in one write.  `Written` says all that the write does to
the roll; the two ways to make it, through a verified proof and by `append`, are shown
to do exactly this.
-/

namespace Candyland.ConcurrentMerkleTree

open CircularBuffer (back next)
open MerkleTree (after sibling)

variable {Node : Type} [NodeHash Node] [DecidableEq Node] {D B : ℕ} [hB : BufferSize B]
  {base : ℕ → Node} {roll roll' : MerkleRoll Node D B} {ws : List (ℕ × Node)}

/-- `roll'` is `roll` after writing `w` through `index`, with result `r`. -/
structure Written (base : ℕ → Node) (roll : MerkleRoll Node D B) (ws : List (ℕ × Node))
    (index : UInt32) (w r : Node) (roll' : MerkleRoll Node D B) : Prop where
  inv : Inv base roll' ((position D index, w) :: ws)
  result : r = MerkleTree.root hashv D (Function.update (after base ws) (position D index) w)
  log_index : roll'.getChangeLog.index = index
  log_succ : ∀ m, m + 1 < B → roll'.log (m + 1) = roll.log m
  sequence : roll'.sequenceNumber = min (roll.sequenceNumber + 1) (2 ^ 64 - 1)
  rightmost_index : roll'.rightmostProof.index.toNat =
    if position D index = roll.rightmostProof.index.toNat then
      roll.rightmostProof.index.toNat + 1
    else roll.rightmostProof.index.toNat
  in_range : roll.rightmostProof.index.toNat < 2 ^ D →
    index.toNat ≤ roll.rightmostProof.index.toNat

omit [DecidableEq Node] in
/-- The current change log records the write. -/
theorem Written.records {index : UInt32} {w r : Node} (h : Written base roll ws index w r roll') :
    roll'.getChangeLog.Records (Function.update (after base ws) (position D index) w)
      (position D index) := by
  rw [MerkleRoll.getChangeLog_eq_log]
  exact h.inv.log_records (Nat.succ_pos _) hB.pos

/-! ### The rightmost path -/

theorem toNat_add_one {i : UInt32} (hD : D < 31) (hi : i.toNat < 2 ^ D) :
    (i + 1).toNat = i.toNat + 1 := by
  have hpow : 2 ^ D ≤ 2 ^ 31 := Nat.pow_le_pow_right (by norm_num) hD.le
  rw [UInt32.toNat_add, UInt32.toNat_one, Nat.mod_eq_of_lt (by omega)]

theorem toNat_sub_one {i : UInt32} (hi : 0 < i.toNat) : (i - 1).toNat = i.toNat - 1 := by
  have := i.toNat_lt
  rw [UInt32.toNat_sub, UInt32.toNat_one]
  omega

omit [DecidableEq Node] in
/-- A write before the first free position keeps the rightmost path up to date. -/
theorem Rightmost.update {path : Path Node D} {T : ℕ → Node} (h : Rightmost path T) {j : ℕ}
    {w leaf : Node} {proof : Vector Node D} (hj : j < path.index.toNat)
    (hleaf : leaf = Function.update T j w (path.index.toNat - 1))
    (hproof : ∀ l < D, levels proof l =
      sibling hashv (Function.update T j w) (path.index.toNat - 1) l) :
    Rightmost ⟨proof, leaf, path.index⟩ (Function.update T j w) where
  le := h.le
  empty q hq hqD := by
    dsimp only at hq
    rw [Function.update_of_ne (by omega), h.empty q hq hqD]
  leaf_eq _ _ := hleaf
  proof_eq _ := hproof

omit [DecidableEq Node] in
/-- In a full tree the rightmost path is out of use. -/
theorem Rightmost.full {path : Path Node D} {T T' : ℕ → Node} (h : Rightmost path T)
    (hfull : 2 ^ D ≤ path.index.toNat) : Rightmost path T' where
  le := h.le
  empty _ hq hqD := absurd hqD (by omega)
  leaf_eq _ hlt := absurd hlt (by omega)
  proof_eq hlt := absurd hlt (by omega)

omit [DecidableEq Node] in
/-- A write at the first free position moves the rightmost path there. -/
theorem Rightmost.extend {path : Path Node D} {T : ℕ → Node} (h : Rightmost path T)
    (hD : D < 31) (hlt : path.index.toNat < 2 ^ D) {w : Node} {proof : Vector Node D}
    (hproof : ∀ l < D, levels proof l = sibling hashv T path.index.toNat l) :
    Rightmost ⟨proof, w, path.index + 1⟩ (Function.update T path.index.toNat w) := by
  have hindex : (path.index + 1).toNat = path.index.toNat + 1 := toNat_add_one hD hlt
  refine ⟨?_, ?_, ?_, ?_⟩
  · dsimp only
    omega
  · intro q hq hqD
    dsimp only at hq
    rw [Function.update_of_ne (by omega), h.empty q (by omega) hqD]
  · intro _ _
    dsimp only
    rw [hindex, Nat.add_sub_cancel, Function.update_self]
  · intro _ l hl
    dsimp only
    rw [hindex, Nat.add_sub_cancel, MerkleTree.sibling_update_self, hproof l hl]

/-! ### Writing through a verified proof -/

omit [DecidableEq Node] in
/-- Applying a current proof is a write. -/
theorem Inv.updateBuffersFromProof_ok (h : Inv base roll ws) {w r : Node}
    {proof : Vector Node D} {index : UInt32}
    (hproof : ∀ l < D, levels proof l = sibling hashv (after base ws) (position D index) l)
    (hok : roll.updateInternalCounters.updateBuffersFromProof w proof index = (.ok r, roll')) :
    Written base roll ws index w r roll' := by
  have hD : D < 31 := h.depth
  obtain ⟨hactive, hsize⟩ := h.counters
  have hrm : roll.updateInternalCounters.rightmostProof = roll.rightmostProof := rfl
  have hlogs : roll.updateInternalCounters.changeLogs = roll.changeLogs := rfl
  have hseq : roll.updateInternalCounters.sequenceNumber =
    min (roll.sequenceNumber + 1) (2 ^ 64 - 1) := rfl
  generalize roll.updateInternalCounters = old at hok hactive hsize hrm hlogs hseq
  have hrec := ChangeLog.records_replaceAndRecomputePath old.changeLogs[old.activeIndex] w
    (by omega) hproof
  have hresult := ChangeLog.replaceAndRecomputePath_fst old.changeLogs[old.activeIndex] w
    (by omega) hproof
  have hclindex : (old.changeLogs[old.activeIndex].replaceAndRecomputePath index w proof).2.index =
    index := rfl
  rw [MerkleRoll.updateBuffersFromProof] at hok
  generalize old.changeLogs[old.activeIndex].replaceAndRecomputePath index w proof = res
    at hok hrec hresult hclindex
  obtain ⟨root, cl⟩ := res
  dsimp only at hrec hresult hclindex
  -- the part of the new roll that does not depend on the rightmost path
  have hring : ∀ p, RingInv base { old with
      changeLogs := old.changeLogs.set old.activeIndex cl
      rightmostProof := p } ((position D index, w) :: ws) := fun p =>
    h.push (position_lt D index) hrec hactive (by rw [← hlogs]) hsize
  have hlogindex : ∀ p, ({ old with
      changeLogs := old.changeLogs.set old.activeIndex cl
      rightmostProof := p } : MerkleRoll Node D B).getChangeLog.index = index := fun p => by
    simp [MerkleRoll.getChangeLog, hclindex]
  have hlogsucc : ∀ p m, m + 1 < B → ({ old with
      changeLogs := old.changeLogs.set old.activeIndex cl
      rightmostProof := p } : MerkleRoll Node D B).log (m + 1) = roll.log m := fun p m hm =>
    MerkleRoll.log_push (by exact hactive) (by rw [← hlogs]) hm
  simp only [UInt32.lt_iff_toNat_lt, capacity_toNat hD, hrm] at hok
  split_ifs at hok with hpart hlt heq
  · -- an old leaf of a partial tree: the rightmost path is patched
    have hpos : position D index = index.toNat := position_of_lt (by omega)
    have hn : 0 < roll.rightmostProof.index.toNat := by omega
    have hsub := toNat_sub_one hn
    have hposn : position D (roll.rightmostProof.index - 1) =
        roll.rightmostProof.index.toNat - 1 := by
      rw [position_of_lt (by omega), hsub]
    have hD0 : 0 < D := by
      rcases Nat.eq_zero_or_pos D with rfl | hD0
      · omega
      · exact hD0
    obtain ⟨proof', hupd, hproof'⟩ := hrec.updateProofOrLeaf_eq hD0 (by omega)
      (roll.rightmostProof.index - 1) roll.rightmostProof.leaf
      (fun hidx => by rw [hclindex, ← UInt32.toNat_inj, ← hpos, ← hidx, hposn, hsub])
      (fun l hl => h.rightmost.proof_eq hpart l hl)
    rw [hposn, h.rightmost.leaf_eq hn hpart] at hupd hproof'
    rw [h.rightmost.leaf_eq hn hpart, hupd] at hok
    obtain ⟨hr, rfl⟩ := Prod.mk.inj hok
    refine ⟨⟨hring _, ?_⟩, ?_, hlogindex _, hlogsucc _, hseq, ?_, fun _ => hlt.le⟩
    · refine h.rightmost.update (by omega) ?_ fun l hl => ?_
      · rw [MerkleTree.patch_update_snd]
      · rw [hproof' l hl, MerkleTree.patch_update_fst]
    · rw [← Outcome.ok.inj hr, ← hresult]
    · rw [if_neg (by omega)]
  · -- the first free position
    have hidx : index.toNat = roll.rightmostProof.index.toNat := by rw [heq]
    have hpos : position D index = index.toNat := position_of_lt (by omega)
    cases hleaf : cl.getLeaf with
    | none => rw [hleaf] at hok; exact absurd (Prod.mk.inj hok).1 (by simp)
    | some leaf =>
      rw [hleaf] at hok
      obtain ⟨hr, rfl⟩ := Prod.mk.inj hok
      obtain ⟨hD0, hpath⟩ := Vector.getElem?_eq_some_iff.1 hleaf
      have hw : leaf = w := by
        rw [← hpath, hrec.path_eq 0 hD0, pow_zero, Nat.div_one, MerkleTree.node_zero,
          Function.update_self]
      subst hw
      refine ⟨⟨hring _, ?_⟩, ?_, hlogindex _, hlogsucc _, hseq, ?_, fun _ => hidx.le⟩
      · rw [MerkleTree.after_cons, hpos, heq]
        refine h.rightmost.extend hD hpart fun l hl => ?_
        rw [hproof l hl, hpos, hidx]
      · rw [← Outcome.ok.inj hr, ← hresult]
      · dsimp only
        rw [if_pos (hpos.trans hidx), heq, toNat_add_one hD hpart]
  · exact absurd (Prod.mk.inj hok).1 (by simp)
  · -- a full tree
    obtain ⟨hr, rfl⟩ := Prod.mk.inj hok
    have hpos := position_lt D index
    refine ⟨⟨hring _, h.rightmost.full (by omega)⟩, ?_, hlogindex _, hlogsucc _, hseq, ?_,
      fun hlt => absurd hlt hpart⟩
    · rw [← Outcome.ok.inj hr, ← hresult]
    · rw [if_neg (by omega)]

omit [DecidableEq Node] hB in
/-- The write itself returns a root or panics. -/
theorem MerkleRoll.updateBuffersFromProof_ne_err (roll : MerkleRoll Node D B) (w : Node)
    (proof : Vector Node D) (index : UInt32) (error : CMTError) :
    (roll.updateBuffersFromProof w proof index).1 ≠ .err error := by
  rw [updateBuffersFromProof]
  generalize roll.changeLogs[roll.activeIndex].replaceAndRecomputePath index w proof = res
  obtain ⟨root, cl⟩ := res
  dsimp only
  split_ifs
  · cases cl.updateProofOrLeaf (roll.rightmostProof.index - 1) roll.rightmostProof.proof
      roll.rightmostProof.leaf <;> simp
  · cases cl.getLeaf <;> simp
  · simp
  · simp

/-- A verified proof replaces the leaf it was given for. -/
theorem Inv.tryApplyProof_ok [CollisionFree Node] (h : Inv base roll ws)
    {currentRoot leaf w r : Node} {proof : Vector Node D} {index : UInt32} {allow : Bool}
    (hok : roll.tryApplyProof currentRoot leaf w proof index allow = (.ok r, roll')) :
    leaf = after base ws (position D index) ∧ Written base roll ws index w r roll' := by
  rw [MerkleRoll.tryApplyProof] at hok
  cases hcheck : roll.checkValidLeaf currentRoot leaf proof index allow with
  | panic => rw [hcheck] at hok; exact absurd (Prod.mk.inj hok).1 (by simp)
  | err error => rw [hcheck] at hok; exact absurd (Prod.mk.inj hok).1 (by simp)
  | ok res =>
    obtain ⟨validRoot, proof'⟩ := res
    rw [hcheck] at hok
    dsimp only at hok
    split_ifs at hok with hvalid
    · subst hvalid
      obtain ⟨hleaf, hproof'⟩ := h.toRingInv.checkValidLeaf_sound hcheck
      exact ⟨hleaf, h.updateBuffersFromProof_ok hproof' hok⟩
    · exact absurd (Prod.mk.inj hok).1 (by simp)

/-- A failed write leaves the roll as it was. -/
theorem MerkleRoll.tryApplyProof_err {currentRoot leaf w : Node} {proof : Vector Node D}
    {index : UInt32} {allow : Bool} {error : CMTError}
    (herr : roll.tryApplyProof currentRoot leaf w proof index allow = (.err error, roll')) :
    roll' = roll := by
  rw [tryApplyProof] at herr
  cases hcheck : roll.checkValidLeaf currentRoot leaf proof index allow with
  | panic => rw [hcheck] at herr; exact (Prod.mk.inj herr).2.symm
  | err error => rw [hcheck] at herr; exact (Prod.mk.inj herr).2.symm
  | ok res =>
    obtain ⟨validRoot, proof'⟩ := res
    rw [hcheck] at herr
    dsimp only at herr
    split_ifs at herr
    · exact absurd (congrArg Prod.fst herr)
        (updateBuffersFromProof_ne_err _ w proof' index error)
    · exact (Prod.mk.inj herr).2.symm

end Candyland.ConcurrentMerkleTree
