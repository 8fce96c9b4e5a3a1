import Candyland.ConcurrentMerkleTree.StaleProofs

/-!
# Append is a write at the first free position

`append` needs no proof, since the roll keeps the path of its last leaf.  Here it is compared with
`set_leaf`, which is given the current root and the current siblings of the first free position:
the two leave the same roll behind, down to the change log in the ring and the rightmost path.
-/

namespace Candyland.ConcurrentMerkleTree

open MerkleTree (after sibling)

variable {Node : Type} [NodeHash Node] [DecidableEq Node] {D B : ℕ} [hB : BufferSize B]
  {base : ℕ → Node} {roll : MerkleRoll Node D B} {ws : List (ℕ × Node)}

omit [DecidableEq Node] in
/-- Two proofs with the same siblings are equal. -/
theorem vector_eq_of_levels {proof proof' : Vector Node D}
    (h : ∀ l < D, levels proof l = levels proof' l) : proof = proof' := by
  ext l hl
  rw [← levels_of_lt proof hl, ← levels_of_lt proof' hl, h l hl]

omit [DecidableEq Node] in
/-- A leaf of a tree with its own siblings recomputes the root, whatever the hash. -/
theorem recompute_siblings (hD : D ≤ 32) {T : ℕ → Node} {index : UInt32} {proof : Vector Node D}
    (hproof : ∀ l < D, levels proof l = sibling hashv T (position D index) l) :
    recompute (T (position D index)) proof index = MerkleTree.root hashv D T := by
  rw [recompute_eq_climb _ _ _ hD, ← MerkleTree.climb_mod hashv _ _ _ le_rfl, ← position,
    ← MerkleTree.climb_sibling_root hashv _ (position_lt D index)]
  exact MerkleTree.climb_congr hashv hproof

/-! ### The check of a current proof -/

/-- A current proof of a current leaf passes the check and comes back unchanged. -/
theorem RingInv.checkValidLeaf_head (h : RingInv base roll ws) {index : UInt32}
    {proof : Vector Node D}
    (hproof : ∀ l < D, levels proof l = sibling hashv (after base ws) (position D index) l)
    (allow : Bool) :
    roll.checkValidLeaf roll.getChangeLog.root (after base ws (position D index)) proof index allow =
      .ok (true, proof) := by
  have hD : D < 31 := h.depth
  have hroot : recompute (after base ws (position D index)) proof index =
      roll.getChangeLog.root := by
    rw [h.current_root, recompute_siblings (by omega) hproof]
  rw [roll.checkValidLeaf_of_found h.pow h.size_le h.size_pos
    (by rw [← MerkleRoll.getChangeLog_eq_log]) (fun m hm => absurd hm (Nat.not_lt_zero m)),
    MerkleRoll.checkReplay, MerkleRoll.replayLogs]
  simp only [if_true, hroot, decide_true]

/-- A write through a current proof updates the buffers with just this proof. -/
theorem RingInv.tryApplyProof_head (h : RingInv base roll ws) {index : UInt32}
    {proof : Vector Node D}
    (hproof : ∀ l < D, levels proof l = sibling hashv (after base ws) (position D index) l)
    (w : Node) (allow : Bool) :
    roll.tryApplyProof roll.getChangeLog.root (after base ws (position D index)) w proof index
        allow = roll.updateInternalCounters.updateBuffersFromProof w proof index := by
  rw [MerkleRoll.tryApplyProof, h.checkValidLeaf_head hproof]
  rfl

/-! ### Both ways to write at the first free position -/

omit [DecidableEq Node] in
/-- A proof of the first free position becomes the rightmost path. -/
theorem MerkleRoll.updateBuffersFromProof_next (hD : D < 31) (hD0 : 0 < D)
    (hn : roll.rightmostProof.index.toNat < 2 ^ D) (w : Node) (proof : Vector Node D) {path}
    (hpath : ∀ l (hl : l < D), path[l] =
      MerkleTree.climb hashv w (levels proof) roll.rightmostProof.index.toNat l) :
    let counted := roll.updateInternalCounters
    let root := MerkleTree.climb hashv w (levels proof) roll.rightmostProof.index.toNat D
    counted.updateBuffersFromProof w proof roll.rightmostProof.index =
      (.ok root,
        { counted with
          changeLogs := counted.changeLogs.set counted.activeIndex
            ⟨root, path, roll.rightmostProof.index⟩ counted.activeIndex.isLt
          rightmostProof := ⟨proof, w, roll.rightmostProof.index + 1⟩ }) := by
  intro counted root
  have hrm : counted.rightmostProof = roll.rightmostProof := rfl
  have hcap : roll.rightmostProof.index < capacity D := by
    rw [UInt32.lt_iff_toNat_lt, capacity_toNat hD]
    exact hn
  obtain ⟨hres, hroot, hindex, hclimb⟩ := ChangeLog.replaceAndRecomputePath_spec
    counted.changeLogs[counted.activeIndex] roll.rightmostProof.index w proof (by omega)
  rw [MerkleRoll.updateBuffersFromProof]
  generalize counted.changeLogs[counted.activeIndex].replaceAndRecomputePath
    roll.rightmostProof.index w proof = res at hres hroot hindex hclimb
  obtain ⟨root', root'', path', index'⟩ := res
  dsimp only at hres hroot hindex hclimb
  subst hres hroot hindex
  obtain rfl : path = path' := by
    ext l hl
    rw [hpath l hl, hclimb l hl]
  have hleaf : (⟨root, path, roll.rightmostProof.index⟩ : ChangeLog Node D).getLeaf = some w := by
    rw [ChangeLog.getLeaf, Vector.getElem?_eq_getElem hD0, hpath 0 hD0, MerkleTree.climb_zero]
  simp only [hrm, if_pos hcap, if_neg (UInt32.lt_irrefl _), if_true]
  rw [hleaf]

/-- On an empty tree `append` makes the write with the path that `initialize` has stored. -/
theorem Inv.append_zero (h : Inv base roll ws) (hzero : roll.rightmostProof.index = 0) {leaf : Node}
    (hleaf : leaf ≠ EMPTY) {proof : Vector Node D}
    (hproof : ∀ l < D, levels proof l = sibling hashv (after base ws) 0 l) :
    roll.append leaf = roll.updateInternalCounters.updateBuffersFromProof leaf proof 0 := by
  have hD : D < 31 := h.depth
  have hn : roll.rightmostProof.index.toNat < 2 ^ D := by
    rw [hzero]
    exact Nat.two_pow_pos D
  have hcap : ¬ roll.rightmostProof.index ≥ capacity D := by
    rw [ge_iff_le, UInt32.le_iff_toNat_le, capacity_toNat hD]
    omega
  have hempty : ∀ q < 2 ^ D, after base ws q = EMPTY := fun q hq =>
    h.rightmost.empty q (by rw [hzero]; exact Nat.zero_le q) hq
  have hzeropos : position D 0 = 0 := Nat.zero_mod _
  -- the stored path is the one of leaf `0`
  have hrm : roll.rightmostProof.proof = proof := vector_eq_of_levels fun l hl => by
    rw [h.rightmost.proof_eq hn l hl, hproof l hl, hzero]
    rfl
  have hempty0 : after base ws (position D 0) = EMPTY := by
    rw [hzeropos]
    exact hempty 0 (Nat.two_pow_pos D)
  rw [← hzeropos] at hproof
  have hold : recompute EMPTY proof 0 = roll.getChangeLog.root := by
    rw [h.current_root, ← recompute_siblings (by omega) hproof, hempty0]
  have hnew : (emptyNode D : Node) = roll.getChangeLog.root := by
    rw [h.current_root, emptyNode_eq_uniform, MerkleTree.root]
    exact (MerkleTree.node_eq_uniform hashv fun q hq =>
      hempty q ((Nat.div_eq_zero_iff_lt (by positivity)).1 hq)).symm
  rw [MerkleRoll.append, if_pos (checkBounds_iff.2 ⟨h.depth, h.pow⟩), if_neg hleaf, if_neg hcap,
    if_pos hzero, MerkleRoll.initializeTreeFromAppend, hrm]
  rw [hold, if_pos hnew.symm, ← hempty0]
  exact h.tryApplyProof_head hproof leaf false

/-- Behind other leaves the loop of `append` makes the same write. -/
theorem Inv.append_pos (h : Inv base roll ws) (hn : roll.rightmostProof.index.toNat < 2 ^ D)
    (hpos : 0 < roll.rightmostProof.index.toNat) {leaf : Node} (hleaf : leaf ≠ EMPTY)
    {proof : Vector Node D} (hproof : ∀ l < D, levels proof l =
      sibling hashv (after base ws) roll.rightmostProof.index.toNat l) :
    roll.append leaf =
      roll.updateInternalCounters.updateBuffersFromProof leaf proof roll.rightmostProof.index := by
  have hD : D < 31 := h.depth
  have hcap : ¬ roll.rightmostProof.index ≥ capacity D := by
    rw [ge_iff_le, UInt32.le_iff_toNat_le, capacity_toNat hD]
    omega
  have hne : roll.rightmostProof.index ≠ 0 := by
    rintro hzero
    rw [hzero] at hpos
    exact absurd hpos (by simp)
  have hD0 : 0 < D := by
    rcases Nat.eq_zero_or_pos D with rfl | hD0
    · omega
    · exact hD0
  have hloop := MerkleRoll.appendLoop_spec leaf hD rfl hn hpos
    (fun q hq hqD => h.rightmost.empty q hq.le hqD) (h.rightmost.leaf_eq hpos hn)
    (fun l hl => h.rightmost.proof_eq hn l hl)
  rw [MerkleRoll.append, if_pos (checkBounds_iff.2 ⟨h.depth, h.pow⟩), if_neg hleaf, if_neg hcap,
    if_neg hne]
  dsimp only at hloop ⊢
  generalize Nat.fold D (MerkleRoll.appendStep roll.rightmostProof.index)
    ⟨Vector.replicate D EMPTY, leaf, roll.rightmostProof.leaf, roll.rightmostProof.proof⟩ = s
    at hloop ⊢
  -- what the loop has collected is the climb along the proof
  have hclimb : ∀ l ≤ D, MerkleTree.climb hashv leaf (levels proof)
      roll.rightmostProof.index.toNat l = MerkleTree.node hashv
        (Function.update (after base ws) roll.rightmostProof.index.toNat leaf) l
          (roll.rightmostProof.index.toNat / 2 ^ l) := by
    intro l hl
    rw [← MerkleTree.climb_update]
    exact MerkleTree.climb_congr hashv fun m hm => hproof m (by omega)
  have hsproof : s.proof = proof := vector_eq_of_levels fun l hl => by
    rw [hloop.proof_new l hl hl, MerkleTree.sibling_update_self, hproof l hl]
  have hsnode : s.node = MerkleTree.climb hashv leaf (levels proof)
      roll.rightmostProof.index.toNat D := by
    rw [hloop.node_eq, hclimb D le_rfl]
  rw [MerkleRoll.updateBuffersFromProof_next hD hD0 hn leaf proof
    fun l hl => (hloop.changes l hl hl).trans (hclimb l hl.le).symm, hsproof, hsnode]
  rfl

/-- Every `append` of a leaf is the write with the siblings of the first free position. -/
theorem Inv.append_eq (h : Inv base roll ws) (hn : roll.rightmostProof.index.toNat < 2 ^ D)
    {leaf : Node} (hleaf : leaf ≠ EMPTY) {proof : Vector Node D} (hproof : ∀ l < D,
      levels proof l = sibling hashv (after base ws) roll.rightmostProof.index.toNat l) :
    roll.append leaf =
      roll.updateInternalCounters.updateBuffersFromProof leaf proof roll.rightmostProof.index := by
  rcases Nat.eq_zero_or_pos roll.rightmostProof.index.toNat with hzero | hpos
  · have hindex : roll.rightmostProof.index = 0 := UInt32.toNat_inj.1 hzero
    rw [hzero] at hproof
    rw [h.append_zero hindex hleaf hproof, hindex]
  · exact h.append_pos hn hpos hleaf hproof

/-- So is the `set_leaf` with these siblings. -/
theorem Inv.setLeaf_eq (h : Inv base roll ws) (hn : roll.rightmostProof.index.toNat < 2 ^ D)
    (leaf : Node) {proof : Vector Node D} (hfill : fillInProof D
      (siblings D (after base ws) roll.rightmostProof.index.toNat) = some proof)
    (hproof : ∀ l < D, levels proof l =
      sibling hashv (after base ws) roll.rightmostProof.index.toNat l) :
    roll.setLeaf roll.getChangeLog.root EMPTY leaf
        (siblings D (after base ws) roll.rightmostProof.index.toNat) roll.rightmostProof.index =
      roll.updateInternalCounters.updateBuffersFromProof leaf proof roll.rightmostProof.index := by
  have hempty : after base ws (position D roll.rightmostProof.index) = EMPTY := by
    rw [position_of_lt hn]
    exact h.rightmost.empty _ le_rfl hn
  rw [roll.setLeaf_eq (checkBounds_iff.2 ⟨h.depth, h.pow⟩) _ _ leaf hfill (UInt32.le_refl _),
    ← hempty]
  refine h.tryApplyProof_head ?_ leaf true
  rw [position_of_lt hn]
  exact hproof

/-- In a tree with levels that is not full, `append` succeeds. -/
theorem Inv.append_isOk (h : Inv base roll ws) (hD0 : 0 < D)
    (hn : roll.rightmostProof.index.toNat < 2 ^ D) {leaf : Node} (hleaf : leaf ≠ EMPTY) :
    ∃ r roll', roll.append leaf = (.ok r, roll') := by
  obtain ⟨proof, -, hproof⟩ :=
    fillInProof_siblings D (after base ws) roll.rightmostProof.index.toNat
  rw [h.append_eq hn hleaf hproof]
  exact MerkleRoll.updateBuffersFromProof_isOk h.depth (fun _ => ⟨hD0, UInt32.le_refl _⟩) leaf proof

/-- So `append` never panics there. -/
theorem Inv.append_ne_panic (h : Inv base roll ws) (hD0 : 0 < D) (leaf : Node) :
    (roll.append leaf).1 ≠ .panic := by
  have hbounds : checkBounds D B = true := checkBounds_iff.2 ⟨h.depth, h.pow⟩
  by_cases hleaf : leaf = EMPTY
  · rw [MerkleRoll.append, if_pos hbounds, if_pos hleaf]
    simp
  · by_cases hfull : roll.rightmostProof.index ≥ capacity D
    · rw [MerkleRoll.append, if_pos hbounds, if_neg hleaf, if_pos hfull]
      simp
    · rw [ge_iff_le, UInt32.le_iff_toNat_le, capacity_toNat h.depth, not_le] at hfull
      obtain ⟨r, roll', hok⟩ := h.append_isOk hD0 hfull hleaf
      rw [hok]
      simp

example : ((appended 8).1.append (.leaf 9)).1 = .err .TreeFull := by
  decide +kernel

/-! ### The two agree -/

/-- `append` does what `set_leaf` does with the current root and the current siblings of the first
free position.  In a tree with levels both return a root. -/
theorem append_eq_setLeaf [CollisionFree Node] (hrun : Reachable roll ws)
    (hn : roll.rightmostProof.index.toNat < 2 ^ D) {leaf : Node} (hleaf : leaf ≠ EMPTY) :
    let T := treeAfter ws
    let n := roll.rightmostProof.index
    roll.getChangeLog.root = MerkleTree.root hashv D T ∧
      roll.append leaf =
        roll.setLeaf roll.getChangeLog.root EMPTY leaf (siblings D T n.toNat) n ∧
      ((∃ r roll', roll.append leaf = (.ok r, roll')) ↔ 0 < D) := by
  intro T n
  have h := hrun.inv
  obtain ⟨proof, hfill, hproof⟩ := fillInProof_siblings D T n.toNat
  have hwrite := h.append_eq hn hleaf hproof
  refine ⟨h.current_root, ?_, fun hok => ?_, fun hD0 => ?_⟩
  · rw [hwrite, h.setLeaf_eq hn leaf hfill hproof]
  · obtain ⟨r, roll', hok⟩ := hok
    rcases Nat.eq_zero_or_pos D with rfl | hD0
    · have hne := MerkleRoll.append_depth_zero hrun.depth_zero.2 leaf r
      rw [hok] at hne
      exact absurd rfl hne
    · exact hD0
  · exact h.append_isOk hD0 hn hleaf

/-- The fourth leaf, at a position whose neighbour on the left is a leaf, and the fifth, whose
neighbour is half of the tree. -/
theorem append_eq_setLeaf_four :
    (∀ n ∈ [3, 4], (appended n).1.append (.leaf 9) = (appended n).1.setLeaf
      (appended n).1.getChangeLog.root EMPTY (.leaf 9) (siblings 3 (treeAfter (appended n).2) n)
      (UInt32.ofNat n)) ∧
      ∃ r roll', (appended 4).1.append (.leaf 9) = (.ok r, roll') := by
  have hrun : ∀ n, Reachable (appended n).1 (appended n).2 := run_appended fun _ _ => trivial
  have hindex : ∀ n ∈ [3, 4], (appended n).1.rightmostProof.index = UInt32.ofNat n := by
    decide +kernel
  have hlt : ∀ n ∈ [3, 4], (appended n).1.rightmostProof.index.toNat < 2 ^ 3 := by
    decide +kernel
  refine ⟨fun n hn => ?_, ?_⟩
  · have hagree :=
      (append_eq_setLeaf (hrun n) (hlt n hn) (by decide : Term.leaf 9 ≠ EMPTY)).2.1
    rw [hindex n hn] at hagree
    have hnat : (UInt32.ofNat n).toNat = n := by
      rcases List.mem_pair.1 hn with rfl | rfl <;> rfl
    rwa [hnat] at hagree
  · exact (append_eq_setLeaf (hrun 4) (hlt 4 (by decide)) (by decide : Term.leaf 9 ≠ EMPTY)).2.2.2
      (by decide)

/-- A tree without levels is initialised, but the first `append` panics, as `set_leaf` does. -/
theorem append_panics_without_levels :
    let roll : MerkleRoll Term 0 8 := (MerkleRoll.initializeRoll MerkleRoll.new).2
    Reachable roll [] ∧ roll.rightmostProof.index.toNat < 2 ^ 0 ∧
      (roll.append (.leaf 1)).1 = .panic ∧
      (roll.setLeaf roll.getChangeLog.root EMPTY (.leaf 1) [] 0).1 = .panic := by
  intro roll
  refine ⟨.init (r := emptyNode 0) ?_, by decide, by decide, by decide⟩
  rfl

end Candyland.ConcurrentMerkleTree
