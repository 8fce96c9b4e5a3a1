import Candyland.ConcurrentMerkleTree.Update

/-!
# The loop of append

`append` has no proof to start from.  It walks up two paths at once, that of the new
leaf at position `n` and that of its left neighbour `n - 1`, until they meet at level
`intersection`, the number of trailing zeros of `n`; from there on they are one path.
-/

namespace Candyland.ConcurrentMerkleTree

open MerkleTree (node sibling)

variable {Node : Type} [NodeHash Node] [DecidableEq Node] {D : ℕ}

namespace MerkleRoll

omit [DecidableEq Node] in
/-- A step upward in a tree. -/
theorem hashToParent_node {T : ℕ → Node} {index : UInt32} {i l : ℕ} (hl : l < 32)
    (hi : index.toNat / 2 ^ l = i / 2 ^ l) :
    hashToParent (node hashv T l (i / 2 ^ l)) (sibling hashv T i l) (isLeft index l) =
      node hashv T (l + 1) (i / 2 ^ (l + 1)) := by
  have hbit : index.toNat.testBit l = i.testBit l := by
    rw [Nat.testBit_eq_decide_div_mod_eq, Nat.testBit_eq_decide_div_mod_eq, hi]
  rw [MerkleTree.node_succ, isLeft_eq index hl, hbit, hashToParent]
  cases i.testBit l <;> rfl

/-- The state of the loop before round `i`, for a new leaf at position `n` that makes the
tree `T'` from the tree `T`. -/
structure AppendInv (T T' : ℕ → Node) (n t i : ℕ) (s : AppendLoop Node D) : Prop where
  changes : ∀ l (hl : l < D), l < i → s.changeList[l] = node hashv T' l (n / 2 ^ l)
  node_eq : s.node = node hashv T' i (n / 2 ^ i)
  intersection_eq : i ≤ t → s.intersectionNode = node hashv T i ((n - 1) / 2 ^ i)
  proof_new : ∀ l < D, l < i → levels s.proof l = sibling hashv T' n l
  proof_old : ∀ l < D, i ≤ l → levels s.proof l = sibling hashv T (n - 1) l

/-- What the loop makes of the tree `T` with the last leaf at `n - 1`: the siblings of `n` in `T'`
are empty below the intersection, the subtree of the last leaf at it, and those of the last leaf
above it. -/
structure AppendTrees (T T' : ℕ → Node) (n t : ℕ) : Prop where
  low : ∀ l < t, sibling hashv T' n l = emptyNode l
  meet : sibling hashv T' n t = node hashv T t ((n - 1) / 2 ^ t)
  high : ∀ l, t < l → sibling hashv T' n l = sibling hashv T (n - 1) l

section Step

variable {T T' : ℕ → Node} {leaf : Node} {index : UInt32} {n t : ℕ}

omit [DecidableEq Node] in
/-- Below the intersection the siblings of the new leaf are empty. -/
theorem sibling_empty {i : ℕ} (hn : n < 2 ^ D) (hi : i < D) (heven : n / 2 ^ i % 2 = 0)
    (hempty : ∀ q, n < q → q < 2 ^ D → T q = EMPTY) : sibling hashv T n i = emptyNode i := by
  rw [emptyNode_eq_uniform]
  refine MerkleTree.node_eq_uniform hashv fun q hq => hempty q ?_ (Bits.lt_of_div_eq_xor_one hq hn hi)
  rw [Bits.xor_one_of_even heven] at hq
  by_contra hle
  have := Nat.div_le_div_right (c := 2 ^ i) (not_lt.1 hle)
  omega

omit [DecidableEq Node] in
theorem levels_set {proof : Vector Node D} {i l : ℕ} {x : Node} (hi : i < D) (hl : l < D) :
    levels (proof.set i x) l = if i = l then x else levels proof l := by
  rw [levels_of_lt _ hl, levels_of_lt _ hl, Vector.getElem_set]

omit [DecidableEq Node] in
/-- Nothing but the new leaf is written when the leaves behind it are empty. -/
theorem AppendTrees.of_empty (hnD : n < 2 ^ D) (hodd : Bits.OddMultiple n t)
    (hempty : ∀ q, n < q → q < 2 ^ D → T q = EMPTY) :
    AppendTrees T (Function.update T n leaf) n t where
  low l hl := by
    rw [MerkleTree.sibling_update_self]
    exact sibling_empty hnD (hl.trans (hodd.lt hnD)) (hodd.even hl) hempty
  meet := by
    rw [MerkleTree.sibling_update_self, sibling, Bits.xor_one_of_odd hodd.odd,
      hodd.div_eq le_rfl, Nat.add_sub_cancel]
  high l hl := by rw [MerkleTree.sibling_update_self, sibling, sibling, hodd.div_pred hl]

theorem appendStep_inv (hD : D < 31) (hn : index.toNat = n) (ht : trailingZeros index = t)
    (hodd : Bits.OddMultiple n t) (htrees : AppendTrees T T' n t) {i : ℕ} (hi : i < D)
    {s : AppendLoop Node D} (h : AppendInv T T' n t i s) :
    AppendInv T T' n t (i + 1) (appendStep index i hi s) := by
  obtain ⟨hchanges, hnode, hinter, hnew, hold⟩ := h
  have hpred : (index - 1).toNat = n - 1 := by rw [toNat_sub_one (by rw [hn]; exact hodd.pos), hn]
  have hchanges' : ∀ l (hl : l < D), l < i + 1 → (s.changeList.set i s.node)[l] =
      node hashv T' l (n / 2 ^ l) := by
    intro l hl hlt
    rw [Vector.getElem_set]
    split_ifs with heq
    · rw [hnode, heq]
    · exact hchanges l hl (by omega)
  have hproof : s.proof[i] = sibling hashv T (n - 1) i := by
    rw [← levels_of_lt _ hi, hold i hi le_rfl]
  rw [appendStep, ht]
  rcases lt_trichotomy i t with hit | rfl | hit
  · -- below the intersection
    have heven := hodd.even hit
    have hsib := htrees.low i hit
    rw [if_pos hit]
    refine ⟨hchanges', ?_, fun _ => ?_, fun l hl hlt => ?_, fun l hl hle => ?_⟩
    · have hbit : n.testBit i = false := by
        rw [Nat.testBit_eq_decide_div_mod_eq, heven]
        rfl
      rw [MerkleTree.node_succ, hbit, hsib, hnode, emptyNodeCached_replicate]
      rfl
    · rw [hinter hit.le, hproof]
      exact hashToParent_node (by omega) (by rw [hpred])
    · rw [levels_set hi hl, emptyNodeCached_replicate]
      split_ifs with heq
      · rw [← heq, hsib]
      · exact hnew l hl (by omega)
    · rw [levels_set hi hl, if_neg (by omega)]
      exact hold l hl (by omega)
  · -- at the intersection
    have hoddbit := hodd.odd
    have hsib := htrees.meet
    rw [if_neg (lt_irrefl i), if_pos rfl]
    refine ⟨hchanges', ?_, fun hle => absurd hle (by omega), fun l hl hlt => ?_,
      fun l hl hle => ?_⟩
    · rw [MerkleTree.node_succ, (Bits.testBit_iff n i).2 hoddbit, hsib, hnode, hinter le_rfl]
      rfl
    · rw [levels_set hi hl]
      split_ifs with heq
      · rw [← heq, hsib, hinter le_rfl]
      · exact hnew l hl (by omega)
    · rw [levels_set hi hl, if_neg (by omega)]
      exact hold l hl (by omega)
  · -- above the intersection the two paths are one
    have hdiv := hodd.div_pred hit
    have hsib := htrees.high i hit
    rw [if_neg (by omega), if_neg (by omega)]
    refine ⟨hchanges', ?_, fun hle => absurd hle (by omega), fun l hl hlt => ?_,
      fun l hl hle => hold l hl (by omega)⟩
    · rw [hnode, hproof, ← hsib]
      exact hashToParent_node (by omega) (by rw [hpred, hdiv])
    · rcases Nat.lt_succ_iff_lt_or_eq.1 hlt with hlt | rfl
      · exact hnew l hl hlt
      · rw [hold l hl le_rfl, hsib]

/-- After the loop the change list is the path of the new leaf in the tree that the loop makes, its
top is the new root and the proof is the sibling path of the new leaf. -/
theorem appendLoop_inv (hD : D < 31) (hn : index.toNat = n) (hpos : 0 < n)
    (htrees : AppendTrees T T' n (trailingZeros index)) {rightmostLeaf : Node}
    {proof : Vector Node D} (hleaf : rightmostLeaf = T (n - 1))
    (hproof : ∀ l < D, levels proof l = sibling hashv T (n - 1) l) :
    AppendInv T T' n (trailingZeros index) D (Nat.fold D (appendStep index)
      ⟨Vector.replicate D EMPTY, T' n, rightmostLeaf, proof⟩) := by
  have hne : index ≠ 0 := by
    rintro rfl
    simp at hn
    omega
  have hodd : Bits.OddMultiple n (trailingZeros index) := hn ▸ oddMultiple_trailingZeros hne
  refine Loop.fold_invariant (AppendInv T T' n (trailingZeros index))
    ⟨fun l _ h => absurd h (by omega), ?_, fun _ => ?_, fun l _ h => absurd h (by omega),
      fun l hl _ => hproof l hl⟩
    fun i hi s h => appendStep_inv hD hn rfl hodd htrees hi h
  · simp
  · simp [hleaf]

/-- The loop on a tree whose leaves behind the last one are empty. -/
theorem appendLoop_spec (leaf : Node) (hD : D < 31) (hn : index.toNat = n) (hnD : n < 2 ^ D) (hpos : 0 < n)
    (hempty : ∀ q, n < q → q < 2 ^ D → T q = EMPTY) {rightmostLeaf : Node}
    {proof : Vector Node D} (hleaf : rightmostLeaf = T (n - 1))
    (hproof : ∀ l < D, levels proof l = sibling hashv T (n - 1) l) :
    let s := Nat.fold D (appendStep index)
      ⟨Vector.replicate D EMPTY, leaf, rightmostLeaf, proof⟩
    AppendInv T (Function.update T n leaf) n (trailingZeros index) D s := by
  have hne : index ≠ 0 := by
    rintro rfl
    simp at hn
    omega
  have hodd : Bits.OddMultiple n (trailingZeros index) := hn ▸ oddMultiple_trailingZeros hne
  have htrees : AppendTrees T (Function.update T n leaf) n (trailingZeros index) :=
    .of_empty hnD hodd hempty
  have hloop := appendLoop_inv hD hn hpos htrees hleaf hproof
  rwa [Function.update_self] at hloop

end Step

end MerkleRoll

/-! ### The call -/

variable {B : ℕ} [hB : BufferSize B] {base : ℕ → Node} {roll roll' : MerkleRoll Node D B}
  {ws : List (ℕ × Node)}

/-- A successful append writes at the first free position. -/
theorem Inv.append_ok [CollisionFree Node] (h : Inv base roll ws) {leaf r : Node}
    (hok : roll.append leaf = (.ok r, roll')) :
    Written base roll ws roll.rightmostProof.index leaf r roll' ∧
      roll.rightmostProof.index.toNat < 2 ^ D := by
  have hD : D < 31 := h.depth
  rw [MerkleRoll.append] at hok
  split_ifs at hok with hcheck hleaf hfull hzero
  · exact absurd (Prod.mk.inj hok).1 (by simp)
  · exact absurd (Prod.mk.inj hok).1 (by simp)
  · -- the first leaf is written through a proof
    rw [hzero]
    refine ⟨?_, by simp⟩
    rw [MerkleRoll.initializeTreeFromAppend] at hok
    split_ifs at hok
    · exact (h.tryApplyProof_ok hok).2
    · exact absurd (Prod.mk.inj hok).1 (by simp)
  · have hn : roll.rightmostProof.index.toNat < 2 ^ D := by
      rwa [ge_iff_le, UInt32.le_iff_toNat_le, capacity_toNat hD, not_le] at hfull
    have hpos : 0 < roll.rightmostProof.index.toNat := by
      rwa [Nat.pos_iff_ne_zero, ne_eq, ← UInt32.toNat_zero, UInt32.toNat_inj]
    have hposition : position D roll.rightmostProof.index = roll.rightmostProof.index.toNat :=
      position_of_lt hn
    have hloop := MerkleRoll.appendLoop_spec leaf hD rfl hn hpos
      (fun q hq hqD => h.rightmost.empty q hq.le hqD) (h.rightmost.leaf_eq hpos hn)
      (fun l hl => h.rightmost.proof_eq hn l hl)
    dsimp only at hok hloop
    generalize Nat.fold D (MerkleRoll.appendStep roll.rightmostProof.index)
      ⟨Vector.replicate D EMPTY, leaf, roll.rightmostProof.leaf, roll.rightmostProof.proof⟩ = s
      at hok hloop
    obtain ⟨hr, rfl⟩ := Prod.mk.inj hok
    obtain ⟨hactive, hsize⟩ := h.counters
    have hroot : s.node = MerkleTree.root hashv D
        (Function.update (MerkleTree.after base ws) roll.rightmostProof.index.toNat leaf) := by
      rw [hloop.node_eq, Nat.div_eq_of_lt hn, MerkleTree.root]
    have hrec : (ChangeLog.new s.node s.changeList roll.rightmostProof.index).Records
        (Function.update (MerkleTree.after base ws) (position D roll.rightmostProof.index) leaf)
        (position D roll.rightmostProof.index) := by
      rw [hposition]
      exact ⟨hroot, hposition, fun l hl => hloop.changes l hl hl⟩
    refine ⟨⟨⟨?_, ?_⟩, ?_, ?_, fun m hm => ?_, rfl, ?_, fun _ => le_rfl⟩, hn⟩
    · exact h.push (position_lt D _) hrec hactive rfl hsize
    · rw [MerkleTree.after_cons, hposition]
      refine h.rightmost.extend hD hn fun l hl => ?_
      rw [hloop.proof_new l hl hl, MerkleTree.sibling_update_self]
    · rw [← Outcome.ok.inj hr, hroot, hposition]
    · simp [MerkleRoll.getChangeLog, ChangeLog.new]
    · exact MerkleRoll.log_push (by exact hactive) rfl hm
    · dsimp only
      rw [if_pos hposition, toNat_add_one hD hn]
  · exact absurd (Prod.mk.inj hok).1 (by simp)

/-- A failed append leaves the roll as it was. -/
theorem MerkleRoll.append_err {leaf : Node} {error : CMTError}
    (herr : roll.append leaf = (.err error, roll')) : roll' = roll := by
  rw [append] at herr
  split_ifs at herr
  · exact (Prod.mk.inj herr).2.symm
  · exact (Prod.mk.inj herr).2.symm
  · rw [initializeTreeFromAppend] at herr
    split_ifs at herr
    · exact tryApplyProof_err herr
    · exact (Prod.mk.inj herr).2.symm
  · exact absurd (Prod.mk.inj herr).1 (by simp)
  · exact (Prod.mk.inj herr).2.symm

end Candyland.ConcurrentMerkleTree
