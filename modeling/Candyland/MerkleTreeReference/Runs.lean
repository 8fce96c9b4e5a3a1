import Candyland.ConcurrentMerkleTree.Symbolic
import Candyland.MerkleTreeReference.Walks

/-!
# Runs of the reference tree

After any calls on a new tree, its root and its proofs are those of the full tree over the
leaves that the calls leave behind.  A proof recomputes the root as long as the index of
the leaf has as many bits as the proof has nodes, which 32 bits are for up to `2 ^ 32`
leaves.
-/

namespace Candyland.MerkleTreeReference

open ConcurrentMerkleTree (NodeHash EMPTY hashv Term isLeft isLeft_eq hashToParent)
open Gummyroll (Build)

variable {Node : Type} [NodeHash Node]

/-! ### Calls -/

namespace Represents

variable {tree : MerkleTree Node} {leaves : List Node} {coord : Ref → ℕ × ℕ} {top : Ref} {i : ℕ}

theorem depth_lt (h : Represents tree leaves coord top) (hi : i < leaves.length) :
    PaddedTree.depth leaves.length < tree.heap.length :=
  (PaddedTree.depth_lt (Nat.zero_lt_of_lt hi)).trans_le h.length_le

theorem leafNodes_eq (h : Represents tree leaves coord top) (hi : i < leaves.length) :
    tree.leafNodes[i]? = some i := by
  rw [h.leafNodes, List.getElem?_range hi]

theorem getLeaf (h : Represents tree leaves coord top) (hi : i < leaves.length) :
    tree.getLeaf i = some leaves[i] := by
  obtain ⟨t, ht⟩ := Forest.exists_of_lt (hi.trans_le h.length_le)
  have hnode : t.node = leaves[i] := by
    rw [h.forest.node ht, h.leaf i hi]
    exact PaddedTree.leaf_of_lt EMPTY hi
  simp [MerkleTree.getLeaf, h.leafNodes_eq hi, ht, hnode]

theorem getProofOfLeaf (h : Represents tree leaves coord top) (hi : i < leaves.length) :
    tree.getProofOfLeaf i = some (PaddedTree.proof hashv EMPTY leaves i) := by
  have hloop := proofLoop_eq h.forest h.top (PaddedTree.lt_two_pow_depth hi) (zero_add _)
    (h.depth_lt hi) (hi.trans_le h.length_le) (r := i) (by simp [h.leaf i hi]) []
  rw [MerkleTree.getProofOfLeaf, h.leafNodes_eq hi, Option.bind_eq_bind, Option.bind_some, hloop,
    List.nil_append, PaddedTree.proof, List.range_eq_range']
  rfl

/-- A tree whose leaf is set is the tree over the leaves after that. -/
theorem setLeaf (h : Represents tree leaves coord top) (hi : i < leaves.length) (w : Node) :
    ∃ tree', tree.setLeaf w i = some tree' ∧ Represents tree' (leaves.set i w) coord top := by
  have hlt := hi.trans_le h.length_le
  have hforest : Forest
      (mixed (PaddedTree.leaf EMPTY leaves) (Function.update (PaddedTree.leaf EMPTY leaves) i w) 0)
      (tree.heap.modify i (·.setNode w)) coord [top] := by
    refine h.forest.setNode hlt ?_ fun r hr hne => ?_
    · rw [h.leaf i hi]
      exact Function.update_self _ _ _
    · rw [mixed, fullNode]
      split_ifs with hlevel
      · have hpos : (coord r).2 ≠ i := fun heq =>
          hne (by rw [h.leaf i hi, ← heq, ← Nat.le_zero.1 hlevel])
        rw [Nat.le_zero.1 hlevel]
        exact Function.update_of_ne hpos _ _
      · rfl
  obtain ⟨heap', hloop, hlength, hforest'⟩ := updateLoop_eq hforest h.top
    (PaddedTree.lt_two_pow_depth hi) (zero_add _) (h.depth_lt hi) (by simpa using hlt) (r := i)
    (by simp [h.leaf i hi])
  rw [List.length_modify] at hlength
  refine ⟨⟨heap', tree.leafNodes, PaddedTree.root hashv EMPTY (leaves.set i w)⟩, ?_, ?_⟩
  · have hroot : PaddedTree.root hashv EMPTY (leaves.set i w) = MerkleTree.node hashv
        (Function.update (PaddedTree.leaf EMPTY leaves) i w)
        (PaddedTree.depth leaves.length) 0 := by
      rw [PaddedTree.root, PaddedTree.leaf_set EMPTY hi, List.length_set]
      rfl
    simp [MerkleTree.setLeaf, MerkleTree.updateRootFromLeaf, h.leafNodes_eq hi, hloop, hroot]
  · have hlen : (leaves.set i w).length = leaves.length := List.length_set
    refine
      { forest := { hforest' with node := fun {r t} ht => ?_ }
        top := by rw [hlen, h.top]
        level_le := fun r hr => by
          rw [hlen]
          exact h.level_le r (hr.trans_eq hlength)
        leafNodes := by rw [hlen, ← h.leafNodes]
        leaf := fun j hj => h.leaf j (hj.trans_eq hlen)
        length_le := hlen.trans_le (h.length_le.trans_eq hlength.symm)
        root := rfl }
    have hlevel := h.level_le r ((lt_of_getElem?_eq_some ht).trans_eq hlength)
    rw [hforest'.node ht, mixed, if_pos hlevel, fullNode, PaddedTree.leaf_set EMPTY hi]

end Represents

/-- A call that changes a leaf. -/
inductive Call (Node : Type) where
  | addLeaf (leaf : Node) (leafIdx : ℕ)
  | removeLeaf (leafIdx : ℕ)

namespace Call

/-- The index of the leaf. -/
def leafIdx : Call Node → ℕ
  | addLeaf _ leafIdx => leafIdx
  | removeLeaf leafIdx => leafIdx

/-- Makes the call. -/
def exec (tree : MerkleTree Node) : Call Node → Option (MerkleTree Node)
  | addLeaf leaf leafIdx => tree.addLeaf leaf leafIdx
  | removeLeaf leafIdx => tree.removeLeaf leafIdx

/-- The leaves after the call. -/
def apply (leaves : List Node) : Call Node → List Node
  | addLeaf leaf leafIdx => leaves.set leafIdx leaf
  | removeLeaf leafIdx => leaves.set leafIdx EMPTY

theorem length_apply (c : Call Node) (leaves : List Node) :
    (c.apply leaves).length = leaves.length := by
  cases c <;> exact List.length_set

end Call

theorem Represents.exec {tree : MerkleTree Node} {leaves : List Node} {coord : Ref → ℕ × ℕ}
    {top : Ref} (h : Represents tree leaves coord top) {c : Call Node}
    (hc : c.leafIdx < leaves.length) :
    ∃ tree', c.exec tree = some tree' ∧ Represents tree' (c.apply leaves) coord top := by
  cases c with
  | addLeaf leaf leafIdx => exact h.setLeaf hc leaf
  | removeLeaf leafIdx => exact h.setLeaf hc EMPTY

/-- The leaves after some calls. -/
def current (leaves : List Node) (calls : List (Call Node)) : List Node :=
  calls.foldl Call.apply leaves

theorem length_current (leaves : List Node) (calls : List (Call Node)) :
    (current leaves calls).length = leaves.length := by
  induction calls generalizing leaves with
  | nil => rfl
  | cons c calls ih => exact (ih _).trans (c.length_apply leaves)

theorem Represents.foldlM {tree : MerkleTree Node} {leaves : List Node} {coord : Ref → ℕ × ℕ}
    {top : Ref} (h : Represents tree leaves coord top) {calls : List (Call Node)}
    (hcalls : ∀ c ∈ calls, c.leafIdx < leaves.length) :
    ∃ tree', calls.foldlM Call.exec tree = some tree' ∧
      Represents tree' (current leaves calls) coord top := by
  induction calls generalizing tree leaves with
  | nil => exact ⟨tree, rfl, h⟩
  | cons c calls ih =>
    obtain ⟨tree', hexec, h'⟩ := h.exec (hcalls c List.mem_cons_self)
    obtain ⟨tree'', hfold, h''⟩ := ih h' fun c' hc' =>
      (hcalls c' (List.mem_cons_of_mem c hc')).trans_eq (c.length_apply leaves).symm
    exact ⟨tree'', by rw [List.foldlM_cons, hexec]; exact hfold, h''⟩

/-! ### Recomputing -/

section Recompute

variable [Build]

theorem recompute_append (leaf s : Node) (proof : List Node) (index : UInt32) :
    recompute leaf (proof ++ [s]) index = (recompute leaf proof index).bind fun leaf =>
      (goesLeft index proof.length).map (hashToParent leaf s) := by
  rw [recompute, List.zipIdx_append, List.foldlM_append]
  simp [recompute, Option.map_eq_bind]

/-- Up to the width of the index a proof is followed upward. -/
theorem recompute_range (leaf : Node) (s : ℕ → Node) (index : UInt32) {D : ℕ} (hD : D ≤ 32) :
    recompute leaf ((List.range D).map s) index =
      some (MerkleTree.climb hashv leaf s index.toNat D) := by
  induction D with
  | zero => rfl
  | succ D ih =>
    have hleft : goesLeft index D = some !index.toNat.testBit D := by
      rw [goesLeft, isLeft_eq index (by omega), decide_eq_false (by omega), Bool.and_false]
      rfl
    rw [List.range_succ, List.map_append, List.map_singleton, recompute_append, ih (by omega),
      Option.bind_some, List.length_map, List.length_range, hleft, Option.map_some,
      MerkleTree.climb_succ, hashToParent]
    cases index.toNat.testBit D <;> rfl

/-- The node above the width: the shift panics, or it is by zero. -/
theorem recompute_range_wide (leaf : Node) (s : ℕ → Node) (index : UInt32) :
    recompute leaf ((List.range 33).map s) index =
      if Build.overflowChecks then none
      else some (hashToParent (MerkleTree.climb hashv leaf s index.toNat 32) (s 32)
        (isLeft index 0)) := by
  have hleft : goesLeft index 32 =
      if Build.overflowChecks then none else some (isLeft index 0) := by
    rw [goesLeft, decide_eq_true le_rfl, Bool.and_true]
    rfl
  rw [List.range_succ, List.map_append, List.map_singleton, recompute_append,
    recompute_range leaf s index le_rfl, Option.bind_some, List.length_map, List.length_range,
    hleft]
  split_ifs <;> rfl

/-- The proof of a leaf recomputes the root when the index has a bit for each level. -/
theorem recompute_proof {leaves : List Node} {i : ℕ} (hi : i < leaves.length)
    (hn : leaves.length ≤ 2 ^ 32) :
    recompute leaves[i] (PaddedTree.proof hashv EMPTY leaves i) (UInt32.ofNat i) =
      some (PaddedTree.root hashv EMPTY leaves) := by
  have hdepth : PaddedTree.depth leaves.length ≤ 32 := by
    rwa [← PaddedTree.width_le_one_iff, PaddedTree.width_le_iff, one_mul]
  have hindex : (UInt32.ofNat i).toNat = i := by
    rw [UInt32.toNat_ofNat', Nat.mod_eq_of_lt (hi.trans_le hn)]
  rw [PaddedTree.proof, recompute_range _ _ _ hdepth, hindex, PaddedTree.climb_proof _ _ hi]

end Recompute

/-! ### The reference tree -/

/-- A reference tree, built from any leaves and changed by any calls, is the full tree over
its current leaves. -/
theorem referenceTree_eq_fullTree [Build] {leaves : List Node} (hn : leaves ≠ []) {fuel : ℕ}
    (hfuel : 2 * leaves.length ≤ fuel) {calls : List (Call Node)}
    (hcalls : ∀ c ∈ calls, c.leafIdx < leaves.length) :
    ∃ tree, MerkleTree.new fuel leaves >>= (calls.foldlM Call.exec ·) = some tree ∧
      tree.getRoot = PaddedTree.root hashv EMPTY (current leaves calls) ∧
      ∀ i < leaves.length, ∃ leaf, (current leaves calls)[i]? = some leaf ∧
        tree.getLeaf i = some leaf ∧
        tree.getProofOfLeaf i = some (PaddedTree.proof hashv EMPTY (current leaves calls) i) ∧
        (leaves.length ≤ 2 ^ 32 →
          recompute leaf (PaddedTree.proof hashv EMPTY (current leaves calls) i)
            (UInt32.ofNat i) = some tree.getRoot) := by
  obtain ⟨tree₀, coord, top, hnew, h₀⟩ := exists_new hn hfuel
  obtain ⟨tree, hfold, h⟩ := h₀.foldlM hcalls
  have hlen := length_current leaves calls
  refine ⟨tree, by rw [hnew]; exact hfold, h.root, fun i hi => ?_⟩
  rw [← hlen] at hi ⊢
  refine ⟨(current leaves calls)[i], List.getElem?_eq_getElem hi, h.getLeaf hi,
    h.getProofOfLeaf hi, fun hbound => ?_⟩
  rw [recompute_proof hi hbound, MerkleTree.getRoot, h.root]

/-- Three leaves, of which the last is removed and the first replaced. -/
theorem referenceTree_of_three :
    letI : Build := ⟨true⟩
    let calls : List (Call Term) := [.removeLeaf 2, .addLeaf (.leaf 7) 0]
    ∃ tree, MerkleTree.new 6 [.leaf 1, .leaf 2, .leaf 3] >>= (calls.foldlM Call.exec ·) =
        some tree ∧
      tree.getRoot = Term.node (.node (.leaf 7) (.leaf 2)) (.node (.leaf 0) (.leaf 0)) ∧
      tree.getProofOfLeaf 1 = some [.leaf 7, .node (.leaf 0) (.leaf 0)] ∧
      recompute (.leaf 2) [.leaf 7, .node (.leaf 0) (.leaf 0)] 1 = some tree.getRoot := by
  let _ : Build := ⟨true⟩
  let calls : List (Call Term) := [.removeLeaf 2, .addLeaf (.leaf 7) 0]
  obtain ⟨tree, hrun, hroot, hleaf⟩ := referenceTree_eq_fullTree
    (by simp : [Term.leaf 1, .leaf 2, .leaf 3] ≠ []) (by simp : 2 * _ ≤ 6)
    (by simp [calls, Call.leafIdx] : ∀ c ∈ calls, c.leafIdx < _)
  have hcurrent : current [Term.leaf 1, .leaf 2, .leaf 3] calls = [.leaf 7, .leaf 2, .leaf 0] :=
    rfl
  have hdepth : PaddedTree.depth 3 = 2 := PaddedTree.depth_eq (l := 1) (by decide) (by decide)
  obtain ⟨leaf, hcur, -, hproof, hrecompute⟩ := hleaf 1 (by simp)
  have hproof_eq : PaddedTree.proof hashv EMPTY [Term.leaf 7, .leaf 2, .leaf 0] 1 =
      [.leaf 7, .node (.leaf 0) (.leaf 0)] := by
    rw [PaddedTree.proof, List.length_cons, List.length_cons, List.length_singleton, hdepth]
    rfl
  rw [hcurrent] at hroot hcur hproof hrecompute
  rw [hproof_eq] at hproof hrecompute
  obtain rfl : Term.leaf 2 = leaf := Option.some.inj hcur
  refine ⟨tree, hrun, ?_, hproof, hrecompute (by simp)⟩
  rw [hroot, PaddedTree.root, List.length_cons, List.length_cons, List.length_singleton, hdepth]
  rfl

/-- The two halves of a tree over one leaf too many for 32 bits differ, for the second holds
padding. -/
theorem node_wide_ne {n : ℕ} (hn : n = 2 ^ 32 + 1) :
    MerkleTree.node hashv (PaddedTree.leaf EMPTY (List.replicate n (Term.leaf 1))) 32 0 ≠
      MerkleTree.node hashv (PaddedTree.leaf EMPTY (List.replicate n (Term.leaf 1))) 32 1 := by
  have hleaf : ∀ q < n, PaddedTree.leaf EMPTY (List.replicate n (Term.leaf 1)) q = .leaf 1 := by
    intro q hq
    rw [PaddedTree.leaf_of_lt EMPTY (by rwa [List.length_replicate]), List.getElem_replicate]
  have hfirst := MerkleTree.node_eq_uniform hashv fun q (hq : q / 2 ^ 32 = 0) =>
    hleaf q (by omega)
  rw [hfirst, ← MerkleTree.node_const hashv _ 32 1]
  intro heq
  have hlast := MerkleTree.node_inj (fun _ _ _ _ => Term.node.inj) heq (2 ^ 32 + 1) (by norm_num)
  rw [PaddedTree.leaf_of_le (by rw [List.length_replicate, hn])] at hlast
  exact absurd (Term.leaf.inj hlast) (by norm_num)

theorem depth_wide {n : ℕ} (hn : n = 2 ^ 32 + 1) : PaddedTree.depth n = 33 := by
  refine PaddedTree.depth_eq (l := 32) ?_ ?_
  · rw [← not_le, PaddedTree.width_le_iff, hn]
    norm_num
  · rw [PaddedTree.width_le_iff, hn]
    norm_num

theorem recompute_wide_ne {n : ℕ} (hn : n = 2 ^ 32 + 1) [Build] :
    recompute (.leaf 1) (PaddedTree.proof hashv EMPTY (List.replicate n (Term.leaf 1)) 1) 1 ≠
      some (PaddedTree.root hashv EMPTY (List.replicate n (Term.leaf 1))) := by
  have hroot := PaddedTree.climb_proof hashv EMPTY
    (show 1 < (List.replicate n (Term.leaf 1)).length by rw [List.length_replicate]; omega)
  rw [List.getElem_replicate, List.length_replicate, depth_wide hn, MerkleTree.climb_succ,
    if_neg (by decide)] at hroot
  rw [PaddedTree.proof, List.length_replicate, depth_wide hn, recompute_range_wide, ← hroot,
    UInt32.toNat_one]
  split_ifs
  · exact (Option.some_ne_none _).symm
  · have hleft : isLeft 1 0 = false := by decide
    have hclimb := MerkleTree.climb_sibling hashv
      (PaddedTree.leaf EMPTY (List.replicate n (Term.leaf 1))) 1 32
    rw [PaddedTree.leaf_of_lt EMPTY (by rw [List.length_replicate]; omega),
      List.getElem_replicate] at hclimb
    rw [hclimb, hleft, hashToParent, Ne, Option.some.injEq]
    exact fun heq => node_wide_ne hn (Term.node.inj heq).2

/-- Over `2 ^ 32 + 1` leaves the shift of the index overflows at the last level.  In either
build the proof of the second leaf does not recompute the root. -/
theorem recompute_wide_ne_root :
    ∃ (tree : MerkleTree Term) (leaf : Term) (proof : List Term),
      MerkleTree.new (2 * (2 ^ 32 + 1)) (List.replicate (2 ^ 32 + 1) (.leaf 1)) = some tree ∧
      tree.getLeaf 1 = some leaf ∧ tree.getProofOfLeaf 1 = some proof ∧
      ∀ overflowChecks, letI : Build := ⟨overflowChecks⟩
        recompute leaf proof 1 ≠ some tree.getRoot := by
  generalize hn : 2 ^ 32 + 1 = n
  have hi : 1 < (List.replicate n (Term.leaf 1)).length := by
    rw [List.length_replicate]
    omega
  obtain ⟨tree, coord, top, hnew, h⟩ :=
    exists_new (List.ne_nil_of_length_pos (Nat.zero_lt_of_lt hi))
      (by rw [List.length_replicate] : 2 * _ ≤ 2 * n)
  refine ⟨tree, _, _, hnew, h.getLeaf hi, h.getProofOfLeaf hi, fun overflowChecks => ?_⟩
  rw [List.getElem_replicate, MerkleTree.getRoot, h.root]
  exact @recompute_wide_ne n hn.symm ⟨overflowChecks⟩

end Candyland.MerkleTreeReference
