import Candyland.Lib.PaddedTree
import Candyland.MerkleTreeReference.Forest

/-!
# Building the reference tree

The queue of `build_root` holds what is left of one level and, behind it, what there is of
the next.  A round joins the two nodes at the front, or pads the last one of an odd level,
and the padding is the node that the full tree has there.  After the last round the queue
holds the root alone.
-/

namespace Candyland.MerkleTreeReference

open ConcurrentMerkleTree (NodeHash EMPTY hashv emptyNode emptyNode_eq_uniform)

variable {Node : Type} [NodeHash Node]

/-- The node in a place of the full tree over the leaves. -/
def fullNode (leaves : List Node) (l p : ℕ) : Node :=
  MerkleTree.node hashv (PaddedTree.leaf EMPTY leaves) l p

/-- The places in the queue when `k` nodes of level `l + 1` are made and `w` nodes of
level `l`. -/
def frontier (l w k : ℕ) : List (ℕ × ℕ) :=
  (List.range' (2 * k) (w - 2 * k)).map (l, ·) ++ (List.range k).map (l + 1, ·)

/-- The places of the nodes that are made then. -/
def Made (l w k : ℕ) (c : ℕ × ℕ) : Prop :=
  c.1 < l ∨ c.1 = l ∧ c.2 < w ∨ c.1 = l + 1 ∧ c.2 < k

/-- The nodes `roots` are what is to be joined when `k` nodes of level `l + 1` are made and
`w` nodes of level `l`. -/
structure Building (leaves : List Node) (l w k : ℕ) (roots : List Ref) (heap : Heap Node)
    (coord : Ref → ℕ × ℕ) : Prop where
  forest : Forest (fullNode leaves) heap coord roots
  front : roots.map coord = frontier l w k
  made : ∀ r < heap.length, Made l w k (coord r)
  length_le : leaves.length ≤ heap.length
  leaf : ∀ i < leaves.length, coord i = (0, i)

/-! ### The queue -/

theorem frontier_of_lt {l w k : ℕ} (h : 2 * k < w) :
    frontier l w k = (l, 2 * k) ::
      ((List.range' (2 * k + 1) (w - (2 * k + 1))).map (l, ·) ++
        (List.range k).map (l + 1, ·)) := by
  rw [frontier, show w - 2 * k = w - (2 * k + 1) + 1 by omega, List.range'_succ]
  rfl

/-- The first two places of a level with another pair. -/
theorem frontier_of_pair {l w k : ℕ} (h : 2 * k + 1 < w) :
    ∃ cs, frontier l w k = (l, 2 * k) :: (l, 2 * k + 1) :: cs ∧
      frontier l w (k + 1) = cs ++ [(l + 1, k)] := by
  refine ⟨(List.range' (2 * (k + 1)) (w - 2 * (k + 1))).map (l, ·) ++
    (List.range k).map (l + 1, ·), ?_, ?_⟩
  · rw [frontier_of_lt (by omega), show w - (2 * k + 1) = w - 2 * (k + 1) + 1 by omega,
      List.range'_succ]
    rfl
  · rw [frontier, List.range_succ, List.map_append, ← List.append_assoc]
    rfl

/-- A level of odd width ends with a single place, before the next level. -/
theorem frontier_of_odd {l k : ℕ} :
    frontier l (2 * k + 1) k = (l, 2 * k) :: (List.range k).map (l + 1, ·) ∧
      frontier l (2 * k + 2) k =
        (l, 2 * k) :: (l, 2 * k + 1) :: (List.range k).map (l + 1, ·) := by
  rw [frontier_of_lt (by omega), frontier_of_lt (by omega),
    show 2 * k + 1 - (2 * k + 1) = 0 by omega, show 2 * k + 2 - (2 * k + 1) = 1 by omega]
  exact ⟨rfl, rfl⟩

theorem frontier_next (l k : ℕ) : frontier l (2 * k) k = frontier (l + 1) k 0 := by
  simp [frontier, List.range_eq_range']

theorem Made.mono {l w w' k : ℕ} {c : ℕ × ℕ} (hw : w ≤ w') (h : Made l w k c) :
    Made l w' k c := by
  rcases h with h | ⟨h, h'⟩ | h
  · exact .inl h
  · exact .inr (.inl ⟨h, by omega⟩)
  · exact .inr (.inr h)

theorem Made.next {l w k : ℕ} {c : ℕ × ℕ} (h : Made l w k c) : Made (l + 1) k 0 c := by
  rcases h with h | ⟨h, -⟩ | h
  · exact .inl (by omega)
  · exact .inl (by omega)
  · exact .inr (.inl h)

/-! ### Steps of a round -/

namespace Building

variable {leaves : List Node} {l w k : ℕ} {left right : Ref} {rest roots : List Ref}
  {heap : Heap Node} {coord : Ref → ℕ × ℕ}

/-- When a level is used up, the next one begins. -/
theorem next (h : Building leaves l (2 * k) k roots heap coord) :
    Building leaves (l + 1) k 0 roots heap coord where
  forest := h.forest
  front := by rw [h.front, frontier_next]
  made r hr := (h.made r hr).next
  length_le := h.length_le
  leaf := h.leaf

theorem leaf_update (h : Building leaves l w k roots heap coord) (c : ℕ × ℕ) :
    ∀ i < leaves.length, Function.update coord heap.length c i = (0, i) := by
  intro i hi
  rw [Function.update_of_ne (hi.trans_le h.length_le).ne, h.leaf i hi]

theorem map_update (h : Building leaves l w k roots heap coord) {rs : List Ref}
    (hrs : rs ⊆ roots) (c : ℕ × ℕ) :
    rs.map (Function.update coord heap.length c) = rs.map coord :=
  List.map_congr_left fun r hr => Function.update_of_ne (h.forest.lt r (hrs hr)).ne _ _

/-- The last node of an odd level gets an empty node beside it. -/
theorem pad (h : Building leaves l (2 * k + 1) k (left :: rest) heap coord)
    (hw : PaddedTree.width leaves.length l ≤ 2 * k + 1) :
    Building leaves l (2 * k + 2) k (left :: heap.length :: rest)
      (heap ++ [TreeNode.newEmpty l heap.length])
      (Function.update coord heap.length (l, 2 * k + 1)) where
  forest := by
    refine h.forest.concat (fun r hr heq => ?_) rfl rfl ?_ rfl (List.Perm.swap _ _ _)
    · rcases heq ▸ h.made r hr with hlt | ⟨-, hlt⟩ | ⟨heq, -⟩
      · exact lt_irrefl _ hlt
      · exact lt_irrefl _ hlt
      · exact absurd heq (by simp)
    · rw [fullNode, PaddedTree.node_eq_uniform _ _ hw, ← emptyNode_eq_uniform]
      rfl
  front := by
    have hfront := h.front
    rw [frontier_of_odd.1, List.map_cons, List.cons.injEq] at hfront
    rw [frontier_of_odd.2, List.map_cons, List.map_cons, Function.update_self,
      h.map_update (List.subset_cons_self _ _), hfront.2,
      Function.update_of_ne (h.forest.lt left List.mem_cons_self).ne, hfront.1]
  made r hr := by
    rw [List.length_append, List.length_singleton] at hr
    rcases Nat.lt_succ_iff_lt_or_eq.1 hr with hr | rfl
    · rw [Function.update_of_ne hr.ne]
      exact (h.made r hr).mono (by omega)
    · rw [Function.update_self]
      exact .inr (.inl ⟨rfl, by simp⟩)
  length_le := by
    rw [List.length_append]
    exact Nat.le_add_right_of_le h.length_le
  leaf := h.leaf_update _

/-- Two nodes at the front are joined. -/
theorem join (h : Building leaves l w k (left :: right :: rest) heap coord)
    (hw : 2 * k + 1 < w) :
    ∃ heap' coord', BuildState.join ⟨heap, rest, heap.length⟩ left right =
        some ⟨heap', rest ++ [heap.length], heap'.length⟩ ∧
      Building leaves l w (k + 1) (rest ++ [heap.length]) heap' coord' := by
  obtain ⟨cs, hfront, hfront'⟩ := frontier_of_pair (l := l) hw
  have hmap := h.front
  rw [hfront, List.map_cons, List.map_cons, List.cons.injEq, List.cons.injEq] at hmap
  obtain ⟨hleft, hright, hrest⟩ := hmap
  have hleft_lt := h.forest.lt left (by simp)
  have hright_lt := h.forest.lt right (by simp)
  obtain ⟨leftNode, hleftNode⟩ := Forest.exists_of_lt hleft_lt
  obtain ⟨rightNode, hrightNode⟩ := Forest.exists_of_lt hright_lt
  set parent : TreeNode Node :=
    .new (hashv leftNode.node rightNode.node) left right (leftNode.level + 1) heap.length
    with hparent
  -- the parent is a root until its children point to it
  have hforest := h.forest.concat (x := parent) (c := (l + 1, k))
    (fun r hr heq => by
      rcases heq ▸ h.made r hr with hlt | ⟨heq, -⟩ | ⟨-, hlt⟩
      · exact absurd hlt (by simp)
      · exact absurd heq (by simp)
      · exact lt_irrefl _ hlt)
    (by rw [hparent, TreeNode.new, h.forest.level hleftNode, hleft]) rfl
    (by
      rw [hparent, TreeNode.new, h.forest.node hleftNode, h.forest.node hrightNode, hleft, hright]
      rfl)
    rfl (List.perm_append_singleton heap.length (left :: right :: rest))
  have hjoins : Joins (heap ++ [parent]) (Function.update coord heap.length (l + 1, k)) l k
      heap.length left right :=
    { links := ⟨parent, List.getElem?_concat_length, rfl, rfl⟩
      parent := Function.update_self _ _ _
      left := by rw [Function.update_of_ne hleft_lt.ne, hleft]
      right := by rw [Function.update_of_ne hright_lt.ne, hright]
      left_lt := by simpa using hleft_lt.trans (Nat.lt_succ_self _)
      right_lt := by simpa using hright_lt.trans (Nat.lt_succ_self _) }
  have hforest := hforest.assignParent (q := heap.length) (List.Perm.refl _)
    ⟨left, right, by rw [hjoins.left]; simpa using hjoins⟩
  have hjoins := hjoins.modify (f := (·.assignParent heap.length)) (fun _ => rfl) (fun _ => rfl)
    left
  have hforest := hforest.assignParent (q := heap.length) (List.Perm.refl _)
    ⟨left, right, by
      rw [hjoins.right]
      simpa [show (2 * k + 1) / 2 = k by omega] using hjoins⟩
  refine ⟨_, _, ?_, { forest := hforest, front := ?_, made := ?_, length_le := ?_, leaf := ?_ }⟩
  · simp [BuildState.join, hleftNode, hrightNode, hparent]
  · rw [hfront', List.map_append, h.map_update (fun r hr => by simp [hr]), hrest]
    simp
  · intro r hr
    rw [List.length_modify, List.length_modify, List.length_append, List.length_singleton] at hr
    rcases Nat.lt_succ_iff_lt_or_eq.1 hr with hr | rfl
    · rw [Function.update_of_ne hr.ne]
      rcases h.made r hr with hmade | hmade | ⟨hmade, hlt⟩
      · exact .inl hmade
      · exact .inr (.inl hmade)
      · exact .inr (.inr ⟨hmade, by omega⟩)
    · rw [Function.update_self]
      exact .inr (.inr ⟨rfl, Nat.lt_succ_self _⟩)
  · rw [List.length_modify, List.length_modify, List.length_append]
    exact Nat.le_add_right_of_le h.length_le
  · exact h.leaf_update _

/-- The right node is the next one, or the padding of an odd level. -/
theorem takeRight
    (h : Building leaves l (PaddedTree.width leaves.length l) k (left :: rest) heap coord)
    (hk : 2 * k < PaddedTree.width leaves.length l)
    (hw : 1 < PaddedTree.width leaves.length l) :
    ∃ right rest' heap' coord', BuildState.takeRight ⟨heap, rest, heap.length⟩ l =
        some (right, ⟨heap', rest', heap'.length⟩) ∧
      Building leaves l (max (PaddedTree.width leaves.length l) (2 * (k + 1))) k
        (left :: right :: rest') heap' coord' := by
  generalize hwidth : PaddedTree.width leaves.length l = w at h hk hw
  have hmap := h.front
  rcases Nat.lt_or_ge (2 * k + 1) w with hpair | hodd
  · obtain ⟨cs, hfront, -⟩ := frontier_of_pair (l := l) hpair
    rw [hfront, List.map_cons, List.cons.injEq, List.map_eq_cons_iff] at hmap
    obtain ⟨-, front, rest, rfl, hcoord, -⟩ := hmap
    obtain ⟨frontNode, hfrontNode⟩ := Forest.exists_of_lt (h.forest.lt front (by simp))
    have hlevel : l = frontNode.level := by rw [h.forest.level hfrontNode, hcoord]
    refine ⟨front, rest, heap, coord, ?_, ?_⟩
    · simp [BuildState.takeRight, hfrontNode, ← hlevel]
    · rw [max_eq_left (by omega)]
      exact h
  · -- the queue goes on with the next level, which is not empty
    obtain rfl : w = 2 * k + 1 := by omega
    obtain ⟨k, rfl⟩ := Nat.exists_eq_succ_of_ne_zero (show k ≠ 0 by omega)
    rw [frontier_of_odd.1, List.map_cons, List.cons.injEq, List.range_succ_eq_map, List.map_cons,
      List.map_eq_cons_iff] at hmap
    obtain ⟨-, front, rest, rfl, hcoord, -⟩ := hmap
    obtain ⟨frontNode, hfrontNode⟩ := Forest.exists_of_lt (h.forest.lt front (by simp))
    have hlevel : l ≠ frontNode.level := by
      rw [h.forest.level hfrontNode, hcoord]
      exact (Nat.lt_succ_self l).ne
    have hpad := h.pad hwidth.le
    rw [max_eq_right (by omega)]
    refine ⟨heap.length, front :: rest, _, _, ?_, hpad⟩
    simp [BuildState.takeRight, hfrontNode, hlevel]

/-- A round makes another node of the next level. -/
theorem round (h : Building leaves l (PaddedTree.width leaves.length l) k roots heap coord)
    (hk : 2 * k < PaddedTree.width leaves.length l)
    (hw : 1 < PaddedTree.width leaves.length l) :
    ∃ roots' heap' coord', BuildState.round ⟨heap, roots, heap.length⟩ =
        some ⟨heap', roots', heap'.length⟩ ∧
      Building leaves l (max (PaddedTree.width leaves.length l) (2 * (k + 1))) (k + 1) roots'
        heap' coord' := by
  have hmap := h.front
  rw [frontier_of_lt hk, List.map_eq_cons_iff] at hmap
  obtain ⟨left, rest, rfl, hcoord, -⟩ := hmap
  obtain ⟨leftNode, hleftNode⟩ := Forest.exists_of_lt (h.forest.lt left List.mem_cons_self)
  have hlevel : leftNode.level = l := by rw [h.forest.level hleftNode, hcoord]
  obtain ⟨right, rest', heap', coord', htake, h'⟩ := h.takeRight hk hw
  obtain ⟨heap'', coord'', hjoin, h''⟩ := h'.join (by omega)
  refine ⟨_, heap'', coord'', ?_, h''⟩
  simp [BuildState.round, hleftNode, hlevel, htake, hjoin]

/-- There are two nodes to join as long as the level is not used up. -/
theorem one_lt_length (h : Building leaves l w k roots heap coord) (hk : 2 * k < w)
    (hw : 1 < w) : 1 < roots.length := by
  have hlength : roots.length = w - 2 * k + k := by
    simpa [frontier] using congrArg List.length h.front
  omega

end Building

/-! ### The loop -/

/-- From any point of a level the loop goes on to the root, within rounds that are bounded
by what is left of the level and the width of the next. -/
theorem Building.loop {leaves : List Node} {fuel l k : ℕ} {roots : List Ref} {heap : Heap Node}
    {coord : Ref → ℕ × ℕ}
    (h : Building leaves l (PaddedTree.width leaves.length l) k roots heap coord)
    (hk : k < PaddedTree.width leaves.length (l + 1))
    (hw : 1 < PaddedTree.width leaves.length l)
    (hfuel : 3 * PaddedTree.width leaves.length (l + 1) ≤ fuel + k + 2) :
    ∃ top heap' coord', BuildState.loop fuel ⟨heap, roots, heap.length⟩ =
        some ⟨heap', [top], heap'.length⟩ ∧
      Building leaves (PaddedTree.depth leaves.length) 1 0 [top] heap' coord' := by
  induction fuel generalizing l k roots heap coord with
  | zero => omega
  | succ fuel ih =>
    have hsucc := PaddedTree.width_succ leaves.length l
    obtain ⟨roots', heap', coord', hround, h'⟩ := h.round (by omega) hw
    rw [BuildState.loop, if_pos (h.one_lt_length (by omega) hw), hround, Option.bind_eq_bind,
      Option.bind_some]
    rcases Nat.lt_or_ge (2 * (k + 1)) (PaddedTree.width leaves.length l) with hlt | hge
    · rw [max_eq_left hlt.le] at h'
      exact ih h' (by omega) hw (by omega)
    · -- the level is used up
      rw [max_eq_right hge] at h'
      have hnext := h'.next
      obtain hwidth : k + 1 = PaddedTree.width leaves.length (l + 1) := by omega
      rcases Nat.eq_zero_or_pos k with rfl | hpos
      · obtain ⟨top, rfl⟩ : ∃ top, roots' = [top] := by
          rw [← List.length_eq_one_iff]
          simpa [frontier] using congrArg List.length hnext.front
        rw [← PaddedTree.depth_eq hw hwidth.ge] at hnext
        refine ⟨top, heap', coord', ?_, hnext⟩
        cases fuel <;> simp [BuildState.loop]
      · have hsucc' := PaddedTree.width_succ leaves.length (l + 1)
        rw [hwidth] at hnext
        exact ih hnext (by omega) (by omega) (by omega)

/-! ### New trees -/

/-- The tree has the nodes of the full tree over the leaves, under its root `top`. -/
structure Represents (tree : MerkleTree Node) (leaves : List Node) (coord : Ref → ℕ × ℕ)
    (top : Ref) : Prop where
  forest : Forest (fullNode leaves) tree.heap coord [top]
  top : coord top = (PaddedTree.depth leaves.length, 0)
  level_le : ∀ r < tree.heap.length, (coord r).1 ≤ PaddedTree.depth leaves.length
  leafNodes : tree.leafNodes = List.range leaves.length
  leaf : ∀ i < leaves.length, coord i = (0, i)
  length_le : leaves.length ≤ tree.heap.length
  root : tree.root = PaddedTree.root hashv EMPTY leaves

/-- The node of a leaf, before it has a parent. -/
def leafNode (i : ℕ) (node : Node) : TreeNode Node := (TreeNode.newEmpty 0 i).setNode node

theorem newLeaves_eq (leaves : List Node) :
    MerkleTree.newLeaves leaves = (leaves.mapIdx leafNode, List.range leaves.length) := by
  induction leaves using List.reverseRecOn with
  | nil => rfl
  | append_singleton leaves node ih =>
    rw [MerkleTree.newLeaves] at ih
    rw [MerkleTree.newLeaves, List.zipIdx_append, List.foldl_append, ih, List.mapIdx_append,
      List.length_append, List.length_singleton, List.range_succ]
    simp [leafNode]

theorem building_leaves (leaves : List Node) :
    Building leaves 0 leaves.length 0 (List.range leaves.length) (leaves.mapIdx leafNode)
      fun r => (0, r) := by
  have hread : ∀ {r : Ref} {t : TreeNode Node}, (leaves.mapIdx leafNode)[r]? = some t →
      ∃ h : r < leaves.length, t = leafNode r leaves[r] := by
    intro r t ht
    rw [List.getElem?_mapIdx, Option.map_eq_some_iff] at ht
    obtain ⟨node, hnode, rfl⟩ := ht
    obtain ⟨hlt, rfl⟩ := List.getElem?_eq_some_iff.1 hnode
    exact ⟨hlt, rfl⟩
  refine
    { forest :=
        { inj := fun _ _ heq => (Prod.mk.inj heq).2
          level := fun ht => ?_
          id := fun ht => ?_
          node := fun ht => ?_
          nodup := List.nodup_range
          lt := fun r hr => by simpa using hr
          parent_eq_none_iff := fun ht => ?_
          joins := fun ht hq => by
            obtain ⟨hlt, heq⟩ := hread ht
            simp [heq, leafNode, TreeNode.setNode, TreeNode.newEmpty] at hq }
      front := by simp [frontier, List.range_eq_range']
      made := fun r hr => .inr (.inl ⟨rfl, by simpa using hr⟩)
      length_le := by simp
      leaf := fun i _ => rfl }
  · obtain ⟨-, rfl⟩ := hread ht
    rfl
  · obtain ⟨-, rfl⟩ := hread ht
    rfl
  · obtain ⟨hlt, rfl⟩ := hread ht
    exact (PaddedTree.leaf_of_lt EMPTY hlt).symm
  · obtain ⟨hlt, rfl⟩ := hread ht
    simpa [leafNode, TreeNode.setNode, TreeNode.newEmpty] using hlt

/-- The loop of `build_root` ends, within two rounds for each leaf. -/
theorem loop_leaves {leaves : List Node} (hn : leaves ≠ []) {fuel : ℕ}
    (hfuel : 2 * leaves.length ≤ fuel) :
    ∃ top heap coord,
      BuildState.loop fuel
          ⟨leaves.mapIdx leafNode, List.range leaves.length, leaves.length⟩ =
        some ⟨heap, [top], heap.length⟩ ∧
      Building leaves (PaddedTree.depth leaves.length) 1 0 [top] heap coord := by
  have hpos := List.length_pos_iff.2 hn
  have hbuilding := building_leaves leaves
  have hsucc := PaddedTree.width_succ leaves.length 0
  have hzero : PaddedTree.width leaves.length 0 = leaves.length := rfl
  rcases Nat.lt_or_ge 1 leaves.length with hlt | hge
  · simpa using hbuilding.loop (by omega) (by omega) (by omega : 3 * _ ≤ fuel + 0 + 2)
  · have hone : leaves.length = 1 := by omega
    have hdepth : PaddedTree.depth leaves.length = 0 :=
      Nat.le_zero.1 (PaddedTree.width_le_one_iff.1 hge)
    have hroots : List.range leaves.length = [0] := by rw [hone, List.range_one]
    rw [hroots, hone] at hbuilding
    rw [hroots, hdepth]
    refine ⟨0, leaves.mapIdx leafNode, _, ?_, hbuilding⟩
    cases fuel <;> simp [BuildState.loop]

/-- A new tree is the full tree over its leaves. -/
theorem exists_new {leaves : List Node} (hn : leaves ≠ []) {fuel : ℕ}
    (hfuel : 2 * leaves.length ≤ fuel) :
    ∃ tree coord top, MerkleTree.new fuel leaves = some tree ∧
      Represents tree leaves coord top := by
  obtain ⟨top, heap, coord, hloop, hbuilding⟩ := loop_leaves hn hfuel
  obtain ⟨topNode, htopNode⟩ := Forest.exists_of_lt (hbuilding.forest.lt top (by simp))
  have htop : coord top = (PaddedTree.depth leaves.length, 0) := by
    simpa [frontier] using hbuilding.front
  refine ⟨⟨heap, List.range leaves.length, topNode.node⟩, coord, top, ?_, ?_⟩
  · simp [MerkleTree.new, MerkleTree.buildRoot, newLeaves_eq, hloop, htopNode]
  · exact
      { forest := hbuilding.forest
        top := htop
        level_le := fun r hr => by
          rcases hbuilding.made r hr with hlt | ⟨heq, -⟩ | ⟨-, hlt⟩
          · exact hlt.le
          · exact heq.le
          · exact absurd hlt (Nat.not_lt_zero _)
        leafNodes := rfl
        leaf := hbuilding.leaf
        length_le := hbuilding.length_le
        root := by
          rw [hbuilding.forest.node htopNode, htop]
          rfl }

end Candyland.MerkleTreeReference
