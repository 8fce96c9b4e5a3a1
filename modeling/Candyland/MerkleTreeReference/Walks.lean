import Candyland.MerkleTreeReference.Build

/-!
# Walks to the root

The walk from a leaf compares identifiers to tell the left child of a parent from the
right one.  It passes the nodes over the leaf, one on each level, so that it collects the
sibling path, and a walk that rewrites what it passes turns the tree over the old leaves
into the tree over the new ones.
-/

namespace Candyland.MerkleTreeReference

open ConcurrentMerkleTree (NodeHash EMPTY hashv)

variable {Node : Type} {V : ℕ → ℕ → Node} {heap : Heap Node} {coord : Ref → ℕ × ℕ}
  {top r : Ref} {t : TreeNode Node} {D i l : ℕ}

/-! ### One step -/

/-- The parent of `t` is at `q`, and its children are `left` and `right`. -/
structure Above (heap : Heap Node) (t : TreeNode Node) (q : Ref) (left right : TreeNode Node) :
    Prop where
  parent : t.parent = some q
  links : ∃ p a b, heap[q]? = some p ∧ p.left = some a ∧ p.right = some b ∧
    heap[a]? = some left ∧ heap[b]? = some right

namespace Above

variable {q : Ref} {left right : TreeNode Node}

theorem proofLoop (h : Above heap t q left right) (ht : heap[r]? = some t) (fuel : ℕ)
    (proof : List Node) :
    MerkleTree.proofLoop heap (fuel + 1) r proof =
      MerkleTree.proofLoop heap fuel q
        (proof ++ [if left.id = t.id then right.node else left.node]) := by
  obtain ⟨p, a, b, hp, ha, hb, hleft, hright⟩ := h.links
  rw [MerkleTree.proofLoop]
  split_ifs <;> simp [h.parent, *]

theorem updateLoop [NodeHash Node] (h : Above heap t q left right) (ht : heap[r]? = some t)
    (fuel : ℕ) :
    MerkleTree.updateLoop (fuel + 1) r heap =
      MerkleTree.updateLoop fuel q (heap.modify q (·.setNode
        (if left.id = t.id then hashv t.node right.node else hashv left.node t.node))) := by
  obtain ⟨p, a, b, hp, ha, hb, hleft, hright⟩ := h.links
  rw [MerkleTree.updateLoop]
  split_ifs <;> simp [h.parent, *]

end Above

namespace Forest

/-- The node at the top has no parent. -/
theorem parent_eq_none (h : Forest V heap coord [top]) (htop : coord top = (D, 0))
    (ht : heap[r]? = some t) (hr : coord r = (D, 0)) : t.parent = none := by
  rw [h.parent_eq_none_iff ht, List.mem_singleton]
  exact h.inj (lt_of_getElem?_eq_some ht) (h.lt top (by simp)) (hr.trans htop.symm)

/-- The nodes below the top have parents, and the identifiers tell on which side they are. -/
theorem exists_above (h : Forest V heap coord [top]) (htop : coord top = (D, 0))
    (ht : heap[r]? = some t) (hr : coord r = (l, i / 2 ^ l)) (hl : l < D) :
    ∃ q left right, Above heap t q left right ∧ q < heap.length ∧
      coord q = (l + 1, i / 2 ^ (l + 1)) ∧ (left.id = t.id ↔ i / 2 ^ l % 2 = 0) ∧
      left.node = V l (2 * (i / 2 ^ (l + 1))) ∧ right.node = V l (2 * (i / 2 ^ (l + 1)) + 1) := by
  have hlt := lt_of_getElem?_eq_some ht
  have hparent : t.parent ≠ none := by
    rw [Ne, h.parent_eq_none_iff ht, List.mem_singleton]
    rintro rfl
    rw [htop, Prod.mk.injEq] at hr
    omega
  obtain ⟨q, hq⟩ := Option.ne_none_iff_exists'.1 hparent
  obtain ⟨a, b, hjoins⟩ := h.joins ht hq
  rw [hr, ← Bits.div_pow_succ] at hjoins
  obtain ⟨p, hp, ha, hb⟩ := hjoins.links
  obtain ⟨left, hleft⟩ := exists_of_lt hjoins.left_lt
  obtain ⟨right, hright⟩ := exists_of_lt hjoins.right_lt
  refine ⟨q, left, right, ⟨hq, p, a, b, hp, ha, hb, hleft, hright⟩, hjoins.parent_lt,
    hjoins.parent, ?_, ?_, ?_⟩
  · have hiff : a = r ↔ coord a = coord r := ⟨congrArg coord, h.inj hjoins.left_lt hlt⟩
    rw [h.id hleft, h.id ht, hiff, hjoins.left, hr, Prod.mk.injEq, Bits.div_pow_succ]
    omega
  · rw [h.node hleft, hjoins.left]
  · rw [h.node hright, hjoins.right]

end Forest

/-! ### The sibling path -/

/-- The rest of a walk, from level `l` on. -/
theorem proofLoop_eq (h : Forest V heap coord [top]) (htop : coord top = (D, 0))
    (hi : i < 2 ^ D) {d fuel : ℕ} (hd : l + d = D) (hfuel : d < fuel) (hlt : r < heap.length)
    (hr : coord r = (l, i / 2 ^ l)) (proof : List Node) :
    MerkleTree.proofLoop heap fuel r proof =
      some (proof ++ (List.range' l d).map fun m => V m ((i / 2 ^ m) ^^^ 1)) := by
  induction d generalizing l r fuel proof with
  | zero =>
    obtain ⟨t, ht⟩ := Forest.exists_of_lt hlt
    obtain ⟨fuel, rfl⟩ := Nat.exists_eq_succ_of_ne_zero hfuel.ne'
    obtain rfl : l = D := by omega
    rw [Nat.div_eq_of_lt hi] at hr
    simp [MerkleTree.proofLoop, ht, h.parent_eq_none htop ht hr]
  | succ d ih =>
    obtain ⟨t, ht⟩ := Forest.exists_of_lt hlt
    obtain ⟨fuel, rfl⟩ := Nat.exists_eq_succ_of_ne_zero (Nat.ne_zero_of_lt hfuel)
    obtain ⟨q, left, right, habove, hq_lt, hq, hid, hleft, hright⟩ :=
      h.exists_above htop ht hr (by omega)
    have hsibling : (if left.id = t.id then right.node else left.node) =
        V l ((i / 2 ^ l) ^^^ 1) := by
      have hdiv := Bits.div_pow_succ i l
      split_ifs with hleft_id
      · have heven := hid.1 hleft_id
        rw [hright, Bits.xor_one_of_even heven, show 2 * (i / 2 ^ (l + 1)) = i / 2 ^ l by omega]
      · have hodd := mt hid.2 hleft_id
        rw [hleft, Bits.xor_one_of_odd (by omega),
          show 2 * (i / 2 ^ (l + 1)) = i / 2 ^ l - 1 by omega]
    rw [habove.proofLoop ht, ih (by omega) (by omega) hq_lt hq, hsibling, List.range'_succ,
      List.map_cons, List.append_assoc, List.singleton_append]

/-! ### Rewriting a path -/

section Update

variable [NodeHash Node] {T : ℕ → Node} {w : Node}

/-- The nodes when those up to level `l` are brought up to date with the leaves `T'`. -/
def mixed (T T' : ℕ → Node) (l m p : ℕ) : Node :=
  MerkleTree.node hashv (if m ≤ l then T' else T) m p

/-- The rest of a walk that writes, with the path rewritten up to level `l`. -/
theorem updateLoop_eq
    (h : Forest (mixed T (Function.update T i w) l) heap coord [top])
    (htop : coord top = (D, 0)) (hi : i < 2 ^ D) {d fuel : ℕ} (hd : l + d = D) (hfuel : d < fuel)
    (hlt : r < heap.length) (hr : coord r = (l, i / 2 ^ l)) :
    ∃ heap', MerkleTree.updateLoop fuel r heap =
        some (heap', MerkleTree.node hashv (Function.update T i w) D 0) ∧
      heap'.length = heap.length ∧
      Forest (mixed T (Function.update T i w) D) heap' coord [top] := by
  induction d generalizing l r fuel heap with
  | zero =>
    obtain ⟨t, ht⟩ := Forest.exists_of_lt hlt
    obtain ⟨fuel, rfl⟩ := Nat.exists_eq_succ_of_ne_zero hfuel.ne'
    obtain rfl : l = D := by omega
    rw [Nat.div_eq_of_lt hi] at hr
    refine ⟨heap, ?_, rfl, h⟩
    simp [MerkleTree.updateLoop, ht, h.parent_eq_none htop ht hr, h.node ht, hr, mixed]
  | succ d ih =>
    obtain ⟨t, ht⟩ := Forest.exists_of_lt hlt
    obtain ⟨fuel, rfl⟩ := Nat.exists_eq_succ_of_ne_zero (Nat.ne_zero_of_lt hfuel)
    obtain ⟨q, left, right, habove, hq_lt, hq, hid, hleft, hright⟩ :=
      h.exists_above htop ht hr (by omega)
    have hhash : (if left.id = t.id then hashv t.node right.node else hashv left.node t.node) =
        MerkleTree.node hashv (Function.update T i w) (l + 1) (i / 2 ^ (l + 1)) := by
      have hdiv := Bits.div_pow_succ i l
      have hnode := h.node ht
      simp only [hr, mixed, le_refl, if_true] at hnode hleft hright
      rw [MerkleTree.node, hleft, hright, hnode]
      split_ifs with hleft_id
      · have heven := hid.1 hleft_id
        rw [show 2 * (i / 2 ^ (l + 1)) = i / 2 ^ l by omega]
      · have hodd := mt hid.2 hleft_id
        rw [show 2 * (i / 2 ^ (l + 1)) + 1 = i / 2 ^ l by omega]
    have hforest : Forest (mixed T (Function.update T i w) (l + 1)) _ coord [top] :=
      h.setNode hq_lt (w := if left.id = t.id then hashv t.node right.node
        else hashv left.node t.node) (by rw [hhash, hq, mixed, if_pos le_rfl]) fun r' hr' hne => by
        rw [mixed, mixed]
        by_cases hlevel : (coord r').1 = l + 1
        · -- other nodes of the level are not over the written leaf
          rw [if_pos hlevel.le, if_neg (by omega)]
          refine MerkleTree.node_update_of_ne hashv fun heq => hne ?_
          rw [hq, ← hlevel, ← heq]
        · congr 1
          split_ifs <;> first | rfl | omega
    obtain ⟨heap', hloop, hlength, hforest'⟩ :=
      ih hforest (by omega) (Nat.lt_of_succ_lt_succ hfuel) (by simpa using hq_lt) hq
    refine ⟨heap', ?_, by simpa using hlength, hforest'⟩
    rw [habove.updateLoop ht, hloop]

end Update

end Candyland.MerkleTreeReference
