import Candyland.MerkleTreeReference.State

/-!
# Heaps of tree nodes

The nodes of a tree under construction form a forest.  Every reference is given its place
in the final tree, a level and a position in the level, and all that the links say is said
in terms of the places.  An allocation, the assignment of a parent and the assignment of a
node each keep a forest.
-/

namespace Candyland.MerkleTreeReference

variable {Node : Type}

/-! ### Reading changed heaps -/

theorem getElem?_concat_eq_some {α : Type} {l : List α} {x a : α} {i : ℕ} :
    (l ++ [x])[i]? = some a ↔ l[i]? = some a ∨ i = l.length ∧ x = a := by
  rw [List.getElem?_append]
  split_ifs with hi
  · constructor
    · exact .inl
    · rintro (h | ⟨rfl, -⟩)
      · exact h
      · exact absurd hi (lt_irrefl _)
  · have hnone : l[i]? = none := List.getElem?_eq_none (by omega)
    rw [hnone]
    by_cases hlen : i = l.length
    · simp [hlen]
    · simp [hlen, show i - l.length ≠ 0 by omega]

theorem getElem?_modify_eq_some {α : Type} {l : List α} {f : α → α} {a : α} {i j : ℕ} :
    (l.modify i f)[j]? = some a ↔ ∃ b, l[j]? = some b ∧ (if i = j then f b else b) = a := by
  rw [List.getElem?_modify]
  exact Option.map_eq_some_iff

theorem lt_of_getElem?_eq_some {α : Type} {l : List α} {a : α} {i : ℕ} (h : l[i]? = some a) :
    i < l.length :=
  (List.getElem?_eq_some_iff.1 h).1

/-! ### Forests -/

/-- The node at `q` joins the nodes at `a` and `b`, which are in the positions `2 * p` and
`2 * p + 1` of level `l`. -/
structure Joins (heap : Heap Node) (coord : Ref → ℕ × ℕ) (l p : ℕ) (q a b : Ref) : Prop where
  links : ∃ t, heap[q]? = some t ∧ t.left = some a ∧ t.right = some b
  parent : coord q = (l + 1, p)
  left : coord a = (l, 2 * p)
  right : coord b = (l, 2 * p + 1)
  left_lt : a < heap.length
  right_lt : b < heap.length

/-- The nodes of a heap are where `coord` says, hold what `V` says of their places, and are
linked to their parents, except for `roots`, which have none. -/
structure Forest (V : ℕ → ℕ → Node) (heap : Heap Node) (coord : Ref → ℕ × ℕ)
    (roots : List Ref) : Prop where
  inj : ∀ {r r' : Ref}, r < heap.length → r' < heap.length → coord r = coord r' → r = r'
  level : ∀ {r : Ref} {t : TreeNode Node}, heap[r]? = some t → t.level = (coord r).1
  id : ∀ {r : Ref} {t : TreeNode Node}, heap[r]? = some t → t.id = r
  node : ∀ {r : Ref} {t : TreeNode Node}, heap[r]? = some t →
    t.node = V (coord r).1 (coord r).2
  nodup : roots.Nodup
  lt : ∀ r ∈ roots, r < heap.length
  parent_eq_none_iff : ∀ {r : Ref} {t : TreeNode Node}, heap[r]? = some t →
    (t.parent = none ↔ r ∈ roots)
  joins : ∀ {r q : Ref} {t : TreeNode Node}, heap[r]? = some t →
    t.parent = some q → ∃ a b, Joins heap coord (coord r).1 ((coord r).2 / 2) q a b

variable {V : ℕ → ℕ → Node} {heap : Heap Node} {coord : Ref → ℕ × ℕ} {roots : List Ref}

namespace Joins

variable {l p : ℕ} {q a b : Ref}

theorem parent_lt (h : Joins heap coord l p q a b) : q < heap.length := by
  obtain ⟨t, ht, -⟩ := h.links
  exact lt_of_getElem?_eq_some ht

/-- An allocation leaves the joins that there are. -/
theorem concat (h : Joins heap coord l p q a b) (x : TreeNode Node) (c : ℕ × ℕ) :
    Joins (heap ++ [x]) (Function.update coord heap.length c) l p q a b where
  links := by
    obtain ⟨t, ht, hlinks⟩ := h.links
    exact ⟨t, getElem?_concat_eq_some.2 (.inl ht), hlinks⟩
  parent := by rw [Function.update_of_ne h.parent_lt.ne, h.parent]
  left := by rw [Function.update_of_ne h.left_lt.ne, h.left]
  right := by rw [Function.update_of_ne h.right_lt.ne, h.right]
  left_lt := by simpa using h.left_lt.trans (Nat.lt_succ_self _)
  right_lt := by simpa using h.right_lt.trans (Nat.lt_succ_self _)

/-- So does a change that keeps the links to the children. -/
theorem modify (h : Joins heap coord l p q a b) {f : TreeNode Node → TreeNode Node}
    (hleft : ∀ t, (f t).left = t.left) (hright : ∀ t, (f t).right = t.right) (i : Ref) :
    Joins (heap.modify i f) coord l p q a b where
  links := by
    obtain ⟨t, ht, hl, hr⟩ := h.links
    refine ⟨_, getElem?_modify_eq_some.2 ⟨t, ht, rfl⟩, ?_⟩
    split_ifs
    · exact ⟨by rw [hleft, hl], by rw [hright, hr]⟩
    · exact ⟨hl, hr⟩
  parent := h.parent
  left := h.left
  right := h.right
  left_lt := by simpa using h.left_lt
  right_lt := by simpa using h.right_lt

end Joins

namespace Forest

theorem exists_of_lt {r : Ref} (hr : r < heap.length) : ∃ t, heap[r]? = some t :=
  ⟨_, List.getElem?_eq_getElem hr⟩

/-- A new node without a parent, in a new place, is one more root. -/
theorem concat (h : Forest V heap coord roots) {x : TreeNode Node} {c : ℕ × ℕ}
    {roots' : List Ref} (hfresh : ∀ r < heap.length, coord r ≠ c) (hlevel : x.level = c.1)
    (hid : x.id = heap.length) (hnode : x.node = V c.1 c.2) (hparent : x.parent = none)
    (hroots : roots'.Perm (heap.length :: roots)) :
    Forest V (heap ++ [x]) (Function.update coord heap.length c) roots' where
  inj {r r'} hr hr' heq := by
    rw [List.length_append, List.length_singleton] at hr hr'
    rcases Nat.lt_succ_iff_lt_or_eq.1 hr with hlt | rfl <;>
      rcases Nat.lt_succ_iff_lt_or_eq.1 hr' with hlt' | rfl
    · rw [Function.update_of_ne hlt.ne, Function.update_of_ne hlt'.ne] at heq
      exact h.inj hlt hlt' heq
    · rw [Function.update_of_ne hlt.ne, Function.update_self] at heq
      exact absurd heq (hfresh r hlt)
    · rw [Function.update_self, Function.update_of_ne hlt'.ne] at heq
      exact absurd heq.symm (hfresh r' hlt')
    · rfl
  level {r t} ht := by
    rcases getElem?_concat_eq_some.1 ht with ht | ⟨rfl, rfl⟩
    · rw [Function.update_of_ne (lt_of_getElem?_eq_some ht).ne, h.level ht]
    · rw [Function.update_self, hlevel]
  id {r t} ht := by
    rcases getElem?_concat_eq_some.1 ht with ht | ⟨rfl, rfl⟩
    · exact h.id ht
    · exact hid
  node {r t} ht := by
    rcases getElem?_concat_eq_some.1 ht with ht | ⟨rfl, rfl⟩
    · rw [Function.update_of_ne (lt_of_getElem?_eq_some ht).ne, h.node ht]
    · rw [Function.update_self, hnode]
  nodup := by
    rw [hroots.nodup_iff, List.nodup_cons]
    exact ⟨fun hmem => lt_irrefl _ (h.lt _ hmem), h.nodup⟩
  lt r hr := by
    rw [List.length_append, List.length_singleton]
    rcases List.mem_cons.1 (hroots.mem_iff.1 hr) with rfl | hr
    · exact Nat.lt_succ_self _
    · exact (h.lt r hr).trans (Nat.lt_succ_self _)
  parent_eq_none_iff {r t} ht := by
    rw [hroots.mem_iff, List.mem_cons]
    rcases getElem?_concat_eq_some.1 ht with ht | ⟨rfl, rfl⟩
    · simp [h.parent_eq_none_iff ht, (lt_of_getElem?_eq_some ht).ne]
    · simp [hparent]
  joins {r q t} ht hq := by
    rcases getElem?_concat_eq_some.1 ht with ht | ⟨rfl, rfl⟩
    · rw [Function.update_of_ne (lt_of_getElem?_eq_some ht).ne]
      obtain ⟨a, b, hjoins⟩ := h.joins ht hq
      exact ⟨a, b, hjoins.concat x c⟩
    · simp [hparent] at hq

/-- A root whose parent is assigned is a root no more. -/
theorem assignParent {r q : Ref} {rest : List Ref} (h : Forest V heap coord roots)
    (hroots : roots.Perm (r :: rest))
    (hjoins : ∃ a b, Joins heap coord (coord r).1 ((coord r).2 / 2) q a b) :
    Forest V (heap.modify r (·.assignParent q)) coord rest where
  inj hr hr' := h.inj (by simpa using hr) (by simpa using hr')
  level ht' := by
    obtain ⟨t, ht, rfl⟩ := getElem?_modify_eq_some.1 ht'
    have hlevel := h.level ht
    split_ifs <;> exact hlevel
  id ht' := by
    obtain ⟨t, ht, rfl⟩ := getElem?_modify_eq_some.1 ht'
    have hid := h.id ht
    split_ifs <;> exact hid
  node ht' := by
    obtain ⟨t, ht, rfl⟩ := getElem?_modify_eq_some.1 ht'
    have hnode := h.node ht
    split_ifs <;> exact hnode
  nodup := (List.nodup_cons.1 (hroots.nodup_iff.1 h.nodup)).2
  lt r' hr' := by
    rw [List.length_modify]
    exact h.lt r' (hroots.mem_iff.2 (List.mem_cons_of_mem _ hr'))
  parent_eq_none_iff {r' t'} ht' := by
    have hmem : r ∉ rest := (List.nodup_cons.1 (hroots.nodup_iff.1 h.nodup)).1
    obtain ⟨t, ht, rfl⟩ := getElem?_modify_eq_some.1 ht'
    split_ifs with heq
    · subst heq
      simp [TreeNode.assignParent, hmem]
    · rw [h.parent_eq_none_iff ht, hroots.mem_iff, List.mem_cons, or_iff_right (Ne.symm heq)]
  joins {r' q' t'} ht' hq := by
    obtain ⟨t, ht, rfl⟩ := getElem?_modify_eq_some.1 ht'
    split_ifs at hq with heq
    · subst heq
      obtain rfl : q = q' := Option.some.inj hq
      obtain ⟨a, b, hjoins⟩ := hjoins
      exact ⟨a, b, hjoins.modify (f := (·.assignParent q)) (fun _ => rfl) (fun _ => rfl) r⟩
    · obtain ⟨a, b, hjoins⟩ := h.joins ht hq
      exact ⟨a, b, hjoins.modify (f := (·.assignParent q)) (fun _ => rfl) (fun _ => rfl) r⟩

/-- The assignment of a node changes what one place holds. -/
theorem setNode {V' : ℕ → ℕ → Node} {r : Ref} {w : Node} (h : Forest V heap coord roots)
    (hr : r < heap.length) (hself : V' (coord r).1 (coord r).2 = w)
    (hother : ∀ r' < heap.length, coord r' ≠ coord r →
      V' (coord r').1 (coord r').2 = V (coord r').1 (coord r').2) :
    Forest V' (heap.modify r (·.setNode w)) coord roots where
  inj hr hr' := h.inj (by simpa using hr) (by simpa using hr')
  level ht' := by
    obtain ⟨t, ht, rfl⟩ := getElem?_modify_eq_some.1 ht'
    have hlevel := h.level ht
    split_ifs <;> exact hlevel
  id ht' := by
    obtain ⟨t, ht, rfl⟩ := getElem?_modify_eq_some.1 ht'
    have hid := h.id ht
    split_ifs <;> exact hid
  node {r' t'} ht' := by
    obtain ⟨t, ht, rfl⟩ := getElem?_modify_eq_some.1 ht'
    split_ifs with heq
    · rw [← heq, hself]
      rfl
    · have hlt := lt_of_getElem?_eq_some ht
      rw [h.node ht, hother r' hlt fun hcoord => heq (h.inj hr hlt hcoord.symm)]
  nodup := h.nodup
  lt r' hr' := by simpa using h.lt r' hr'
  parent_eq_none_iff ht' := by
    obtain ⟨t, ht, rfl⟩ := getElem?_modify_eq_some.1 ht'
    have hiff := h.parent_eq_none_iff ht
    split_ifs <;> exact hiff
  joins {r' q t'} ht' hq := by
    obtain ⟨t, ht, rfl⟩ := getElem?_modify_eq_some.1 ht'
    have hparent : t.parent = some q := by
      split_ifs at hq <;> exact hq
    obtain ⟨a, b, hjoins⟩ := h.joins ht hparent
    exact ⟨a, b, hjoins.modify (f := (·.setNode w)) (fun _ => rfl) (fun _ => rfl) r⟩

end Forest

end Candyland.MerkleTreeReference
