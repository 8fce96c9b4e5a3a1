import Candyland.Lib.MerkleTree

/-!
# Full trees over a list

A list of leaves of any length is padded to the full tree of the least depth that holds it.
When the nodes of a level are joined in pairs and one that is left over is joined with
padding, `width n l` of them are at level `l` over `n` leaves, and a single one is left at
the depth of the tree.
-/

namespace PaddedTree

variable {α : Type*}

/-- The leaves of a list, and `e` behind them. -/
def leaf (e : α) (leaves : List α) (q : ℕ) : α := leaves.getD q e

/-- The least depth of a tree with `n` leaves, `⌈log₂ n⌉`. -/
def depth (n : ℕ) : ℕ := Nat.clog 2 n

/-- The root of the full tree over a list. -/
def root (H : α → α → α) (e : α) (leaves : List α) : α :=
  MerkleTree.root H (depth leaves.length) (leaf e leaves)

/-- The sibling path of leaf `i`, from the leaf upward. -/
def proof (H : α → α → α) (e : α) (leaves : List α) (i : ℕ) : List α :=
  (List.range (depth leaves.length)).map (MerkleTree.sibling H (leaf e leaves) i)

/-- The number of nodes at level `l` over `n` leaves, without padding. -/
def width (n : ℕ) : ℕ → ℕ
  | 0 => n
  | l + 1 => (width n l + 1) / 2

/-! ### Leaves -/

theorem leaf_of_lt (e : α) {leaves : List α} {i : ℕ} (h : i < leaves.length) :
    leaf e leaves i = leaves[i] := by
  rw [leaf, List.getD_eq_getElem _ _ h]

theorem leaf_of_le {e : α} {leaves : List α} {i : ℕ} (h : leaves.length ≤ i) :
    leaf e leaves i = e := by
  rw [leaf, List.getD_eq_default _ _ h]

theorem leaf_set (e : α) {leaves : List α} {i : ℕ} (h : i < leaves.length) (w : α) :
    leaf e (leaves.set i w) = Function.update (leaf e leaves) i w := by
  funext q
  rcases eq_or_ne q i with rfl | hne
  · rw [Function.update_self, leaf_of_lt e (by simpa using h), List.getElem_set_self]
  · rw [Function.update_of_ne hne, leaf, leaf, List.getD_eq_getElem?_getD,
      List.getD_eq_getElem?_getD, List.getElem?_set_ne hne.symm]

theorem lt_two_pow_depth {i n : ℕ} (h : i < n) : i < 2 ^ depth n :=
  h.trans_le (Nat.le_pow_clog one_lt_two n)

/-- The path of a leaf leads to the root. -/
theorem climb_proof (H : α → α → α) (e : α) {leaves : List α} {i : ℕ} (h : i < leaves.length) :
    MerkleTree.climb H leaves[i] (MerkleTree.sibling H (leaf e leaves) i) i
      (depth leaves.length) = root H e leaves := by
  rw [← leaf_of_lt e h, MerkleTree.climb_sibling_root H _ (lt_two_pow_depth h), root]

/-! ### Widths -/

theorem width_succ (n l : ℕ) : width n (l + 1) = (width n l + 1) / 2 := rfl

theorem width_le_iff {n l m : ℕ} : width n l ≤ m ↔ n ≤ m * 2 ^ l := by
  induction l generalizing m with
  | zero => simp [width]
  | succ l ih =>
    have hhalf : (width n l + 1) / 2 ≤ m ↔ width n l ≤ m * 2 := by omega
    rw [width_succ, hhalf, ih, Nat.mul_assoc, ← Nat.pow_succ']

/-- A node at or beyond the width of its level is over padding only. -/
theorem node_eq_uniform (H : α → α → α) (e : α) {leaves : List α} {l p : ℕ}
    (h : width leaves.length l ≤ p) :
    MerkleTree.node H (leaf e leaves) l p = MerkleTree.uniform H e l := by
  refine MerkleTree.node_eq_uniform H fun q hq => leaf_of_le ?_
  have hle : p * 2 ^ l ≤ q := by
    rw [← hq]
    exact Nat.div_mul_le_self q (2 ^ l)
  exact (width_le_iff.1 h).trans hle

theorem width_le_one_iff {n l : ℕ} : width n l ≤ 1 ↔ depth n ≤ l := by
  rw [width_le_iff, one_mul, depth, Nat.clog_le_iff_le_pow one_lt_two]

/-- The depth is the first level with a single node. -/
theorem depth_eq {n l : ℕ} (h : 1 < width n l) (h' : width n (l + 1) ≤ 1) :
    depth n = l + 1 := by
  have hle := width_le_one_iff.1 h'
  have hlt := (width_le_one_iff (n := n) (l := l)).not.1 (by omega)
  omega

theorem depth_lt {n : ℕ} (hn : 0 < n) : depth n < n := by
  obtain ⟨m, rfl⟩ := Nat.exists_eq_succ_of_ne_zero hn.ne'
  refine Nat.lt_succ_of_le ?_
  rw [depth, Nat.clog_le_iff_le_pow one_lt_two]
  exact Nat.lt_two_pow_self

end PaddedTree
