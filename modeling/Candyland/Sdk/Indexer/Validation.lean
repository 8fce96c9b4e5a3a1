import Candyland.ConcurrentMerkleTree.Symbolic
import Candyland.Sdk.Indexer.Queries

/-!
# The validation of a stored tree

The backfiller compares stored nodes with the hashes of their children, level by level from the
root and from left to right.  At a node without a row it trusts the rest of the level and goes on
with the next one.
-/

namespace Candyland.Sdk.Indexer

open ConcurrentMerkleTree (NodeHash EMPTY hashv)

variable {Node Pubkey : Type} [NodeHash Node] [DecidableEq Node]

/-! ### The stored nodes -/

section GetTree

variable [DecidableEq Pubkey] (self : NFTDatabaseConnection Node Pubkey) (treeId : Pubkey)
  (maxSeq : Option ℕ)

omit [NodeHash Node] [DecidableEq Node] in
/-- `getTree(treeId, maxSeq)`. -/
def NFTDatabaseConnection.getTree : List (MerkleRow Node Pubkey) :=
  Table.groupMax MerkleRow.nodeIdx MerkleRow.seq <| self.merkle.filter fun row =>
    decide (row.treeId = treeId) &&
      match truthy maxSeq with
      | some maxSeq => decide (row.seq ≤ maxSeq)
      | none => true

omit [NodeHash Node] [DecidableEq Node] in
/-- The hash in the map that `validateTree` fills with the rows of the tree. -/
def NFTDatabaseConnection.storedNode (nodeIdx : ℕ) : Option Node :=
  (Table.lookup MerkleRow.nodeIdx (self.getTree treeId maxSeq) nodeIdx).map MerkleRow.hash

omit [NodeHash Node] [DecidableEq Node] in
/-- It comes from the newest row of the node. -/
theorem storedNode_cases (nodeIdx : ℕ) :
    let rows := self.merkle.filter fun row => decide (row.treeId = treeId) &&
      match truthy maxSeq with
      | some maxSeq => decide (row.seq ≤ maxSeq)
      | none => true
    (self.storedNode treeId maxSeq nodeIdx = none ∧ ∀ row ∈ rows, row.nodeIdx ≠ nodeIdx) ∨
      ∃ row ∈ rows, self.storedNode treeId maxSeq nodeIdx = some row.hash ∧
        row.nodeIdx = nodeIdx ∧ ∀ row' ∈ rows, row'.nodeIdx = nodeIdx → row'.seq ≤ row.seq := by
  intro rows
  rcases Table.lookup_groupMax MerkleRow.nodeIdx MerkleRow.seq rows nodeIdx with
    ⟨hnone, hrows⟩ | ⟨row, hrow, hlookup, hidx, hmax⟩
  · exact .inl ⟨congrArg (Option.map MerkleRow.hash) hnone, hrows⟩
  · exact .inr ⟨row, hrow, congrArg (Option.map MerkleRow.hash) hlookup, hidx, hmax⟩

end GetTree

/-! ### The loop -/

omit [DecidableEq Node] in
/-- The child with number `2 * nodeIdx + side`, or the empty node of its level. -/
def childNode (depth : ℕ) (tree : ℕ → Option Node) (nodeIdx side : ℕ) : Node :=
  (tree (2 * nodeIdx + side)).getD (emptyNode (depth - (2 * nodeIdx).log2))

/-- The loop of `validateTree`; `none` is a run that needs more rounds. -/
def validateTreeLoop (depth : ℕ) (tree : ℕ → Option Node) : ℕ → ℕ → Option Bool
  | 0, _ => none
  | fuel + 1, nodeIdx =>
    if (nodeIdx : ℤ) < shiftLeft 1 depth then
      match tree nodeIdx with
      | none => validateTreeLoop depth tree fuel (shiftLeft 1 (nodeIdx.log2 + 1)).toNat
      | some expected =>
        let left := childNode depth tree nodeIdx 0
        let right := childNode depth tree nodeIdx 1
        let actual := hashv left right
        if expected ≠ actual then some false
        else validateTreeLoop depth tree fuel (nodeIdx + 1)
    else some true

/-- `validateTree(nftDb, depth, treeId, maxSeq)`. -/
def validateTree [DecidableEq Pubkey] (nftDb : NFTDatabaseConnection Node Pubkey) (fuel depth : ℕ)
    (treeId : Pubkey) (maxSeq : Option ℕ) : Option Bool :=
  validateTreeLoop depth (nftDb.storedNode treeId maxSeq) fuel 1

/-! ### What it checks -/

variable {depth : ℕ} {tree : ℕ → Option Node}

omit [DecidableEq Node] in
/-- A stored node is the hash of its children. -/
def Consistent (depth : ℕ) (tree : ℕ → Option Node) (nodeIdx : ℕ) : Prop :=
  ∀ expected ∈ tree nodeIdx,
    expected = hashv (childNode depth tree nodeIdx 0) (childNode depth tree nodeIdx 1)

omit [NodeHash Node] [DecidableEq Node] in
/-- From node `start` on the walk comes to the node: in its level no node is absent before it. -/
def Reached (tree : ℕ → Option Node) (start nodeIdx : ℕ) : Prop :=
  ∀ m, start ≤ m → 2 ^ nodeIdx.log2 ≤ m → m ≤ nodeIdx → (tree m).isSome

omit [NodeHash Node] [DecidableEq Node] in
/-- Behind an absent node the walk comes only to the nodes of later levels. -/
theorem reached_of_absent {n m : ℕ} (hn : n ≠ 0) (habsent : tree n = none) (hm : n ≤ m) :
    Reached tree n m ↔ 2 ^ (n.log2 + 1) ≤ m ∧ Reached tree (2 ^ (n.log2 + 1)) m := by
  have hlow : 2 ^ n.log2 ≤ n := Nat.log2_self_le hn
  have hhigh : n < 2 ^ (n.log2 + 1) := Nat.lt_log2_self
  constructor
  · intro h
    have hle : 2 ^ (n.log2 + 1) ≤ m := by
      by_contra hlt
      have hlog : m.log2 = n.log2 := by
        rw [Nat.log2_eq_iff (by omega)]
        omega
      have hsome := h n le_rfl (by rw [hlog]; exact hlow) hm
      rw [habsent] at hsome
      exact absurd hsome (by simp)
    exact ⟨hle, fun k hk => h k (by omega)⟩
  · rintro ⟨hle, h⟩ k - hk hkm
    have hlog : n.log2 + 1 ≤ m.log2 := (Nat.le_log2 (by omega)).2 hle
    exact h k ((Nat.pow_le_pow_right (by norm_num) hlog).trans hk) hk hkm

omit [NodeHash Node] [DecidableEq Node] in
/-- Behind a stored node it comes to the same nodes. -/
theorem reached_of_stored {n m : ℕ} (hstored : (tree n).isSome) :
    Reached tree n m ↔ Reached tree (n + 1) m := by
  constructor
  · exact fun h k hk => h k (by omega)
  · intro h k hk hlevel hkm
    rcases eq_or_lt_of_le hk with rfl | hlt
    · exact hstored
    · exact h k hlt hlevel hkm

/-- The loop ends, with `true` if and only if all nodes it comes to are consistent. -/
theorem validateTreeLoop_spec (hdepth : depth ≤ 30) {n fuel : ℕ} (hn : n ≠ 0)
    (hfuel : 2 ^ depth - n < fuel) :
    ∃ b, validateTreeLoop depth tree fuel n = some b ∧
      (b = true ↔ ∀ m, n ≤ m → m < 2 ^ depth → Reached tree n m → Consistent depth tree m) := by
  induction fuel generalizing n with
  | zero => omega
  | succ fuel ih =>
    rw [validateTreeLoop, shiftLeft_one (by omega)]
    by_cases hlt : n < 2 ^ depth
    · rw [if_pos (by exact_mod_cast hlt)]
      have hself : (tree n).isSome → Reached tree n n := by
        intro hsome k hk _ hkn
        rwa [le_antisymm hkn hk]
      cases hnode : tree n with
      | none =>
        -- the jump to the next level
        have hlog : n.log2 < depth := (Nat.log2_lt hn).2 hlt
        have hnext : (shiftLeft 1 (n.log2 + 1)).toNat = 2 ^ (n.log2 + 1) := by
          rw [shiftLeft_one (by omega)]
          exact_mod_cast Int.toNat_natCast _
        have hhigh : n < 2 ^ (n.log2 + 1) := Nat.lt_log2_self
        obtain ⟨b, hb, hiff⟩ := ih (n := 2 ^ (n.log2 + 1)) (by positivity) (by omega)
        refine ⟨b, by rw [← hb, ← hnext], hiff.trans ?_⟩
        constructor
        · intro h m hm hmd hreached
          obtain ⟨hle, hreached⟩ := (reached_of_absent hn hnode hm).1 hreached
          exact h m hle hmd hreached
        · intro h m hm hmd hreached
          exact h m (by omega) hmd ((reached_of_absent hn hnode (by omega)).2 ⟨hm, hreached⟩)
      | some expected =>
        dsimp only
        by_cases heq : expected = hashv (childNode depth tree n 0) (childNode depth tree n 1)
        · rw [if_neg (not_not.2 heq)]
          obtain ⟨b, hb, hiff⟩ := ih (n := n + 1) (by omega) (by omega)
          have hstored : (tree n).isSome := by rw [hnode]; rfl
          refine ⟨b, hb, hiff.trans ?_⟩
          constructor
          · intro h m hm hmd hreached
            rcases eq_or_lt_of_le hm with rfl | hlt
            · intro e he
              rw [hnode] at he
              rw [← Option.some.inj he]
              exact heq
            · exact h m hlt hmd ((reached_of_stored hstored).1 hreached)
          · intro h m hm hmd hreached
            exact h m (by omega) hmd ((reached_of_stored hstored).2 hreached)
        · rw [if_pos heq]
          refine ⟨false, rfl, iff_of_false (by decide) fun h => heq ?_⟩
          exact h n le_rfl hlt (hself (by rw [hnode]; rfl)) expected hnode
    · rw [if_neg (by exact_mod_cast hlt)]
      exact ⟨true, rfl, iff_of_true rfl fun m hm hmd => absurd hmd (by omega)⟩

/-- The validation ends, with `true` if and only if every node above the leaves that has no absent
node to its left in its level, nor is absent itself, is the hash of its children. -/
theorem validateTree_iff [DecidableEq Pubkey] (hdepth : depth ≤ 30)
    (nftDb : NFTDatabaseConnection Node Pubkey) (treeId : Pubkey) (maxSeq : Option ℕ) :
    let tree := nftDb.storedNode treeId maxSeq
    ∃ b, (∀ fuel, 2 ^ depth ≤ fuel → validateTree nftDb fuel depth treeId maxSeq = some b) ∧
      (b = true ↔ ∀ n, 1 ≤ n → n < 2 ^ depth →
        (∀ m, 2 ^ n.log2 ≤ m → m ≤ n → (tree m).isSome) → Consistent depth tree n) := by
  intro tree
  have hrun : ∀ fuel, 2 ^ depth ≤ fuel → ∃ b, validateTree nftDb fuel depth treeId maxSeq = some b ∧
      (b = true ↔ ∀ m, 1 ≤ m → m < 2 ^ depth → Reached tree 1 m → Consistent depth tree m) := by
    intro fuel hfuel
    have hpos := Nat.two_pow_pos depth
    exact validateTreeLoop_spec hdepth one_ne_zero (by omega)
  obtain ⟨b, hb, hiff⟩ := hrun _ le_rfl
  refine ⟨b, fun fuel hfuel => ?_, hiff.trans ?_⟩
  · obtain ⟨b', hb', hiff'⟩ := hrun fuel hfuel
    rw [hb', Option.some_inj, Bool.eq_iff_iff, hiff', hiff]
  · refine forall_congr' fun n => forall_congr' fun hn => forall_congr' fun _ => ?_
    refine imp_congr_left ⟨fun h m hm hmn => ?_, fun h m _ => h m⟩
    exact h m ((Nat.one_le_two_pow).trans hm) hm hmn

section TwoLevels

open ConcurrentMerkleTree (Term)

/-- The root of a tree of depth `2` and its right child, which is no hash. -/
def rightHalf : NFTDatabaseConnection Term ℕ where
  merkle := [⟨"a", 0, 0, 1, 1, 2, .node (emptyNode 1) (.leaf 7)⟩, ⟨"a", 0, 0, 3, 1, 1, .leaf 7⟩]
  leafSchema := []
  nft := []

/-- Only the root has no absent node before it, and it is consistent. -/
theorem validateTree_rightHalf :
    ∃ b, (∀ fuel, 2 ^ 2 ≤ fuel → validateTree rightHalf fuel 2 0 none = some b) ∧
      (b = true ↔ ∀ n, 1 ≤ n → n < 2 ^ 2 →
        (∀ m, 2 ^ n.log2 ≤ m → m ≤ n → (rightHalf.storedNode 0 none m).isSome) →
          Consistent 2 (rightHalf.storedNode 0 none) n) :=
  validateTree_iff (by decide) rightHalf 0 none

/-- The right child is not the hash of two empty nodes, and the tree passes. -/
theorem validateTree_trusts :
    validateTree rightHalf 4 2 0 none = some true ∧
      rightHalf.storedNode 0 none 3 = some (.leaf 7) ∧ 3 < 2 ^ 2 ∧
      ¬ Consistent 2 (rightHalf.storedNode 0 none) 3 := by
  have hstored : rightHalf.storedNode 0 none 3 = some (.leaf 7) := by decide
  refine ⟨by decide, hstored, by decide, fun h => ?_⟩
  have hhash := h _ hstored
  exact absurd hhash (by decide)

end TwoLevels

end Candyland.Sdk.Indexer
