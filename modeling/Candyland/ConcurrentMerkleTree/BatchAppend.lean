import Candyland.ConcurrentMerkleTree.CurrentProofs

/-!
# Appending behind a batch

`append` takes everything to the right of the rightmost path for empty.  `initialize_with_root`
checks that the given path leads to the root, but not that it is the rightmost one.  Here it is
shown what this check would have to be: on every level at which the path is a left child, the given
sibling is the empty node.
-/

namespace Candyland.ConcurrentMerkleTree

open MerkleTree (after sibling)

variable {Node : Type} [NodeHash Node] [DecidableEq Node] {D B : ℕ} [hB : BufferSize B]

/-- `roll` comes from `start` by successful appends, which wrote `ws`, the newest first. -/
inductive Appended (start : MerkleRoll Node D B) : List (ℕ × Node) → MerkleRoll Node D B → Prop
  | refl : Appended start [] start
  | append {ws : List (ℕ × Node)} {roll roll' : MerkleRoll Node D B} {leaf r : Node}
      (hrun : Appended start ws roll) (hok : roll.append leaf = (.ok r, roll')) :
      Appended start ((roll.rightmostProof.index.toNat, leaf) :: ws) roll'

/-- An append of `leaf` at `n`, after the appends `ws`, that returns `r`: it writes an empty
position, returns the root of the tree with the leaf put in, and no leaf of `T` is lost. -/
structure Keeps (D : ℕ) (T : ℕ → Node) (ws : List (ℕ × Node)) (n : ℕ) (leaf r : Node) : Prop where
  vacant : n < 2 ^ D ∧ after T ws n = EMPTY
  result : r = MerkleTree.root hashv D (after T ((n, leaf) :: ws))
  kept : ∀ q < 2 ^ D, T q ≠ EMPTY → after T ((n, leaf) :: ws) q = T q

/-- No sequence of appends behind `start` loses a leaf of `T`. -/
def KeepsLeaves (start : MerkleRoll Node D B) (T : ℕ → Node) : Prop :=
  ∀ ws roll leaf r roll', Appended start ws roll → roll.append leaf = (.ok r, roll') →
    Keeps D T ws roll.rightmostProof.index.toNat leaf r

/-- What holds when the first append succeeds holds. -/
theorem keepsLeaves_of_first {start : MerkleRoll Node D B} {T : ℕ → Node}
    (h : ∀ leaf r roll', start.append leaf = (.ok r, roll') → KeepsLeaves start T) :
    KeepsLeaves start T := by
  have hfirst : ∀ ws roll, Appended start ws roll →
      roll = start ∨ ∃ leaf r roll', start.append leaf = (.ok r, roll') := by
    intro ws roll hrun
    induction hrun with
    | refl => exact .inl rfl
    | append _ hok ih =>
      rcases ih with rfl | hfirst
      · exact .inr ⟨_, _, _, hok⟩
      · exact .inr hfirst
  intro ws roll leaf r roll' hrun hok
  rcases hfirst ws roll hrun with rfl | ⟨leaf₁, r₁, roll₁, hok₁⟩
  · exact h leaf r roll' hok ws roll leaf r roll' hrun hok
  · exact h leaf₁ r₁ roll₁ hok₁ ws roll leaf r roll' hrun hok

/-! ### Behind a rightmost path nothing is lost -/

section Inv

variable {base : ℕ → Node} {start roll : MerkleRoll Node D B} {ws : List (ℕ × Node)}

theorem Inv.append_keeps [CollisionFree Node] (h : Inv base roll ws)
    (hkept : ∀ q < 2 ^ D, base q ≠ EMPTY → after base ws q = base q) {leaf r : Node}
    {roll' : MerkleRoll Node D B} (hok : roll.append leaf = (.ok r, roll')) :
    Keeps D base ws roll.rightmostProof.index.toNat leaf r ∧
      Inv base roll' ((roll.rightmostProof.index.toNat, leaf) :: ws) := by
  obtain ⟨hwritten, hn⟩ := h.append_ok hok
  have hvacant := h.rightmost.empty _ le_rfl hn
  have hresult := hwritten.result
  have hinv := hwritten.inv
  rw [position_of_lt hn] at hresult hinv
  refine ⟨⟨⟨hn, hvacant⟩, hresult, fun q hq hne => ?_⟩, hinv⟩
  have hold := hkept q hq hne
  have hqn : q ≠ roll.rightmostProof.index.toNat := by
    rintro rfl
    exact hne (hold.symm.trans hvacant)
  rw [MerkleTree.after_cons, Function.update_of_ne hqn, hold]

theorem Inv.appended [CollisionFree Node] (h : Inv base start []) (hrun : Appended start ws roll) :
    Inv base roll ws ∧ ∀ q < 2 ^ D, base q ≠ EMPTY → after base ws q = base q := by
  induction hrun with
  | refl => exact ⟨h, fun q _ _ => rfl⟩
  | append _ hok ih =>
    obtain ⟨hkeeps, hinv⟩ := ih.1.append_keeps ih.2 hok
    exact ⟨hinv, hkeeps.kept⟩

theorem Inv.keepsLeaves [CollisionFree Node] (h : Inv base start []) : KeepsLeaves start base := by
  intro ws roll leaf r roll' hrun hok
  obtain ⟨hinv, hkept⟩ := h.appended hrun
  exact (hinv.append_keeps hkept hok).1

end Inv

/-! ### The starts without loss -/

section Batch

variable {T : ℕ → Node} {leaf : Node} {proof : Vector Node D} {index : UInt32}
  {start : MerkleRoll Node D B}

omit [DecidableEq Node] in
/-- A roll that starts with a rightmost path has the invariant of a roll from `initialize`. -/
theorem BatchStart.inv_of_rightmost [CollisionFree Node]
    (h : BatchStart (MerkleTree.root hashv D T) leaf proof index start)
    (hright : Rightmost start.rightmostProof T) : Inv T start [] := by
  have hsnap := h.inv
  refine ⟨⟨hsnap.depth, hsnap.pow, hsnap.size, fun k hk => ?_, by simp⟩, hright⟩
  obtain ⟨hroot, -⟩ := hsnap.logs k hk
  rw [List.drop_nil] at hroot
  refine ⟨?_, fun hlt => absurd hlt (by simp)⟩
  rw [List.drop_nil]
  exact hroot

omit [DecidableEq Node] in
theorem BatchStart.rightmost [CollisionFree Node]
    (h : BatchStart (MerkleTree.root hashv D T) leaf proof index start) (hi : index.toNat < 2 ^ D)
    (hempty : ∀ q < 2 ^ D, index.toNat < q → T q = EMPTY) : Rightmost start.rightmostProof T := by
  have hlast := h.inv.last
  have hsucc : start.rightmostProof.index.toNat = index.toNat + 1 := by
    rw [h.last_eq]
    exact toNat_add_one h.inv.depth hi
  exact ⟨by omega, fun q hq hqD => hempty q hqD (by omega), hlast.leaf_eq,
    hlast.proof_eq (by omega)⟩

/-- When the index behind the path wraps around to `0`, `append` goes on only if all is empty. -/
theorem BatchStart.rightmost_of_append_zero [CollisionFree Node]
    (h : BatchStart (MerkleTree.root hashv D T) leaf proof index start)
    (hzero : start.rightmostProof.index = 0) {w r : Node} {roll' : MerkleRoll Node D B}
    (hok : start.append w = (.ok r, roll')) : Rightmost start.rightmostProof T := by
  have hsnap := h.inv
  have hD : D < 31 := hsnap.depth
  have hroots : MerkleTree.root hashv D T = emptyNode D ∧
      recompute EMPTY start.rightmostProof.proof 0 = emptyNode D := by
    rw [MerkleRoll.append, if_pos h.bounds, if_pos hzero, MerkleRoll.initializeTreeFromAppend] at hok
    split_ifs at hok with hw hfull hold
    · exact absurd (Prod.mk.inj hok).1 (by simp)
    · exact absurd (Prod.mk.inj hok).1 (by simp)
    · -- the root of the empty tree is looked up among the change logs
      refine ⟨?_, hold⟩
      rw [MerkleRoll.tryApplyProof, hold] at hok
      by_cases hhead : ∀ k < start.bufferSize, (start.log k).root ≠ emptyNode D
      · rw [start.checkValidLeaf_of_not_found hsnap.pow hsnap.size_le hsnap.size_pos hhead] at hok
        exact absurd (Prod.mk.inj hok).1 (by simp)
      · push Not at hhead
        obtain ⟨k, hk, hroot⟩ := hhead
        rw [h.size] at hk
        obtain rfl : k = 0 := by omega
        rw [← h.head_root, hroot]
    · exact absurd (Prod.mk.inj hok).1 (by simp)
  obtain ⟨hroot, hold⟩ := hroots
  have hproof := ((recompute_eq_root_iff (by omega)).1 (hold.trans hroot.symm)).2
  rw [emptyNode_eq_uniform, ← MerkleTree.node_const hashv EMPTY D 0] at hroot
  have hempty := MerkleTree.root_inj CollisionFree.hashv_inj hroot
  refine ⟨?_, fun q _ => hempty q, hsnap.last.leaf_eq, fun _ l hl => ?_⟩
  · rw [hzero]
    exact Nat.zero_le _
  · rw [hproof l hl, hzero, position, UInt32.toNat_zero, Nat.zero_mod]

/-! ### The starts with loss -/

omit [DecidableEq Node] hB in
/-- There is a node to append that differs from the empty one and from a given one. -/
theorem exists_other_node [CollisionFree Node] {a : Node} (ha : a ≠ EMPTY) :
    ∃ w : Node, w ≠ EMPTY ∧ w ≠ a := by
  by_contra hnone
  push Not at hnone
  have htwo : ∀ x : Node, x = EMPTY ∨ x = a := fun x => by
    by_cases hx : x = EMPTY
    · exact .inl hx
    · exact .inr (hnone x hx)
  -- three hashes with different arguments
  have h₁ : hashv a a ≠ hashv a EMPTY := fun h => ha (CollisionFree.hashv_inj _ _ _ _ h).2
  have h₂ : hashv a a ≠ hashv EMPTY a := fun h => ha (CollisionFree.hashv_inj _ _ _ _ h).1
  have h₃ : hashv a EMPTY ≠ hashv EMPTY a := fun h => ha (CollisionFree.hashv_inj _ _ _ _ h).1
  rcases htwo (hashv a a) with h | h <;> rw [h] at h₁ h₂
  · exact h₃ ((hnone _ h₁.symm).trans (hnone _ h₂.symm).symm)
  · exact h₃ (((htwo _).resolve_right h₁.symm).trans ((htwo _).resolve_right h₂.symm).symm)

/-- Behind a batch with at least one leaf appends go on up to any position of the tree. -/
theorem BatchStart.exists_appended [CollisionFree Node]
    (h : BatchStart (MerkleTree.root hashv D T) leaf proof index start) (hi : index.toNat < 2 ^ D)
    {w : Node} (hw : w ≠ EMPTY) {q : ℕ} (hq : index.toNat < q) (hqD : q ≤ 2 ^ D) :
    ∃ ws roll T', Appended start ws roll ∧ roll.rightmostProof.index.toNat = q ∧
      LastPath roll.rightmostProof T' := by
  have hsnap := h.inv
  induction q, hq using Nat.le_induction with
  | base =>
    refine ⟨[], start, _, .refl, ?_, hsnap.last⟩
    rw [h.last_eq]
    exact toNat_add_one hsnap.depth hi
  | succ q hq ih =>
    obtain ⟨ws, roll, T', hrun, rfl, hlast⟩ := ih (by omega)
    obtain ⟨r, roll', hok, hupd, hnext⟩ :=
      updated_of_append_pos hsnap.depth hsnap.pow hlast (by omega) (by omega) hw
    exact ⟨_, roll', _, .append hrun hok, hnext, hupd.last⟩

/-- Appending behind a batch loses no leaf if and only if its path was the rightmost one, or no
append is possible. -/
theorem keepsLeaves_iff [CollisionFree Node] {r : Node} {proofVec : List Node}
    (h : MerkleRoll.new.initializeWithRoot (MerkleTree.root hashv D T) leaf proofVec index =
      (.ok r, start)) :
    KeepsLeaves start T ↔ 2 ^ D ≤ index.toNat ∨
      ∀ l < D, isLeft index l = true → proofVec[l]? = some (emptyNode l) := by
  obtain ⟨-, proof, hproofVec, hstart⟩ := initializeWithRoot_batchStart h
  have hsnap := hstart.inv
  have hD : D < 31 := hsnap.depth
  have hproof := ((recompute_eq_root_iff (by omega)).1 hstart.root_eq.symm).2
  have hindex : start.rightmostProof.index = index + 1 := by rw [hstart.last_eq]
  rcases le_or_gt (2 ^ D) index.toNat with hge | hi
  · refine iff_of_true (keepsLeaves_of_first fun w r' roll' hok => ?_) (.inl hge)
    by_cases hzero : start.rightmostProof.index = 0
    · exact (hstart.inv_of_rightmost (hstart.rightmost_of_append_zero hzero hok)).keepsLeaves
    · -- the index behind the path is beyond the tree
      have hpos : 0 < (index + 1).toNat := by
        rwa [← hindex, Nat.pos_iff_ne_zero, ne_eq, ← UInt32.toNat_zero, UInt32.toNat_inj]
      have hfull : start.rightmostProof.index ≥ capacity D := by
        rw [ge_iff_le, UInt32.le_iff_toNat_le, capacity_toNat hD, hindex]
        have := pred_next hpos
        omega
      rw [MerkleRoll.append, if_pos hstart.bounds, if_pos hfull] at hok
      split_ifs at hok
      · exact absurd (Prod.mk.inj hok).1 (by simp)
      · exact absurd (Prod.mk.inj hok).1 (by simp)
  · have hcond : (∀ l < D, isLeft index l = true → proofVec[l]? = some (emptyNode l)) ↔
        ∀ q < 2 ^ D, index.toNat < q → T q = EMPTY := by
      rw [← MerkleTree.right_siblings_uniform_iff CollisionFree.hashv_inj hi]
      refine forall₂_congr fun l hl => ?_
      have hlevel := hproof l hl
      rw [position_of_lt hi, levels_of_lt _ hl] at hlevel
      rw [isLeft_eq index (by omega), hproofVec l hl, emptyNode_eq_uniform, hlevel,
        Option.some_inj, Bool.not_eq_true']
    rw [or_iff_right (not_le.2 hi), hcond]
    constructor
    · intro hkeeps q hq hlt
      by_contra hne
      obtain ⟨w, hw, hother⟩ := exists_other_node hne
      obtain ⟨ws, roll, T', hrun, rfl, hlast⟩ := hstart.exists_appended hi hw hlt hq.le
      obtain ⟨r', roll', hok, -⟩ :=
        updated_of_append_pos hD hsnap.pow hlast (by omega) hq hw
      have hkept := (hkeeps ws roll w r' roll' hrun hok).kept _ hq hne
      rw [MerkleTree.after_cons, Function.update_self] at hkept
      exact hother hkept
    · intro hempty
      exact (hstart.inv_of_rightmost (hstart.rightmost hi hempty)).keepsLeaves

end Batch

/-- The batch of two leaves was given with its rightmost path. -/
theorem keepsLeaves_iff_batch : KeepsLeaves batch (firstLeaves 2) := by
  have hok : MerkleRoll.new.initializeWithRoot (MerkleTree.root hashv 3 (firstLeaves 2)) (.leaf 2)
      (siblings 3 (firstLeaves 2) 1) 1 =
        (.ok (MerkleTree.root hashv 3 (firstLeaves 2)), batch) :=
    Prod.ext (by decide +kernel) rfl
  exact (keepsLeaves_iff hok).2 (.inr (by decide +kernel))

/-- With three leaves and the path of the second one, the first append replaces the third leaf. -/
theorem append_replaces_leaf :
    let T := firstLeaves 3
    let init := (MerkleRoll.new : MerkleRoll Term 3 8).initializeWithRoot
      (MerkleTree.root hashv 3 T) (.leaf 2) (siblings 3 T 1) 1
    init.1 = .ok (MerkleTree.root hashv 3 T) ∧ T 2 = .leaf 3 ∧
      (init.2.append (.leaf 9)).1 =
        .ok (MerkleTree.root hashv 3 (Function.update T 2 (.leaf 9))) ∧
      ¬ KeepsLeaves init.2 T := by
  intro T init
  have hroot : (init.2.append (.leaf 9)).1 =
      .ok (MerkleTree.root hashv 3 (Function.update T 2 (.leaf 9))) := by decide +kernel
  refine ⟨by decide +kernel, rfl, hroot, fun hkeeps => ?_⟩
  have hkept := (hkeeps [] init.2 (.leaf 9) _ _ .refl (Prod.ext hroot rfl)).kept 2 (by decide)
    (by decide)
  revert hkept
  decide +kernel

end Candyland.ConcurrentMerkleTree
