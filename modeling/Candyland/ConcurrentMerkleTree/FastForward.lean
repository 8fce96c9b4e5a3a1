import Candyland.ConcurrentMerkleTree.MerkleRoll

/-!
# The ring of change logs

The change log of age `k` is the one written `k` updates ago.  Here the cursor
arithmetic of `fast_forward_proof` and `find_root_in_changelog` is turned into ages:
the loop replays the change logs of an initial segment of ages, the oldest first, and
the search returns the youngest age with the given root.
-/

namespace Candyland.ConcurrentMerkleTree

open CircularBuffer (back next)

variable {Node : Type} [NodeHash Node] [DecidableEq Node] {D B : ℕ} [hB : BufferSize B]

theorem checkBounds_iff : checkBounds D B = true ↔ D < 31 ∧ B.isPowerOfTwo := by
  rw [checkBounds, Bool.and_eq_true, decide_eq_true_iff, beq_iff_eq,
    Nat.and_sub_one_eq_zero_iff_isPowerOfTwo hB.pos.ne']

omit hB in
theorem capacity_toNat (hD : D < 31) : (capacity D).toNat = 2 ^ D :=
  one_shiftLeft_toNat (by omega)

theorem mask_val (hpow : B.isPowerOfTwo) (x : ℕ) : (mask x : Fin B).val = x % B := by
  obtain ⟨b, rfl⟩ := hpow
  exact Nat.and_two_pow_sub_one_eq_mod x b

theorem mask_succ (hpow : B.isPowerOfTwo) (a : Fin B) : mask (a + 1) = next a :=
  Fin.ext (mask_val hpow _)

theorem dvd_two_pow (hpow : B.isPowerOfTwo) : B ∣ 2 ^ 64 := by
  have hlt := hB.lt_usize
  obtain ⟨b, rfl⟩ := hpow
  exact pow_dvd_pow 2 ((Nat.pow_lt_pow_iff_right (by norm_num)).1 hlt).le

/-- `active_index.wrapping_sub(k) & mask` is the slot of age `k`. -/
theorem mask_wrappingSub (hpow : B.isPowerOfTwo) (a : Fin B) {k : ℕ} (hk : k < 2 ^ 64) :
    mask (wrappingSub a k) = back a k := by
  apply Fin.ext
  rw [mask_val hpow, wrappingSub]
  exact CircularBuffer.sub_mod_eq_back a (dvd_two_pow hpow) hk

namespace MerkleRoll

/-- The change log written `k` updates ago. -/
def log (self : MerkleRoll Node D B) (k : ℕ) : ChangeLog Node D :=
  self.changeLogs[back self.activeIndex k]

omit [NodeHash Node] [DecidableEq Node] hB in
theorem getChangeLog_eq_log (self : MerkleRoll Node D B) : self.getChangeLog = self.log 0 := by
  simp [getChangeLog, log]

omit [NodeHash Node] [DecidableEq Node] hB in
theorem log_push {self self' : MerkleRoll Node D B} {cl : ChangeLog Node D}
    (hactive : self'.activeIndex = next self.activeIndex)
    (hlogs : self'.changeLogs = self.changeLogs.set self'.activeIndex cl) {m : ℕ}
    (hm : m + 1 < B) : self'.log (m + 1) = self.log m := by
  have hset : ∀ a, a = next self.activeIndex →
      (self.changeLogs.set a cl)[back a (m + 1)] = self.changeLogs[back self.activeIndex m] := by
    rintro a rfl
    exact CircularBuffer.getElem_push_succ _ _ _ hm
  rw [log, hlogs]
  exact hset _ hactive

/-- Patches a proof and a leaf with the change logs of the ages below `k`, the oldest
first. -/
def replayLogs (self : MerkleRoll Node D B) (leafIndex : UInt32) :
    ℕ → Vector Node D × Node → Option (Vector Node D × Node)
  | 0, st => some st
  | k + 1, st =>
    ((self.log k).updateProofOrLeaf leafIndex st.1 st.2).bind (self.replayLogs leafIndex k)

omit [NodeHash Node] [DecidableEq Node] in
/-- One round of the loop that does not end before the update. -/
theorem fastForwardLoop_succ (self : MerkleRoll Node D B) (hpow : B.isPowerOfTwo)
    (leafIndex : UInt32) (useFullBuffer : Bool) (fuel k : ℕ) (st : Vector Node D × Node)
    (hcont : useFullBuffer = true ∨ back self.activeIndex (k + 1) ≠ self.activeIndex) :
    self.fastForwardLoop leafIndex useFullBuffer (fuel + 1) (back self.activeIndex (k + 1)) st =
      ((self.log k).updateProofOrLeaf leafIndex st.1 st.2).bind fun st =>
        if useFullBuffer && back self.activeIndex k == self.activeIndex then some st
        else self.fastForwardLoop leafIndex useFullBuffer fuel (back self.activeIndex k) st := by
  obtain ⟨proof, leaf⟩ := st
  have hfirst : (!useFullBuffer && back self.activeIndex (k + 1) == self.activeIndex) = false := by
    rcases hcont with h | h
    · rw [h]; rfl
    · rw [beq_eq_false_iff_ne.2 h, Bool.and_false]
  rw [fastForwardLoop, hfirst, if_neg (by simp)]
  simp only [mask_succ hpow, CircularBuffer.next_back_succ]
  rw [show self.changeLogs[back self.activeIndex k] = self.log k from rfl]
  cases (self.log k).updateProofOrLeaf leafIndex proof leaf with
  | none => rfl
  | some st => rfl

omit [NodeHash Node] [DecidableEq Node] in
/-- Started on a retained root, the loop replays what is younger. -/
theorem fastForwardLoop_eq (self : MerkleRoll Node D B) (hpow : B.isPowerOfTwo)
    (leafIndex : UInt32) {fuel k : ℕ} (hk : k < B) (hfuel : k < fuel)
    (st : Vector Node D × Node) :
    self.fastForwardLoop leafIndex false fuel (back self.activeIndex k) st =
      self.replayLogs leafIndex k st := by
  induction k generalizing fuel st with
  | zero =>
    obtain ⟨fuel, rfl⟩ := Nat.exists_eq_succ_of_ne_zero hfuel.ne'
    obtain ⟨proof, leaf⟩ := st
    simp [fastForwardLoop, replayLogs]
  | succ k ih =>
    obtain ⟨fuel, rfl⟩ := Nat.exists_eq_add_of_lt (Nat.zero_lt_of_lt hfuel)
    have hne : back self.activeIndex (k + 1) ≠ self.activeIndex :=
      (CircularBuffer.back_eq_self_iff _ hk).not.2 (Nat.succ_ne_zero k)
    rw [fastForwardLoop_succ self hpow leafIndex false _ k st (.inr hne), replayLogs]
    congr 1
    funext st
    simpa using ih (by omega) (by omega) st

omit [NodeHash Node] [DecidableEq Node] in
/-- In full-buffer mode the loop replays what is younger than its start, the whole ring
when it starts on the cursor. -/
theorem fastForwardLoop_full_eq (self : MerkleRoll Node D B) (hpow : B.isPowerOfTwo)
    (leafIndex : UInt32) {fuel k : ℕ} (hk : k < B) (hfuel : k < fuel)
    (st : Vector Node D × Node) :
    self.fastForwardLoop leafIndex true fuel (back self.activeIndex (k + 1)) st =
      self.replayLogs leafIndex (k + 1) st := by
  induction k generalizing fuel st with
  | zero =>
    obtain ⟨fuel, rfl⟩ := Nat.exists_eq_succ_of_ne_zero hfuel.ne'
    rw [fastForwardLoop_succ self hpow leafIndex true _ 0 st (.inl rfl), replayLogs]
    simp [replayLogs]
  | succ k ih =>
    obtain ⟨fuel, rfl⟩ := Nat.exists_eq_add_of_lt (Nat.zero_lt_of_lt hfuel)
    have hne : back self.activeIndex (k + 1) ≠ self.activeIndex :=
      (CircularBuffer.back_eq_self_iff _ hk).not.2 (Nat.succ_ne_zero k)
    rw [fastForwardLoop_succ self hpow leafIndex true _ (k + 1) st (.inl rfl), replayLogs]
    congr 1
    funext st
    rw [beq_eq_false_iff_ne.2 hne, Bool.and_false, if_neg (by simp)]
    exact ih (by omega) (by omega) st

/-! ### Which change logs are replayed -/

omit [NodeHash Node] in
theorem findRootInChangelog_eq (self : MerkleRoll Node D B) (hpow : B.isPowerOfTwo)
    (hsize : self.bufferSize ≤ B) (currentRoot : Node) :
    self.findRootInChangelog currentRoot =
      (List.range self.bufferSize).findSome? fun k =>
        if (self.log k).root = currentRoot then some (back self.activeIndex k) else none := by
  rw [findRootInChangelog]
  refine Loop.findSome_congr fun k hk => ?_
  have hk64 : k < 2 ^ 64 := by
    have := List.mem_range.1 hk
    have := hB.lt_usize
    omega
  simp only [mask_wrappingSub hpow _ hk64]
  rfl

omit [NodeHash Node] in
/-- The search finds the youngest change log with the root. -/
theorem findRootInChangelog_eq_some (self : MerkleRoll Node D B) (hpow : B.isPowerOfTwo)
    (hsize : self.bufferSize ≤ B) {currentRoot : Node} {k : ℕ} (hk : k < self.bufferSize)
    (hroot : (self.log k).root = currentRoot)
    (hyoung : ∀ m < k, (self.log m).root ≠ currentRoot) :
    self.findRootInChangelog currentRoot = some (back self.activeIndex k) := by
  rw [findRootInChangelog_eq self hpow hsize, List.findSome?_eq_some_iff]
  refine ⟨List.range k, k, List.range' (k + 1) (self.bufferSize - k - 1), ?_, if_pos hroot, ?_⟩
  · obtain ⟨m, hm⟩ := Nat.exists_eq_add_of_lt hk
    have happ := @List.range'_append_1 0 k (m + 1)
    rw [Nat.zero_add] at happ
    rw [List.range_eq_range', List.range_eq_range', hm, show k + m + 1 - k - 1 = m by omega,
      ← List.range'_succ, happ, Nat.add_assoc]
  · intro m hm
    exact if_neg (hyoung m (List.mem_range.1 hm))

omit [NodeHash Node] in
theorem findRootInChangelog_eq_none (self : MerkleRoll Node D B) (hpow : B.isPowerOfTwo)
    (hsize : self.bufferSize ≤ B) {currentRoot : Node} :
    self.findRootInChangelog currentRoot = none ↔
      ∀ k < self.bufferSize, (self.log k).root ≠ currentRoot := by
  rw [findRootInChangelog_eq self hpow hsize, List.findSome?_eq_none_iff]
  constructor
  · intro h k hk heq
    have := h k (List.mem_range.2 hk)
    rw [if_pos heq] at this
    exact absurd this (by simp)
  · intro h k hk
    exact if_neg (h k (List.mem_range.1 hk))

omit [NodeHash Node] [DecidableEq Node] hB in
/-- Either no retained change log has the root, or there is a youngest one. -/
theorem exists_youngest (self : MerkleRoll Node D B) (currentRoot : Node) :
    (∀ k < self.bufferSize, (self.log k).root ≠ currentRoot) ∨
      ∃ k < self.bufferSize, (self.log k).root = currentRoot ∧
        ∀ m < k, (self.log m).root ≠ currentRoot := by
  classical
  by_cases h : ∃ k, k < self.bufferSize ∧ (self.log k).root = currentRoot
  · right
    obtain ⟨hlt, hroot⟩ := Nat.find_spec h
    refine ⟨Nat.find h, hlt, hroot, fun m hm heq => ?_⟩
    exact Nat.find_min h hm ⟨by omega, heq⟩
  · left
    intro k hk heq
    exact h ⟨k, hk, heq⟩

/-- The outcome of `check_valid_leaf` when the change logs of the ages below `k` are
replayed. -/
def checkReplay (self : MerkleRoll Node D B) (leaf : Node) (proof : Vector Node D)
    (leafIndex : UInt32) (k : ℕ) : Outcome CMTError (Bool × Vector Node D) :=
  match self.replayLogs leafIndex k (proof, leaf) with
  | none => .panic
  | some (proof, updatedLeaf) =>
    if updatedLeaf = leaf then
      .ok (decide (recompute updatedLeaf proof leafIndex = self.getChangeLog.root), proof)
    else .err .LeafContentsModified

omit hB in
theorem checkReplay_of_fastForward (self : MerkleRoll Node D B) (leaf : Node)
    (proof : Vector Node D) (leafIndex : UInt32) (k : ℕ) :
    (match (self.replayLogs leafIndex k (proof, leaf)).map
        fun (proof, updatedLeaf) => (decide (updatedLeaf = leaf), updatedLeaf, proof) with
      | none => (.panic : Outcome CMTError (Bool × Vector Node D))
      | some (proofLeafUnchanged, updatableLeafNode, proof) =>
        if proofLeafUnchanged then
          .ok (decide (recompute updatableLeafNode proof leafIndex = self.getChangeLog.root), proof)
        else .err .LeafContentsModified) =
      self.checkReplay leaf proof leafIndex k := by
  rw [checkReplay]
  cases self.replayLogs leafIndex k (proof, leaf) with
  | none => rfl
  | some st => simp

/-- With a retained root the younger change logs are replayed. -/
theorem checkValidLeaf_of_found (self : MerkleRoll Node D B) (hpow : B.isPowerOfTwo)
    (hsize : self.bufferSize ≤ B) {currentRoot : Node} {k : ℕ} (hk : k < self.bufferSize)
    (hroot : (self.log k).root = currentRoot)
    (hyoung : ∀ m < k, (self.log m).root ≠ currentRoot)
    (leaf : Node) (proof : Vector Node D) (leafIndex : UInt32) (allowInferredProof : Bool) :
    self.checkValidLeaf currentRoot leaf proof leafIndex allowInferredProof =
      self.checkReplay leaf proof leafIndex k := by
  rw [checkValidLeaf, findRootInChangelog_eq_some self hpow hsize hk hroot hyoung]
  simp only [Outcome.ok_bind, fastForwardProof]
  rw [fastForwardLoop_eq self hpow leafIndex (by omega) (by omega)]
  exact checkReplay_of_fastForward self leaf proof leafIndex k

/-- With an unknown root the fallback leaves out the oldest change log, except that a
ring with a single one replays every slot. -/
theorem checkValidLeaf_of_not_found (self : MerkleRoll Node D B) (hpow : B.isPowerOfTwo)
    (hsize : self.bufferSize ≤ B) (hpos : 0 < self.bufferSize) {currentRoot : Node}
    (hroot : ∀ k < self.bufferSize, (self.log k).root ≠ currentRoot)
    (leaf : Node) (proof : Vector Node D) (leafIndex : UInt32) (allowInferredProof : Bool) :
    self.checkValidLeaf currentRoot leaf proof leafIndex allowInferredProof =
      if allowInferredProof then
        self.checkReplay leaf proof leafIndex
          (if self.bufferSize = 1 then B else self.bufferSize - 1)
      else .err .RootNotFound := by
  rw [checkValidLeaf, (findRootInChangelog_eq_none self hpow hsize).2 hroot]
  cases allowInferredProof with
  | false => rfl
  | true =>
    have hBlt := hB.lt_usize
    have hsub : wrappingSub self.bufferSize 1 = self.bufferSize - 1 := by
      rw [wrappingSub, show self.bufferSize + 2 ^ 64 - 1 = self.bufferSize - 1 + 2 ^ 64 by omega,
        Nat.add_mod_right, Nat.mod_eq_of_lt (by omega)]
    simp only [if_true, Outcome.ok_bind, fastForwardProof, hsub]
    rw [mask_wrappingSub hpow _ (by omega)]
    split_ifs with hone
    · obtain ⟨B', hB'⟩ := Nat.exists_eq_succ_of_ne_zero hB.pos.ne'
      have hstart : back self.activeIndex (self.bufferSize - 1) =
          back self.activeIndex (B' + 1) := by
        rw [hone, Nat.sub_self, CircularBuffer.back_zero, ← Nat.succ_eq_add_one, ← hB',
          CircularBuffer.back_self]
      rw [hstart, fastForwardLoop_full_eq self hpow leafIndex (by omega) (by omega),
        ← Nat.succ_eq_add_one, ← hB']
      exact checkReplay_of_fastForward self leaf proof leafIndex B
    · obtain ⟨m, hm⟩ := Nat.exists_eq_succ_of_ne_zero (show self.bufferSize - 1 ≠ 0 by omega)
      rw [hm, Nat.succ_eq_add_one,
        fastForwardLoop_full_eq self hpow leafIndex (by omega) (by omega)]
      exact checkReplay_of_fastForward self leaf proof leafIndex (m + 1)

end MerkleRoll

end Candyland.ConcurrentMerkleTree
