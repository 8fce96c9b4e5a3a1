import Candyland.ConcurrentMerkleTree.Batch

/-!
# Replaying on a current proof

The client of `prove_leaf` may have the current proof and any root, an old one or one that is not
retained.  Then change logs are replayed on a proof that is right already.  This is harmless as long
as each of them was written by an update.  With an unknown root, however, `fast_forward_proof` goes
once around the ring when only one change log is in use, through slots that were never written.
-/

namespace Candyland.ConcurrentMerkleTree

open MerkleTree (sibling latest replayTrees)

variable {Node : Type} [NodeHash Node] [DecidableEq Node] {D B : ℕ} [hB : BufferSize B]

/-- `check_valid_leaf` replays the change logs of the ages below `k`: those younger than the
youngest one with the root; for an unknown root all but the oldest, or the whole ring when there is
only one. -/
def MerkleRoll.Replays (roll : MerkleRoll Node D B) (root : Node) (k : ℕ) : Prop :=
  roll.Youngest root k ∨ (∀ m < roll.bufferSize, (roll.log m).root ≠ root) ∧
    k = if roll.bufferSize = 1 then B else roll.bufferSize - 1

/-- A roll that was initialised, empty or with the root of the tree `base`. -/
inductive Start (base : ℕ → Node) (start : MerkleRoll Node D B) : Prop
  | empty {r : Node} (hbase : base = fun _ => EMPTY)
      (h : MerkleRoll.initializeRoll MerkleRoll.new = (.ok r, start))
  | withRoot {leaf r : Node} {proofVec : List Node} {index : UInt32}
      (h : MerkleRoll.initializeWithRoot MerkleRoll.new (MerkleTree.root hashv D base) leaf proofVec
        index = (.ok r, start))

theorem Start.inv [CollisionFree Node] {base : ℕ → Node} {start : MerkleRoll Node D B}
    (h : Start base start) : SnapshotInv base start [] := by
  cases h with
  | empty hbase h =>
    rw [hbase]
    exact snapshotInv_initializeRoll h
  | withRoot h =>
    obtain ⟨-, proof, -, hstart⟩ := initializeWithRoot_batchStart h
    exact hstart.inv

section Replay

variable {base : ℕ → Node} {roll : MerkleRoll Node D B} {ts : List (ℕ × (ℕ → Node))} {root : Node}
  {i : UInt32} {k k' : ℕ}

omit [NodeHash Node] [DecidableEq Node] hB in
theorem MerkleRoll.Replays.unique (h : roll.Replays root k) (h' : roll.Replays root k') : k = k' := by
  rcases h with hyoung | ⟨hnone, rfl⟩
  · rcases h' with hyoung' | ⟨hnone, -⟩
    · exact hyoung.unique hyoung'
    · exact absurd hyoung.root_eq (hnone k hyoung.lt)
  · rcases h' with hyoung' | ⟨-, rfl⟩
    · exact absurd hyoung'.root_eq (hnone k' hyoung'.lt)
    · rfl

omit [NodeHash Node] [DecidableEq Node] hB in
theorem MerkleRoll.exists_replays (roll : MerkleRoll Node D B) (root : Node) :
    ∃ k, roll.Replays root k := by
  rcases roll.youngest_or root with hnone | ⟨k, hyoung⟩
  · exact ⟨_, .inr ⟨hnone, rfl⟩⟩
  · exact ⟨k, .inl hyoung⟩

theorem SnapshotInv.checkValidLeaf_eq (h : SnapshotInv base roll ts) (hreplays : roll.Replays root k)
    (leaf : Node) (proof : Vector Node D) :
    roll.checkValidLeaf root leaf proof i true = roll.checkReplay leaf proof i k := by
  rcases hreplays with hyoung | ⟨hnone, rfl⟩
  · exact roll.checkValidLeaf_of_found h.pow h.size_le hyoung.lt hyoung.root_eq hyoung.young _ _ _ _
  · rw [roll.checkValidLeaf_of_not_found h.pow h.size_le h.size_pos hnone, if_pos rfl]

omit [DecidableEq Node] in
/-- Except on a roll that was never updated, only updates are replayed. -/
theorem SnapshotInv.replays_le (h : SnapshotInv base roll ts) (hreplays : roll.Replays root k) :
    k ≤ B ∧ (k ≤ ts.length ∨ ts = [] ∧ k = B) := by
  have hsize := h.size
  rcases hreplays with hyoung | ⟨-, rfl⟩
  · have hk := hyoung.lt
    exact ⟨by omega, .inl (by omega)⟩
  · rcases ts with _ | ⟨u, ts⟩
    · rw [List.length_nil] at hsize
      have hB1 := hB.pos
      rw [if_pos (by omega)]
      exact ⟨le_rfl, .inr ⟨rfl, rfl⟩⟩
    · rw [List.length_cons] at hsize ⊢
      split_ifs
      · exact ⟨le_rfl, .inl (by omega)⟩
      · exact ⟨by omega, .inl (by omega)⟩

omit [DecidableEq Node] hB in
/-- Change logs of updates act on a proof as the replay of their trees. -/
theorem SnapshotInv.replayLogs_eq (h : SnapshotInv base roll ts) (hD0 : 0 < D)
    (hk : k ≤ ts.length) (hkB : k ≤ B)
    (halias : ∀ m < k, position D i = position D (roll.log m).index → i = (roll.log m).index)
    {proof : Vector Node D} {leaf : Node} {s : ℕ → Node} (hproof : ∀ l < D, levels proof l = s l) :
    let st := replayTrees hashv ts (position D i) k (s, leaf)
    ∃ proof', roll.replayLogs i k (proof, leaf) = some (proof', st.2) ∧
      ∀ l < D, levels proof' l = st.1 l := by
  induction k generalizing proof leaf s with
  | zero => exact ⟨proof, rfl, hproof⟩
  | succ k ih =>
    have hrec := h.log_records (show k < ts.length by omega) (by omega)
    obtain ⟨proof₁, hupd, hproof₁⟩ := hrec.updateProofOrLeaf_eq hD0 (by have := h.depth; omega)
      i leaf (fun hpos => halias k (by omega) (hpos.trans hrec.index_eq.symm)) hproof
    obtain ⟨proof₂, hrest, hproof₂⟩ := ih (by omega) (by omega)
      (fun m hm => halias m (by omega)) hproof₁
    have hget : ts[k]? = some ts[k] := List.getElem?_eq_getElem (by omega)
    refine ⟨proof₂, ?_, ?_⟩
    · rw [MerkleRoll.replayLogs, hupd, Option.bind_some, hrest, replayTrees, hget]
    · rw [replayTrees, hget]
      exact hproof₂

/-- Replaying updates on a current proof is harmless. -/
theorem SnapshotInv.checkReplay_current (h : SnapshotInv base roll ts) (hD0 : 0 < D ∨ k = 0)
    (hk : k ≤ ts.length) (hkB : k ≤ B)
    (halias : ∀ m < k, position D i = position D (roll.log m).index → i = (roll.log m).index)
    {proof : Vector Node D}
    (hproof : ∀ l < D, levels proof l = sibling hashv (latest base ts) (position D i) l) :
    ∃ proof', roll.checkReplay (latest base ts (position D i)) proof i k = .ok (true, proof') := by
  have hreplay : ∃ proof', roll.replayLogs i k (proof, latest base ts (position D i)) =
      some (proof', latest base ts (position D i)) ∧
        ∀ l < D, levels proof' l = sibling hashv (latest base ts) (position D i) l := by
    rcases hD0 with hD0 | rfl
    · obtain ⟨proof', hlogs, hproof'⟩ := h.replayLogs_eq hD0 hk hkB halias hproof
      have hcurrent := fun l => h.framed.replayTrees_current (position D i) l k
      rw [(hcurrent 0).2] at hlogs
      exact ⟨proof', hlogs, fun l hl => (hproof' l hl).trans (hcurrent l).1⟩
    · exact ⟨proof, rfl, hproof⟩
  obtain ⟨proof', hlogs, hproof'⟩ := hreplay
  have hD : D < 31 := h.depth
  refine ⟨proof', ?_⟩
  rw [MerkleRoll.checkReplay, hlogs]
  dsimp only
  rw [if_pos rfl, recompute_siblings (by omega) hproof', h.current_root, decide_eq_true rfl]

end Replay

/-! ### Slots that were never written -/

/-- The change logs of a roll without an update carry the index `0`, and no node where the path of
`i` splits from that of leaf `0`. -/
structure Blank (roll : MerkleRoll Node D B) (i : UInt32) : Prop where
  index_eq : ∀ m, (roll.log m).index = 0
  path_eq : ∀ m l (hl : l < D), l = i.toNat.log2 → (roll.log m).path[l] = EMPTY

omit [DecidableEq Node] hB in
theorem BatchStart.blank {root leaf : Node} {proof : Vector Node D} {index i : UInt32}
    {start : MerkleRoll Node D B} (h : BatchStart root leaf proof index start) : Blank start i :=
  ⟨h.index_eq, fun m l hl _ => h.path_eq m l hl⟩

theorem blank_initializeRoll {start : MerkleRoll Node D B} {r : Node}
    (h : MerkleRoll.initializeRoll MerkleRoll.new = (.ok r, start)) : Blank start 0 := by
  rw [MerkleRoll.initializeRoll] at h
  split_ifs at h
  · obtain ⟨-, rfl⟩ := Prod.mk.inj h
    refine ⟨fun m => ?_, fun m l hl hlog => ?_⟩
    · rw [MerkleRoll.log, Fin.getElem_fin, Vector.getElem_set]
      split_ifs
      · simp [MerkleRoll.new, ChangeLog.default, Vector.get]
      · simp [MerkleRoll.new, ChangeLog.default]
    · -- the path of the first slot has the empty leaf at its bottom
      obtain rfl : l = 0 := by simpa using hlog
      simp only [MerkleRoll.log, Fin.getElem_fin, Vector.getElem_set]
      split_ifs
      · rw [Loop.getElem_fold_set, emptyNodeCached_replicate]
        rfl
      · simp [MerkleRoll.new, ChangeLog.default]
  · exact absurd (Prod.mk.inj h).1 (by simp)

namespace Blank

variable {roll : MerkleRoll Node D B} {i : UInt32}

omit [DecidableEq Node] hB in
/-- A blank change log takes leaf `0` for empty, and everything beside leaf `0` on the path of
another leaf. -/
theorem updateProofOrLeaf_eq (h : Blank roll i) (hD0 : 0 < D) (hD : D ≤ 32) (hi : i.toNat < 2 ^ D)
    (m : ℕ) (proof : Vector Node D) (leaf : Node) :
    ∃ proof', (roll.log m).updateProofOrLeaf i proof leaf =
        some (proof', if i = 0 then EMPTY else leaf) ∧
      ∀ l < D, levels proof' l = if i ≠ 0 ∧ l = i.toNat.log2 then EMPTY else levels proof l := by
  by_cases hzero : i = 0
  · subst hzero
    refine ⟨proof, ?_, fun l _ => by simp⟩
    have hpath := h.path_eq m 0 hD0 (by simp)
    rw [ChangeLog.updateProofOrLeaf, if_neg (not_not.2 (h.index_eq m).symm), ChangeLog.getLeaf,
      Vector.getElem?_eq_getElem hD0, hpath, if_pos rfl]
    rfl
  · have hposition : position D i ^^^ position D (roll.log m).index = i.toNat := by
      rw [h.index_eq, position_of_lt hi, position, UInt32.toNat_zero, Nat.zero_mod, Nat.xor_zero]
    have hne : position D i ≠ position D (roll.log m).index := by
      intro heq
      rw [heq, Nat.xor_self] at hposition
      exact hzero (UInt32.toNat_inj.1 (by simpa using hposition.symm))
    obtain ⟨hlog, hupd⟩ := (roll.log m).updateProofOrLeaf_ne proof leaf hD hne
    refine ⟨_, by rw [hupd, if_neg hzero], fun l hl => ?_⟩
    rw [levels_of_lt _ hl, levels_of_lt _ hl, Vector.getElem_set]
    simp only [hposition, h.path_eq m _ (hposition ▸ hlog) rfl, ne_eq, hzero, not_false_eq_true,
      true_and, eq_comm]

omit [DecidableEq Node] hB in
theorem replayLogs_eq (h : Blank roll i) (hD0 : 0 < D) (hD : D ≤ 32) (hi : i.toNat < 2 ^ D) {k : ℕ}
    (hk : 0 < k) (proof : Vector Node D) (leaf : Node) :
    ∃ proof', roll.replayLogs i k (proof, leaf) = some (proof', if i = 0 then EMPTY else leaf) ∧
      ∀ l < D, levels proof' l = if i ≠ 0 ∧ l = i.toNat.log2 then EMPTY else levels proof l := by
  induction k, hk using Nat.le_induction generalizing proof leaf with
  | base =>
    obtain ⟨proof', hupd, hproof'⟩ := h.updateProofOrLeaf_eq hD0 hD hi 0 proof leaf
    exact ⟨proof', by rw [MerkleRoll.replayLogs, hupd]; rfl, hproof'⟩
  | succ k _ ih =>
    obtain ⟨proof₁, hupd, hproof₁⟩ := h.updateProofOrLeaf_eq hD0 hD hi k proof leaf
    obtain ⟨proof₂, hrest, hproof₂⟩ := ih proof₁ (if i = 0 then EMPTY else leaf)
    refine ⟨proof₂, ?_, fun l hl => ?_⟩
    · rw [MerkleRoll.replayLogs, hupd, Option.bind_some, hrest]
      split_ifs <;> rfl
    · -- the second time changes nothing
      rw [hproof₂ l hl, hproof₁ l hl]
      split_ifs <;> rfl

omit hB in
/-- Replaying blank change logs is harmless when what they put into the proof is there already. -/
theorem checkReplay_iff [CollisionFree Node] (h : Blank roll i) (hD0 : 0 < D) (hD : D ≤ 32)
    (hi : i.toNat < 2 ^ D) {T : ℕ → Node} (hroot : roll.getChangeLog.root = MerkleTree.root hashv D T)
    {proof : Vector Node D} (hproof : ∀ l < D, levels proof l = sibling hashv T i.toNat l) {k : ℕ}
    (hk : 0 < k) :
    (∃ proof', roll.checkReplay (T i.toNat) proof i k = .ok (true, proof')) ↔
      (i = 0 → T 0 = EMPTY) ∧ (i ≠ 0 → sibling hashv T i.toNat i.toNat.log2 = EMPTY) := by
  obtain ⟨proof', hlogs, hproof'⟩ := h.replayLogs_eq hD0 hD hi hk proof (T i.toNat)
  have hrec : recompute (T i.toNat) proof' i = MerkleTree.root hashv D T ↔
      T i.toNat = T (position D i) ∧ ∀ l < D, levels proof' l = sibling hashv T (position D i) l :=
    recompute_eq_root_iff hD
  rw [position_of_lt hi] at hrec
  have hcheck : (∃ proof'', roll.checkReplay (T i.toNat) proof i k = .ok (true, proof'')) ↔
      (if i = 0 then EMPTY else T i.toNat) = T i.toNat ∧
        ∀ l < D, levels proof' l = sibling hashv T i.toNat l := by
    generalize (if i = 0 then EMPTY else T i.toNat) = x at hlogs
    rw [MerkleRoll.checkReplay, hlogs, hroot]
    dsimp only
    constructor
    · rintro ⟨proof'', hok⟩
      split_ifs at hok with hleaf
      rw [hleaf] at hok
      exact ⟨hleaf, (hrec.1 (of_decide_eq_true (Prod.mk.inj (Outcome.ok.inj hok)).1)).2⟩
    · rintro ⟨hleaf, hsiblings⟩
      rw [if_pos hleaf, hleaf, decide_eq_true (hrec.2 ⟨rfl, hsiblings⟩)]
      exact ⟨proof', rfl⟩
  rw [hcheck]
  by_cases hzero : i = 0
  · -- the leaf is taken for empty
    subst hzero
    rw [if_pos rfl]
    constructor
    · rintro ⟨hleaf, -⟩
      exact ⟨fun _ => hleaf.symm, fun hne => absurd rfl hne⟩
    · rintro ⟨hleaf, -⟩
      refine ⟨(hleaf rfl).symm, fun l hl => ?_⟩
      rw [hproof' l hl, if_neg (by simp), hproof l hl]
  · -- the top sibling is taken for empty
    rw [if_neg hzero]
    have hlog : i.toNat.log2 < D := (Nat.log2_lt fun heq =>
      hzero (UInt32.toNat_inj.1 (by simpa using heq))).2 hi
    constructor
    · rintro ⟨-, hsiblings⟩
      refine ⟨fun hfalse => absurd hfalse hzero, fun _ => ?_⟩
      rw [← hsiblings _ hlog, hproof' _ hlog, if_pos ⟨hzero, rfl⟩]
    · rintro ⟨-, hsibling⟩
      refine ⟨rfl, fun l hl => ?_⟩
      rw [hproof' l hl]
      split_ifs with heq
      · rw [heq.2, hsibling hzero]
      · exact hproof l hl

end Blank

/-- The only leaf that is in reach on an empty roll is leaf `0`, and it is empty. -/
theorem Start.blank {base : ℕ → Node} {start : MerkleRoll Node D B} {i : UInt32}
    (h : Start base start) (hle : i ≤ start.rightmostProof.index) : Blank start i := by
  cases h with
  | empty _ h =>
    obtain ⟨-, -, -, hindex, -⟩ := initializeRoll_eq h
    rw [hindex] at hle
    obtain rfl : i = 0 := UInt32.toNat_inj.1 (Nat.le_zero.1 hle)
    exact blank_initializeRoll h
  | withRoot h =>
    obtain ⟨-, proof, -, hstart⟩ := initializeWithRoot_batchStart h
    exact hstart.blank

/-! ### Current proofs pass -/

section Current

variable {base : ℕ → Node} {start roll : MerkleRoll Node D B} {n : ℕ} {T : ℕ → Node} {i : UInt32}

/-- After `n` updates a replay of the ages below `k` leaves a current proof of leaf `i` as it
is. -/
structure Harmless (roll : MerkleRoll Node D B) (n : ℕ) (T : ℕ → Node) (i : UInt32) (k : ℕ) :
    Prop where
  depth : 0 < D ∨ k = 0
  unaliased : ∀ m < k, position D i = position D (roll.log m).index → i = (roll.log m).index
  /-- Before the first update the replay goes through slots that were never written. -/
  blank : n = 0 → 0 < k →
    (i = 0 → T 0 = EMPTY) ∧ (i ≠ 0 → sibling hashv T i.toNat i.toNat.log2 = EMPTY)

/-- `prove_leaf` takes a current proof if and only if its check replays no change log with another
index of the leaf, and none that was never written, unless that makes no difference. -/
theorem proveLeaf_current_iff [CollisionFree Node] (hstart : Start base start)
    (hrun : Updates start n roll) (hroot : roll.getChangeLog.root = MerkleTree.root hashv D T)
    (root : Node) (hi : i.toNat < 2 ^ D) (hle : i ≤ roll.rightmostProof.index) :
    (∃ r' roll', roll.proveLeaf root (T i.toNat) (siblings D T i.toNat) i = (.ok r', roll')) ↔
      ∀ k, roll.Replays root k → Harmless roll n T i k := by
  obtain ⟨ts, h, rfl⟩ := hrun.inv hstart.inv
  have hD : D < 31 := h.depth
  have hposition : position D i = i.toNat := position_of_lt hi
  obtain ⟨proof, hfill, hproof⟩ := fillInProof_siblings D T i.toNat
  obtain ⟨k, hreplays⟩ := roll.exists_replays root
  have hall : (∀ k', roll.Replays root k' → Harmless roll ts.length T i k') ↔
      Harmless roll ts.length T i k :=
    ⟨fun hharmless => hharmless k hreplays, fun hharmless k' hk' => hreplays.unique hk' ▸ hharmless⟩
  have hcheck : (∃ r' roll', roll.proveLeaf root (T i.toNat) (siblings D T i.toNat) i =
      (.ok r', roll')) ↔ ∃ proof', roll.checkReplay (T i.toNat) proof i k = .ok (true, proof') := by
    rw [roll.proveLeaf_eq (checkBounds_iff.2 ⟨hD, h.pow⟩) _ _ hfill hle,
      h.checkValidLeaf_eq hreplays]
    rcases roll.checkReplay (T i.toNat) proof i k with ⟨_ | _, proof'⟩ | e | _ <;> simp
  rw [hall, hcheck]
  by_cases hdepth : 0 < D ∨ k = 0
  swap
  · -- without levels there is no leaf to replay
    obtain ⟨hD0, hk0⟩ := not_or.1 hdepth
    obtain rfl : D = 0 := by omega
    obtain ⟨k, rfl⟩ := Nat.exists_eq_succ_of_ne_zero hk0
    refine iff_of_false ?_ fun hharmless => hdepth hharmless.depth
    rintro ⟨proof', hok⟩
    rw [MerkleRoll.checkReplay, MerkleRoll.replayLogs, ChangeLog.updateProofOrLeaf_depth_zero] at hok
    exact absurd hok (by simp)
  by_cases halias : ∀ m < k, position D i = position D (roll.log m).index → i = (roll.log m).index
  swap
  · refine iff_of_false ?_ fun hharmless => halias hharmless.unaliased
    rintro ⟨proof', hok⟩
    push Not at halias
    rw [MerkleRoll.checkReplay, MerkleRoll.replayLogs_alias (by omega) halias] at hok
    exact absurd hok (by simp)
  by_cases hblank : ts.length = 0 ∧ 0 < k
  · obtain ⟨hlen, hk⟩ := hblank
    obtain rfl : start = roll := by
      generalize hn : ts.length = n at hrun hlen
      cases hrun with
      | refl => rfl
      | ok => exact absurd hlen (Nat.succ_ne_zero _)
    have hD0 : 0 < D := hdepth.resolve_right hk.ne'
    rw [(hstart.blank hle).checkReplay_iff hD0 (by omega) hi hroot hproof hk]
    exact ⟨fun hempty => ⟨hdepth, halias, fun _ _ => hempty⟩, fun hharmless => hharmless.blank hlen hk⟩
  · refine iff_of_true ?_ ⟨hdepth, halias, fun hlen hk => absurd ⟨hlen, hk⟩ hblank⟩
    obtain ⟨hkB, hk⟩ := h.replays_le hreplays
    have hkts : k ≤ ts.length := by
      rcases hk with hk | ⟨rfl, rfl⟩
      · exact hk
      · exact absurd ⟨rfl, hB.pos⟩ hblank
    -- the given tree is the last one
    have hT := MerkleTree.root_inj CollisionFree.hashv_inj (hroot.symm.trans h.current_root)
    have hcurrent := h.checkReplay_current hdepth hkts hkB halias
      fun l hl => (hproof l hl).trans (by
        rw [hposition]
        exact MerkleTree.sibling_congr hashv hT hi hl)
    rwa [hposition, ← hT _ hi] at hcurrent

end Current

/-- The leaves `1`, …, `n`. -/
def firstLeaves (n q : ℕ) : Term := if q < n then .leaf (q + 1) else EMPTY

/-- A roll that starts with the leaves `1` and `2`. -/
def batch : MerkleRoll Term 3 8 :=
  (MerkleRoll.new.initializeWithRoot (MerkleTree.root hashv 3 (firstLeaves 2)) (.leaf 2)
    (siblings 3 (firstLeaves 2) 1) 1).2

theorem start_batch : Start (firstLeaves 2) batch := by
  have hok : MerkleRoll.new.initializeWithRoot (MerkleTree.root hashv 3 (firstLeaves 2)) (.leaf 2)
      (siblings 3 (firstLeaves 2) 1) 1 =
        (.ok (MerkleTree.root hashv 3 (firstLeaves 2)), batch) :=
    Prod.ext (by decide +kernel) rfl
  exact .withRoot hok

/-- The current root of the batch, and an unknown root after an append. -/
theorem proveLeaf_current_iff_batch :
    (∃ r' roll', batch.proveLeaf (MerkleTree.root hashv 3 (firstLeaves 2)) (.leaf 2)
        (siblings 3 (firstLeaves 2) 1) 1 = (.ok r', roll')) ∧
      ∃ r' roll', (batch.append (.leaf 3)).2.proveLeaf (.leaf 9) (.leaf 2)
        (siblings 3 (firstLeaves 3) 1) 1 = (.ok r', roll') := by
  have hone : Updates batch 1 (batch.append (.leaf 3)).2 :=
    .ok (c := .append (.leaf 3)) .refl (Prod.ext (by decide +kernel) rfl)
  constructor
  · refine (proveLeaf_current_iff (T := firstLeaves 2) (i := 1) start_batch .refl
      (by decide +kernel) _ (by decide) (by decide +kernel)).2 fun k hreplays => ?_
    have hyoung : batch.Youngest (MerkleTree.root hashv 3 (firstLeaves 2)) 0 :=
      ⟨by decide +kernel, by decide +kernel, by simp⟩
    obtain rfl := hreplays.unique (.inl hyoung)
    exact ⟨.inl (by decide), by simp, fun _ hk => absurd hk (lt_irrefl 0)⟩
  · refine (proveLeaf_current_iff (T := firstLeaves 3) (i := 1) start_batch hone
      (by decide +kernel) _ (by decide) (by decide +kernel)).2 fun k hreplays => ?_
    have hnone : (batch.append (.leaf 3)).2.Replays (.leaf 9) 1 :=
      .inr ⟨by decide +kernel, by decide +kernel⟩
    obtain rfl := hreplays.unique hnone
    exact ⟨.inl (by decide), by decide +kernel, fun hn => absurd hn one_ne_zero⟩

/-- On the fresh batch an unknown root makes the check go once around the ring, through slots that
were never written. -/
theorem prove_leaf_replays_blank_slots :
    let T := firstLeaves 2
    Start T batch ∧ Updates batch 0 batch ∧ batch.getChangeLog.root = MerkleTree.root hashv 3 T ∧
      0 ≤ batch.rightmostProof.index ∧ 1 ≤ batch.rightmostProof.index ∧
      (batch.proveLeaf (.leaf 9) (T 0) (siblings 3 T 0) 0).1 = .err .LeafContentsModified ∧
      (batch.proveLeaf (.leaf 9) (T 1) (siblings 3 T 1) 1).1 = .err .InvalidProof := by
  intro T
  exact ⟨start_batch, .refl, by decide +kernel, by decide +kernel, by decide +kernel,
    by decide +kernel, by decide +kernel⟩

end Candyland.ConcurrentMerkleTree
