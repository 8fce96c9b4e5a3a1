import Candyland.ConcurrentMerkleTree.Run

/-!
# The ring after a call

What a successful call does to the ring, whatever the hash is: it advances the cursor and
writes one change log there.
-/

namespace Candyland.ConcurrentMerkleTree

open CircularBuffer (next)

variable {Node : Type} [NodeHash Node] [DecidableEq Node] {D B : ℕ} [hB : BufferSize B]

/-- A change log was pushed onto the ring. -/
structure Pushed (roll roll' : MerkleRoll Node D B) : Prop where
  active : roll'.activeIndex = mask (roll.activeIndex + 1)
  logs : ∃ cl, roll'.changeLogs = roll.changeLogs.set roll'.activeIndex cl
  size : roll'.bufferSize = if roll.bufferSize < B then roll.bufferSize + 1 else roll.bufferSize

variable {roll roll' : MerkleRoll Node D B} {r : Node}

omit [DecidableEq Node] in
theorem updateBuffersFromProof_pushed {start : Node} {proof : Vector Node D} {index : UInt32}
    (h : roll.updateInternalCounters.updateBuffersFromProof start proof index = (.ok r, roll')) :
    Pushed roll roll' := by
  rw [MerkleRoll.updateBuffersFromProof] at h
  rcases hlog : (roll.updateInternalCounters.changeLogs[
    roll.updateInternalCounters.activeIndex]).replaceAndRecomputePath index start proof with
    ⟨root, changeLog⟩
  simp only [hlog] at h
  split_ifs at h
  · split at h
    · simp at h
    · obtain ⟨-, rfl⟩ := Prod.mk.inj h
      exact ⟨rfl, ⟨changeLog, rfl⟩, rfl⟩
  · split at h
    · simp at h
    · obtain ⟨-, rfl⟩ := Prod.mk.inj h
      exact ⟨rfl, ⟨changeLog, rfl⟩, rfl⟩
  · simp at h
  · obtain ⟨-, rfl⟩ := Prod.mk.inj h
    exact ⟨rfl, ⟨changeLog, rfl⟩, rfl⟩

theorem tryApplyProof_pushed {currentRoot leaf newLeaf : Node} {proof : Vector Node D}
    {index : UInt32} {allowInferredProof : Bool}
    (h : roll.tryApplyProof currentRoot leaf newLeaf proof index allowInferredProof =
      (.ok r, roll')) : Pushed roll roll' := by
  rw [MerkleRoll.tryApplyProof] at h
  split at h
  · simp at h
  · simp at h
  · split_ifs at h
    · exact updateBuffersFromProof_pushed h
    · simp at h

theorem append_pushed {node : Node} (h : roll.append node = (.ok r, roll')) :
    Pushed roll roll' := by
  rw [MerkleRoll.append] at h
  split_ifs at h
  · simp at h
  · simp at h
  · rw [MerkleRoll.initializeTreeFromAppend] at h
    split_ifs at h
    · exact tryApplyProof_pushed h
    · simp at h
  · obtain ⟨-, rfl⟩ := Prod.mk.inj h
    exact ⟨rfl, ⟨_, rfl⟩, rfl⟩
  · simp at h

/-- What every successful call does. -/
theorem Call.exec_pushed {call : Call Node} (h : call.exec roll = (.ok r, roll')) :
    Pushed roll roll' := by
  cases call with
  | append node => exact append_pushed h
  | setLeaf currentRoot previousLeaf newLeaf proofVec index =>
    rw [Call.exec, MerkleRoll.setLeaf] at h
    split_ifs at h
    · simp at h
    · split at h
      · simp at h
      · exact tryApplyProof_pushed h
    · simp at h
  | fillEmptyOrAppend currentRoot leaf proofVec index =>
    rw [Call.exec] at h
    by_cases hcheck : checkBounds D B = true
    · rw [MerkleRoll.fillEmptyOrAppend_eq _ _ _ _ hcheck] at h
      split_ifs at h
      · exact append_pushed h
      · split at h
        · simp at h
        · exact tryApplyProof_pushed h
    · rw [MerkleRoll.fillEmptyOrAppend, if_neg hcheck] at h
      simp at h

end Candyland.ConcurrentMerkleTree
