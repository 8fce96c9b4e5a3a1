import Candyland.ConcurrentMerkleTree.Append

/-!
# Runs of the roll

A run starts from `initialize()` and makes calls of `append`, `set_leaf` and
`fill_empty_or_append` with any arguments.  It goes on after an error; after a panic
there is no roll to go on with, since the transaction is undone.  Beside the roll it
carries the history of its writes, from which the tree of every earlier time can be
read off.
-/

namespace Candyland.ConcurrentMerkleTree

open MerkleTree (after)

/-- A call that may write. -/
inductive Call (Node : Type) where
  | append (node : Node)
  | setLeaf (currentRoot previousLeaf newLeaf : Node) (proofVec : List Node) (index : UInt32)
  | fillEmptyOrAppend (currentRoot leaf : Node) (proofVec : List Node) (index : UInt32)

variable {Node : Type} [NodeHash Node] [DecidableEq Node] {D B : ℕ} [hB : BufferSize B]

namespace MerkleRoll

/-- `fill_empty_or_append` meets a conflict: the leaf at `index` was written after the
proof was made. -/
def conflict (roll : MerkleRoll Node D B) (currentRoot : Node) (proofVec : List Node)
    (index : UInt32) : Bool :=
  match fillInProof D proofVec with
  | none => false
  | some proof =>
    roll.checkValidLeaf currentRoot EMPTY proof index false == .err .LeafContentsModified

theorem conflict_iff {roll : MerkleRoll Node D B} {currentRoot : Node} {proofVec : List Node}
    {index : UInt32} {proof : Vector Node D} (hfill : fillInProof D proofVec = some proof) :
    roll.conflict currentRoot proofVec index = true ↔
      roll.checkValidLeaf currentRoot EMPTY proof index false = .err .LeafContentsModified := by
  rw [conflict, hfill]
  exact beq_iff_eq

theorem conflict_of_none {roll : MerkleRoll Node D B} {currentRoot : Node} {proofVec : List Node}
    {index : UInt32} (hfill : fillInProof D proofVec = none) :
    roll.conflict currentRoot proofVec index = false := by
  rw [conflict, hfill]

end MerkleRoll

namespace Call

/-- Makes the call. -/
def exec (c : Call Node) (roll : MerkleRoll Node D B) :
    Outcome CMTError Node × MerkleRoll Node D B :=
  match c with
  | append node => roll.append node
  | setLeaf currentRoot previousLeaf newLeaf proofVec index =>
    roll.setLeaf currentRoot previousLeaf newLeaf proofVec index
  | fillEmptyOrAppend currentRoot leaf proofVec index =>
    roll.fillEmptyOrAppend currentRoot leaf proofVec index

omit [NodeHash Node] [DecidableEq Node] in
/-- The leaf that the call writes. -/
def leaf : Call Node → Node
  | append node => node
  | setLeaf _ _ newLeaf _ _ => newLeaf
  | fillEmptyOrAppend _ leaf _ _ => leaf

/-- The index that the call writes through: its own, or the first free position for an
append. -/
def target (c : Call Node) (roll : MerkleRoll Node D B) : UInt32 :=
  match c with
  | append _ => roll.rightmostProof.index
  | setLeaf _ _ _ _ index => index
  | fillEmptyOrAppend currentRoot _ proofVec index =>
    if roll.conflict currentRoot proofVec index then roll.rightmostProof.index else index

omit [NodeHash Node] [DecidableEq Node] in
/-- The indices among the arguments of the call are positions of the tree. -/
def IndexBelow (D : ℕ) : Call Node → Prop
  | append _ => True
  | setLeaf _ _ _ _ index => index.toNat < 2 ^ D
  | fillEmptyOrAppend _ _ _ index => index.toNat < 2 ^ D

instance : (c : Call Node) → Decidable (c.IndexBelow D)
  | append _ => inferInstanceAs (Decidable True)
  | setLeaf _ _ _ _ index => inferInstanceAs (Decidable (index.toNat < 2 ^ D))
  | fillEmptyOrAppend _ _ _ index => inferInstanceAs (Decidable (index.toNat < 2 ^ D))

end Call

/-- The rolls that a run reaches in which every successful call satisfies `P`, with the
writes made, newest first. -/
inductive Run (P : MerkleRoll Node D B → Call Node → Prop) :
    MerkleRoll Node D B → List (ℕ × Node) → Prop
  /-- The start. -/
  | init {r : Node} {roll : MerkleRoll Node D B}
      (h : MerkleRoll.initializeRoll MerkleRoll.new = (.ok r, roll)) : Run P roll []
  /-- A call that writes. -/
  | ok {roll roll' : MerkleRoll Node D B} {ws : List (ℕ × Node)} {c : Call Node} {r : Node}
      (hrun : Run P roll ws) (hP : P roll c) (h : c.exec roll = (.ok r, roll')) :
      Run P roll' ((position D (c.target roll), c.leaf) :: ws)
  /-- A call that fails. -/
  | err {roll roll' : MerkleRoll Node D B} {ws : List (ℕ × Node)} {c : Call Node} {e : CMTError}
      (hrun : Run P roll ws) (h : c.exec roll = (.err e, roll')) : Run P roll' ws

/-- The rolls that are reachable with any arguments. -/
abbrev Reachable (roll : MerkleRoll Node D B) (ws : List (ℕ × Node)) : Prop :=
  Run (fun _ _ => True) roll ws

theorem Run.mono {P Q : MerkleRoll Node D B → Call Node → Prop} (hPQ : ∀ roll c, P roll c → Q roll c)
    {roll : MerkleRoll Node D B} {ws : List (ℕ × Node)} (h : Run P roll ws) : Run Q roll ws := by
  induction h with
  | init h => exact .init h
  | ok _ hP h ih => exact .ok ih (hPQ _ _ hP) h
  | err _ h ih => exact .err ih h

/-- The leaves of the tree after the writes `ws`. -/
abbrev treeAfter (ws : List (ℕ × Node)) : ℕ → Node := after (fun _ => EMPTY) ws

/-- The proof for leaf `i`, as it is passed to the calls. -/
def siblings (D : ℕ) (T : ℕ → Node) (i : ℕ) : List Node :=
  (List.range D).map (MerkleTree.sibling hashv T i)

/-! ### The start -/

theorem initializeRoll_eq {roll : MerkleRoll Node D B} {r : Node}
    (h : MerkleRoll.initializeRoll MerkleRoll.new = (.ok r, roll)) :
    Inv (fun _ => EMPTY) roll [] ∧ roll.sequenceNumber = 0 ∧
      r = MerkleTree.root hashv D (fun _ => (EMPTY : Node)) ∧
      roll.rightmostProof.index = 0 ∧ (roll.log 0).Records (fun _ => EMPTY) 0 ∧
      (roll.log 0).index = 0 := by
  rw [MerkleRoll.initializeRoll] at h
  split_ifs at h with hcheck
  · obtain ⟨hD, hpow⟩ := checkBounds_iff.1 hcheck
    obtain ⟨hr, rfl⟩ := Prod.mk.inj h
    have hroot : (emptyNode D : Node) = MerkleTree.root hashv D (fun _ => EMPTY) := by
      rw [MerkleTree.root, MerkleTree.node_const, emptyNode_eq_uniform]
    have hnodes : ∀ l (hl : l < D), (Nat.fold D (fun i _ nodes => nodes.set i
        (emptyNodeCached (Vector.replicate D (EMPTY : Node)) i)) (Vector.replicate D EMPTY))[l] =
        MerkleTree.uniform hashv EMPTY l := fun l hl => by
      rw [Loop.getElem_fold_set, emptyNodeCached_replicate, emptyNode_eq_uniform]
    have hrec : ChangeLog.Records (D := D) ⟨emptyNode D, Nat.fold D (fun i _ nodes => nodes.set i
        (emptyNodeCached (Vector.replicate D (EMPTY : Node)) i)) (Vector.replicate D EMPTY),
        ((MerkleRoll.new : MerkleRoll Node D B).changeLogs.get ⟨0, hB.pos⟩).index⟩
        (fun _ => EMPTY) 0 := by
      refine ⟨hroot, ?_, fun l hl => ?_⟩
      · simp [MerkleRoll.new, ChangeLog.default, position, Vector.get]
      · rw [hnodes l hl, MerkleTree.node_const]
    refine ⟨⟨⟨hD, hpow, ?_, ?_, by simp⟩, ?_, ?_, ?_, ?_⟩, rfl, ?_, rfl, ?_, ?_⟩
    · have := hB.pos
      simp only [List.length_nil]
      omega
    · intro k hk
      obtain rfl : k = 0 := by simpa using hk
      refine ⟨?_, fun hlt => absurd hlt (by simp)⟩
      simpa using hroot
    · simp [Path.default]
    · intro q _ _
      rfl
    · intro hlt
      simp [Path.default] at hlt
    · intro _ l hl
      rw [levels_of_lt _ hl, hnodes l hl, MerkleTree.sibling, MerkleTree.after_nil,
        MerkleTree.node_const]
    · rw [← Outcome.ok.inj hr, hroot]
    · simpa [MerkleRoll.log] using hrec
    · simp [MerkleRoll.log, MerkleRoll.new, ChangeLog.default, Vector.get]
  · exact absurd (Prod.mk.inj h).1 (by simp)

/-! ### Calls -/

section Calls

variable {base : ℕ → Node} {roll roll' : MerkleRoll Node D B} {ws : List (ℕ × Node)}

theorem Inv.setLeaf_ok [CollisionFree Node] (h : Inv base roll ws)
    {currentRoot previousLeaf newLeaf r : Node} {proofVec : List Node} {index : UInt32}
    (hok : roll.setLeaf currentRoot previousLeaf newLeaf proofVec index = (.ok r, roll')) :
    previousLeaf = after base ws (position D index) ∧
      Written base roll ws index newLeaf r roll' ∧ index ≤ roll.rightmostProof.index := by
  rw [MerkleRoll.setLeaf] at hok
  split_ifs at hok with hcheck hindex
  · exact absurd (Prod.mk.inj hok).1 (by simp)
  · cases hfill : fillInProof D proofVec with
    | none => rw [hfill] at hok; exact absurd (Prod.mk.inj hok).1 (by simp)
    | some proof =>
      rw [hfill] at hok
      obtain ⟨hleaf, hwritten⟩ := h.tryApplyProof_ok hok
      exact ⟨hleaf, hwritten, UInt32.not_lt.1 hindex⟩
  · exact absurd (Prod.mk.inj hok).1 (by simp)

/-- `prove_leaf` accepts only the current leaf. -/
theorem Inv.proveLeaf_ok [CollisionFree Node] (h : Inv base roll ws) {currentRoot leaf r : Node}
    {proofVec : List Node} {leafIndex : UInt32}
    (hok : roll.proveLeaf currentRoot leaf proofVec leafIndex = (.ok r, roll')) :
    leaf = after base ws (position D leafIndex) ∧ roll' = roll ∧
      leafIndex ≤ roll.rightmostProof.index := by
  rw [MerkleRoll.proveLeaf] at hok
  split_ifs at hok with hcheck hindex
  · exact absurd (Prod.mk.inj hok).1 (by simp)
  · cases hfill : fillInProof D proofVec with
    | none => rw [hfill] at hok; exact absurd (Prod.mk.inj hok).1 (by simp)
    | some proof =>
      rw [hfill] at hok
      dsimp only at hok
      cases hvalid : roll.checkValidLeaf currentRoot leaf proof leafIndex true with
      | panic => rw [hvalid] at hok; exact absurd (Prod.mk.inj hok).1 (by simp)
      | err error => rw [hvalid] at hok; exact absurd (Prod.mk.inj hok).1 (by simp)
      | ok res =>
        obtain ⟨validRoot, proof'⟩ := res
        rw [hvalid] at hok
        dsimp only at hok
        split_ifs at hok with hroot
        · subst hroot
          exact ⟨(h.checkValidLeaf_sound hvalid).1, (Prod.mk.inj hok).2.symm, UInt32.not_lt.1 hindex⟩
        · exact absurd (Prod.mk.inj hok).1 (by simp)
  · exact absurd (Prod.mk.inj hok).1 (by simp)

/-- `prove_leaf` does not write. -/
theorem MerkleRoll.proveLeaf_snd (roll : MerkleRoll Node D B) (currentRoot leaf : Node)
    (proofVec : List Node) (leafIndex : UInt32) :
    (roll.proveLeaf currentRoot leaf proofVec leafIndex).2 = roll := by
  rw [proveLeaf]
  split_ifs
  · rfl
  · cases fillInProof D proofVec with
    | none => rfl
    | some proof =>
      dsimp only
      rcases roll.checkValidLeaf currentRoot leaf proof leafIndex true with ⟨_ | _, _⟩ | _ | _ <;>
        rfl
  · rfl

theorem MerkleRoll.setLeaf_err {currentRoot previousLeaf newLeaf : Node} {proofVec : List Node}
    {index : UInt32} {error : CMTError}
    (herr : roll.setLeaf currentRoot previousLeaf newLeaf proofVec index = (.err error, roll')) :
    roll' = roll := by
  rw [setLeaf] at herr
  split_ifs at herr
  · exact (Prod.mk.inj herr).2.symm
  · cases hfill : fillInProof D proofVec with
    | none => rw [hfill] at herr; exact (Prod.mk.inj herr).2.symm
    | some proof => rw [hfill] at herr; exact tryApplyProof_err herr
  · exact (Prod.mk.inj herr).2.symm

/-- A write attempt fails with a modified leaf exactly when its check does. -/
theorem MerkleRoll.tryApplyProof_modified {currentRoot leaf w : Node} {proof : Vector Node D}
    {index : UInt32} {allow : Bool} :
    (roll.tryApplyProof currentRoot leaf w proof index allow).1 = .err .LeafContentsModified ↔
      roll.checkValidLeaf currentRoot leaf proof index allow = .err .LeafContentsModified := by
  rw [tryApplyProof]
  cases hcheck : roll.checkValidLeaf currentRoot leaf proof index allow with
  | panic => simp
  | err error => simp
  | ok res =>
    obtain ⟨validRoot, proof'⟩ := res
    dsimp only
    split_ifs
    · simp [updateBuffersFromProof_ne_err]
    · simp

/-- `fill_empty_or_append` writes where its proof says, or appends on a conflict. -/
theorem MerkleRoll.fillEmptyOrAppend_eq (currentRoot leaf : Node) (proofVec : List Node)
    (index : UInt32) (hcheck : checkBounds D B = true) :
    roll.fillEmptyOrAppend currentRoot leaf proofVec index =
      if roll.conflict currentRoot proofVec index then roll.append leaf
      else
        match fillInProof D proofVec with
        | none => (.panic, roll)
        | some proof => roll.tryApplyProof currentRoot EMPTY leaf proof index false := by
  rw [fillEmptyOrAppend, if_pos hcheck]
  cases hfill : fillInProof D proofVec with
  | none => rw [conflict_of_none hfill]; rfl
  | some proof =>
    dsimp only
    by_cases hmod : roll.checkValidLeaf currentRoot EMPTY proof index false =
        .err .LeafContentsModified
    · rw [if_pos ((conflict_iff hfill).2 hmod), tryApplyProof, hmod]
    · rw [if_neg ((conflict_iff hfill).not.2 hmod)]
      have hne := (tryApplyProof_modified (w := leaf)).not.2 hmod
      generalize roll.tryApplyProof currentRoot EMPTY leaf proof index false = res at hne
      obtain ⟨out, roll₁⟩ := res
      cases out with
      | err error => cases error <;> first | rfl | exact absurd rfl hne
      | ok r => rfl
      | panic => rfl

theorem Inv.fillEmptyOrAppend_ok [CollisionFree Node] (h : Inv base roll ws)
    {currentRoot leaf r : Node} {proofVec : List Node} {index : UInt32}
    (hok : roll.fillEmptyOrAppend currentRoot leaf proofVec index = (.ok r, roll')) :
    if roll.conflict currentRoot proofVec index then
      Written base roll ws roll.rightmostProof.index leaf r roll' ∧
        roll.rightmostProof.index.toNat < 2 ^ D
    else
      EMPTY = after base ws (position D index) ∧ Written base roll ws index leaf r roll' := by
  rw [MerkleRoll.fillEmptyOrAppend_eq _ _ _ _ (checkBounds_iff.2 ⟨h.depth, h.pow⟩)] at hok
  split_ifs at hok ⊢ with hconf
  · exact h.append_ok hok
  · cases hfill : fillInProof D proofVec with
    | none => rw [hfill] at hok; exact absurd (Prod.mk.inj hok).1 (by simp)
    | some proof => rw [hfill] at hok; exact h.tryApplyProof_ok hok

theorem MerkleRoll.fillEmptyOrAppend_err {currentRoot leaf : Node} {proofVec : List Node}
    {index : UInt32} {error : CMTError}
    (herr : roll.fillEmptyOrAppend currentRoot leaf proofVec index = (.err error, roll')) :
    roll' = roll := by
  by_cases hcheck : checkBounds D B = true
  · rw [fillEmptyOrAppend_eq _ _ _ _ hcheck] at herr
    split_ifs at herr
    · exact append_err herr
    · cases hfill : fillInProof D proofVec with
      | none => rw [hfill] at herr; exact absurd (Prod.mk.inj herr).1 (by simp)
      | some proof => rw [hfill] at herr; exact tryApplyProof_err herr
  · rw [fillEmptyOrAppend, if_neg hcheck] at herr
    exact (Prod.mk.inj herr).2.symm

/-- What a successful call does. -/
theorem Inv.exec_ok [CollisionFree Node] (h : Inv base roll ws) {c : Call Node} {r : Node}
    (hok : c.exec roll = (.ok r, roll')) : Written base roll ws (c.target roll) c.leaf r roll' := by
  cases c with
  | append node => exact (h.append_ok hok).1
  | setLeaf currentRoot previousLeaf newLeaf proofVec index => exact (h.setLeaf_ok hok).2.1
  | fillEmptyOrAppend currentRoot leaf proofVec index =>
    have hfill := h.fillEmptyOrAppend_ok hok
    rw [Call.target]
    split_ifs at hfill ⊢
    · exact hfill.1
    · exact hfill.2

/-- A successful call with an index of the tree writes below `2 ^ D`. -/
theorem Inv.target_lt [CollisionFree Node] (h : Inv base roll ws) {c : Call Node}
    (hc : c.IndexBelow D) {r : Node} (hok : c.exec roll = (.ok r, roll')) :
    (c.target roll).toNat < 2 ^ D := by
  cases c with
  | append node => exact (h.append_ok hok).2
  | setLeaf currentRoot previousLeaf newLeaf proofVec index => exact hc
  | fillEmptyOrAppend currentRoot leaf proofVec index =>
    have hfill := h.fillEmptyOrAppend_ok hok
    rw [Call.target]
    split_ifs at hfill ⊢
    · exact hfill.2
    · exact hc

/-- A failed call does nothing. -/
theorem Call.exec_err {c : Call Node} {e : CMTError} (herr : c.exec roll = (.err e, roll')) :
    roll' = roll := by
  cases c with
  | append node => exact MerkleRoll.append_err herr
  | setLeaf currentRoot previousLeaf newLeaf proofVec index => exact MerkleRoll.setLeaf_err herr
  | fillEmptyOrAppend currentRoot leaf proofVec index =>
    exact MerkleRoll.fillEmptyOrAppend_err herr

end Calls

/-- The invariant holds along every run. -/
theorem Run.inv [CollisionFree Node] {P : MerkleRoll Node D B → Call Node → Prop}
    {roll : MerkleRoll Node D B} {ws : List (ℕ × Node)} (h : Run P roll ws) :
    Inv (fun _ => EMPTY) roll ws := by
  induction h with
  | init h => exact (initializeRoll_eq h).1
  | ok _ _ h ih => exact (ih.exec_ok h).inv
  | err _ h ih =>
    rw [Call.exec_err h]
    exact ih

end Candyland.ConcurrentMerkleTree
