import Candyland.ConcurrentMerkleTree.Symbolic

/-!
# Patching a proof with one change log

A write at `j` changes one sibling of every other leaf `i`, the one at the level where the
paths of `i` and `j` part, and `update_proof_or_leaf` puts the node of the change log
there.  The level comes from the leading zeros of the exclusive or of the indices, shifted
by what the depth leaves of 32 bits.
-/

namespace Candyland.ConcurrentMerkleTree

variable {Node : Type} [NodeHash Node] {D : ℕ} {T : ℕ → Node} {w : Node}

/-- The siblings of leaf `i`, from the leaf upward. -/
def siblingProof (D : ℕ) (T : ℕ → Node) (i : ℕ) : Vector Node D :=
  Vector.ofFn fun l => MerkleTree.sibling hashv T i l

theorem levels_siblingProof (T : ℕ → Node) (i : ℕ) {l : ℕ} (hl : l < D) :
    levels (siblingProof D T i) l = MerkleTree.sibling hashv T i l := by
  rw [levels_of_lt _ hl, siblingProof, Vector.getElem_ofFn]

theorem eq_siblingProof {proof : Vector Node D} {i : ℕ}
    (h : ∀ l < D, levels proof l = MerkleTree.sibling hashv T i l) :
    proof = siblingProof D T i := by
  refine Vector.ext fun l hl => ?_
  rw [← levels_of_lt proof hl, ← levels_of_lt _ hl, h l hl, levels_siblingProof T i hl]

/-- Where the paths part, the sibling of `i` is the node over `j`. -/
theorem getElem_siblingProof (T : ℕ → Node) {i j c : ℕ} (hsplits : Bits.Splits i j c)
    (hc : c < D) :
    (siblingProof D T i)[c] = MerkleTree.node hashv T c (j / 2 ^ c) := by
  rw [siblingProof, Vector.getElem_ofFn]
  exact congrArg (MerkleTree.node hashv T c) hsplits

/-- A write at another leaf changes the sibling at the level where the paths part, to the
node over the written leaf. -/
theorem siblingProof_update {i j c : ℕ} (hne : i ≠ j) (hsplits : Bits.Splits i j c) (hc : c < D) :
    siblingProof D (Function.update T j w) i =
      (siblingProof D T i).set c
        (MerkleTree.node hashv (Function.update T j w) c (j / 2 ^ c)) := by
  refine Vector.ext fun l hl => ?_
  rw [Vector.getElem_set]
  split_ifs with hcl
  · subst hcl
    exact getElem_siblingProof _ hsplits hl
  · rw [siblingProof, siblingProof, Vector.getElem_ofFn, Vector.getElem_ofFn]
    refine MerkleTree.sibling_update hashv fun hsplits' => hcl ?_
    rw [(Bits.splits_iff hne l).1 hsplits', (Bits.splits_iff hne c).1 hsplits]

/-- Unless the leaf is written with what it held, the value at that level is a new one. -/
theorem node_update_ne [hH : CollisionFree Node] {j : ℕ} (hw : w ≠ T j) (c : ℕ) :
    MerkleTree.node hashv (Function.update T j w) c (j / 2 ^ c) ≠
      MerkleTree.node hashv T c (j / 2 ^ c) := by
  intro heq
  have hj := MerkleTree.node_inj hH.hashv_inj heq j rfl
  rw [Function.update_self] at hj
  exact hw hj

/-- One step of patching: with the change log of a write at `j`, the proof and the leaf of
`i` become those of the tree after the write. -/
theorem updateProofOrLeaf_siblingProof (hD0 : 1 ≤ D) (hD : D ≤ 30) (T : ℕ → Node) (w : Node)
    {i j : UInt32} (hi : i.toNat < 2 ^ D) (hj : j.toNat < 2 ^ D) (self : ChangeLog Node D) :
    let T' := Function.update T j.toNat w
    let changed := self.replaceAndRecomputePath j w (siblingProof D T j.toNat)
    let proof := siblingProof D T i.toNat
    let proof' := siblingProof D T' i.toNat
    changed.1 = MerkleTree.root hashv D T' ∧ changed.2.root = MerkleTree.root hashv D T' ∧
      (∀ l (hl : l < D), changed.2.path[l] = MerkleTree.node hashv T' l (j.toNat / 2 ^ l)) ∧
      changed.2.updateProofOrLeaf i proof (T i.toNat) = some (proof', T' i.toNat) ∧
      (i = j → proof' = proof) ∧
      (i ≠ j → ∃ c, ∃ hc : c < D, Bits.Splits i.toNat j.toNat c ∧
        proof' = proof.set c changed.2.path[c] ∧
        (CollisionFree Node → w ≠ T j.toNat → proof'[c] ≠ proof[c])) := by
  intro T' changed proof proof'
  have hposi := position_of_lt hi
  have hposj := position_of_lt hj
  have hsiblings : ∀ l < D, levels (siblingProof D T j.toNat) l =
      MerkleTree.sibling hashv T (position D j) l := fun l hl => by
    rw [hposj, levels_siblingProof T _ hl]
  have hrecords : changed.2.Records T' j.toNat := by
    have h := ChangeLog.records_replaceAndRecomputePath self w (by omega) hsiblings
    rwa [hposj] at h
  have hfst : changed.1 = MerkleTree.root hashv D T' := by
    have h := ChangeLog.replaceAndRecomputePath_fst self w (by omega) hsiblings
    rwa [hposj] at h
  refine ⟨hfst, hrecords.root_eq, hrecords.path_eq, ?_, ?_, ?_⟩
  · -- the patch of the abstract tree is what the code does
    obtain ⟨patched, hpatched, hlevels⟩ := hrecords.updateProofOrLeaf_eq hD0 (by omega) i
      (T i.toNat) (fun heq => UInt32.toNat_inj.1 (hposi.symm.trans heq))
      fun l hl => levels_siblingProof T i.toNat hl
    rw [hposi] at hpatched hlevels
    rw [MerkleTree.patch_update_snd] at hpatched
    have heq : patched = proof' := eq_siblingProof fun l hl => by
      rw [hlevels l hl, MerkleTree.patch_update_fst]
    rw [hpatched, heq]
  · rintro rfl
    refine (eq_siblingProof fun l hl => ?_).symm
    rw [levels_siblingProof T _ hl, MerkleTree.sibling_update_self]
  · intro hne
    have hne' : i.toNat ≠ j.toNat := fun heq => hne (UInt32.toNat_inj.1 heq)
    have hc := Bits.log2_xor_lt hi hj hne'
    have hsplits := (Bits.splits_iff hne' _).2 rfl
    refine ⟨_, hc, hsplits, ?_, fun _ hw heq => node_update_ne hw (i.toNat ^^^ j.toNat).log2 ?_⟩
    · rw [hrecords.path_eq _ hc]
      exact siblingProof_update hne' hsplits hc
    · rw [← getElem_siblingProof T' hsplits hc, ← getElem_siblingProof T hsplits hc]
      exact heq

/-- In a tree of depth `3` the paths of the leaves `1` and `2` part at level `1`. -/
theorem updateProofOrLeaf_siblingProof_three :
    let T : ℕ → Term := fun q => .leaf (q + 1)
    let changed := (ChangeLog.default (D := 3)).replaceAndRecomputePath 2 (.leaf 9)
      (siblingProof 3 T 2)
    siblingProof 3 T 1 = #v[.leaf 1, .node (.leaf 3) (.leaf 4),
        .node (.node (.leaf 5) (.leaf 6)) (.node (.leaf 7) (.leaf 8))] ∧
      changed.2.updateProofOrLeaf 1 (siblingProof 3 T 1) (.leaf 2) =
        some (#v[.leaf 1, .node (.leaf 9) (.leaf 4),
          .node (.node (.leaf 5) (.leaf 6)) (.node (.leaf 7) (.leaf 8))], .leaf 2) := by
  intro T changed
  obtain ⟨-, -, -, hpatch, -, -⟩ := updateProofOrLeaf_siblingProof (by norm_num) (by norm_num) T
    (.leaf 9) (i := 1) (j := 2) (by decide) (by decide) (ChangeLog.default (D := 3))
  exact ⟨by decide +kernel, hpatch.trans (by decide +kernel)⟩

end Candyland.ConcurrentMerkleTree
