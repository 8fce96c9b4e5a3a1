import Candyland.ConcurrentMerkleTree.AppendAsWrite

/-!
# Filling an empty leaf

`fill_empty_or_append` writes an empty leaf that its proof leads to, or appends when somebody else
was faster.  Unlike `set_leaf` it does not compare its index with `rightmost_proof.index` first; the
assertion in `update_buffers_from_proof` comes when the counters and the change log are already
changed, and on a full tree it is not made at all.
-/

namespace Candyland.ConcurrentMerkleTree

open MerkleTree (after sibling replay)

variable {Node : Type} [NodeHash Node] [DecidableEq Node] {D B : ℕ} [hB : BufferSize B]

/-! ### Where a proof leads -/

/-- The youngest retained change log with this root is the one of age `k`. -/
structure MerkleRoll.Youngest (roll : MerkleRoll Node D B) (root : Node) (k : ℕ) : Prop where
  lt : k < roll.bufferSize
  root_eq : (roll.log k).root = root
  young : ∀ m < k, (roll.log m).root ≠ root

/-- No change log since the root carries another index of the leaf at `index`. -/
def MerkleRoll.Unaliased (roll : MerkleRoll Node D B) (currentRoot : Node) (index : UInt32) :
    Prop :=
  ∀ k, roll.Youngest currentRoot k → ∀ m < k,
    position D index = position D (roll.log m).index → index = (roll.log m).index

/-- Since the root a leaf was written to the slot at `index`, and there is one now. -/
def TakenSince (roll : MerkleRoll Node D B) (ws : List (ℕ × Node)) (currentRoot : Node)
    (index : UInt32) : Prop :=
  treeAfter ws (position D index) ≠ EMPTY ∧
    ∃ k, roll.Youngest currentRoot k ∧ ∃ w ∈ ws.take k, w.1 = position D index

/-- The node of a proof at level `l`, or the empty one when the proof is shorter. -/
def proofNode (proofVec : List Node) (l : ℕ) : Node := proofVec[l]?.getD (emptyNode l)

/-- The slot at `index` is empty, and the proof has the siblings of its path but for those that
were overwritten since the root. -/
def LeadsToVacant (roll : MerkleRoll Node D B) (ws : List (ℕ × Node)) (currentRoot : Node)
    (proofVec : List Node) (index : UInt32) : Prop :=
  treeAfter ws (position D index) = EMPTY ∧
    ∃ k, roll.Youngest currentRoot k ∧ ∀ l < D,
      (∃ w ∈ ws.take k, Bits.Splits (position D index) w.1 l) ∨
        proofNode proofVec l = sibling hashv (treeAfter ws) (position D index) l

section Youngest

variable {roll : MerkleRoll Node D B} {root : Node} {k k' : ℕ}

omit [NodeHash Node] [DecidableEq Node] hB in
theorem MerkleRoll.Youngest.unique (h : roll.Youngest root k) (h' : roll.Youngest root k') :
    k = k' := by
  rcases lt_trichotomy k k' with hlt | heq | hlt
  · exact absurd h.root_eq (h'.young k hlt)
  · exact heq
  · exact absurd h'.root_eq (h.young k' hlt)

omit [NodeHash Node] [DecidableEq Node] hB in
theorem MerkleRoll.youngest_or (roll : MerkleRoll Node D B) (root : Node) :
    (∀ k < roll.bufferSize, (roll.log k).root ≠ root) ∨ ∃ k, roll.Youngest root k :=
  (roll.exists_youngest root).imp_right fun ⟨k, hk, hroot, hyoung⟩ => ⟨k, hk, hroot, hyoung⟩

omit [DecidableEq Node] hB in
theorem levels_eq_proofNode {proofVec : List Node} {proof : Vector Node D}
    (hfill : fillInProof D proofVec = some proof) {l : ℕ} (hl : l < D) :
    levels proof l = proofNode proofVec l := by
  rw [levels_of_lt _ hl, fillInProof_getElem hfill hl, proofNode]
  split_ifs with hlen
  · rw [List.getElem?_eq_getElem hlen, Option.getD_some]
  · rw [List.getElem?_eq_none (not_lt.1 hlen), Option.getD_none]

end Youngest

/-! ### What the call does -/

section Outcome

variable {base : ℕ → Node} {roll : MerkleRoll Node D B} {ws : List (ℕ × Node)}
  {currentRoot : Node} {index : UInt32} {k : ℕ}

omit [DecidableEq Node] hB in
theorem takenSince_iff (hyoung : roll.Youngest currentRoot k) :
    TakenSince roll ws currentRoot index ↔ treeAfter ws (position D index) ≠ EMPTY ∧
      ∃ w ∈ ws.take k, w.1 = position D index := by
  refine and_congr_right fun _ => ⟨?_, fun hw => ⟨k, hyoung, hw⟩⟩
  rintro ⟨k', hyoung', hw⟩
  rwa [hyoung.unique hyoung']

omit [DecidableEq Node] hB in
theorem leadsToVacant_iff (hyoung : roll.Youngest currentRoot k) {proofVec : List Node} :
    LeadsToVacant roll ws currentRoot proofVec index ↔ treeAfter ws (position D index) = EMPTY ∧
      ∀ l < D, (∃ w ∈ ws.take k, Bits.Splits (position D index) w.1 l) ∨
        proofNode proofVec l = sibling hashv (treeAfter ws) (position D index) l := by
  refine and_congr_right fun _ => ⟨?_, fun hproof => ⟨k, hyoung, hproof⟩⟩
  rintro ⟨k', hyoung', hproof⟩
  rwa [hyoung.unique hyoung']

/-- The check of an empty leaf: the replay tells whether the slot was taken, and completes the
proof when it leads to a vacant one. -/
theorem RingInv.checkValidLeaf_empty [CollisionFree Node] (h : RingInv (fun _ => EMPTY) roll ws)
    (hyoung : roll.Youngest currentRoot k) (hD0 : 0 < D ∨ k = 0)
    (halias : roll.Unaliased currentRoot index) {proofVec : List Node} {proof : Vector Node D}
    (hfill : fillInProof D proofVec = some proof) :
    (TakenSince roll ws currentRoot index → roll.checkValidLeaf currentRoot EMPTY proof index false =
        .err .LeafContentsModified) ∧
      (¬ TakenSince roll ws currentRoot index →
        ∃ valid proof', roll.checkValidLeaf currentRoot EMPTY proof index false =
            .ok (valid, proof') ∧
          (valid = true ↔ LeadsToVacant roll ws currentRoot proofVec index)) := by
  have hsize := h.size
  have hk := hyoung.lt
  obtain ⟨proof', -, hcheck⟩ := h.checkReplay_eq EMPTY hD0 (by omega) (by omega)
    (halias k hyoung) (fun _ _ => rfl : ∀ l < D, levels proof l = levels proof l)
  rw [roll.checkValidLeaf_of_found h.pow h.size_le hk hyoung.root_eq hyoung.young, hcheck,
    takenSince_iff hyoung, leadsToVacant_iff hyoung, MerkleTree.replay_snd]
  dsimp only
  refine ⟨?_, fun hfree => ?_⟩
  · rintro ⟨hleaf, hw⟩
    rw [if_pos hw, if_neg hleaf]
  · have hunchanged : (if ∃ w ∈ ws.take k, w.1 = position D index then
        after (fun _ => EMPTY) ws (position D index) else (EMPTY : Node)) = EMPTY := by
      split_ifs with hw
      · by_contra hleaf
        exact hfree ⟨hleaf, hw⟩
      · rfl
    rw [if_pos hunchanged]
    refine ⟨_, proof', rfl, ?_⟩
    rw [decide_eq_true_iff, eq_comm]
    refine and_congr_right fun _ => forall₂_congr fun l hl => ?_
    rw [MerkleTree.replay_fst]
    dsimp only
    rw [levels_eq_proofNode hfill hl]
    split_ifs with hw
    · exact iff_of_true rfl (.inl hw)
    · exact (or_iff_right hw).symm

/-- The call in terms of its check. -/
theorem MerkleRoll.fillEmptyOrAppend_of_check (hbounds : checkBounds D B = true) (leaf : Node)
    {proofVec : List Node} {proof : Vector Node D}
    (hfill : fillInProof D proofVec = some proof) :
    roll.fillEmptyOrAppend currentRoot leaf proofVec index =
      match roll.checkValidLeaf currentRoot EMPTY proof index false with
      | .panic => (.panic, roll)
      | .err error =>
        if error = .LeafContentsModified then roll.append leaf else (.err error, roll)
      | .ok (valid, proof) =>
        if valid then roll.updateInternalCounters.updateBuffersFromProof leaf proof index
        else (.err .InvalidProof, roll) := by
  have hconf : roll.conflict currentRoot proofVec index = true ↔
      roll.checkValidLeaf currentRoot EMPTY proof index false = .err .LeafContentsModified :=
    MerkleRoll.conflict_iff hfill
  rw [roll.fillEmptyOrAppend_eq _ _ _ _ hbounds, hfill]
  simp only [MerkleRoll.tryApplyProof]
  generalize roll.checkValidLeaf currentRoot EMPTY proof index false = check at hconf ⊢
  rcases check with ⟨valid, proof'⟩ | error | _
  · rw [if_neg (by rw [hconf]; simp)]
  · dsimp only
    by_cases herror : error = .LeafContentsModified
    · rw [if_pos (hconf.2 (by rw [herror])), if_pos herror]
    · rw [if_neg (by rw [hconf]; simpa using herror), if_neg herror]
  · rw [if_neg (by rw [hconf]; simp)]

/-- A change log with another index of the leaf makes the call panic. -/
theorem Inv.fillEmptyOrAppend_alias (h : Inv base roll ws)
    (halias : ¬ roll.Unaliased currentRoot index) (leaf : Node) {proofVec : List Node}
    {proof : Vector Node D} (hfill : fillInProof D proofVec = some proof) :
    roll.fillEmptyOrAppend currentRoot leaf proofVec index = (.panic, roll) := by
  simp only [MerkleRoll.Unaliased, not_forall] at halias
  obtain ⟨k, hyoung, m, hm, hpos, hne⟩ := halias
  have hk := hyoung.lt
  have hobstacle : ¬ roll.NoAlias currentRoot index := fun hno =>
    hne (hno m (by omega) (fun m' hm' => hyoung.young m' (by omega)) hpos)
  rw [MerkleRoll.fillEmptyOrAppend_of_check (checkBounds_iff.2 ⟨h.depth, h.pow⟩) leaf hfill,
    h.checkValidLeaf_alias ⟨k, hk, hyoung.root_eq⟩ hobstacle EMPTY proof false]

/-- What becomes of a call whose replay meets no such change log. -/
inductive Fill (roll : MerkleRoll Node D B) (ws : List (ℕ × Node)) (currentRoot leaf : Node)
    (proofVec : List Node) (index : UInt32) :
    Outcome CMTError Node × MerkleRoll Node D B → Prop
  /-- The root is unknown, or the proof is wrong. -/
  | rejected (error : CMTError) (hvacant : ¬ LeadsToVacant roll ws currentRoot proofVec index) :
      Fill roll ws currentRoot leaf proofVec index (.err error, roll)
  /-- Somebody was faster. -/
  | appended (htaken : TakenSince roll ws currentRoot index) :
      Fill roll ws currentRoot leaf proofVec index (roll.append leaf)
  /-- The slot is written through the current proof. -/
  | written {proof : Vector Node D} (hvacant : LeadsToVacant roll ws currentRoot proofVec index)
      (hproof : ∀ l < D, levels proof l = sibling hashv (treeAfter ws) (position D index) l) :
      Fill roll ws currentRoot leaf proofVec index
        (roll.updateInternalCounters.updateBuffersFromProof leaf proof index)

theorem Inv.fill [CollisionFree Node] (h : Inv (fun _ => EMPTY) roll ws)
    (hD0 : 0 < D ∨ ws = []) (halias : roll.Unaliased currentRoot index) (leaf : Node)
    {proofVec : List Node} (hlen : proofVec.length ≤ D) :
    Fill roll ws currentRoot leaf proofVec index
      (roll.fillEmptyOrAppend currentRoot leaf proofVec index) := by
  have hbounds : checkBounds D B = true := checkBounds_iff.2 ⟨h.depth, h.pow⟩
  obtain ⟨proof, hfill⟩ : ∃ proof, fillInProof D proofVec = some proof := by
    cases hfill : fillInProof D proofVec with
    | none => exact absurd (fillInProof_eq_none.1 hfill) (by omega)
    | some proof => exact ⟨proof, rfl⟩
  rcases roll.youngest_or currentRoot with hnone | ⟨k, hyoung⟩
  · -- the root is not retained
    have hcheck := roll.checkValidLeaf_of_not_found h.pow h.size_le h.size_pos hnone EMPTY proof
      index false
    rw [MerkleRoll.fillEmptyOrAppend_of_check hbounds leaf hfill, hcheck]
    refine .rejected .RootNotFound ?_
    rintro ⟨-, k, hyoung, -⟩
    exact hnone k hyoung.lt hyoung.root_eq
  · have hD0' : 0 < D ∨ k = 0 := hD0.imp_right fun hnil => by
      have hk := hyoung.lt
      have hsize := h.size
      rw [hnil, List.length_nil] at hsize
      omega
    obtain ⟨hmodified, hchecked⟩ := h.checkValidLeaf_empty hyoung hD0' halias hfill
    by_cases htaken : TakenSince roll ws currentRoot index
    · rw [MerkleRoll.fillEmptyOrAppend_of_check hbounds leaf hfill, hmodified htaken]
      exact .appended htaken
    · obtain ⟨valid, proof', hcheck, hvalid⟩ := hchecked htaken
      rw [MerkleRoll.fillEmptyOrAppend_of_check hbounds leaf hfill, hcheck]
      cases valid with
      | false => exact .rejected .InvalidProof fun hvacant => absurd (hvalid.2 hvacant) (by simp)
      | true => exact .written (hvalid.1 rfl) (h.checkValidLeaf_sound hcheck).2

/-! ### Which calls fill or fail -/

/-- A tree that is not full now never was. -/
theorem Run.guarded [CollisionFree Node] (hrun : Reachable roll ws)
    (hpart : roll.rightmostProof.index.toNat < 2 ^ D) :
    Run (fun roll c => c.Guarded roll) roll ws := by
  induction hrun with
  | init h => exact .init h
  | ok hrun _ h ih =>
    have hindex := (hrun.inv.exec_ok h).rightmost_index
    have hbefore := fun hlt => Run.ok (ih hlt) (.inl hlt) h
    split_ifs at hindex
    · exact hbefore (by omega)
    · exact hbefore (by omega)
  | err _ h ih =>
    rw [Call.exec_err h] at hpart ⊢
    exact ih hpart

/-- On a tree that is not full a slot that was taken is before the first free position. -/
theorem TakenSince.index_lt [CollisionFree Node] (htaken : TakenSince roll ws currentRoot index)
    (hrun : Reachable roll ws) (hpart : roll.rightmostProof.index.toNat < 2 ^ D)
    (halias : roll.Unaliased currentRoot index) :
    index.toNat < roll.rightmostProof.index.toNat := by
  have h := hrun.inv
  have hsize := h.size
  obtain ⟨hleaf, k, hyoung, w, hw, hwi⟩ := htaken
  obtain ⟨m, hm, rfl⟩ := List.mem_take_iff_getElem.1 hw
  have hk := hyoung.lt
  obtain ⟨hbound, hstored⟩ := (Run.guarded hrun hpart).log_index m (by omega)
  have hindex : index = (roll.log m).index := by
    refine halias k hyoung m (by omega) ?_
    rw [(h.log_records (by omega) (by omega)).index_eq, hwi]
  rw [← hindex] at hbound
  rw [position_of_lt hbound] at hleaf
  by_contra hge
  exact hleaf (h.rightmost.empty _ (not_lt.1 hge) hbound)

/-- The call fills one empty leaf, the one at its index or, when this was taken, the first free
one; or it fails and changes nothing. -/
def FillsOrFails (roll : MerkleRoll Node D B) (ws : List (ℕ × Node)) (currentRoot leaf : Node)
    (proofVec : List Node) (index : UInt32) : Prop :=
  match roll.fillEmptyOrAppend currentRoot leaf proofVec index with
  | (.ok r, roll') =>
    index ≤ roll.rightmostProof.index ∧
      ∃ q < 2 ^ D, treeAfter ws q = EMPTY ∧
        (q = index.toNat ∨ q = roll.rightmostProof.index.toNat ∧
          TakenSince roll ws currentRoot index) ∧
        r = MerkleTree.root hashv D (Function.update (treeAfter ws) q leaf) ∧
        roll'.getChangeLog.root = r
  | (.err _, roll') => roll' = roll
  | (.panic, _) => False

omit [DecidableEq Node] in
theorem Written.fills {r leaf : Node} {target : UInt32} {roll' : MerkleRoll Node D B}
    (hwritten : Written (fun _ => EMPTY) roll ws target leaf r roll') :
    r = MerkleTree.root hashv D (Function.update (treeAfter ws) (position D target) leaf) ∧
      roll'.getChangeLog.root = r := by
  refine ⟨hwritten.result, ?_⟩
  rw [hwritten.records.root_eq, hwritten.result]

/-- A call fills or fails exactly when no change log since its root carries another index of its
leaf, and a proof that leads to a vacant leaf comes with an index of the tree that is not beyond the
first free position. -/
theorem fillsOrFails_iff [CollisionFree Node] (hrun : Reachable roll ws) (currentRoot leaf : Node)
    {proofVec : List Node} (hlen : proofVec.length ≤ D) (index : UInt32) :
    roll.getChangeLog.root = MerkleTree.root hashv D (treeAfter ws) ∧
      (FillsOrFails roll ws currentRoot leaf proofVec index ↔
        roll.Unaliased currentRoot index ∧
          (LeadsToVacant roll ws currentRoot proofVec index →
            0 < D ∧ index ≤ roll.rightmostProof.index ∧ index.toNat < 2 ^ D)) := by
  have h := hrun.inv
  have hD0 : 0 < D ∨ ws = [] := by
    rcases Nat.eq_zero_or_pos D with rfl | hD0
    · exact .inr hrun.depth_zero.1
    · exact .inl hD0
  refine ⟨h.current_root, fun hfills => ?_, ?_⟩
  · have halias : roll.Unaliased currentRoot index := by
      by_contra halias
      cases hfill : fillInProof D proofVec with
      | none => exact absurd (fillInProof_eq_none.1 hfill) (by omega)
      | some proof =>
        rw [FillsOrFails, h.fillEmptyOrAppend_alias halias leaf hfill] at hfills
        exact hfills
    refine ⟨halias, fun hvacant => ?_⟩
    have hfill := h.fill hD0 halias leaf hlen
    rw [FillsOrFails] at hfills
    rcases hres : roll.fillEmptyOrAppend currentRoot leaf proofVec index with ⟨r | e | _, roll'⟩
    · -- the slot is written, so the index is the one of the slot
      rw [hres] at hfills
      obtain ⟨hle, q, hq, -, hslot, -⟩ := hfills
      refine ⟨?_, hle, ?_⟩
      · rcases Nat.eq_zero_or_pos D with rfl | hpos
        · have hne := Call.exec_depth_zero hrun.depth_zero.2
            (.fillEmptyOrAppend currentRoot leaf proofVec index) r
          rw [Call.exec, hres] at hne
          exact absurd rfl hne
        · exact hpos
      · rcases hslot with rfl | ⟨-, htaken, -⟩
        · exact hq
        · exact absurd hvacant.1 htaken
    · -- a vacant slot is not met with an error
      rw [hres] at hfill
      generalize hout : (Outcome.err e, roll') = out at hfill
      cases hfill with
      | rejected _ hnot => exact absurd hvacant hnot
      | appended htaken => exact absurd hvacant.1 htaken.1
      | written =>
        exact absurd (congrArg Prod.fst hout).symm
          (MerkleRoll.updateBuffersFromProof_ne_err _ leaf _ index e)
    · rw [hres] at hfills
      exact hfills.elim
  · rintro ⟨halias, hcond⟩
    have hfill := h.fill hD0 halias leaf hlen
    rw [FillsOrFails]
    generalize roll.fillEmptyOrAppend currentRoot leaf proofVec index = res at hfill
    cases hfill with
    | rejected error hnot => rfl
    | appended htaken =>
      have hpos : 0 < D := hD0.resolve_right fun hnil => htaken.1 (by rw [hnil]; rfl)
      have hpanic := h.append_ne_panic hpos leaf
      rcases happend : roll.append leaf with ⟨r | e | _, roll'⟩
      · obtain ⟨hwritten, hn⟩ := h.append_ok happend
        obtain ⟨hr, hroot⟩ := hwritten.fills
        rw [position_of_lt hn] at hr
        have hlt := htaken.index_lt hrun hn halias
        exact ⟨UInt32.le_iff_toNat_le.2 hlt.le, _, hn, h.rightmost.empty _ le_rfl hn,
          .inr ⟨rfl, htaken⟩, hr, hroot⟩
      · exact MerkleRoll.append_err happend
      · rw [happend] at hpanic
        exact absurd rfl hpanic
    | written hvacant hproof =>
      obtain ⟨hpos, hle, hlt⟩ := hcond hvacant
      obtain ⟨r, roll', hok⟩ := MerkleRoll.updateBuffersFromProof_isOk h.depth
        (fun _ => ⟨hpos, hle⟩ : roll.rightmostProof.index.toNat < 2 ^ D →
          0 < D ∧ index ≤ roll.rightmostProof.index) leaf _
      obtain ⟨hr, hroot⟩ := (h.updateBuffersFromProof_ok hproof hok).fills
      rw [hok]
      rw [position_of_lt hlt] at hr
      have hempty := hvacant.1
      rw [position_of_lt hlt] at hempty
      exact ⟨hle, _, hlt, hempty, .inl rfl, hr, hroot⟩

end Outcome

/-- In a tree with two leaves: the vacant slot next to them, and a slot that was taken. -/
theorem fillsOrFails_iff_two :
    let st := appended 2
    let T := treeAfter st.2
    let T₁ := treeAfter (st.2.drop 1)
    FillsOrFails st.1 st.2 (MerkleTree.root hashv 3 T) (.leaf 9) (siblings 3 T 2) 2 ∧
      FillsOrFails st.1 st.2 (MerkleTree.root hashv 3 T₁) (.leaf 9) (siblings 3 T₁ 1) 1 := by
  intro st T T₁
  have hrun : Reachable st.1 st.2 := run_appended (fun _ _ => trivial) 2
  constructor
  · refine (fillsOrFails_iff hrun _ (.leaf 9) (show _ ≤ 3 by decide +kernel) 2).2.2 ⟨?_, fun _ => ?_⟩
    · -- nothing is replayed for the current root
      intro k hyoung m hm
      exact absurd (show (st.1.log 0).root = _ by decide +kernel) (hyoung.young 0 (by omega))
    · decide +kernel
  · have hyoung : st.1.Youngest (MerkleTree.root hashv 3 T₁) 1 :=
      ⟨by decide +kernel, by decide +kernel, by decide +kernel⟩
    refine (fillsOrFails_iff hrun _ (.leaf 9) (show _ ≤ 3 by decide +kernel) 1).2.2 ⟨?_, fun _ => ?_⟩
    · intro k hyoung' m hm
      obtain rfl := hyoung'.unique hyoung
      obtain rfl : m = 0 := by omega
      decide +kernel
    · decide +kernel

/-- A slot beyond the first free one has a valid proof too, and the assertion fails. -/
theorem fill_beyond_rightmost_panics :
    let st := appended 1
    let T := treeAfter st.2
    Reachable st.1 st.2 ∧ (siblings 3 T 5).length ≤ 3 ∧
      (st.1.fillEmptyOrAppend (MerkleTree.root hashv 3 T) (.leaf 2) (siblings 3 T 5) 5).1 = .panic ∧
      (st.1.setLeaf (MerkleTree.root hashv 3 T) EMPTY (.leaf 2) (siblings 3 T 5) 5).1 =
        .err .LeafIndexOutOfBounds := by
  intro st T
  exact ⟨run_appended (fun _ _ => trivial) 1, by decide +kernel, by decide +kernel,
    by decide +kernel⟩

end Candyland.ConcurrentMerkleTree
