import Candyland.ConcurrentMerkleTree.StaleProofs

/-!
# Concurrent replaces

Clients that read the same tree send `set_leaf` requests for different leaves, each with
the root and the path of that tree.  Up to one buffer of them go through in any order,
and the order does not matter: the last one still finds its root in the oldest slot.
-/

namespace Candyland.ConcurrentMerkleTree

open MerkleTree (after)

variable {Node : Type} [NodeHash Node] [DecidableEq Node] {D B : ℕ} [hB : BufferSize B]

/-- Executes requests that were made against the tree `T`, each an index and a new leaf;
`none` as soon as one does not return `Ok`. -/
def execReplaces (T : ℕ → Node) : MerkleRoll Node D B → List (UInt32 × Node) →
    Option (MerkleRoll Node D B)
  | roll, [] => some roll
  | roll, (i, w) :: requests =>
    match roll.setLeaf (MerkleTree.root hashv D T) (T i.toNat) w (siblings D T i.toNat) i with
    | (.ok _, roll') => execReplaces T roll' requests
    | _ => none

/-- The writes of the requests, newest first. -/
def writesOf (requests : List (UInt32 × Node)) : List (ℕ × Node) :=
  (requests.map fun q => (q.1.toNat, q.2)).reverse

omit [NodeHash Node] [DecidableEq Node] in
theorem writesOf_cons (q : UInt32 × Node) (requests : List (UInt32 × Node)) :
    writesOf (q :: requests) = writesOf requests ++ [(q.1.toNat, q.2)] := by
  simp [writesOf]

omit [NodeHash Node] [DecidableEq Node] in
theorem nodup_writesOf {requests : List (UInt32 × Node)} (h : (requests.map Prod.fst).Nodup) :
    ((writesOf requests).map Prod.fst).Nodup := by
  have hmap : (requests.map fun q => (q.1.toNat, q.2)).map Prod.fst =
      (requests.map Prod.fst).map UInt32.toNat := by
    simp
  rw [writesOf, List.map_reverse, List.nodup_reverse, hmap]
  exact h.map fun _ _ => UInt32.toNat_inj.1

/-- One more request after the writes `done`, all to other leaves: it succeeds, writes
its leaf and keeps the first free position. -/
theorem setLeaf_after_replaces [CollisionFree Node] {roll : MerkleRoll Node D B}
    {ws written : List (ℕ × Node)} (hrun : Reachable roll (written ++ ws))
    (hlen : written.length < B) {i : UInt32} (hi : i < roll.rightmostProof.index)
    (hother : ∀ d ∈ written, d.1 ≠ i.toNat) (w : Node) :
    ∃ r roll', roll.setLeaf (MerkleTree.root hashv D (treeAfter ws)) (treeAfter ws i.toNat) w
        (siblings D (treeAfter ws) i.toNat) i = (.ok r, roll') ∧
      Reachable roll' ((i.toNat, w) :: (written ++ ws)) ∧
      roll'.rightmostProof.index = roll.rightmostProof.index := by
  have h := hrun.inv
  have hsize := h.size
  rw [List.length_append] at hsize
  have hlt := UInt32.lt_iff_toNat_lt.1 hi
  have hle := h.rightmost.le
  have hpos := position_of_lt (show i.toNat < 2 ^ D by omega)
  have hD0 : 0 < D := by
    rcases Nat.eq_zero_or_pos D with rfl | hD0
    · rw [hrun.depth_zero.2] at hlt
      exact absurd hlt (Nat.not_lt_zero _)
    · exact hD0
  have hk : written.length < roll.bufferSize := by omega
  have hdrop : (written ++ ws).drop written.length = ws := List.drop_left
  have htake : (written ++ ws).take written.length = written := List.take_left
  have hroot : (roll.log written.length).root = MerkleTree.root hashv D (treeAfter ws) := by
    rw [h.log_root hk, hdrop]
  -- the change logs since then are those of the other requests
  have hnoalias : roll.NoAlias (MerkleTree.root hashv D (treeAfter ws)) i := by
    intro m hm hyoung hmpos
    have hmlt : m < written.length := by
      by_contra hge
      exact hyoung _ (not_lt.1 hge) hroot
    have hmlen : m < (written ++ ws).length := by
      rw [List.length_append]
      omega
    rw [(h.log_records hmlen (by omega)).index_eq, List.getElem_append_left hmlt, hpos] at hmpos
    exact absurd hmpos.symm (hother _ (List.getElem_mem hmlt))
  obtain ⟨proof, hfill, hproof⟩ := fillInProof_siblings D (treeAfter ws) i.toNat
  rw [← hpos] at hproof
  obtain ⟨-, hvalid⟩ := h.checkValidLeaf_stale ⟨_, hk, hroot⟩ (.inl hD0) hnoalias hproof true
  have hunchanged : treeAfter (written ++ ws) (position D i) = treeAfter ws (position D i) := by
    conv_rhs => rw [← hdrop]
    refine MerkleTree.after_drop fun d hd => ?_
    rw [htake] at hd
    rw [hpos]
    exact hother d hd
  obtain ⟨proof', hcheck, -⟩ := hvalid hunchanged
  have hidx : i ≤ roll.rightmostProof.index := UInt32.le_iff_toNat_le.2 hlt.le
  obtain ⟨r, roll', hok⟩ := MerkleRoll.tryApplyProof_isOk h.depth (fun _ => ⟨hD0, hidx⟩) hcheck w
  rw [← roll.setLeaf_eq (checkBounds_iff.2 ⟨h.depth, h.pow⟩) _ _ w hfill hidx, hpos] at hok
  refine ⟨r, roll', hok, ?_, ?_⟩
  · have hrun' := Run.ok hrun trivial (c := .setLeaf _ _ w _ i) hok
    rw [Call.target, hpos] at hrun'
    exact hrun'
  · have hwritten := (h.setLeaf_ok hok).2.1.rightmost_index
    rw [if_neg (by omega)] at hwritten
    exact UInt32.toNat_inj.1 hwritten

/-- The requests that are left succeed in their order, whatever was done before. -/
theorem execReplaces_succeeds [CollisionFree Node] {ws : List (ℕ × Node)}
    {requests : List (UInt32 × Node)} {roll : MerkleRoll Node D B} {written : List (ℕ × Node)}
    (hrun : Reachable roll (written ++ ws)) (hlen : written.length + requests.length ≤ B)
    (hnodup : (requests.map Prod.fst).Nodup)
    (hlt : ∀ q ∈ requests, q.1 < roll.rightmostProof.index)
    (hother : ∀ q ∈ requests, ∀ d ∈ written, d.1 ≠ q.1.toNat) :
    ∃ roll', execReplaces (treeAfter ws) roll requests = some roll' ∧
      Reachable roll' (writesOf requests ++ (written ++ ws)) := by
  induction requests generalizing roll written with
  | nil => exact ⟨roll, rfl, hrun⟩
  | cons q requests ih =>
    obtain ⟨i, w⟩ := q
    rw [List.map_cons, List.nodup_cons] at hnodup
    rw [List.length_cons] at hlen
    obtain ⟨r, roll', hok, hrun', hindex⟩ := setLeaf_after_replaces hrun (by omega)
      (hlt _ List.mem_cons_self) (hother _ List.mem_cons_self) w
    rw [← List.cons_append] at hrun'
    obtain ⟨roll'', hexec, hrun''⟩ := ih hrun' (by rw [List.length_cons]; omega) hnodup.2
      (fun q hq => by rw [hindex]; exact hlt q (List.mem_cons_of_mem _ hq)) (by
        intro q hq d hd heq
        rcases List.mem_cons.1 hd with rfl | hd
        · exact hnodup.1 (List.mem_map.2 ⟨q, hq, (UInt32.toNat_inj.1 heq).symm⟩)
        · exact hother q (List.mem_cons_of_mem _ hq) d hd heq)
    refine ⟨roll'', ?_, ?_⟩
    · rw [execReplaces, hok]
      exact hexec
    · rw [writesOf_cons, List.append_assoc, List.singleton_append, ← List.cons_append]
      exact hrun''

/-- Up to one buffer of requests on different leaves, made against one tree, all succeed
in every order and leave the same tree behind. -/
theorem execReplaces_perm [CollisionFree Node] {roll : MerkleRoll Node D B}
    {ws : List (ℕ × Node)} (hrun : Reachable roll ws) {requests order : List (UInt32 × Node)}
    (hlen : requests.length ≤ B) (hnodup : (requests.map Prod.fst).Nodup)
    (hlt : ∀ q ∈ requests, q.1 < roll.rightmostProof.index) (hperm : order.Perm requests) :
    ∃ roll', execReplaces (treeAfter ws) roll order = some roll' ∧
      Reachable roll' (writesOf order ++ ws) ∧
      treeAfter (writesOf order ++ ws) = treeAfter (writesOf requests ++ ws) ∧
      roll'.getChangeLog.root = MerkleTree.root hashv D (treeAfter (writesOf requests ++ ws)) := by
  have hnodup' : (order.map Prod.fst).Nodup := (hperm.map Prod.fst).nodup_iff.2 hnodup
  have hrun₀ : Reachable roll ([] ++ ws) := hrun
  obtain ⟨roll', hexec, hrun'⟩ := execReplaces_succeeds hrun₀
    (by simpa [hperm.length_eq] using hlen) hnodup' (fun q hq => hlt q (hperm.mem_iff.1 hq)) (by simp)
  have hwrites : (writesOf order).Perm (writesOf requests) :=
    (List.reverse_perm _).trans ((hperm.map _).trans (List.reverse_perm _).symm)
  have htree : treeAfter (writesOf order ++ ws) = treeAfter (writesOf requests ++ ws) := by
    rw [treeAfter, treeAfter, MerkleTree.after_append, MerkleTree.after_append,
      MerkleTree.after_perm hwrites (nodup_writesOf hnodup')]
  refine ⟨roll', hexec, hrun', htree, ?_⟩
  rw [← htree]
  exact hrun'.inv.current_root

/-- Three requests on a tree of four leaves, executed backwards. -/
theorem execReplaces_perm_reverse :
    let st := appended 4
    let requests : List (UInt32 × Term) := [(0, .leaf 10), (1, .leaf 11), (3, .leaf 13)]
    ∃ roll', execReplaces (treeAfter st.2) st.1 requests.reverse = some roll' ∧
      roll'.getChangeLog.root =
        MerkleTree.root hashv 3 (treeAfter (writesOf requests ++ st.2)) := by
  intro st requests
  have hrun : Reachable st.1 st.2 := run_appended (fun _ _ => trivial) 4
  obtain ⟨roll', hexec, -, -, hroot⟩ := execReplaces_perm hrun (by decide) (by decide)
    (by decide +kernel) requests.reverse_perm
  exact ⟨roll', hexec, hroot⟩

end Candyland.ConcurrentMerkleTree
