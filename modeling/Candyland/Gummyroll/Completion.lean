import Candyland.Gummyroll.Symbolic

/-!
# The canopy completes proofs

What the canopy is for: with the siblings below it, which are all that a client has to
send, the program has the current proof of every leaf.
-/

namespace Candyland.Gummyroll

open ConcurrentMerkleTree
open MerkleTree (numbered Under)

section Run

variable {Node Pubkey : Type} [NodeHash Node] [DecidableEq Node] [DecidableEq Pubkey] [Build]
  {D B c : ℕ} [hB : BufferSize B]

omit [DecidableEq Node] [Build] in
/-- A proof is its lower part and the siblings in the canopy. -/
theorem siblings_take_append (hc : c ≤ D) (T : ℕ → Node) (i : ℕ) :
    (siblings D T i).take (D - c) ++ (List.range' (D - c) c).map (MerkleTree.sibling hashv T i) =
      siblings D T i := by
  have hsplit : List.range D = List.range (D - c) ++ List.range' (D - c) c := by
    rw [List.range_eq_range', List.range_eq_range']
    conv_lhs => rw [← Nat.sub_add_cancel hc]
    rw [← List.range'_append_1, Nat.zero_add]
  rw [siblings, ← List.map_take, hsplit, List.take_left' (List.length_range), List.map_append]

/-- Along every run the canopy completes the lower part of the current proof of every leaf,
and its slots are current or belong to empty subtrees. -/
theorem canopy_completes [CollisionFree Node] [NonzeroHash Node] {account : Account Node Pubkey D B}
    {ws : List (ℕ × Node)} {events : List (ChangeLogEvent Node Pubkey)}
    (hrun : AccountReachable c account ws events) :
    let T := treeAfter ws
    account.roll.getChangeLog.root = MerkleTree.root hashv D T ∧
      (∀ index : UInt32, index.toNat < 2 ^ D → ∃ canopy,
        fillInProofFromCanopy account.canopy account.header.maxDepth index
          ((siblings D T index.toNat).take (D - c)) = .ok (canopy, siblings D T index.toNat)) ∧
      ∀ n, 2 ≤ n → ∀ hn : n - 2 < account.canopy.nodes.length,
        (account.canopy.nodes[n - 2] ≠ EMPTY →
          account.canopy.nodes[n - 2] = numbered hashv D T n) ∧
        (account.canopy.nodes[n - 2] = EMPTY → ∀ q, Under D n q → T q = EMPTY) := by
  intro T
  have hinv := hrun.inv
  refine ⟨hinv.roll.current_root, fun index hindex => ?_, fun n hn hlt => ⟨fun hne => ?_, ?_⟩⟩
  · obtain ⟨canopy, -, -, hfill⟩ := fillInProofFromCanopy_eq hinv.canopy hinv.trailing hinv.cached
      hinv.depth_lt hinv.depth_eq hindex ((siblings D T index.toNat).take (D - c))
    exact ⟨canopy, by rw [hfill, siblings_take_append hinv.cached]⟩
  · exact (hinv.canopy.slot n hn hlt).resolve_right fun hempty => hne hempty.1
  · exact hinv.canopy.eq_empty_of_slot hn hlt

end Run

/-- Two appends and an overwritten leaf in a canopy of two levels: a proof for leaf `6`, of
which the canopy has not seen any node, needs one sibling. -/
theorem canopy_completes_two :
    let st := accountTrace 2 [.append 0 0 (.leaf 1), .append 0 0 (.leaf 2),
      .replaceLeaf 0 (accountTrace 2 [.append 0 0 (.leaf 1)]).account.roll.getChangeLog.root
        (.leaf 1) (.leaf 3) 0 [EMPTY]]
    let T := treeAfter st.writes
    st.writes = [(0, .leaf 3), (1, .leaf 2), (0, .leaf 1)] ∧
      ∃ canopy, fillInProofFromCanopy st.account.canopy st.account.header.maxDepth 6
        ((siblings 3 T 6).take (3 - 2)) = .ok (canopy, siblings 3 T 6) := by
  intro st T
  have hrun : AccountReachable 2 st.account st.writes st.events :=
    accountRun_trace (show 2 ≤ 3 by norm_num) fun _ _ _ => trivial
  exact ⟨by decide +kernel, (canopy_completes hrun).2.1 6 (by decide)⟩

end Candyland.Gummyroll
