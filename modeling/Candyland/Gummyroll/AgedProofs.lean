import Candyland.Gummyroll.Completion
import Candyland.Gummyroll.Events
import Candyland.ConcurrentMerkleTree.StaleProofs

/-!
# Proofs of an earlier tree

A client reads a proof, and by the time its instruction is executed the tree has moved on.
The program then completes the lower part of the old proof by the upper part of the current
one.  The mixture is checked like the old proof: replaying the change logs brings both to the
same siblings.
-/

namespace Candyland.Gummyroll

open ConcurrentMerkleTree

variable {Node Pubkey : Type} [NodeHash Node] [DecidableEq Node] {D B c : ℕ} [hB : BufferSize B]

/-! ### Runs in the tree -/

omit [DecidableEq Node] hB in
/-- Among writes to other leaves no change log carries another index of the leaf. -/
theorem noAlias_of_spared {base : ℕ → Node} {roll : MerkleRoll Node D B} {ws : List (ℕ × Node)}
    (h : RingInv base roll ws) {k : ℕ} (hk : k < roll.bufferSize) {i : UInt32}
    (hspared : ∀ w ∈ ws.take k, w.1 ≠ position D i) :
    roll.NoAlias (MerkleTree.root hashv D (MerkleTree.after base (ws.drop k))) i := by
  intro m hm hother hpos
  have hsize := h.size
  rcases lt_or_ge m k with hlt | hge
  · have hmw : m < ws.length := by omega
    have hrec := (h.log_records hmw (by omega)).index_eq
    exact absurd (hpos.trans hrec).symm
      (hspared ws[m] (List.mem_take_iff_getElem.2 ⟨m, by omega, rfl⟩))
  · exact absurd (h.log_root hk) (hother k hge)

/-- A call that writes to a position of the tree has an index of the tree, or appends. -/
theorem guarded_of_target_lt {roll : MerkleRoll Node D B} {call : Call Node}
    (h : (call.target roll).toNat < 2 ^ D) : call.Guarded roll := by
  cases call with
  | append node => exact .inr trivial
  | setLeaf currentRoot previousLeaf newLeaf proofVec index => exact .inr h
  | fillEmptyOrAppend currentRoot leaf proofVec index =>
    rw [Call.target] at h
    split_ifs at h with hconflict
    · exact .inl h
    · exact .inr h

variable [DecidableEq Pubkey] [Build]

/-- The roll of an account whose instructions stay in the tree makes guarded calls. -/
theorem AccountRun.guarded [CollisionFree Node] [NonzeroHash Node]
    {P : Account Node Pubkey D B → Instruction Node Pubkey → Prop}
    (hP : ∀ account ins, P account ins → ins.InTree account) {account : Account Node Pubkey D B}
    {ws : List (ℕ × Node)} {events : List (ChangeLogEvent Node Pubkey)}
    (hrun : AccountRun P c account ws events) :
    Run (fun roll call => call.Guarded roll) account.roll ws := by
  induction hrun with
  | init hfresh h =>
    obtain ⟨r, hinit⟩ := (initEmptyGummyroll_ok hfresh h).roll_ok
    exact .init hinit
  | @write account account' ws events ins event hrun hins hexec ih =>
    have hinv := hrun.inv
    have hlt := hinv.index_lt hexec (hP account ins hins)
    obtain ⟨call, canopy, hwrote⟩ := Instruction.exec_some hexec
    obtain ⟨r, hok⟩ := hwrote.exec_ok
    have hindex := (hinv.written hwrote).1
    rw [hindex] at hlt ⊢
    rw [← hwrote.calls.leaf_eq]
    exact .ok ih (guarded_of_target_lt hlt) hok
  | read _ h ih =>
    rw [(Instruction.exec_none h).roll_eq]
    exact ih

/-! ### The completed proof -/

namespace AccountInv

variable {account : Account Node Pubkey D B} {ws : List (ℕ × Node)} {k : ℕ} {i : UInt32}

omit [DecidableEq Pubkey] [Build] in
/-- The lower siblings of `k` writes ago and the upper ones of today are checked like the
whole proof of `k` writes ago. -/
theorem sameCheck_mixed [CollisionFree Node] (h : AccountInv c account ws)
    (hi : i.toNat < 2 ^ D) (hk : k < account.roll.bufferSize)
    (halias : account.roll.NoAlias (MerkleTree.root hashv D (treeAfter (ws.drop k))) i) :
    account.roll.SameCheck (MerkleTree.root hashv D (treeAfter (ws.drop k))) i
      ((siblings D (treeAfter (ws.drop k)) i.toNat).take (D - c) ++
        (List.range' (D - c) c).map (MerkleTree.sibling hashv (treeAfter ws) i.toNat))
      (siblings D (treeAfter (ws.drop k)) i.toNat) := by
  have hc := h.cached
  have hthree := h.three_le
  have hlen : (siblings D (treeAfter (ws.drop k)) i.toNat).length = D := by simp [siblings]
  refine h.roll.sameCheck (by omega) hi ⟨k, hk, h.roll.log_root hk⟩ halias ?_ fun l hl => ?_
  · rw [List.length_append, List.length_take, List.length_map, List.length_range', hlen]
    omega
  · rw [List.getElem_append]
    split_ifs with hlt
    · left
      rw [List.getElem_take]
      simp [siblings]
    · right
      rw [List.length_take, hlen] at hlt
      rw [List.getElem_map, List.getElem_range', List.length_take, hlen]
      congr 1
      omega

/-- The instructions call the roll with the proof of `k` writes ago. -/
theorem checks_mixed [CollisionFree Node] [NonzeroHash Node]
    (h : AccountInv c account ws) (hi : i.toNat < 2 ^ D) (hk : k < account.roll.bufferSize)
    (halias : account.roll.NoAlias (MerkleTree.root hashv D (treeAfter (ws.drop k))) i) :
    let root := MerkleTree.root hashv D (treeAfter (ws.drop k))
    let proof := siblings D (treeAfter (ws.drop k)) i.toNat
    ∃ canopy, CanopyInv D c (treeAfter ws) canopy.nodes ∧ canopy.trailing = 0 ∧
      (∀ leaf, account.verifyLeaf root leaf i (proof.take (D - c)) =
        (merkleRollApplyFn account.header account.key account.roll fun roll =>
          roll.proveLeaf root leaf proof i) >>= fun res =>
          .ok { account with roll := res.2, canopy := canopy }) ∧
      ∀ leaf newLeaf, account.replaceLeaf account.header.authority root leaf newLeaf i
          (proof.take (D - c)) =
        (merkleRollApplyFn account.header account.key account.roll fun roll =>
          roll.setLeaf root leaf newLeaf proof i) >>= fun res =>
          updateCanopy canopy account.header.maxDepth (some res.1) >>= fun canopy =>
          .ok (res.1, { account with roll := res.2, canopy := canopy }) := by
  intro root proof
  have hsame := h.sameCheck_mixed hi hk halias
  obtain ⟨canopy, hcanopy, htrailing, hfill⟩ := fillInProofFromCanopy_eq h.canopy h.trailing
    h.cached h.depth_lt h.depth_eq hi (proof.take (D - c))
  refine ⟨canopy, hcanopy, htrailing, fun leaf => ?_, fun leaf newLeaf => ?_⟩
  · simp only [Account.verifyLeaf, merkleRollGetSize, if_pos h.supported, hfill, Outcome.ok_bind,
      merkleRollApplyFn, hsame.proveLeaf_eq, root, proof]
  · simp only [Account.replaceLeaf, Outcome.assert, if_true, merkleRollGetSize,
      if_pos h.supported, hfill, Outcome.ok_bind, merkleRollApplyFn, hsame.setLeaf_eq, root, proof]

/-- An unchanged leaf is replaced with a proof of `k` writes ago. -/
theorem replaceLeaf_mixed [CollisionFree Node] [NonzeroHash Node] (h : AccountInv c account ws)
    (hi : i.toNat < 2 ^ D) (hk : k < account.roll.bufferSize)
    (hle : i ≤ account.roll.rightmostProof.index)
    (halias : account.roll.NoAlias (MerkleTree.root hashv D (treeAfter (ws.drop k))) i)
    (heq : treeAfter ws i.toNat = treeAfter (ws.drop k) i.toNat) (newLeaf : Node) :
    ∃ roll' canopy' r, Written (fun _ => EMPTY) account.roll ws i newLeaf r roll' ∧
      account.replaceLeaf account.header.authority
        (MerkleTree.root hashv D (treeAfter (ws.drop k))) (treeAfter (ws.drop k) i.toNat) newLeaf i
        ((siblings D (treeAfter (ws.drop k)) i.toNat).take (D - c)) =
          .ok (ChangeLogEvent.ofChangeLog roll'.getChangeLog account.key roll'.sequenceNumber,
            { account with roll := roll', canopy := canopy' }) := by
  have hthree := h.three_le
  obtain ⟨canopy, hcanopy, htrailing, -, hreplace⟩ := h.checks_mixed hi hk halias
  obtain ⟨-, hset⟩ := (h.roll.fastForwards (by omega) hk hi hle halias).1 heq
  obtain ⟨r, roll', hset⟩ := hset newLeaf
  have hwritten := (h.roll.setLeaf_ok hset).2.1
  have hlog : roll'.getChangeLog.index.toNat < 2 ^ D := by
    rw [hwritten.log_index]
    exact hi
  obtain ⟨canopy', -, -, hupdate⟩ := updateCanopy_eq hcanopy htrailing h.cached h.depth_lt
    h.depth_eq hwritten.records hlog account.key roll'.sequenceNumber
  refine ⟨roll', canopy', r, hwritten, ?_⟩
  rw [hreplace, merkleRollApplyFn, if_pos h.supported, hset]
  simp only [Outcome.ok_bind, hupdate]

end AccountInv

/-- What becomes of instructions with a proof of `k` writes ago for leaf `i`, of which the part
below the canopy was sent: they succeed if the leaf is what it was, and fail otherwise. -/
structure Ages (account : Account Node Pubkey D B) (ws : List (ℕ × Node)) (c k : ℕ) (i : UInt32)
    (root : Node) (proof : List Node) : Prop where
  /-- `verify_leaf` accepts an unchanged leaf. -/
  verified : treeAfter ws i.toNat = treeAfter (ws.drop k) i.toNat →
    ∃ account', account.verifyLeaf root (treeAfter (ws.drop k) i.toNat) i (proof.take (D - c)) =
      .ok account'
  /-- `replace_leaf` replaces an unchanged leaf. -/
  replaced : treeAfter ws i.toNat = treeAfter (ws.drop k) i.toNat → ∀ newLeaf : Node, ∃ account',
    account.replaceLeaf account.header.authority root (treeAfter (ws.drop k) i.toNat) newLeaf i
      (proof.take (D - c)) = .ok (eventAfter D account.key ((i.toNat, newLeaf) :: ws), account')
  /-- Both reject a leaf that was changed since. -/
  rejected : treeAfter ws i.toNat ≠ treeAfter (ws.drop k) i.toNat →
    account.verifyLeaf root (treeAfter (ws.drop k) i.toNat) i (proof.take (D - c)) =
        .err .ConcurrentMerkleTreeError ∧
      ∀ newLeaf : Node, account.replaceLeaf account.header.authority root
        (treeAfter (ws.drop k) i.toNat) newLeaf i (proof.take (D - c)) =
          .err .ConcurrentMerkleTreeError

/-- A proof that is younger than the buffer is good for an unchanged leaf. -/
theorem AccountInv.ages [CollisionFree Node] [NonzeroHash Node]
    {account : Account Node Pubkey D B} {ws : List (ℕ × Node)} {k : ℕ} {i : UInt32}
    (h : AccountInv c account ws) (hseq : account.roll.sequenceNumber = ws.length)
    (hlen : ws.length < 2 ^ 63) (hk : k < account.roll.bufferSize) (hi : i.toNat < 2 ^ D)
    (hle : i ≤ account.roll.rightmostProof.index)
    (halias : account.roll.NoAlias (MerkleTree.root hashv D (treeAfter (ws.drop k))) i) :
    Ages account ws c k i (MerkleTree.root hashv D (treeAfter (ws.drop k)))
      (siblings D (treeAfter (ws.drop k)) i.toNat) := by
  have hthree := h.three_le
  have hbelow : ws.length + 1 ≤ 2 ^ 64 - 1 := by omega
  obtain ⟨canopy, -, -, hverify, hreplace⟩ := h.checks_mixed hi hk halias
  obtain ⟨hvalid, hmodified⟩ := h.roll.fastForwards (by omega) hk hi hle halias
  refine ⟨fun heq => ?_, fun heq newLeaf => ?_, fun hne => ⟨?_, fun newLeaf => ?_⟩⟩
  · rw [hverify, merkleRollApplyFn, if_pos h.supported, (hvalid heq).1]
    exact ⟨_, rfl⟩
  · obtain ⟨roll', canopy', r, hwritten, hok⟩ := h.replaceLeaf_mixed hi hk hle halias heq newLeaf
    have hlog : roll'.getChangeLog.index.toNat < 2 ^ D := by
      rw [hwritten.log_index]
      exact hi
    have hnumber : roll'.sequenceNumber = ws.length + 1 := by
      rw [hwritten.sequence, hseq, min_eq_left hbelow]
    have hevent : ChangeLogEvent.ofChangeLog roll'.getChangeLog account.key roll'.sequenceNumber =
        eventAfter D account.key ((i.toNat, newLeaf) :: ws) := by
      rw [hnumber, ← position_of_lt hi]
      exact ofChangeLog_eq h.depth_lt ((position D i, newLeaf) :: ws) hwritten.records hlog
        account.key
    rw [hok, hevent]
    exact ⟨_, rfl⟩
  · rw [hverify, merkleRollApplyFn, if_pos h.supported, (hmodified hne).1]
    rfl
  · rw [hreplace, merkleRollApplyFn, if_pos h.supported, (hmodified hne).2 newLeaf]
    rfl

end Candyland.Gummyroll
