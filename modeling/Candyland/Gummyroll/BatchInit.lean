import Candyland.Gummyroll.Completion

/-!
# Initialisation with a root

`initialize_with_root` writes the root into the first change log and leaves its path and
its index as they are, that is zero.  The event and the canopy are made from this change
log: they say that the leaf `0` was written and that all nodes above it are zero.
-/

namespace Candyland.Gummyroll

open ConcurrentMerkleTree
open MerkleTree (after numbered)

section Batch

variable {Node Pubkey : Type} [NodeHash Node] [DecidableEq Node] [DecidableEq Pubkey] [Build]
  {D B c : ℕ} [hB : BufferSize B]

/-- The accounts that successful instructions make of an account, with their writes. -/
inductive Later (account : Account Node Pubkey D B) :
    Account Node Pubkey D B → List (ℕ × Node) → Prop
  /-- The account itself. -/
  | refl : Later account account []
  /-- An instruction that writes a leaf. -/
  | write {account₁ account₂ : Account Node Pubkey D B} {ws : List (ℕ × Node)}
      {ins : Instruction Node Pubkey} {event : ChangeLogEvent Node Pubkey}
      (hlater : Later account account₁ ws) (h : ins.exec account₁ = .ok (some event, account₂)) :
      Later account account₂ ((position D event.index, ins.leaf) :: ws)
  /-- An instruction that writes none. -/
  | read {account₁ account₂ : Account Node Pubkey D B} {ws : List (ℕ × Node)}
      {ins : Instruction Node Pubkey} (hlater : Later account account₁ ws)
      (h : ins.exec account₁ = .ok (none, account₂)) : Later account account₂ ws

/-- What indexers and clients need of a batch with leaves `T` and this root whose last leaf
is at `index`: the event shows nodes of the tree and the index, and from then on the canopy
completes the proofs of all leaves. -/
structure BatchConsistent (c : ℕ) (T : ℕ → Node) (root : Node) (index : UInt32)
    (event : ChangeLogEvent Node Pubkey) (account : Account Node Pubkey D B) : Prop where
  root_eq : MerkleTree.root hashv D T = root
  path_eq : ∀ p ∈ event.path, p.node = numbered hashv D T p.index.toNat
  index_eq : event.index = index
  completes : ∀ account' ws, Later account account' ws → ∀ i : UInt32, i.toNat < 2 ^ D →
    ∃ canopy, fillInProofFromCanopy account'.canopy account'.header.maxDepth i
      ((siblings D (after T ws) i.toNat).take (D - c)) =
        .ok (canopy, siblings D (after T ws) i.toNat)

/-! ### What the initialisation leaves behind -/

omit [NodeHash Node] [DecidableEq Node] in
theorem writeNodes_empty [NodeHash Node] {nodes nodes' : List Node} {path : List (PathNode Node)}
    (h : CanopyInv D c (fun _ => EMPTY) nodes) (hpath : ∀ p ∈ path, p.node = EMPTY)
    (hok : writeNodes nodes path = .ok nodes') : CanopyInv D c (fun _ => EMPTY) nodes' := by
  induction path generalizing nodes with
  | nil =>
    rw [← Outcome.ok.inj hok]
    exact h
  | cons p path ih =>
    obtain ⟨slot, -, hok⟩ := Outcome.bind_eq_ok.1 hok
    split_ifs at hok
    rw [hpath p List.mem_cons_self] at hok
    exact ih (h.set_empty slot.toNat) (fun q hq => hpath q (List.mem_cons_of_mem p hq)) hok

/-- The first change log of a roll that was initialised with a root. -/
def batchChangeLog (root : Node) : ChangeLog Node D := ⟨root, Vector.replicate D EMPTY, 0⟩

omit [Build] in
theorem initializeWithRoot_ok {root leaf r : Node} {proof : List Node} {index : UInt32}
    {roll : MerkleRoll Node D B}
    (h : (MerkleRoll.new : MerkleRoll Node D B).initializeWithRoot root leaf proof index =
      (.ok r, roll)) :
    checkBounds D B = true ∧ roll.getChangeLog = batchChangeLog root := by
  rw [MerkleRoll.initializeWithRoot] at h
  dsimp only at h
  split_ifs at h with hcheck hlen hroot
  · refine ⟨hcheck, ?_⟩
    rw [← (Prod.mk.inj h).2]
    simp [MerkleRoll.getChangeLog, batchChangeLog, MerkleRoll.new, ChangeLog.default, Vector.get]
  · exact absurd (Prod.mk.inj h).1 (by simp)
  · exact absurd (Prod.mk.inj h).1 (by simp)
  · exact absurd (Prod.mk.inj h).1 (by simp)

/-- The event shows the change log, and the canopy is that of an empty tree. -/
structure OpenedWithRoot (c : ℕ) (root : Node) (event : ChangeLogEvent Node Pubkey)
    (account : Account Node Pubkey D B) : Prop where
  event_eq : ∃ seq, event = ChangeLogEvent.ofChangeLog (batchChangeLog root : ChangeLog Node D)
    account.key seq
  canopy : CanopyInv D c (fun _ => EMPTY) account.canopy.nodes
  trailing : account.canopy.trailing = 0
  cached : c ≤ D
  depth_lt : D < 31
  depth_eq : account.header.maxDepth.toNat = D
  three_le : 3 ≤ D

theorem initGummyrollWithRoot_ok [NonzeroHash Node] {account₀ account : Account Node Pubkey D B}
    {authority appendAuthority : Pubkey} {slot : ℕ} {root leaf : Node} {index : UInt32}
    {proof : List Node} {event : ChangeLogEvent Node Pubkey} (hfresh : account₀.Fresh c)
    (h : account₀.initGummyrollWithRoot authority appendAuthority slot root leaf index proof =
      .ok (event, account)) : OpenedWithRoot c root event account := by
  rw [Account.initGummyrollWithRoot, MerkleRollHeader.initialize, if_pos hfresh.header] at h
  obtain ⟨⟨⟩, hsupported, h⟩ := Outcome.bind_eq_ok.1 h
  obtain ⟨⟨canopy, proof'⟩, hfill, h⟩ := Outcome.bind_eq_ok.1 h
  obtain ⟨⟨⟩, -, h⟩ := Outcome.bind_eq_ok.1 h
  obtain ⟨⟨event₁, roll⟩, happly, h⟩ := Outcome.bind_eq_ok.1 h
  obtain ⟨canopy', hupdate, h⟩ := Outcome.bind_eq_ok.1 h
  obtain ⟨rfl, rfl⟩ := Prod.mk.inj (Outcome.ok.inj h)
  obtain ⟨⟨r, hinit⟩, hevent⟩ := merkleRollApplyFn_eq_ok happly
  rw [hfresh.roll] at hinit
  obtain ⟨hcheck, hlog⟩ := initializeWithRoot_ok hinit
  rw [hlog] at hevent
  have hD : D < 31 := (checkBounds_iff.1 hcheck).1
  have hdepth : (UInt32.ofNat D).toNat = D :=
    UInt32.toNat_ofNat'.trans (Nat.mod_eq_of_lt (by omega))
  rw [merkleRollGetSize] at hsupported
  split_ifs at hsupported with hmem
  have hthree := three_le_of_supported hmem
  rw [hdepth] at hthree
  -- the proof is read from a canopy of zero bytes, and zero bytes are written to it
  obtain ⟨hcanopy, htrailing⟩ := fillInProofFromCanopy_inv
    (CanopyInv.of_eq_empty hfresh.length hfresh.zero) hfresh.cached hD hdepth hfill
  refine ⟨⟨_, hevent⟩, ?_, (length_of_updateCanopy hupdate).2.2, hfresh.cached, hD, hdepth, hthree⟩
  obtain ⟨⟨⟩, -, hupdate⟩ := Outcome.bind_eq_ok.1 hupdate
  obtain ⟨pathLen, hpathLen, hupdate⟩ := Outcome.bind_eq_ok.1 hupdate
  obtain ⟨nodes', hwrite, hupdate⟩ := Outcome.bind_eq_ok.1 hupdate
  rw [← Outcome.ok.inj hupdate]
  refine writeNodes_empty hcanopy (fun p hp => ?_) hwrite
  rw [hevent] at hp
  obtain ⟨l, hl, -, rfl⟩ := mem_cached_path.1 hp
  simp [batchChangeLog]

/-! ### What is wrong with it -/

section Opened

variable {root : Node} {event : ChangeLogEvent Node Pubkey} {account : Account Node Pubkey D B}

omit [DecidableEq Node] [DecidableEq Pubkey] [Build] hB in
theorem OpenedWithRoot.index_eq (h : OpenedWithRoot c root event account) : event.index = 0 := by
  obtain ⟨seq, rfl⟩ := h.event_eq
  rfl

omit [DecidableEq Node] [DecidableEq Pubkey] [Build] hB in
/-- Below the root the event has zero nodes on the path of leaf `0`. -/
theorem OpenedWithRoot.mem_path (h : OpenedWithRoot c root event account) {l : ℕ} (hl : l < D) :
    ∃ p ∈ event.path, p.node = EMPTY ∧ p.index.toNat = MerkleTree.number D 0 l := by
  obtain ⟨seq, rfl⟩ := h.event_eq
  refine ⟨_, List.mem_append_left _ (List.mem_ofFn.2 ⟨⟨l, hl⟩, rfl⟩), by simp [batchChangeLog], ?_⟩
  have hzero : (0 : UInt32).toNat < 2 ^ D := Nat.two_pow_pos D
  exact path_index_toNat h.depth_lt hzero hl

omit [DecidableEq Pubkey] hB in
/-- The canopy completes proofs with the siblings of an empty tree. -/
theorem OpenedWithRoot.fill_ne [CollisionFree Node] [NonzeroHash Node]
    (h : OpenedWithRoot c root event account) (hc0 : 0 < c) {T : ℕ → Node} {q : ℕ}
    (hq : q < 2 ^ D) (hT : T q ≠ EMPTY) : ∃ i : UInt32, i.toNat < 2 ^ D ∧ ∀ canopy,
      fillInProofFromCanopy account.canopy account.header.maxDepth i
        ((siblings D T i.toNat).take (D - c)) ≠ .ok (canopy, siblings D T i.toNat) := by
  have hthree := h.three_le
  have hD := h.depth_lt
  have hhalf : q / 2 ^ (D - 1) < 2 ^ 1 := by
    have hlt := MerkleTree.div_lt_of_lt hq (Nat.sub_le D 1)
    rwa [show D - (D - 1) = 1 by omega] at hlt
  have hother : (q / 2 ^ (D - 1)) ^^^ 1 < 2 ^ 1 := Nat.xor_lt_two_pow hhalf (by norm_num)
  -- a leaf of the other half, whose uppermost sibling is over `q`
  have hsplit : 2 ^ D = 2 ^ 1 * 2 ^ (D - 1) := by rw [← pow_add, show 1 + (D - 1) = D by omega]
  have hlt : ((q / 2 ^ (D - 1)) ^^^ 1) * 2 ^ (D - 1) < 2 ^ D := by
    rw [hsplit]
    exact Nat.mul_lt_mul_of_pos_right hother (by positivity)
  have hpow : 2 ^ D ≤ 2 ^ 30 := Nat.pow_le_pow_right (by norm_num) (by omega)
  have hi : (UInt32.ofNat (((q / 2 ^ (D - 1)) ^^^ 1) * 2 ^ (D - 1))).toNat =
      ((q / 2 ^ (D - 1)) ^^^ 1) * 2 ^ (D - 1) :=
    UInt32.toNat_ofNat'.trans (Nat.mod_eq_of_lt (by omega))
  generalize UInt32.ofNat (((q / 2 ^ (D - 1)) ^^^ 1) * 2 ^ (D - 1)) = i at hi
  rw [← hi] at hlt
  refine ⟨i, hlt, fun canopy hfill => hT ?_⟩
  obtain ⟨canopy', -, -, hfill'⟩ := fillInProofFromCanopy_eq h.canopy h.trailing h.cached hD
    h.depth_eq hlt ((siblings D T i.toNat).take (D - c))
  rw [hfill'] at hfill
  have hupper := (Prod.mk.inj (Outcome.ok.inj hfill)).2.trans
    (siblings_take_append h.cached T i.toNat).symm
  have htop := List.map_inj_left.1 (List.append_cancel_left hupper) (D - 1)
    (List.mem_range'_1.2 ⟨by omega, by omega⟩)
  rw [MerkleTree.sibling, MerkleTree.sibling, hi, Nat.mul_div_cancel _ (by positivity),
    Nat.xor_assoc, Nat.xor_self, Nat.xor_zero] at htop
  exact (MerkleTree.node_inj CollisionFree.hashv_inj htop q rfl).symm

end Opened

/-- No batch is initialised consistently: the event has index `0` and zero nodes, whatever
was written, and a canopy takes all nodes of a batch for empty. -/
theorem batch_never_consistent [CollisionFree Node] [NonzeroHash Node]
    {account₀ account : Account Node Pubkey D B} (hfresh : account₀.Fresh c)
    {authority appendAuthority : Pubkey} {slot : ℕ} {root leaf : Node} {index : UInt32}
    {proof : List Node} {event : ChangeLogEvent Node Pubkey}
    (h : account₀.initGummyrollWithRoot authority appendAuthority slot root leaf index proof =
      .ok (event, account)) :
    event.index = 0 ∧
      (∀ l < D, ∃ p ∈ event.path, p.node = EMPTY ∧ p.index.toNat = MerkleTree.number D 0 l) ∧
      ∀ T, ¬ BatchConsistent c T root index event account ∧
        (0 < c → (∃ q < 2 ^ D, T q ≠ EMPTY) → ∃ i : UInt32, i.toNat < 2 ^ D ∧ ∀ canopy,
          fillInProofFromCanopy account.canopy account.header.maxDepth i
            ((siblings D T i.toNat).take (D - c)) ≠ .ok (canopy, siblings D T i.toNat)) := by
  have hopened := initGummyrollWithRoot_ok hfresh h
  refine ⟨hopened.index_eq, fun l hl => hopened.mem_path hl, fun T => ⟨fun hbatch => ?_, ?_⟩⟩
  · -- the node above leaf `0` is a hash and not zero
    have hthree := hopened.three_le
    obtain ⟨p, hp, hzero, hnumber⟩ := hopened.mem_path (l := 1) (by omega)
    have hnode := hbatch.path_eq p hp
    rw [hzero, hnumber, MerkleTree.numbered_number hashv (by positivity) (by omega)] at hnode
    exact NonzeroHash.hashv_ne_empty _ _ hnode.symm
  · rintro hc0 ⟨q, hq, hleaf⟩
    exact hopened.fill_ne hc0 hq hleaf

end Batch

/-! ### A batch of two leaves -/

/-- The leaves `1` and `2`. -/
def twoLeaves : ℕ → Term := treeAfter [(1, .leaf 2), (0, .leaf 1)]

/-- Their initialisation with a canopy of two levels. -/
def initTwoLeaves : Outcome GummyrollError (ChangeLogEvent Term ℕ × Account Term ℕ 3 8) :=
  (zeroed 2).initGummyrollWithRoot 0 0 0 (MerkleTree.root hashv 3 twoLeaves) (.leaf 2) 1 [.leaf 1]

theorem initTwoLeaves_ok : ∃ event account, initTwoLeaves = .ok (event, account) ∧
    event.index = 0 ∧ event.path =
      [⟨EMPTY, 8⟩, ⟨EMPTY, 4⟩, ⟨EMPTY, 2⟩, ⟨MerkleTree.root hashv 3 twoLeaves, 1⟩] := by
  have hevent : (initTwoLeaves >>= fun res => .ok (res.1.index, res.1.path)) = .ok (0,
      [⟨EMPTY, 8⟩, ⟨EMPTY, 4⟩, ⟨EMPTY, 2⟩, ⟨MerkleTree.root hashv 3 twoLeaves, 1⟩]) := by
    decide +kernel
  obtain ⟨⟨event, account⟩, hok, hevent⟩ := Outcome.bind_eq_ok.1 hevent
  obtain ⟨hindex, hpath⟩ := Prod.mk.inj (Outcome.ok.inj hevent)
  exact ⟨event, account, hok, hindex, hpath⟩

theorem batch_never_consistent_two : ∃ event account, initTwoLeaves = .ok (event, account) ∧
    ∀ T, ¬ BatchConsistent 2 T (MerkleTree.root hashv 3 twoLeaves) 1 event account := by
  obtain ⟨event, account, hok, -⟩ := initTwoLeaves_ok
  have hnever := (batch_never_consistent (fresh_zeroed (show 2 ≤ 3 by norm_num)) hok).2.2
  exact ⟨event, account, hok, fun T => (hnever T).1⟩

/-- Node `4` of the two leaves is announced as zero, and the index as `0` instead of `1`. -/
theorem batch_of_two_inconsistent : ∃ event account, initTwoLeaves = .ok (event, account) ∧
    event.index ≠ 1 ∧ ⟨EMPTY, 4⟩ ∈ event.path ∧ numbered hashv 3 twoLeaves 4 ≠ EMPTY ∧
      ¬ BatchConsistent 2 twoLeaves (MerkleTree.root hashv 3 twoLeaves) 1 event account := by
  obtain ⟨event, account, hok, hindex, hpath⟩ := initTwoLeaves_ok
  refine ⟨event, account, hok, by rw [hindex]; decide, by rw [hpath]; decide, by decide, ?_⟩
  intro hbatch
  have hwrong := hbatch.index_eq
  rw [hindex] at hwrong
  exact absurd hwrong (by decide)

end Candyland.Gummyroll
