import Candyland.Gummyroll.State

/-!
# The canopy

The bytes behind the roll cache the upper nodes of the tree, without the root: slot
`n - 2` is for the node with number `n`.  A slot is written when an update goes through
its node.  Until then it is zero, and readers put the hash of an empty subtree there.

The invariant says what this amounts to: every slot holds its node, or is zero and all
leaves under it are empty.
-/

namespace Candyland.Gummyroll

open ConcurrentMerkleTree
open MerkleTree (number numbered Under)

/-- The canopy bytes: some nodes, and what is left of a last one. -/
structure Canopy (Node : Type) where
  nodes : List Node
  trailing : Fin 32
deriving DecidableEq

variable {Node Pubkey : Type} {D c : ℕ}

/-- The bytes of `n` nodes, all zero. -/
def Canopy.zeroed [NodeHash Node] (n : ℕ) : Canopy Node := ⟨List.replicate n EMPTY, 0⟩

/-- `check_canopy_bytes(canopy_bytes)`. -/
def checkCanopyBytes (canopyBytes : Canopy Node) : Outcome GummyrollError Unit :=
  if (32 * canopyBytes.nodes.length + canopyBytes.trailing) % 32 ≠ 0 then
    .err .CanopyLengthMismatch
  else .ok ()

section Build

variable [Build]

/-- `get_cached_path_length(canopy, max_depth)`. -/
def getCachedPathLength (canopy : List Node) (maxDepth : UInt32) :
    Outcome GummyrollError UInt32 := do
  let closestPowerOf2 := UInt32.ofNat (canopy.length + 2)
  let pred ← subU32 closestPowerOf2 1
  if closestPowerOf2 &&& pred = 0 then
    if closestPowerOf2 > 1 <<< (maxDepth + 1) then .err .CanopyLengthMismatch
    else subU32 (UInt32.ofNat (trailingZeros closestPowerOf2)) 1
  else .err .CanopyLengthMismatch

/-- The loop of `update_canopy`. -/
def writeNodes : List Node → List (PathNode Node) → Outcome GummyrollError (List Node)
  | canopy, [] => .ok canopy
  | canopy, pathNode :: path => do
    let slot ← subU32 pathNode.index 2
    if slot.toNat < canopy.length then writeNodes (canopy.set slot.toNat pathNode.node) path
    else .panic

/-- `update_canopy(canopy_bytes, max_depth, change_log)`. -/
def updateCanopy (canopyBytes : Canopy Node) (maxDepth : UInt32)
    (changeLog : Option (ChangeLogEvent Node Pubkey)) : Outcome GummyrollError (Canopy Node) := do
  checkCanopyBytes canopyBytes
  let pathLen ← getCachedPathLength canopyBytes.nodes maxDepth
  match changeLog with
  | some cl =>
    let nodes ← writeNodes canopyBytes.nodes ((cl.path.reverse.drop 1).take pathLen.toNat)
    .ok { canopyBytes with nodes := nodes }
  | none => .ok canopyBytes

variable [NodeHash Node] [DecidableEq Node]

/-- The loop of `fill_in_proof_from_canopy`, which halves `node_idx`, so that `32` rounds
are enough.  It carries the canopy and the inferred nodes. -/
def fillLoop (maxDepth : UInt32) : ℕ → UInt32 → List Node × List Node →
    Outcome GummyrollError (List Node × List Node)
  | 0, _, _ => .panic
  | fuel + 1, nodeIdx, (canopy, inferredNodes) =>
    if nodeIdx > 1 then
      let shiftedIndex := nodeIdx.toNat - 2
      let cachedIdx := if shiftedIndex % 2 = 0 then shiftedIndex + 1 else shiftedIndex - 1
      match canopy[cachedIdx]? with
      | none => .panic
      | some cached =>
        if cached = EMPTY then
          let level := maxDepth - (31 - UInt32.ofNat (leadingZeros nodeIdx))
          let emptyNode := emptyNodeCached (Vector.replicate 30 (EMPTY : Node)) level.toNat
          fillLoop maxDepth fuel (nodeIdx >>> 1)
            (canopy.set cachedIdx emptyNode, inferredNodes ++ [emptyNode])
        else fillLoop maxDepth fuel (nodeIdx >>> 1) (canopy, inferredNodes ++ [cached])
    else .ok (canopy, inferredNodes)

/-- `fill_in_proof_from_canopy(canopy_bytes, max_depth, index, proof)`: the canopy and the
completed proof. -/
def fillInProofFromCanopy (canopyBytes : Canopy Node) (maxDepth index : UInt32)
    (proof : List Node) : Outcome GummyrollError (Canopy Node × List Node) := do
  checkCanopyBytes canopyBytes
  let pathLen ← getCachedPathLength canopyBytes.nodes maxDepth
  let leafIdx ← addU32 (1 <<< maxDepth) index
  let shift ← subU32 maxDepth pathLen
  let (nodes, inferredNodes) ← fillLoop maxDepth 32 (leafIdx >>> shift) (canopyBytes.nodes, [])
  .ok ({ canopyBytes with nodes := nodes }, proof ++ inferredNodes)

end Build

/-! ### Checked arithmetic -/

section Arithmetic

variable [Build]

theorem subU32_eq {a b : UInt32} (h : b ≤ a) : subU32 a b = .ok (a - b) := by
  rw [subU32, decide_eq_false (UInt32.not_lt.2 h), Bool.and_false, if_neg (by simp)]

theorem addU32_eq {a b : UInt32} (h : a.toNat + b.toNat < 2 ^ 32) : addU32 a b = .ok (a + b) := by
  rw [addU32, decide_eq_false (by omega), Bool.and_false, if_neg (by simp)]

theorem addU32_eq_ok {a b r : UInt32} (h : addU32 a b = .ok r) : r = a + b := by
  rw [addU32] at h
  split_ifs at h
  exact (Outcome.ok.inj h).symm

theorem subU32_eq_ok {a b r : UInt32} (h : subU32 a b = .ok r) : r = a - b := by
  rw [subU32] at h
  split_ifs at h
  exact (Outcome.ok.inj h).symm

/-! ### The cached path length -/

/-- A canopy of `2 ^ (c + 1) - 2` nodes caches the `c` levels below the root. -/
theorem getCachedPathLength_eq {nodes : List Node} {maxDepth : UInt32}
    (hlen : nodes.length + 2 = 2 ^ (c + 1)) (hc : c ≤ D) (hD : D < 31)
    (hdepth : maxDepth.toNat = D) :
    getCachedPathLength nodes maxDepth = .ok (UInt32.ofNat c) := by
  have hpow : 2 ^ (c + 1) ≤ 2 ^ (D + 1) := Nat.pow_le_pow_right (by norm_num) (by omega)
  have hpowD : 2 ^ (D + 1) ≤ 2 ^ 31 := Nat.pow_le_pow_right (by norm_num) (by omega)
  have hpos : 0 < 2 ^ (c + 1) := by positivity
  have hclosest : (UInt32.ofNat (nodes.length + 2)).toNat = 2 ^ (c + 1) := by
    rw [hlen, UInt32.toNat_ofNat', Nat.mod_eq_of_lt (by omega)]
  have hone : 1 ≤ UInt32.ofNat (nodes.length + 2) := by
    rw [UInt32.le_iff_toNat_le, hclosest]
    exact hpos
  have hand : UInt32.ofNat (nodes.length + 2) &&& (UInt32.ofNat (nodes.length + 2) - 1) = 0 := by
    rw [← UInt32.toNat_inj, UInt32.toNat_and, UInt32.toNat_sub_of_le _ _ hone, hclosest,
      UInt32.toNat_one, Nat.and_two_pow_sub_one_eq_mod, Nat.mod_self]
    rfl
  have hle : ¬ UInt32.ofNat (nodes.length + 2) > 1 <<< (maxDepth + 1) := by
    have hshift : ((1 : UInt32) <<< (maxDepth + 1)).toNat = 2 ^ (D + 1) := by
      have hsucc : maxDepth + 1 = UInt32.ofNat (D + 1) := by
        rw [← UInt32.toNat_inj, UInt32.toNat_add, hdepth, UInt32.toNat_one, UInt32.toNat_ofNat']
      rw [hsucc, one_shiftLeft_toNat (by omega)]
    rw [gt_iff_lt, UInt32.lt_iff_toNat_lt, hclosest, hshift]
    omega
  have htz : trailingZeros (UInt32.ofNat (nodes.length + 2)) = c + 1 := by
    have hne : UInt32.ofNat (nodes.length + 2) ≠ 0 := by
      rw [ne_eq, ← UInt32.toNat_inj, hclosest]
      exact hpos.ne'
    have hodd := oddMultiple_trailingZeros hne
    rw [hclosest] at hodd
    exact hodd.two_pow
  have hone' : 1 ≤ UInt32.ofNat (c + 1) := by
    rw [UInt32.le_iff_toNat_le, UInt32.toNat_ofNat', Nat.mod_eq_of_lt (by omega), UInt32.toNat_one]
    omega
  rw [getCachedPathLength]
  simp only [subU32_eq hone, Outcome.ok_bind, hand, if_true, if_neg hle, htz]
  rw [subU32_eq hone']
  congr 1
  rw [← UInt32.toNat_inj, UInt32.toNat_sub_of_le _ _ hone', UInt32.toNat_ofNat',
    UInt32.toNat_ofNat', UInt32.toNat_one, Nat.mod_eq_of_lt (by omega), Nat.mod_eq_of_lt (by omega)]
  omega

omit [Build] in
theorem one_shiftLeft_depth {maxDepth : UInt32} (hD : D < 31) (hdepth : maxDepth.toNat = D) :
    ((1 : UInt32) <<< maxDepth).toNat = 2 ^ D := by
  rw [← one_shiftLeft_toNat (show D < 32 by omega), ← hdepth, UInt32.ofNat_toNat]

/-- The number of levels below the canopy. -/
theorem subU32_depth {maxDepth : UInt32} (hc : c ≤ D) (hD : D < 31) (hdepth : maxDepth.toNat = D) :
    subU32 maxDepth (UInt32.ofNat c) = .ok (UInt32.ofNat (D - c)) := by
  have hle : UInt32.ofNat c ≤ maxDepth := by
    rw [UInt32.le_iff_toNat_le, hdepth, UInt32.toNat_ofNat', Nat.mod_eq_of_lt (by omega)]
    exact hc
  rw [subU32_eq hle]
  congr 1
  rw [← UInt32.toNat_inj, UInt32.toNat_sub_of_le _ _ hle, hdepth, UInt32.toNat_ofNat',
    UInt32.toNat_ofNat', Nat.mod_eq_of_lt (by omega), Nat.mod_eq_of_lt (by omega)]

end Arithmetic

/-! ### Lengths and node numbers -/

theorem checkCanopyBytes_eq {canopy : Canopy Node} (h : canopy.trailing = 0) :
    checkCanopyBytes canopy = .ok () := by
  rw [checkCanopyBytes, h]
  simp

theorem trailing_of_checkCanopyBytes {canopy : Canopy Node} (h : checkCanopyBytes canopy = .ok ()) :
    canopy.trailing = 0 := by
  rw [checkCanopyBytes] at h
  split_ifs at h with hmod
  have hlt := canopy.trailing.isLt
  have hmod' := not_not.1 hmod
  exact Fin.ext (by rw [Fin.val_zero]; omega)

/-- The slot that the loop reads is the one of the sibling. -/
theorem cachedIdx_eq {n : ℕ} (hn : 2 ≤ n) :
    (if (n - 2) % 2 = 0 then n - 2 + 1 else n - 2 - 1) = (n ^^^ 1) - 2 := by
  rcases Nat.mod_two_eq_zero_or_one n with h | h
  · rw [Bits.xor_one_of_even h, if_pos (by omega)]
    omega
  · rw [Bits.xor_one_of_odd h, if_neg (by omega)]
    omega

theorem two_le_xor_one {n : ℕ} (hn : 2 ≤ n) : 2 ≤ n ^^^ 1 := by
  rcases Nat.mod_two_eq_zero_or_one n with h | h
  · rw [Bits.xor_one_of_even h]
    omega
  · rw [Bits.xor_one_of_odd h]
    omega

/-- The level of a node from the leading zeros of its number. -/
theorem level_toNat {maxDepth : UInt32} (hD : D < 31) (hdepth : maxDepth.toNat = D) {nodeIdx : UInt32}
    (hn : 2 ≤ nodeIdx.toNat) (hlog : nodeIdx.toNat.log2 ≤ D) :
    (maxDepth - (31 - UInt32.ofNat (leadingZeros nodeIdx))).toNat = D - nodeIdx.toNat.log2 := by
  have hne : nodeIdx ≠ 0 := by
    rintro rfl
    simp at hn
  have hlz : UInt32.ofNat (leadingZeros nodeIdx) = UInt32.ofNat (31 - nodeIdx.toNat.log2) := by
    rw [leadingZeros, if_neg hne]
  have hsub : (31 - UInt32.ofNat (31 - nodeIdx.toNat.log2)).toNat = nodeIdx.toNat.log2 := by
    have hle : UInt32.ofNat (31 - nodeIdx.toNat.log2) ≤ 31 := by
      rw [UInt32.le_iff_toNat_le, UInt32.toNat_ofNat', Nat.mod_eq_of_lt (by omega)]
      exact Nat.sub_le _ _
    rw [UInt32.toNat_sub_of_le _ _ hle, UInt32.toNat_ofNat', Nat.mod_eq_of_lt (by omega)]
    change 31 - (31 - nodeIdx.toNat.log2) = _
    omega
  have hle : 31 - UInt32.ofNat (31 - nodeIdx.toNat.log2) ≤ maxDepth := by
    rw [UInt32.le_iff_toNat_le, hsub, hdepth]
    exact hlog
  rw [hlz, UInt32.toNat_sub_of_le _ _ hle, hsub, hdepth]

/-! ### The invariant -/

variable [NodeHash Node]

/-- The canopy caches the `c` levels below the root of the tree `T`: a slot holds its node,
or it is zero and all leaves under it are empty. -/
structure CanopyInv (D c : ℕ) (T : ℕ → Node) (nodes : List Node) : Prop where
  length : nodes.length + 2 = 2 ^ (c + 1)
  slot : ∀ n, 2 ≤ n → ∀ h : n - 2 < nodes.length,
    nodes[n - 2] = numbered hashv D T n ∨
      nodes[n - 2] = EMPTY ∧ ∀ q, Under D n q → T q = EMPTY

namespace CanopyInv

variable {T : ℕ → Node} {nodes : List Node}

/-- Without levels there is nothing to cache. -/
theorem of_zero (hlen : nodes.length + 2 = 2 ^ (0 + 1)) : CanopyInv D 0 T nodes :=
  ⟨hlen, fun n _ hlt => absurd hlt (by omega)⟩

/-- Zero bytes cache an empty tree. -/
theorem of_eq_empty (hlen : nodes.length + 2 = 2 ^ (c + 1)) (hzero : ∀ node ∈ nodes, node = EMPTY) :
    CanopyInv D c (fun _ => EMPTY) nodes :=
  ⟨hlen, fun _ _ hlt => .inr ⟨hzero _ (List.getElem_mem hlt), fun _ _ => rfl⟩⟩

/-- In the cache of an empty tree any slot may be zero. -/
theorem set_empty (h : CanopyInv D c (fun _ => EMPTY) nodes) (k : ℕ) :
    CanopyInv D c (fun _ => EMPTY) (nodes.set k EMPTY) := by
  refine ⟨by rw [List.length_set]; exact h.length, fun n hn hlt => ?_⟩
  rw [List.length_set] at hlt
  rw [List.getElem_set]
  split_ifs
  · exact .inr ⟨rfl, fun _ _ => rfl⟩
  · exact h.slot n hn hlt

theorem log2_le (h : CanopyInv D c T nodes) {n : ℕ} (hn : 2 ≤ n) (hlt : n - 2 < nodes.length) :
    n.log2 ≤ c := by
  have hlen := h.length
  exact Nat.lt_succ_iff.1 ((Nat.log2_lt (by omega)).2 (by omega))

/-- A zero slot belongs to an empty subtree. -/
theorem eq_empty_of_slot [hN : NonzeroHash Node] (h : CanopyInv D c T nodes) {n : ℕ} (hn : 2 ≤ n)
    (hlt : n - 2 < nodes.length) (hslot : nodes[n - 2] = EMPTY) (q : ℕ) (hq : Under D n q) :
    T q = EMPTY := by
  rcases h.slot n hn hlt with hnode | ⟨-, hempty⟩
  · rw [hslot, numbered] at hnode
    rw [Under] at hq
    -- a node above the leaves is a hash and not zero
    cases hl : D - n.log2 with
    | zero =>
      rw [hl, pow_zero, Nat.div_one] at hq
      rw [hl, ← hq] at hnode
      exact hnode.symm
    | succ l =>
      rw [hl] at hnode
      exact absurd hnode.symm (hN.hashv_ne_empty _ _)
  · exact hempty q hq

/-- What a reader infers from a zero slot is the node. -/
theorem emptyNode_eq [NonzeroHash Node] (h : CanopyInv D c T nodes) {n : ℕ} (hn : 2 ≤ n)
    (hlt : n - 2 < nodes.length) (hslot : nodes[n - 2] = EMPTY) :
    emptyNode (D - n.log2) = numbered hashv D T n := by
  rw [emptyNode_eq_uniform, numbered]
  exact (MerkleTree.node_eq_uniform hashv fun q hq => h.eq_empty_of_slot hn hlt hslot q hq).symm

/-- Writing a node into its slot keeps the invariant. -/
theorem set (h : CanopyInv D c T nodes) (n : ℕ) (hn : 2 ≤ n) :
    CanopyInv D c T (nodes.set (n - 2) (numbered hashv D T n)) := by
  refine ⟨by rw [List.length_set]; exact h.length, fun m hm hlt => ?_⟩
  rw [List.length_set] at hlt
  rw [List.getElem_set]
  split_ifs with heq
  · rw [show n = m by omega]
    exact .inl rfl
  · exact h.slot m hm hlt

end CanopyInv

/-! ### Reading a proof -/

section Fill

variable [DecidableEq Node] {T : ℕ → Node} {maxDepth : UInt32}

/-- One round of the loop: the sibling is inferred, and the invariant is kept. -/
theorem fillLoop_succ [NonzeroHash Node] {nodes : List Node} (h : CanopyInv D c T nodes)
    (hc : c ≤ D) (hD : D < 31) (hdepth : maxDepth.toNat = D) {nodeIdx : UInt32}
    (hn : 2 ≤ nodeIdx.toNat) (hlt : (nodeIdx.toNat ^^^ 1) - 2 < nodes.length) (fuel : ℕ)
    (inferredNodes : List Node) :
    ∃ nodes', CanopyInv D c T nodes' ∧
      fillLoop maxDepth (fuel + 1) nodeIdx (nodes, inferredNodes) =
        fillLoop maxDepth fuel (nodeIdx >>> 1)
          (nodes', inferredNodes ++ [numbered hashv D T (nodeIdx.toNat ^^^ 1)]) := by
  have hn' := two_le_xor_one hn
  have hone : nodeIdx > 1 := UInt32.lt_iff_toNat_lt.2 hn
  have hlog := h.log2_le hn' hlt
  rw [fillLoop, if_pos hone]
  simp only [cachedIdx_eq hn, List.getElem?_eq_getElem hlt, emptyNodeCached_replicate]
  split_ifs with hslot
  · have hnode := h.emptyNode_eq hn' hlt hslot
    rw [Bits.log2_xor_one hn] at hnode hlog
    rw [level_toNat hD hdepth hn (by omega), hnode]
    exact ⟨_, h.set _ hn', rfl⟩
  · refine ⟨nodes, h, ?_⟩
    rcases h.slot _ hn' hlt with hnode | ⟨hempty, -⟩
    · rw [hnode]
    · exact absurd hempty hslot

/-- Whatever the loop starts from, it keeps the invariant. -/
theorem fillLoop_inv [NonzeroHash Node] {nodes nodes' : List Node} (h : CanopyInv D c T nodes)
    (hc : c ≤ D) (hD : D < 31) (hdepth : maxDepth.toNat = D) {fuel : ℕ} {nodeIdx : UInt32}
    {inferredNodes inferredNodes' : List Node}
    (hok : fillLoop maxDepth fuel nodeIdx (nodes, inferredNodes) = .ok (nodes', inferredNodes')) :
    CanopyInv D c T nodes' := by
  induction fuel generalizing nodeIdx nodes inferredNodes with
  | zero => exact absurd hok (by simp [fillLoop])
  | succ fuel ih =>
    by_cases hone : nodeIdx > 1
    · have hn : 2 ≤ nodeIdx.toNat := UInt32.lt_iff_toNat_lt.1 hone
      by_cases hlt : (nodeIdx.toNat ^^^ 1) - 2 < nodes.length
      · obtain ⟨nodes₁, h₁, hstep⟩ := fillLoop_succ h hc hD hdepth hn hlt fuel inferredNodes
        rw [hstep] at hok
        exact ih h₁ hok
      · rw [fillLoop, if_pos hone] at hok
        simp only [cachedIdx_eq hn, List.getElem?_eq_none (not_lt.1 hlt)] at hok
        exact absurd hok (by simp)
    · rw [fillLoop, if_neg hone] at hok
      rw [← (Prod.mk.inj (Outcome.ok.inj hok)).1]
      exact h

/-- From a node at depth `d` in the canopy the loop infers the `d` siblings above. -/
theorem fillLoop_eq [NonzeroHash Node] {nodes : List Node} (h : CanopyInv D c T nodes)
    (hc : c ≤ D) (hD : D < 31) (hdepth : maxDepth.toNat = D) {i l fuel : ℕ} (hi : i < 2 ^ D)
    (hl : l ≤ D) (hlc : D - l ≤ c) (hfuel : D - l < fuel) {nodeIdx : UInt32}
    (hidx : nodeIdx.toNat = number D i l) (inferredNodes : List Node) :
    ∃ nodes', CanopyInv D c T nodes' ∧ fillLoop maxDepth fuel nodeIdx (nodes, inferredNodes) =
      .ok (nodes', inferredNodes ++
        (List.range' l (D - l)).map (MerkleTree.sibling hashv T i)) := by
  induction fuel generalizing nodeIdx nodes inferredNodes l with
  | zero => omega
  | succ fuel ih =>
    have hlog := MerkleTree.number_log2 hi hl
    rcases Nat.eq_or_lt_of_le hl with rfl | hlt
    · -- the root has been reached
      have hone : ¬ nodeIdx > 1 := by
        rw [gt_iff_lt, UInt32.lt_iff_toNat_lt, hidx, number, Nat.div_eq_of_lt hi, Nat.sub_self]
        simp
      rw [fillLoop, if_neg hone, Nat.sub_self]
      exact ⟨nodes, h, by simp⟩
    · have hn : 2 ≤ nodeIdx.toNat := by
        have hpow : 2 ^ 1 ≤ 2 ^ (D - l) := Nat.pow_le_pow_right (by norm_num) (by omega)
        rw [hidx, number]
        exact (by simpa using hpow : 2 ≤ 2 ^ (D - l)).trans (Nat.le_add_right _ _)
      have hslot : (nodeIdx.toNat ^^^ 1) - 2 < nodes.length := by
        have hlen := h.length
        have hlt' : nodeIdx.toNat ^^^ 1 < 2 ^ (c + 1) := by
          rw [← Nat.log2_lt (by have := two_le_xor_one hn; omega), Bits.log2_xor_one hn, hidx, hlog]
          omega
        have := two_le_xor_one hn
        omega
      obtain ⟨nodes₁, h₁, hstep⟩ := fillLoop_succ h hc hD hdepth hn hslot fuel inferredNodes
      have hnext : (nodeIdx >>> 1).toNat = number D i (l + 1) := by
        rw [← MerkleTree.number_div_two hlt, ← hidx]
        exact shiftRight_toNat nodeIdx (show 1 < 32 by norm_num)
      obtain ⟨nodes', h', hrest⟩ := ih h₁ (by omega) (by omega) (by omega) hnext
        (inferredNodes ++ [numbered hashv D T (nodeIdx.toNat ^^^ 1)])
      refine ⟨nodes', h', ?_⟩
      rw [hstep, hrest, hidx, MerkleTree.numbered_xor_one hashv hi hlt,
        show D - l = D - (l + 1) + 1 by omega, List.range'_succ, List.map_cons, List.append_assoc,
        List.singleton_append]

variable [Build] {canopy canopy' : Canopy Node} {index : UInt32}

/-- With the lowest `D - c` siblings of a leaf the canopy makes all its siblings. -/
theorem fillInProofFromCanopy_eq [NonzeroHash Node] (h : CanopyInv D c T canopy.nodes)
    (htrailing : canopy.trailing = 0) (hc : c ≤ D) (hD : D < 31) (hdepth : maxDepth.toNat = D)
    (hi : index.toNat < 2 ^ D) (proof : List Node) :
    ∃ canopy', CanopyInv D c T canopy'.nodes ∧ canopy'.trailing = 0 ∧
      fillInProofFromCanopy canopy maxDepth index proof = .ok (canopy', proof ++
        (List.range' (D - c) c).map (MerkleTree.sibling hashv T index.toNat)) := by
  have hpow : 2 ^ D ≤ 2 ^ 30 := Nat.pow_le_pow_right (by norm_num) (by omega)
  have hshift := one_shiftLeft_depth hD hdepth
  have hidx : ((1 <<< maxDepth + index) >>> UInt32.ofNat (D - c)).toNat =
      number D index.toNat (D - c) := by
    rw [shiftRight_toNat _ (by omega), UInt32.toNat_add, hshift, Nat.mod_eq_of_lt (by omega), number,
      Nat.sub_sub_self hc]
    have hsplit : 2 ^ D = 2 ^ c * 2 ^ (D - c) := by rw [← pow_add, Nat.add_sub_cancel' hc]
    rw [hsplit, Nat.add_comm, Nat.add_mul_div_right _ _ (by positivity), Nat.add_comm]
  obtain ⟨nodes', h', hloop⟩ := fillLoop_eq h hc hD hdepth hi (Nat.sub_le D c) (by omega)
    (show D - (D - c) < 32 by omega) hidx []
  refine ⟨{ canopy with nodes := nodes' }, h', htrailing, ?_⟩
  rw [fillInProofFromCanopy, checkCanopyBytes_eq htrailing,
    getCachedPathLength_eq h.length hc hD hdepth, addU32_eq (by omega)]
  simp only [Outcome.ok_bind, subU32_depth hc hD hdepth, hloop, List.nil_append,
    Nat.sub_sub_self hc]

/-- Reading a proof for any index keeps the invariant. -/
theorem fillInProofFromCanopy_inv [NonzeroHash Node] (h : CanopyInv D c T canopy.nodes)
    (hc : c ≤ D) (hD : D < 31) (hdepth : maxDepth.toNat = D) {proof proof' : List Node}
    (hok : fillInProofFromCanopy canopy maxDepth index proof = .ok (canopy', proof')) :
    CanopyInv D c T canopy'.nodes ∧ canopy'.trailing = 0 := by
  rw [fillInProofFromCanopy] at hok
  obtain ⟨⟨⟩, hcheck, hok⟩ := Outcome.bind_eq_ok.1 hok
  obtain ⟨pathLen, -, hok⟩ := Outcome.bind_eq_ok.1 hok
  obtain ⟨leafIdx, -, hok⟩ := Outcome.bind_eq_ok.1 hok
  obtain ⟨shift, -, hok⟩ := Outcome.bind_eq_ok.1 hok
  obtain ⟨⟨nodes', inferredNodes⟩, hloop, hok⟩ := Outcome.bind_eq_ok.1 hok
  obtain ⟨rfl, -⟩ := Prod.mk.inj (Outcome.ok.inj hok)
  have htrailing := trailing_of_checkCanopyBytes hcheck
  exact ⟨fillLoop_inv h hc hD hdepth hloop, htrailing⟩

omit [NodeHash Node] [DecidableEq Node] in
/-- The sum of the leaf index wraps only without overflow checks. -/
theorem addU32_toNat {a b r : UInt32} (h : addU32 a b = .ok r) :
    r.toNat = (a.toNat + b.toNat) % 2 ^ 32 ∧
      (Build.overflowChecks = true → a.toNat + b.toNat < 2 ^ 32) := by
  rw [addU32_eq_ok h]
  refine ⟨UInt32.toNat_add a b, fun hchecks => ?_⟩
  by_contra hge
  rw [addU32, hchecks, decide_eq_true (by omega)] at h
  exact absurd h (by simp)

/-- Without a canopy the proof is left as it is, and the index is in the tree unless the
sum with `2 ^ D` wraps. -/
theorem fillInProofFromCanopy_of_nil (hlen : canopy.nodes.length + 2 = 2 ^ (0 + 1)) (hD : D < 31)
    (hdepth : maxDepth.toNat = D) {proof proof' : List Node}
    (hok : fillInProofFromCanopy canopy maxDepth index proof = .ok (canopy', proof')) :
    proof' = proof ∧ (index.toNat < 2 ^ D ∨
      Build.overflowChecks = false ∧ 2 ^ 32 ≤ 2 ^ D + index.toNat) := by
  have hpow : 2 ^ D ≤ 2 ^ 30 := Nat.pow_le_pow_right (by norm_num) (by omega)
  have hshift := one_shiftLeft_depth hD hdepth
  rw [fillInProofFromCanopy] at hok
  obtain ⟨⟨⟩, -, hok⟩ := Outcome.bind_eq_ok.1 hok
  obtain ⟨pathLen, hpathLen, hok⟩ := Outcome.bind_eq_ok.1 hok
  rw [getCachedPathLength_eq hlen (Nat.zero_le D) hD hdepth] at hpathLen
  obtain ⟨leafIdx, hleafIdx, hok⟩ := Outcome.bind_eq_ok.1 hok
  obtain ⟨shift, hsub, hok⟩ := Outcome.bind_eq_ok.1 hok
  obtain ⟨⟨nodes, inferredNodes⟩, hloop, hok⟩ := Outcome.bind_eq_ok.1 hok
  obtain ⟨hsum, hchecks⟩ := addU32_toNat hleafIdx
  have hshift' : shift = UInt32.ofNat D := by
    rw [subU32_eq_ok hsub, ← Outcome.ok.inj hpathLen, ← hdepth, UInt32.ofNat_toNat]
    exact UInt32.sub_zero maxDepth
  have hnil : canopy.nodes = [] := List.eq_nil_of_length_eq_zero (by omega)
  rw [fillLoop] at hloop
  split_ifs at hloop with hone
  · simp [hnil] at hloop
  · obtain ⟨-, rfl⟩ := Prod.mk.inj (Outcome.ok.inj hloop)
    obtain ⟨-, rfl⟩ := Prod.mk.inj (Outcome.ok.inj hok)
    refine ⟨List.append_nil proof, ?_⟩
    have hle : (leafIdx >>> shift).toNat ≤ 1 := not_lt.1 (UInt32.lt_iff_toNat_lt.not.1 hone)
    rw [hshift', shiftRight_toNat _ (by omega)] at hle
    have hlt : leafIdx.toNat < 2 * 2 ^ D :=
      (Nat.div_lt_iff_lt_mul (by positivity)).1 (Nat.lt_succ_of_le hle)
    by_cases hwrap : 2 ^ 32 ≤ 2 ^ D + index.toNat
    · refine .inr ⟨?_, hwrap⟩
      rw [← Bool.not_eq_true]
      intro hon
      have := hchecks hon
      omega
    · left
      rw [hsum, hshift, Nat.mod_eq_of_lt (by omega)] at hlt
      omega

end Fill

/-! ### Writing a path -/

section Write

variable [Build] {T : ℕ → Node} {maxDepth : UInt32}

omit [NodeHash Node] in
/-- Writing nodes into their slots leaves every other slot as it is. -/
theorem writeNodes_eq {nodes : List Node} {path : List (PathNode Node)} (N : ℕ → Node)
    (hpath : ∀ p ∈ path, 2 ≤ p.index.toNat ∧ p.index.toNat - 2 < nodes.length ∧
      p.node = N p.index.toNat) :
    ∃ nodes', writeNodes nodes path = .ok nodes' ∧ nodes'.length = nodes.length ∧
      ∀ n, 2 ≤ n → n - 2 < nodes.length → nodes'[n - 2]? = some (N n) ∨
        nodes'[n - 2]? = nodes[n - 2]? ∧ ∀ p ∈ path, p.index.toNat ≠ n := by
  induction path generalizing nodes with
  | nil => exact ⟨nodes, rfl, rfl, fun n _ _ => .inr ⟨rfl, by simp⟩⟩
  | cons p path ih =>
    obtain ⟨h2, hlt, hnode⟩ := hpath p List.mem_cons_self
    have hle : 2 ≤ p.index := UInt32.le_iff_toNat_le.2 h2
    have hslot : (p.index - 2).toNat = p.index.toNat - 2 := UInt32.toNat_sub_of_le _ _ hle
    have hrest : ∀ q ∈ path, 2 ≤ q.index.toNat ∧
        q.index.toNat - 2 < (nodes.set (p.index.toNat - 2) p.node).length ∧
          q.node = N q.index.toNat := fun q hq => by
      rw [List.length_set]
      exact hpath q (List.mem_cons_of_mem _ hq)
    obtain ⟨nodes', hok, hlen, hget⟩ := ih hrest
    rw [List.length_set] at hlen
    refine ⟨nodes', ?_, hlen, fun n hn hnlt => ?_⟩
    · rw [writeNodes, subU32_eq hle]
      simp only [Outcome.ok_bind, hslot]
      rw [if_pos hlt, hok]
    · rcases hget n hn (by rwa [List.length_set]) with hnew | ⟨hold, hne⟩
      · exact .inl hnew
      · by_cases heq : p.index.toNat = n
        · left
          rw [hold, ← heq, List.getElem?_set_self hlt, hnode]
        · right
          refine ⟨?_, fun q hq => ?_⟩
          · rw [hold, List.getElem?_set_ne (by omega)]
          · rcases List.mem_cons.1 hq with rfl | hq
            · exact heq
            · exact hne q hq

omit [NodeHash Node] in
theorem lt_of_writeNodes {nodes nodes' : List Node} {path : List (PathNode Node)}
    (hok : writeNodes nodes path = .ok nodes') :
    ∀ p ∈ path, (p.index - 2).toNat < nodes.length := by
  induction path generalizing nodes with
  | nil => simp
  | cons q path ih =>
    rw [writeNodes] at hok
    obtain ⟨slot, hslot, hok⟩ := Outcome.bind_eq_ok.1 hok
    rw [subU32_eq_ok hslot] at hok
    split_ifs at hok with hlt
    intro p hp
    rcases List.mem_cons.1 hp with rfl | hp
    · exact hlt
    · have hrest := ih hok p hp
      rwa [List.length_set] at hrest

omit [NodeHash Node] in
theorem length_of_writeNodes {nodes nodes' : List Node} {path : List (PathNode Node)}
    (hok : writeNodes nodes path = .ok nodes') : nodes'.length = nodes.length := by
  induction path generalizing nodes with
  | nil => rw [Outcome.ok.inj hok]
  | cons q path ih =>
    obtain ⟨slot, -, hok⟩ := Outcome.bind_eq_ok.1 hok
    split_ifs at hok
    rw [ih hok, List.length_set]

omit [NodeHash Node] in
/-- The canopy keeps its size. -/
theorem length_of_updateCanopy {canopy canopy' : Canopy Node}
    {changeLog : Option (ChangeLogEvent Node Pubkey)}
    (hok : updateCanopy canopy maxDepth changeLog = .ok canopy') :
    canopy'.nodes.length = canopy.nodes.length ∧ canopy.trailing = 0 ∧ canopy'.trailing = 0 := by
  obtain ⟨⟨⟩, hcheck, hok⟩ := Outcome.bind_eq_ok.1 hok
  obtain ⟨pathLen, -, hok⟩ := Outcome.bind_eq_ok.1 hok
  have htrailing := trailing_of_checkCanopyBytes hcheck
  cases changeLog with
  | none =>
    obtain rfl := Outcome.ok.inj hok
    exact ⟨rfl, htrailing, htrailing⟩
  | some cl =>
    obtain ⟨nodes', hwrite, hok⟩ := Outcome.bind_eq_ok.1 hok
    obtain rfl := Outcome.ok.inj hok
    exact ⟨length_of_writeNodes hwrite, htrailing, htrailing⟩

omit [NodeHash Node] [Build] in
/-- What `update_canopy` takes from an event: the levels from `D - c` up to the root,
without it. -/
theorem mem_cached_path {cl : ChangeLog Node D} {id : Pubkey} {seq : ℕ} {p : PathNode Node} :
    p ∈ ((ChangeLogEvent.ofChangeLog cl id seq).path.reverse.drop 1).take c ↔
      ∃ l, ∃ hl : l < D, D - c ≤ l ∧ p = ⟨cl.path[l],
        1 <<< UInt32.ofNat (D - l) + cl.index >>> UInt32.ofNat l⟩ := by
  rw [ChangeLogEvent.ofChangeLog, List.reverse_append, List.reverse_singleton,
    List.singleton_append, List.drop_one, List.tail_cons, List.take_reverse, List.mem_reverse,
    List.length_ofFn, List.mem_drop_iff_getElem]
  constructor
  · rintro ⟨k, hk, rfl⟩
    rw [List.length_ofFn] at hk
    exact ⟨D - c + k, by omega, by omega, by rw [List.getElem_ofFn]; rfl⟩
  · rintro ⟨l, hl, hle, rfl⟩
    refine ⟨l - (D - c), by rw [List.length_ofFn]; omega, ?_⟩
    rw [List.getElem_ofFn]
    simp only [Nat.add_sub_cancel' hle]
    rfl

/-- Writing the path of an update keeps the invariant. -/
theorem updateCanopy_eq {canopy : Canopy Node} (h : CanopyInv D c T canopy.nodes)
    (htrailing : canopy.trailing = 0) (hc : c ≤ D) (hD : D < 31) (hdepth : maxDepth.toNat = D)
    {cl : ChangeLog Node D} {j : ℕ} {w : Node} (hrec : cl.Records (Function.update T j w) j)
    (hi : cl.index.toNat < 2 ^ D) (id : Pubkey) (seq : ℕ) :
    ∃ canopy', CanopyInv D c (Function.update T j w) canopy'.nodes ∧ canopy'.trailing = 0 ∧
      updateCanopy canopy maxDepth (some (ChangeLogEvent.ofChangeLog cl id seq)) = .ok canopy' := by
  obtain ⟨-, hindex, hpath⟩ := hrec
  rw [position_of_lt hi] at hindex
  have hlen := h.length
  have hslots : ∀ p ∈ ((ChangeLogEvent.ofChangeLog cl id seq).path.reverse.drop 1).take c,
      2 ≤ p.index.toNat ∧ p.index.toNat - 2 < canopy.nodes.length ∧
        p.node = numbered hashv D (Function.update T j w) p.index.toNat := by
    intro p hp
    obtain ⟨l, hl, hle, rfl⟩ := mem_cached_path.1 hp
    have hlog := MerkleTree.number_log2 hi hl.le
    have hnum : 2 ≤ number D cl.index.toNat l :=
      (Nat.le_log2 (MerkleTree.number_pos D _ l).ne').1 (show 1 ≤ _ by omega)
    have hlt : number D cl.index.toNat l < 2 ^ (c + 1) :=
      (Nat.log2_lt (MerkleTree.number_pos D _ l).ne').1 (by omega)
    dsimp only
    rw [path_index_toNat hD hi hl, MerkleTree.numbered_number hashv hi hl.le, hpath l hl, hindex]
    rw [hindex] at hnum hlt
    exact ⟨hnum, by omega, rfl⟩
  obtain ⟨nodes', hwrite, hlen', hget⟩ := writeNodes_eq _ hslots
  refine ⟨{ canopy with nodes := nodes' }, ⟨by rw [hlen', hlen], fun n hn hlt => ?_⟩, htrailing, ?_⟩
  · dsimp only at hlt ⊢
    have hlt' : n - 2 < canopy.nodes.length := by rwa [← hlen']
    have hlog := h.log2_le hn hlt'
    rcases hget n hn hlt' with hnew | ⟨hold, hne⟩
    · rw [List.getElem?_eq_getElem hlt] at hnew
      exact .inl (Option.some.inj hnew)
    · -- a slot that is not written is beside the path
      rw [List.getElem?_eq_getElem hlt, List.getElem?_eq_getElem hlt'] at hold
      have hbeside : n ≠ number D j (D - n.log2) := by
        intro heq
        have hl : D - n.log2 < D := by
          have := (Nat.le_log2 (show n ≠ 0 by omega)).2 (show 2 ^ 1 ≤ n by omega)
          omega
        refine hne _ (mem_cached_path.2 ⟨D - n.log2, hl, by omega, rfl⟩) ?_
        dsimp only
        rw [path_index_toNat hD hi hl, hindex]
        exact heq.symm
      rw [Option.some.inj hold, MerkleTree.numbered_update_of_ne hashv (by omega) (by omega) hbeside]
      refine (h.slot n hn hlt').imp_right fun ⟨hslot, hempty⟩ => ⟨hslot, fun q hq => ?_⟩
      rw [Function.update_of_ne, hempty q hq]
      rintro rfl
      obtain ⟨i, hi', hnum⟩ := MerkleTree.exists_number (show 0 < n by omega) (hlog.trans hc)
      rw [← hnum, MerkleTree.under_number hi' (Nat.sub_le _ _)] at hq
      refine hbeside ?_
      conv_lhs => rw [← hnum]
      rw [number, number, hq]
  · rw [updateCanopy, checkCanopyBytes_eq htrailing, getCachedPathLength_eq hlen hc hD hdepth]
    have hc32 : (UInt32.ofNat c).toNat = c := by
      rw [UInt32.toNat_ofNat', Nat.mod_eq_of_lt (by omega)]
    simp only [Outcome.ok_bind, hc32, hwrite]

omit [NodeHash Node] in
/-- With a canopy, an event of an index beyond the tree is a panic. -/
theorem lt_of_updateCanopy {canopy canopy' : Canopy Node}
    (hlen : canopy.nodes.length + 2 = 2 ^ (c + 1)) (hc0 : 0 < c) (hc : c ≤ D) (hD2 : 2 ≤ D)
    (hD : D < 31) (hdepth : maxDepth.toNat = D)
    {cl : ChangeLog Node D} {id : Pubkey} {seq : ℕ}
    (hok : updateCanopy canopy maxDepth (some (ChangeLogEvent.ofChangeLog cl id seq)) =
      .ok canopy') : cl.index.toNat < 2 ^ D := by
  rw [updateCanopy] at hok
  obtain ⟨⟨⟩, -, hok⟩ := Outcome.bind_eq_ok.1 hok
  obtain ⟨pathLen, hlen', hok⟩ := Outcome.bind_eq_ok.1 hok
  rw [getCachedPathLength_eq hlen hc hD hdepth] at hlen'
  obtain ⟨nodes', hwrite, -⟩ := Outcome.bind_eq_ok.1 hok
  have hpathLen : pathLen.toNat = c := by
    rw [← Outcome.ok.inj hlen', UInt32.toNat_ofNat', Nat.mod_eq_of_lt (by omega)]
  rw [hpathLen] at hwrite
  have hslot : ∀ l, l < D → D - c ≤ l →
      (1 <<< UInt32.ofNat (D - l) + cl.index >>> UInt32.ofNat l - 2 : UInt32).toNat <
        canopy.nodes.length := by
    intro l hl hle
    have hlt := lt_of_writeNodes hwrite _ (mem_cached_path.2 ⟨l, hl, hle, rfl⟩)
    exact hlt
  -- as long as the sum does not overflow, the slot bounds the index
  have hbound : ∀ l, l < D → D - c ≤ l → 2 ^ (D - l) + cl.index.toNat / 2 ^ l < 2 ^ 32 →
      2 ^ (D - l) + cl.index.toNat / 2 ^ l < 2 ^ (c + 1) := by
    intro l hl hle hsum
    have htwo : 2 ≤ 2 ^ (D - l) := Nat.le_self_pow (by omega) 2
    have hnum : (1 <<< UInt32.ofNat (D - l) + cl.index >>> UInt32.ofNat l : UInt32).toNat =
        2 ^ (D - l) + cl.index.toNat / 2 ^ l := by
      rw [UInt32.toNat_add, one_shiftLeft_toNat (by omega), shiftRight_toNat _ (by omega),
        Nat.mod_eq_of_lt hsum]
    have hlt := hslot l hl hle
    rw [UInt32.toNat_sub_of_le _ _ (UInt32.le_iff_toNat_le.2 (by
      rw [hnum]
      exact htwo.trans (Nat.le_add_right _ _))), hnum, show (2 : UInt32).toNat = 2 from rfl] at hlt
    omega
  have hindex := cl.index.toNat_lt
  rcases Nat.eq_or_lt_of_le hc with rfl | hlt
  · -- the slots of the leaves: level `1` keeps the sum at level `0` from overflowing
    have h1 := hbound 1 (by omega) (by omega) (by
      have : 2 ^ (c - 1) ≤ 2 ^ 30 := Nat.pow_le_pow_right (by norm_num) (by omega)
      omega)
    have hpow : 2 ^ (c + 1) = 2 * 2 ^ c := by rw [pow_succ, Nat.mul_comm]
    have hpow' : 2 ^ c ≤ 2 ^ 30 := Nat.pow_le_pow_right (by norm_num) (by omega)
    have hhalf : 2 ^ c = 2 * 2 ^ (c - 1) := by
      rw [← pow_succ', Nat.sub_add_cancel hc0]
    have h0 := hbound 0 (by omega) (by omega) (by
      rw [Nat.sub_zero, pow_zero, Nat.div_one]
      omega)
    rw [Nat.sub_zero, pow_zero, Nat.div_one] at h0
    omega
  · have hl : 1 ≤ D - c := by omega
    have hquot : cl.index.toNat / 2 ^ (D - c) ≤ cl.index.toNat / 2 := by
      exact Nat.div_le_div_left (Nat.le_self_pow (by omega) 2) (by norm_num)
    have hpow : 2 ^ (D - (D - c)) ≤ 2 ^ 30 := Nat.pow_le_pow_right (by norm_num) (by omega)
    have hb := hbound (D - c) (by omega) le_rfl (by omega)
    rw [Nat.sub_sub_self hc, pow_succ] at hb
    have hdiv : cl.index.toNat / 2 ^ (D - c) < 2 ^ c := by omega
    rw [Nat.div_lt_iff_lt_mul (by positivity), ← pow_add, Nat.add_sub_cancel' hc] at hdiv
    exact hdiv

end Write

end Candyland.Gummyroll
