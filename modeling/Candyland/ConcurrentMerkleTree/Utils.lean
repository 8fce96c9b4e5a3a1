import Candyland.Lib.Loop
import Candyland.Lib.MerkleTree

/-!
# Nodes and hashing

`state.rs` defines a node as 32 bytes and `utils.rs` hashes two of them with keccak.
No function on 32 bytes is collision-free, so the nodes are an arbitrary type with a
zero value and a two-input hash, and the two properties of keccak that results rest on
are classes of their own.

The loops of the source run over a constant range; they are `Nat.fold` here.
-/

namespace Candyland.ConcurrentMerkleTree

/-- The nodes of a tree: `EMPTY` is the zero node, `hashv` the hash of two nodes. -/
class NodeHash (Node : Type) where
  EMPTY : Node
  hashv : Node → Node → Node

export NodeHash (EMPTY hashv)

/-- Different pairs of nodes have different hashes. -/
class CollisionFree (Node : Type) [NodeHash Node] : Prop where
  hashv_inj : ∀ a b c d : Node, hashv a b = hashv c d → a = c ∧ b = d

/-- No pair of nodes has the zero hash. -/
class NonzeroHash (Node : Type) [NodeHash Node] : Prop where
  hashv_ne_empty : ∀ a b : Node, hashv a b ≠ EMPTY

variable {Node : Type} [NodeHash Node] {D : ℕ}

/-- `empty_node(level)`, which is `empty_node_cached::<0>` with no cache to look in. -/
def emptyNode : ℕ → Node
  | 0 => EMPTY
  | target + 1 => hashv (emptyNode target) (emptyNode target)

/-- `empty_node_cached(level, cache)`.  The cache is read and never filled. -/
def emptyNodeCached [DecidableEq Node] {N : ℕ} (cache : Vector Node N) : ℕ → Node
  | 0 => EMPTY
  | target + 1 =>
    let lowerEmpty :=
      if h : target < N then
        if cache[target] ≠ EMPTY then cache[target] else emptyNode target
      else emptyNode target
    hashv lowerEmpty lowerEmpty

/-- `index >> depth & 1 == 0` on a `u32`. -/
def isLeft (index : UInt32) (depth : ℕ) : Bool :=
  (index >>> UInt32.ofNat depth) &&& 1 == 0

/-- `hash_to_parent(node, sibling, is_left)`. -/
def hashToParent (node sibling : Node) (isLeft : Bool) : Node :=
  if isLeft then hashv node sibling else hashv sibling node

/-- `recompute(leaf, proof, index)`. -/
def recompute (leaf : Node) (proof : Vector Node D) (index : UInt32) : Node :=
  Nat.fold D (fun depth _ node => hashToParent node proof[depth] (isLeft index depth)) leaf

/-- `fill_in_proof(proof_vec, full_proof)`: `none` when the given nodes do not fit, for
then the slice `full_proof[..proof_vec.len()]` is out of range. -/
def fillInProof (D : ℕ) (proofVec : List Node) : Option (Vector Node D) :=
  if proofVec.length ≤ D then
    some (Nat.fold D
      (fun i _ fullProof => fullProof.set i
        (if h : i < proofVec.length then proofVec[i] else emptyNode i))
      (Vector.replicate D EMPTY))
  else none

/-- `u32::leading_zeros`. -/
def leadingZeros (x : UInt32) : ℕ := if x = 0 then 32 else 31 - x.toNat.log2

/-- `u32::trailing_zeros`, looking at the bits `i`, `i + 1`, … below `32`. -/
def trailingZerosFrom (x : UInt32) (i : ℕ) : ℕ → ℕ
  | 0 => i
  | fuel + 1 => if x.toNat.testBit i then i else trailingZerosFrom x (i + 1) fuel

/-- `u32::trailing_zeros`. -/
def trailingZeros (x : UInt32) : ℕ := trailingZerosFrom x 0 32

/-! ### What they compute -/

theorem emptyNode_eq_uniform (level : ℕ) :
    emptyNode level = MerkleTree.uniform hashv (EMPTY : Node) level := by
  induction level with
  | zero => rfl
  | succ target ih => rw [emptyNode, ih, MerkleTree.uniform]

/-- The cache of the callers holds nothing but zero nodes. -/
@[simp] theorem emptyNodeCached_replicate [DecidableEq Node] (N level : ℕ) :
    emptyNodeCached (Vector.replicate N (EMPTY : Node)) level = emptyNode level := by
  cases level with
  | zero => rfl
  | succ target => simp [emptyNodeCached, emptyNode]

theorem one_shiftLeft_toNat {d : ℕ} (hd : d < 32) :
    ((1 : UInt32) <<< UInt32.ofNat d).toNat = 2 ^ d := by
  have hpow : 2 ^ d < 2 ^ 32 := Nat.pow_lt_pow_right (by norm_num) hd
  rw [UInt32.toNat_shiftLeft, UInt32.toNat_ofNat', Nat.mod_eq_of_lt (hd.trans (by norm_num)),
    Nat.mod_eq_of_lt hd, UInt32.toNat_one, Nat.one_shiftLeft, Nat.mod_eq_of_lt hpow]

theorem shiftRight_toNat (x : UInt32) {l : ℕ} (hl : l < 32) :
    (x >>> UInt32.ofNat l).toNat = x.toNat / 2 ^ l := by
  rw [UInt32.toNat_shiftRight, UInt32.toNat_ofNat', Nat.mod_eq_of_lt (hl.trans (by norm_num)),
    Nat.mod_eq_of_lt hl, Nat.shiftRight_eq_div_pow]

theorem isLeft_eq (index : UInt32) {depth : ℕ} (h : depth < 32) :
    isLeft index depth = !index.toNat.testBit depth := by
  have hbit : ((index >>> UInt32.ofNat depth) &&& 1).toNat = index.toNat / 2 ^ depth % 2 := by
    rw [UInt32.toNat_and, shiftRight_toNat index h]
    exact Nat.and_one_is_mod _
  rw [isLeft, Nat.testBit_eq_decide_div_mod_eq, Bool.eq_iff_iff, beq_iff_eq,
    ← UInt32.toNat_inj, hbit]
  rcases Nat.mod_two_eq_zero_or_one (index.toNat / 2 ^ depth) with h2 | h2 <;> simp [h2]

/-- The leaf that an index addresses: only the low `D` bits take part in hashing. -/
def position (D : ℕ) (index : UInt32) : ℕ := index.toNat % 2 ^ D

theorem position_lt (D : ℕ) (index : UInt32) : position D index < 2 ^ D :=
  Nat.mod_lt _ (by positivity)

theorem position_of_lt {index : UInt32} (h : index.toNat < 2 ^ D) :
    position D index = index.toNat :=
  Nat.mod_eq_of_lt h

/-- A proof as a function of the level. -/
def levels (proof : Vector Node D) (l : ℕ) : Node := if h : l < D then proof[l] else EMPTY

theorem levels_of_lt (proof : Vector Node D) {l : ℕ} (h : l < D) : levels proof l = proof[l] :=
  dif_pos h

/-- A step upward, with the direction read from the position. -/
theorem hashToParent_eq_climb (x : Node) (proof : Vector Node D) (index : UInt32) {l : ℕ}
    (hl : l < D) (hD : D ≤ 32) :
    hashToParent (MerkleTree.climb hashv x (levels proof) index.toNat l) proof[l]
        (isLeft index l) =
      MerkleTree.climb hashv x (levels proof) index.toNat (l + 1) := by
  rw [MerkleTree.climb_succ, isLeft_eq index (by omega), levels_of_lt proof hl, hashToParent]
  cases index.toNat.testBit l <;> rfl

theorem recompute_eq_climb (leaf : Node) (proof : Vector Node D) (index : UInt32)
    (hD : D ≤ 32) :
    recompute leaf proof index =
      MerkleTree.climb hashv leaf (levels proof) index.toNat D :=
  Loop.fold_invariant
    (fun l node => node = MerkleTree.climb hashv leaf (levels proof) index.toNat l) rfl
    fun l hl node hnode => by rw [hnode, hashToParent_eq_climb leaf proof index hl hD]

/-- Only a leaf of the tree with its own siblings recomputes the root. -/
theorem recompute_eq_root_iff [hH : CollisionFree Node] (hD : D ≤ 32) {T : ℕ → Node}
    {leaf : Node} {proof : Vector Node D} {index : UInt32} :
    recompute leaf proof index = MerkleTree.root hashv D T ↔
      leaf = T (position D index) ∧
        ∀ l < D, levels proof l = MerkleTree.sibling hashv T (position D index) l := by
  rw [recompute_eq_climb leaf proof index hD, ← MerkleTree.climb_mod hashv _ _ _ le_rfl,
    ← position]
  constructor
  · exact MerkleTree.climb_eq_root hH.hashv_inj (position_lt D index)
  · rintro ⟨rfl, hproof⟩
    rw [← MerkleTree.climb_sibling_root hashv T (position_lt D index)]
    exact MerkleTree.climb_congr hashv hproof

/-- Too many nodes are a panic. -/
theorem fillInProof_eq_none {proofVec : List Node} :
    fillInProof D proofVec = none ↔ D < proofVec.length := by
  rw [fillInProof]
  split_ifs with h
  · simpa using h
  · simpa using h

/-- The given nodes come first, then empty nodes. -/
theorem fillInProof_getElem {proofVec : List Node} {proof : Vector Node D}
    (h : fillInProof D proofVec = some proof) {l : ℕ} (hl : l < D) :
    proof[l] = if h : l < proofVec.length then proofVec[l] else emptyNode l := by
  rw [fillInProof] at h
  split_ifs at h
  rw [← Option.some.inj h, Loop.getElem_fold_set]

theorem trailingZerosFrom_spec (x : UInt32) {i fuel b : ℕ} (hb : x.toNat.testBit b = true)
    (hi : i ≤ b) (hfuel : b < i + fuel) :
    x.toNat.testBit (trailingZerosFrom x i fuel) = true ∧
      ∀ m, i ≤ m → m < trailingZerosFrom x i fuel → x.toNat.testBit m = false := by
  induction fuel generalizing i with
  | zero => omega
  | succ fuel ih =>
    rw [trailingZerosFrom]
    by_cases hbit : x.toNat.testBit i
    · rw [if_pos hbit]
      exact ⟨hbit, fun m h1 h2 => absurd h1 (by omega)⟩
    · rw [if_neg hbit]
      have hne : i ≠ b := by
        rintro rfl
        exact hbit hb
      obtain ⟨h1, h2⟩ := ih (i := i + 1) (by omega) (by omega)
      refine ⟨h1, fun m hm hlt => ?_⟩
      rcases Nat.eq_or_lt_of_le hm with rfl | hm
      · simpa using hbit
      · exact h2 m hm hlt

/-- The trailing zeros of a nonzero word give its largest power of two. -/
theorem oddMultiple_trailingZeros {x : UInt32} (hx : x ≠ 0) :
    Bits.OddMultiple x.toNat (trailingZeros x) := by
  have hpos : x.toNat ≠ 0 := by simpa [← UInt32.toNat_inj] using hx
  have hlog : x.toNat.log2 < 0 + 32 :=
    (Nat.log2_lt hpos).2 (x.toNat_lt.trans_eq (by norm_num))
  obtain ⟨hbit, hlow⟩ := trailingZerosFrom_spec x (Nat.testBit_log2 hpos) (Nat.zero_le _) hlog
  change x.toNat.testBit (trailingZeros x) = true at hbit
  change ∀ m, 0 ≤ m → m < trailingZeros x → x.toNat.testBit m = false at hlow
  generalize trailingZeros x = t at hbit hlow
  have hodd := (Bits.testBit_iff _ _).1 hbit
  have hmod : x.toNat % 2 ^ t = 0 := by
    refine Nat.eq_of_testBit_eq fun m => ?_
    rw [Nat.testBit_mod_two_pow, Nat.zero_testBit]
    by_cases hm : m < t
    · rw [hlow m (Nat.zero_le _) hm, Bool.and_false]
    · rw [decide_eq_false hm, Bool.false_and]
  refine ⟨x.toNat / 2 ^ t / 2, ?_⟩
  have hdm := Nat.div_add_mod x.toNat (2 ^ t)
  rw [hmod, Nat.add_zero] at hdm
  conv_lhs => rw [← hdm]
  congr 1
  omega

end Candyland.ConcurrentMerkleTree
