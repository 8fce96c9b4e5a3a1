import Candyland.ConcurrentMerkleTree.Utils

/-!
# Change logs and the rightmost path

The data of `state.rs`.  A change log is the path of one written leaf; patching a
proof with it is the step from which all fast-forwarding is made.
-/

namespace Candyland.ConcurrentMerkleTree

/-- `CMTError`, the variants that the roll returns. -/
inductive CMTError where
  | LeafIndexOutOfBounds
  | InvalidProof
  | CannotAppendEmptyNode
  | TreeFull
  | TreeAlreadyInitialized
  | RootNotFound
  | LeafContentsModified
deriving DecidableEq, Repr

/-- `ChangeLog<MAX_DEPTH>`. -/
structure ChangeLog (Node : Type) (D : ℕ) where
  root : Node
  path : Vector Node D
  index : UInt32
deriving DecidableEq

/-- `Path<MAX_DEPTH>`. -/
structure Path (Node : Type) (D : ℕ) where
  proof : Vector Node D
  leaf : Node
  index : UInt32
deriving DecidableEq

variable {Node : Type} [NodeHash Node] {D : ℕ}

/-- `Path::default()`. -/
def Path.default : Path Node D := ⟨Vector.replicate D EMPTY, EMPTY, 0⟩

namespace ChangeLog

/-- `ChangeLog::default()`. -/
def default : ChangeLog Node D := ⟨EMPTY, Vector.replicate D EMPTY, 0⟩

/-- `ChangeLog::new(root, path, index)`. -/
def new (root : Node) (path : Vector Node D) (index : UInt32) : ChangeLog Node D :=
  ⟨root, path, index⟩

omit [NodeHash Node] in
/-- `get_leaf`: `none` when there is no `path[0]`. -/
def getLeaf (self : ChangeLog Node D) : Option Node := self.path[0]?

/-- `replace_and_recompute_path(index, node, proof)`. -/
def replaceAndRecomputePath (self : ChangeLog Node D) (index : UInt32) (node : Node)
    (proof : Vector Node D) : Node × ChangeLog Node D :=
  let (path, node) := Nat.fold D
    (fun i _ st => (st.1.set i st.2, hashToParent st.2 proof[i] (isLeft index i)))
    (self.path, node)
  (node, { root := node, path := path, index := index })

omit [NodeHash Node] in
/-- `update_proof_or_leaf(leaf_index, proof, leaf)`: the new proof and leaf, `none` on a
panic.  When the common path is not shorter than the tree, `critbit_index` underflows
and the access to `proof` is out of range. -/
def updateProofOrLeaf (self : ChangeLog Node D) (leafIndex : UInt32) (proof : Vector Node D)
    (leaf : Node) : Option (Vector Node D × Node) :=
  let padding := UInt32.ofNat (32 - D)
  if leafIndex ≠ self.index then
    let commonPathLen := leadingZeros ((leafIndex ^^^ self.index) <<< padding)
    if h : commonPathLen < D then
      let critbitIndex := D - 1 - commonPathLen
      have : critbitIndex < D := by omega
      some (proof.set critbitIndex self.path[critbitIndex], leaf)
    else none
  else self.getLeaf.map fun l => (proof, l)

/-! ### The critical bit -/

theorem toNat_shiftLeft_padding (x : UInt32) (hD0 : 0 < D) (hD : D ≤ 32) :
    (x <<< UInt32.ofNat (32 - D)).toNat = x.toNat % 2 ^ D * 2 ^ (32 - D) := by
  have hpad : 32 - D < 32 := by omega
  rw [UInt32.toNat_shiftLeft, UInt32.toNat_ofNat', Nat.mod_eq_of_lt (hpad.trans (by norm_num)),
    Nat.mod_eq_of_lt hpad, Nat.shiftLeft_eq, ← Nat.mul_mod_mul_right, ← pow_add,
    Nat.add_sub_cancel' hD]

/-- The leading zeros of the shifted word count the levels above the highest bit
among the low `D`. -/
theorem leadingZeros_padding (x : UInt32) (hD0 : 0 < D) (hD : D ≤ 32)
    (hx : x.toNat % 2 ^ D ≠ 0) :
    leadingZeros (x <<< UInt32.ofNat (32 - D)) = D - 1 - (x.toNat % 2 ^ D).log2 := by
  have hshift := toNat_shiftLeft_padding x hD0 hD
  have hlt : x.toNat % 2 ^ D < 2 ^ D := Nat.mod_lt _ (by positivity)
  generalize x.toNat % 2 ^ D = y at hx hshift hlt
  have hpos : 0 < 2 ^ (32 - D) := by positivity
  have hlog : (y * 2 ^ (32 - D)).log2 = y.log2 + (32 - D) := by
    rw [Nat.log2_eq_iff (Nat.mul_ne_zero hx hpos.ne')]
    have hy := (Nat.log2_eq_iff hx).1 rfl
    constructor
    · rw [pow_add]
      exact Nat.mul_le_mul_right _ hy.1
    · rw [show y.log2 + (32 - D) + 1 = y.log2 + 1 + (32 - D) by omega, pow_add _ (_ + 1)]
      exact Nat.mul_lt_mul_of_pos_right hy.2 hpos
  have hne : x <<< UInt32.ofNat (32 - D) ≠ 0 := by
    rw [ne_eq, ← UInt32.toNat_inj, hshift]
    exact Nat.mul_ne_zero hx hpos.ne'
  have hlogD : y.log2 < D := (Nat.log2_lt hx).2 hlt
  rw [leadingZeros, if_neg hne, hshift, hlog]
  omega

/-- When the low bits agree, nothing remains after the shift. -/
theorem leadingZeros_padding_zero (x : UInt32) (hD0 : 0 < D) (hD : D ≤ 32)
    (hx : x.toNat % 2 ^ D = 0) : leadingZeros (x <<< UInt32.ofNat (32 - D)) = 32 := by
  have hzero : x <<< UInt32.ofNat (32 - D) = 0 := by
    rw [← UInt32.toNat_inj, toNat_shiftLeft_padding x hD0 hD, hx, Nat.zero_mul]
    rfl
  rw [leadingZeros, if_pos hzero]

theorem toNat_xor_mod (i j : UInt32) :
    (i ^^^ j).toNat % 2 ^ D = position D i ^^^ position D j := by
  rw [UInt32.toNat_xor, Nat.xor_mod_two_pow, position, position]

omit [NodeHash Node] in
/-- A leaf of a tree without levels cannot be patched. -/
theorem updateProofOrLeaf_depth_zero (self : ChangeLog Node 0) (leafIndex : UInt32)
    (proof : Vector Node 0) (leaf : Node) :
    self.updateProofOrLeaf leafIndex proof leaf = none := by
  simp [updateProofOrLeaf, getLeaf]

omit [NodeHash Node] in
/-- Two different indices of one leaf are a panic. -/
theorem updateProofOrLeaf_alias {self : ChangeLog Node D} {leafIndex : UInt32}
    (proof : Vector Node D) (leaf : Node) (hD : D ≤ 32) (hne : leafIndex ≠ self.index)
    (hpos : position D leafIndex = position D self.index) :
    self.updateProofOrLeaf leafIndex proof leaf = none := by
  rcases Nat.eq_zero_or_pos D with rfl | hD0
  · exact updateProofOrLeaf_depth_zero self leafIndex proof leaf
  · have hx : (leafIndex ^^^ self.index).toNat % 2 ^ D = 0 := by
      rw [toNat_xor_mod, hpos, Nat.xor_self]
    have hlz := leadingZeros_padding_zero _ hD0 hD hx
    rw [updateProofOrLeaf, if_pos hne, dif_neg (by omega)]

omit [NodeHash Node] in
/-- For different leaves the entry of the separating level is replaced. -/
theorem updateProofOrLeaf_ne {self : ChangeLog Node D} {leafIndex : UInt32}
    (proof : Vector Node D) (leaf : Node) (hD : D ≤ 32)
    (hpos : position D leafIndex ≠ position D self.index) :
    ∃ h : (position D leafIndex ^^^ position D self.index).log2 < D,
      self.updateProofOrLeaf leafIndex proof leaf =
        some (proof.set _ (self.path[(position D leafIndex ^^^ position D self.index).log2]) h,
          leaf) := by
  have hlog := Bits.log2_xor_lt (position_lt D leafIndex) (position_lt D self.index) hpos
  refine ⟨hlog, ?_⟩
  have hne : leafIndex ≠ self.index := by
    rintro h
    exact hpos (by rw [h])
  have hx : (leafIndex ^^^ self.index).toNat % 2 ^ D ≠ 0 := by
    rw [toNat_xor_mod]
    exact Bits.xor_ne_zero hpos
  have hlz := leadingZeros_padding _ (by omega) hD hx
  rw [toNat_xor_mod] at hlz
  have hcrit : D - 1 - leadingZeros ((leafIndex ^^^ self.index) <<< UInt32.ofNat (32 - D)) =
      (position D leafIndex ^^^ position D self.index).log2 := by
    omega
  rw [updateProofOrLeaf, if_pos hne, dif_pos (by omega)]
  simp only [hcrit]

/-! ### Change logs of a tree -/

/-- The change log is the path of leaf `j` in the tree with leaves `T`. -/
structure Records (cl : ChangeLog Node D) (T : ℕ → Node) (j : ℕ) : Prop where
  root_eq : cl.root = MerkleTree.root hashv D T
  index_eq : position D cl.index = j
  path_eq : ∀ l (hl : l < D), cl.path[l] = MerkleTree.node hashv T l (j / 2 ^ l)

/-- The path and the root made by `replace_and_recompute_path` are the climb from the
new leaf. -/
theorem replaceAndRecomputePath_spec (self : ChangeLog Node D) (index : UInt32) (x : Node)
    (proof : Vector Node D) (hD : D ≤ 32) :
    let climb := MerkleTree.climb hashv x (levels proof) index.toNat
    (self.replaceAndRecomputePath index x proof).1 = climb D ∧
      (self.replaceAndRecomputePath index x proof).2.root = climb D ∧
      (self.replaceAndRecomputePath index x proof).2.index = index ∧
      ∀ l (hl : l < D), (self.replaceAndRecomputePath index x proof).2.path[l] = climb l := by
  have hinv := Loop.fold_invariant (n := D)
    (f := fun i hi (st : Vector Node D × Node) =>
      (st.1.set i st.2, hashToParent st.2 proof[i] (isLeft index i)))
    (s := (self.path, x))
    (fun i st => st.2 = MerkleTree.climb hashv x (levels proof) index.toNat i ∧
      ∀ l (hl : l < D), l < i →
        st.1[l] = MerkleTree.climb hashv x (levels proof) index.toNat l)
    ⟨rfl, fun l _ h => absurd h (by omega)⟩
    (by
      rintro i hi ⟨path, node⟩ ⟨hnode, hpath⟩
      dsimp only at hnode hpath
      subst hnode
      refine ⟨hashToParent_eq_climb x proof index hi hD, fun l hl hlt => ?_⟩
      rw [Vector.getElem_set]
      split_ifs with heq
      · rw [heq]
      · exact hpath l hl (by omega))
  exact ⟨hinv.1, hinv.1, rfl, fun l hl => hinv.2 l hl hl⟩

/-- A change log made from current siblings records the written tree. -/
theorem records_replaceAndRecomputePath (self : ChangeLog Node D) {index : UInt32} (x : Node)
    {proof : Vector Node D} {T : ℕ → Node} (hD : D ≤ 32)
    (hproof : ∀ l < D, levels proof l = MerkleTree.sibling hashv T (position D index) l) :
    (self.replaceAndRecomputePath index x proof).2.Records
      (Function.update T (position D index) x) (position D index) := by
  obtain ⟨-, hroot, hindex, hpath⟩ := replaceAndRecomputePath_spec self index x proof hD
  have hclimb : ∀ l ≤ D, MerkleTree.climb hashv x (levels proof) index.toNat l =
      MerkleTree.node hashv (Function.update T (position D index) x) l
        (position D index / 2 ^ l) := by
    intro l hl
    rw [← MerkleTree.climb_mod hashv x (levels proof) index.toNat hl, ← position,
      ← MerkleTree.climb_update]
    exact MerkleTree.climb_congr hashv fun m hm => hproof m (by omega)
  refine ⟨?_, by rw [hindex], fun l hl => by rw [hpath l hl, hclimb l hl.le]⟩
  rw [hroot, hclimb D le_rfl, Nat.div_eq_of_lt (position_lt D index), MerkleTree.root]

/-- The result of `replace_and_recompute_path` is the root of the written tree. -/
theorem replaceAndRecomputePath_fst (self : ChangeLog Node D) {index : UInt32} (x : Node)
    {proof : Vector Node D} {T : ℕ → Node} (hD : D ≤ 32)
    (hproof : ∀ l < D, levels proof l = MerkleTree.sibling hashv T (position D index) l) :
    (self.replaceAndRecomputePath index x proof).1 =
      MerkleTree.root hashv D (Function.update T (position D index) x) := by
  rw [← (records_replaceAndRecomputePath self x hD hproof).root_eq]
  rfl

/-- `update_proof_or_leaf` is the patch of its tree, unless it meets another index of
the same leaf. -/
theorem Records.updateProofOrLeaf_eq {self : ChangeLog Node D} {T : ℕ → Node} {j : ℕ}
    (h : self.Records T j) (hD0 : 0 < D) (hD : D ≤ 32) (leafIndex : UInt32) (leaf : Node)
    (halias : position D leafIndex = j → leafIndex = self.index)
    {proof : Vector Node D} {s : ℕ → Node} (hproof : ∀ l < D, levels proof l = s l) :
    let st := MerkleTree.patch hashv T (position D leafIndex) j (s, leaf)
    ∃ proof', self.updateProofOrLeaf leafIndex proof leaf = some (proof', st.2) ∧
      ∀ l < D, levels proof' l = st.1 l := by
  obtain ⟨-, hj, hpath⟩ := h
  rw [MerkleTree.patch]
  by_cases hpos : position D leafIndex = j
  · rw [if_pos hpos]
    refine ⟨proof, ?_, hproof⟩
    have hleaf : self.getLeaf = some (T j) := by
      rw [getLeaf, Vector.getElem?_eq_getElem hD0, hpath 0 hD0, pow_zero, Nat.div_one,
        MerkleTree.node_zero]
    rw [updateProofOrLeaf, if_neg (not_not.2 (halias hpos)), hleaf, hpos]
    rfl
  · rw [if_neg hpos]
    rw [← hj] at hpos
    obtain ⟨hlt, hupd⟩ := updateProofOrLeaf_ne proof leaf hD hpos
    refine ⟨_, hupd, fun l hl => ?_⟩
    rw [levels_of_lt _ hl, Vector.getElem_set]
    simp only [← hj, Bits.splits_iff hpos]
    by_cases hlog : l = (position D leafIndex ^^^ position D self.index).log2
    · rw [if_pos hlog.symm, if_pos hlog]
      subst hlog
      rw [hpath _ hl, hj]
    · rw [if_neg (Ne.symm hlog), if_neg hlog, ← hproof l hl, levels_of_lt _ hl]

end ChangeLog

end Candyland.ConcurrentMerkleTree
