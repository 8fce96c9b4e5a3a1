import Candyland.ConcurrentMerkleTree.MerkleRoll
import Candyland.Lib.NodeNumber

/-!
# Headers and change log events

The data of the gummyroll program around a roll.  An event tells indexers which nodes an
update changed, each with its number in the tree.
-/

namespace Candyland.Gummyroll

open ConcurrentMerkleTree

/-- `GummyrollError`, the variants that are returned: loading the roll unwraps its
error, so that `ZeroCopyError` never is. -/
inductive GummyrollError where
  | ConcurrentMerkleTreeError
  | MerkleRollConstantsError
  | CanopyLengthMismatch
deriving DecidableEq, Repr

/-- Whether the program is built with overflow checks.  Its own manifest asks for them;
in a workspace only the manifest at the root is followed, which does not. -/
class Build where
  overflowChecks : Bool

/-- `a + b` on `u32`. -/
def addU32 [Build] (a b : UInt32) : Outcome GummyrollError UInt32 :=
  if Build.overflowChecks && decide (2 ^ 32 ≤ a.toNat + b.toNat) then .panic else .ok (a + b)

/-- `a - b` on `u32`. -/
def subU32 [Build] (a b : UInt32) : Outcome GummyrollError UInt32 :=
  if Build.overflowChecks && decide (a < b) then .panic else .ok (a - b)

/-- `PathNode`. -/
structure PathNode (Node : Type) where
  node : Node
  index : UInt32
deriving DecidableEq

/-- `ChangeLogEvent`. -/
structure ChangeLogEvent (Node Pubkey : Type) where
  id : Pubkey
  path : List (PathNode Node)
  seq : ℕ
  index : UInt32
deriving DecidableEq

/-- `MerkleRollHeader`. -/
structure MerkleRollHeader (Pubkey : Type) where
  maxBufferSize : UInt32
  maxDepth : UInt32
  authority : Pubkey
  appendAuthority : Pubkey
  creationSlot : ℕ
deriving DecidableEq

variable {Node Pubkey : Type} {D : ℕ}

/-- `ChangeLogEvent::from((changelog, tree_id, seq))`.  The sum overflows for no index that
has passed the same sum in `fill_in_proof_from_canopy`. -/
def ChangeLogEvent.ofChangeLog (changelog : ChangeLog Node D) (treeId : Pubkey) (seq : ℕ) :
    ChangeLogEvent Node Pubkey where
  id := treeId
  path := List.ofFn (fun lvl : Fin D =>
      (⟨changelog.path[lvl], (1 <<< UInt32.ofNat (D - lvl)) +
        (changelog.index >>> UInt32.ofNat lvl)⟩ : PathNode Node)) ++
    [⟨changelog.root, 1⟩]
  seq := seq
  index := changelog.index

/-- `MerkleRollHeader::initialize`: `none` when the header is in use already. -/
def MerkleRollHeader.initialize [DecidableEq Pubkey] (self : MerkleRollHeader Pubkey)
    (maxDepth maxBufferSize : UInt32) (authority appendAuthority : Pubkey) (creationSlot : ℕ) :
    Option (MerkleRollHeader Pubkey) :=
  if self.maxBufferSize = 0 ∧ self.maxDepth = 0 then
    some ⟨maxBufferSize, maxDepth, authority, appendAuthority, creationSlot⟩
  else none

/-! ### Node numbers -/

/-- The number in an event is that of the node, for an index of the tree. -/
theorem path_index_toNat (hD : D < 31) {index : UInt32} (hi : index.toNat < 2 ^ D) {l : ℕ}
    (hl : l < D) :
    ((1 : UInt32) <<< UInt32.ofNat (D - l) + index >>> UInt32.ofNat l).toNat =
      MerkleTree.number D index.toNat l := by
  have hdiv := MerkleTree.div_lt_of_lt hi hl.le
  have hpow : 2 ^ (D - l) ≤ 2 ^ 30 := Nat.pow_le_pow_right (by norm_num) (by omega)
  rw [UInt32.toNat_add, one_shiftLeft_toNat (by omega), shiftRight_toNat _ (by omega),
    Nat.mod_eq_of_lt (by omega), MerkleTree.number]

/-- The path of an event from a change log of the tree: the nodes of the path of its leaf,
each with its number, and the root. -/
theorem ofChangeLog_path [NodeHash Node] (hD : D < 31) {cl : ChangeLog Node D} {T : ℕ → Node}
    {j : ℕ} (hrec : cl.Records T j) (hi : cl.index.toNat < 2 ^ D) (id : Pubkey) (seq : ℕ) :
    (ChangeLogEvent.ofChangeLog cl id seq).path =
      (List.range (D + 1)).map fun l =>
        ⟨MerkleTree.node hashv T l (j / 2 ^ l), UInt32.ofNat (MerkleTree.number D j l)⟩ := by
  obtain ⟨hroot, hindex, hpath⟩ := hrec
  rw [position_of_lt hi] at hindex
  subst hindex
  rw [List.range_succ, List.map_append]
  refine congrArg₂ (· ++ ·) ?_ ?_
  · refine List.ext_getElem (by simp) fun l h₁ h₂ => ?_
    have hl : l < D := by simpa using h₁
    rw [List.getElem_ofFn, List.getElem_map, List.getElem_range]
    congr 1
    · exact hpath l hl
    · rw [← path_index_toNat hD hi hl, UInt32.ofNat_toNat]
  · have hone : MerkleTree.number D cl.index.toNat D = 1 := by
      rw [MerkleTree.number, Nat.sub_self, pow_zero, Nat.div_eq_of_lt hi]
    rw [List.map_singleton, hone, hroot, Nat.div_eq_of_lt hi, MerkleTree.root]
    rfl

end Candyland.Gummyroll
