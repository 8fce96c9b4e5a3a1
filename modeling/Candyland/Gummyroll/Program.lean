import Candyland.Gummyroll.Canopy
import Candyland.ConcurrentMerkleTree.Run

/-!
# The instructions

The gummyroll program keeps in one account a header, a roll and a canopy.  The macros of
the source pick the type of the roll from the two constants in the header; here an account
has the constants `D` and `B` of its roll in its type, and the table of the macros says
which ones there are.

An instruction that does not return `Ok` leaves the account as it was, since its
transaction is undone, so only `Ok` carries an account.  The remaining accounts of the
context are the proof.
-/

namespace Candyland.Gummyroll

open ConcurrentMerkleTree

/-- A gummyroll account: its address and the parts of its data. -/
structure Account (Node Pubkey : Type) (D B : ℕ) where
  key : Pubkey
  header : MerkleRollHeader Pubkey
  roll : MerkleRoll Node D B
  canopy : Canopy Node
deriving DecidableEq

/-- The pairs of `max_depth` and `max_buffer_size` in the macros `merkle_roll_get_size!`
and `merkle_roll_apply_fn!`. -/
def supportedConstants : List (UInt32 × UInt32) :=
  [(3, 8), (5, 8), (14, 64), (14, 256), (14, 1024), (14, 2048), (20, 64), (20, 256), (20, 1024),
    (20, 2048), (24, 64), (24, 256), (24, 512), (24, 1024), (24, 2048), (26, 512), (26, 1024),
    (26, 2048), (30, 512), (30, 1024), (30, 2048)]

variable {Node Pubkey : Type} {D B : ℕ}

/-- `merkle_roll_get_size!(header)`, without the size. -/
def merkleRollGetSize (header : MerkleRollHeader Pubkey) : Outcome GummyrollError Unit :=
  if (header.maxDepth, header.maxBufferSize) ∈ supportedConstants then .ok ()
  else .err .MerkleRollConstantsError

/-- `merkle_roll_apply_fn!(header, id, roll_bytes, func, ..)`: the event and the roll. -/
def merkleRollApplyFn (header : MerkleRollHeader Pubkey) (id : Pubkey) (roll : MerkleRoll Node D B)
    (func : MerkleRoll Node D B → Outcome CMTError Node × MerkleRoll Node D B) :
    Outcome GummyrollError (ChangeLogEvent Node Pubkey × MerkleRoll Node D B) :=
  if (header.maxDepth, header.maxBufferSize) ∈ supportedConstants then
    match func roll with
    | (.ok _, roll) =>
      .ok (ChangeLogEvent.ofChangeLog roll.getChangeLog id roll.sequenceNumber, roll)
    | (.err _, _) => .err .ConcurrentMerkleTreeError
    | (.panic, _) => .panic
  else .err .MerkleRollConstantsError

variable [NodeHash Node] [DecidableEq Node] [DecidableEq Pubkey] [Build] [hB : BufferSize B]

namespace Account

/-- `init_empty_gummyroll(max_depth, max_buffer_size)`. -/
def initEmptyGummyroll (self : Account Node Pubkey D B) (authority appendAuthority : Pubkey)
    (slot : ℕ) :
    Outcome GummyrollError (ChangeLogEvent Node Pubkey × Account Node Pubkey D B) :=
  match self.header.initialize (UInt32.ofNat D) (UInt32.ofNat B) authority appendAuthority slot with
  | none => .panic
  | some header => do
    merkleRollGetSize header
    let (changeLog, roll) ←
      merkleRollApplyFn header self.key self.roll MerkleRoll.initializeRoll
    let canopy ← updateCanopy self.canopy header.maxDepth
      (none : Option (ChangeLogEvent Node Pubkey))
    .ok (changeLog, { self with header := header, roll := roll, canopy := canopy })

/-- `init_gummyroll_with_root(max_depth, max_buffer_size, root, leaf, index, ..)`. -/
def initGummyrollWithRoot (self : Account Node Pubkey D B) (authority appendAuthority : Pubkey)
    (slot : ℕ) (root leaf : Node) (index : UInt32) (proof : List Node) :
    Outcome GummyrollError (ChangeLogEvent Node Pubkey × Account Node Pubkey D B) :=
  match self.header.initialize (UInt32.ofNat D) (UInt32.ofNat B) authority appendAuthority slot with
  | none => .panic
  | some header => do
    merkleRollGetSize header
    let (canopy, proof) ← fillInProofFromCanopy self.canopy header.maxDepth index proof
    Outcome.assert (proof.length = (UInt32.ofNat D).toNat)
    let (changeLog, roll) ← merkleRollApplyFn header self.key self.roll
      fun roll => roll.initializeWithRoot root leaf proof index
    let canopy ← updateCanopy canopy header.maxDepth (some changeLog)
    .ok (changeLog, { self with header := header, roll := roll, canopy := canopy })

/-- `replace_leaf(root, previous_leaf, new_leaf, index)`. -/
def replaceLeaf (self : Account Node Pubkey D B) (authority : Pubkey)
    (root previousLeaf newLeaf : Node) (index : UInt32) (proof : List Node) :
    Outcome GummyrollError (ChangeLogEvent Node Pubkey × Account Node Pubkey D B) := do
  Outcome.assert (self.header.authority = authority)
  merkleRollGetSize self.header
  let (canopy, proof) ← fillInProofFromCanopy self.canopy self.header.maxDepth index proof
  let (changeLog, roll) ← merkleRollApplyFn self.header self.key self.roll
    fun roll => roll.setLeaf root previousLeaf newLeaf proof index
  let canopy ← updateCanopy canopy self.header.maxDepth (some changeLog)
  .ok (changeLog, { self with roll := roll, canopy := canopy })

omit [NodeHash Node] [DecidableEq Node] [Build] hB in
/-- `transfer_authority(new_authority, new_append_authority)`. -/
def transferAuthority (self : Account Node Pubkey D B) (authority : Pubkey)
    (newAuthority newAppendAuthority : Option Pubkey) :
    Outcome GummyrollError (Account Node Pubkey D B) := do
  Outcome.assert (self.header.authority = authority)
  .ok { self with
    header := { self.header with
      authority := newAuthority.getD self.header.authority
      appendAuthority := newAppendAuthority.getD self.header.appendAuthority } }

/-- `verify_leaf(root, leaf, index)`. -/
def verifyLeaf (self : Account Node Pubkey D B) (root leaf : Node) (index : UInt32)
    (proof : List Node) : Outcome GummyrollError (Account Node Pubkey D B) := do
  merkleRollGetSize self.header
  let (canopy, proof) ← fillInProofFromCanopy self.canopy self.header.maxDepth index proof
  let (_, roll) ← merkleRollApplyFn self.header self.key self.roll
    fun roll => roll.proveLeaf root leaf proof index
  .ok { self with roll := roll, canopy := canopy }

/-- `append(leaf)`. -/
def append (self : Account Node Pubkey D B) (authority appendAuthority : Pubkey) (leaf : Node) :
    Outcome GummyrollError (ChangeLogEvent Node Pubkey × Account Node Pubkey D B) := do
  Outcome.assert (self.header.authority = authority)
  Outcome.assert (self.header.appendAuthority = appendAuthority)
  merkleRollGetSize self.header
  let (changeLog, roll) ← merkleRollApplyFn self.header self.key self.roll
    fun roll => roll.append leaf
  let canopy ← updateCanopy self.canopy self.header.maxDepth (some changeLog)
  .ok (changeLog, { self with roll := roll, canopy := canopy })

/-- `insert_or_append(root, leaf, index)`. -/
def insertOrAppend (self : Account Node Pubkey D B) (authority : Pubkey) (root leaf : Node)
    (index : UInt32) (proof : List Node) :
    Outcome GummyrollError (ChangeLogEvent Node Pubkey × Account Node Pubkey D B) := do
  Outcome.assert (self.header.authority = authority)
  merkleRollGetSize self.header
  let (canopy, proof) ← fillInProofFromCanopy self.canopy self.header.maxDepth index proof
  let (changeLog, roll) ← merkleRollApplyFn self.header self.key self.roll
    fun roll => roll.fillEmptyOrAppend root leaf proof index
  let canopy ← updateCanopy canopy self.header.maxDepth (some changeLog)
  .ok (changeLog, { self with roll := roll, canopy := canopy })

end Account

end Candyland.Gummyroll
