import Candyland.Gummyroll.Program
import Candyland.Lib.Bytes

/-!
# The bytes of an account

The data of a gummyroll account field by field, in the order of the declarations: the
header, the roll of the two constants in it, and a canopy.  Keys and nodes are 32 bytes.
-/

namespace Candyland.Gummyroll

open ConcurrentMerkleTree
open Bytes (ofU32 ofU64)

/-- A `Pubkey` or a `Node`. -/
abbrev Bytes32 := Vector UInt8 32

/-- `MerkleRollHeader` in memory. -/
structure HeaderData where
  maxBufferSize : UInt32
  maxDepth : UInt32
  authority : Bytes32
  appendAuthority : Bytes32
  creationSlot : UInt64

/-- `ChangeLog<MAX_DEPTH>` in memory. -/
structure ChangeLogData (D : ℕ) where
  root : Bytes32
  path : Vector Bytes32 D
  index : UInt32
  padding : UInt32

/-- `Path<MAX_DEPTH>` in memory. -/
structure PathData (D : ℕ) where
  proof : Vector Bytes32 D
  leaf : Bytes32
  index : UInt32
  padding : UInt32

/-- `MerkleRoll<MAX_DEPTH, MAX_BUFFER_SIZE>` in memory. -/
structure RollData (D B : ℕ) where
  sequenceNumber : UInt64
  activeIndex : UInt64
  bufferSize : UInt64
  changeLogs : Vector (ChangeLogData D) B
  rightmostProof : PathData D

/-- An account.  The constants of its roll are those of its header. -/
structure AccountData (D B : ℕ) where
  header : HeaderData
  roll : RollData D B
  canopy : List UInt8
  depth_eq : header.maxDepth.toNat = D
  size_eq : header.maxBufferSize.toNat = B

variable {D B : ℕ}

/-- Nodes one after the other. -/
def nodeBytes (nodes : List Bytes32) : List UInt8 := nodes.flatMap Vector.toList

def HeaderData.bytes (self : HeaderData) : List UInt8 :=
  ofU32 self.maxBufferSize ++ (ofU32 self.maxDepth ++ (self.authority.toList ++
    (self.appendAuthority.toList ++ ofU64 self.creationSlot)))

def ChangeLogData.bytes (self : ChangeLogData D) : List UInt8 :=
  self.root.toList ++ (nodeBytes self.path.toList ++ (ofU32 self.index ++ ofU32 self.padding))

def PathData.bytes (self : PathData D) : List UInt8 :=
  nodeBytes self.proof.toList ++ (self.leaf.toList ++ (ofU32 self.index ++ ofU32 self.padding))

def RollData.bytes (self : RollData D B) : List UInt8 :=
  ofU64 self.sequenceNumber ++ (ofU64 self.activeIndex ++ (ofU64 self.bufferSize ++
    (self.changeLogs.toList.flatMap ChangeLogData.bytes ++ self.rightmostProof.bytes)))

/-- The bytes of the account, without its canopy. -/
def AccountData.ownBytes (self : AccountData D B) : List UInt8 :=
  self.header.bytes ++ self.roll.bytes

/-- The bytes of the account. -/
def AccountData.bytes (self : AccountData D B) : List UInt8 := self.ownBytes ++ self.canopy

/-- The memory holds the ring of the account, a node being stored as the bytes that `enc`
says. -/
structure AccountData.Stores {Node Pubkey : Type} (enc : Node → Bytes32) (data : AccountData D B)
    (account : Account Node Pubkey D B) : Prop where
  depth : data.header.maxDepth = account.header.maxDepth
  size : data.header.maxBufferSize = account.header.maxBufferSize
  activeIndex : data.roll.activeIndex.toNat = account.roll.activeIndex
  bufferSize : data.roll.bufferSize.toNat = account.roll.bufferSize
  root (k : Fin B) : data.roll.changeLogs[k].root = enc account.roll.changeLogs[k].root
  path (k : Fin B) : data.roll.changeLogs[k].path = account.roll.changeLogs[k].path.map enc
  index (k : Fin B) : data.roll.changeLogs[k].index = account.roll.changeLogs[k].index

end Candyland.Gummyroll
