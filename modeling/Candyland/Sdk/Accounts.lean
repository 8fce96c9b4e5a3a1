import Candyland.Lib.Reader
import Candyland.Gummyroll.Layout

/-!
# Decoding an account

The decoder of the SDK for gummyroll accounts.  Numbers of the source are integers here;
its bit operations first take them modulo `2 ^ 32`, as a signed number.  An exception is
`none`.
-/

namespace Candyland.Sdk

open Bytes (Read Reader readBuffer readU32 readU64 readMany orThrow)

/-- A `PublicKey`, by its bytes. -/
abbrev PublicKey := List UInt8

/-- `MerkleRollHeader`. -/
structure MerkleRollHeader where
  maxDepth : ℕ
  maxBufferSize : ℕ
  authority : PublicKey
  appendAuthority : PublicKey
  creationSlot : ℕ
deriving DecidableEq

/-- `ChangeLog`. -/
structure ChangeLog where
  root : PublicKey
  pathNodes : List PublicKey
  index : ℕ
  padding : ℕ
deriving DecidableEq

/-- `Path`. -/
structure Path where
  leaf : PublicKey
  proof : List PublicKey
  index : ℕ
  padding : ℕ
deriving DecidableEq

/-- `MerkleRoll`. -/
structure MerkleRoll where
  sequenceNumber : ℕ
  activeIndex : ℕ
  bufferSize : ℕ
  changeLogs : List ChangeLog
  rightMostPath : Path
deriving DecidableEq

/-- `OnChainMerkleRoll`. -/
structure OnChainMerkleRoll where
  header : MerkleRollHeader
  roll : MerkleRoll
deriving DecidableEq

/-- `PathNode`. -/
structure PathNode where
  node : PublicKey
  index : ℤ
deriving DecidableEq

/-! ### Bit operations -/

/-- `x << n`. -/
def shiftLeft (x : ℤ) (n : ℕ) : ℤ := (BitVec.ofInt 32 x <<< (n % 32)).toInt

/-- `x >> n`. -/
def shiftRight (x : ℤ) (n : ℕ) : ℤ := ((BitVec.ofInt 32 x).sshiftRight (n % 32)).toInt

/-- `x & y`. -/
def bitAnd (x y : ℤ) : ℤ := (BitVec.ofInt 32 x &&& BitVec.ofInt 32 y).toInt

/-! ### The decoder -/

/-- `BN.toNumber()`, which asserts that the number has at most 53 bits. -/
def toNumber (x : ℕ) : Option ℕ := if x < 2 ^ 53 then some x else none

/-- `reader.readU64().toNumber()`. -/
def readNumber : Read ℕ := do
  let x ← readU64
  orThrow (toNumber x)

/-- `readPublicKey(reader)`. -/
def readPublicKey : Read PublicKey := readBuffer 32

/-- The header, as `decodeMerkleRoll` reads it. -/
def readHeader : Read MerkleRollHeader := do
  let maxBufferSize ← readU32
  let maxDepth ← readU32
  let authority ← readPublicKey
  let appendAuthority ← readPublicKey
  let creationSlot ← readU64
  return ⟨maxDepth, maxBufferSize, authority, appendAuthority, creationSlot⟩

/-- A change log. -/
def readChangeLog (maxDepth : ℕ) : Read ChangeLog := do
  let root ← readPublicKey
  let pathNodes ← readMany maxDepth readPublicKey
  let index ← readU32
  let padding ← readU32
  return ⟨root, pathNodes, index, padding⟩

/-- The rightmost path. -/
def readPath (maxDepth : ℕ) : Read Path := do
  let leaf ← readPublicKey
  let proof ← readMany maxDepth readPublicKey
  let index ← readU32
  let padding ← readU32
  return ⟨leaf, proof, index, padding⟩

/-- The roll. -/
def readRoll (maxDepth maxBufferSize : ℕ) : Read MerkleRoll := do
  let sequenceNumber ← readU64
  let activeIndex ← readNumber
  let bufferSize ← readNumber
  let changeLogs ← readMany maxBufferSize (readChangeLog maxDepth)
  let rightMostPath ← readPath maxDepth
  return ⟨sequenceNumber, activeIndex, bufferSize, changeLogs, rightMostPath⟩

/-- `getMerkleRollAccountSize(maxDepth, maxBufferSize, canopyDepth)`; without a canopy depth it is
`0` here. -/
def getMerkleRollAccountSize (maxDepth maxBufferSize canopyDepth : ℕ) : ℤ :=
  let headerSize := 8 + 32 + 32
  let changeLogSize := (maxDepth * 32 + 32 + 4 + 4) * maxBufferSize
  let rightMostPathSize := maxDepth * 32 + 32 + 4 + 4
  let merkleRollSize := 8 + 8 + 16 + changeLogSize + rightMostPathSize
  let canopySize : ℤ := if canopyDepth = 0 then 0 else (shiftLeft 1 (canopyDepth + 1) - 2) * 32
  merkleRollSize + headerSize + canopySize

/-- `decodeMerkleRoll(buffer)`. -/
def decodeMerkleRoll (buffer : List UInt8) : Option OnChainMerkleRoll := do
  let (header, reader) ← readHeader ⟨buffer, 0⟩
  let (roll, reader) ← readRoll header.maxDepth header.maxBufferSize reader
  if getMerkleRollAccountSize header.maxDepth header.maxBufferSize 0 ≠ reader.offset then none
  else some ⟨header, roll⟩

namespace OnChainMerkleRoll

/-- The index of the node of a path at a level. -/
def nodeIdx (pathLen lvl index : ℕ) : ℤ := shiftLeft 1 (pathLen - lvl) + shiftRight index lvl

/-- The path nodes of a change log. -/
def pathNodes (changeLog : ChangeLog) : List PathNode :=
  changeLog.pathNodes.mapIdx (fun lvl key =>
    ⟨key, nodeIdx changeLog.pathNodes.length lvl changeLog.index⟩) ++ [⟨changeLog.root, 1⟩]

/-- `getChangeLogsWithNodeIndex()`.  Reading beyond an array gives no change log. -/
def getChangeLogsWithNodeIndex (self : OnChainMerkleRoll) : Option (List (List PathNode)) :=
  let mask : ℤ := self.header.maxBufferSize - 1
  (List.range self.roll.bufferSize).mapM fun (j : ℕ) =>
    let idx := bitAnd ((self.roll.activeIndex : ℤ) - j) mask
    (if 0 ≤ idx then self.roll.changeLogs[idx.toNat]? else none).map pathNodes

end OnChainMerkleRoll

end Candyland.Sdk
