import Candyland.Sdk.Accounts
import Candyland.Gummyroll.EventLog
import Candyland.Gummyroll.Symbolic

/-!
# The decoder against the layout

The decoder reads the fields in the order of the declarations, except for the rightmost
path: it takes the first node of the proof for the leaf, the others for the first nodes of
the proof and the leaf for its last one.
-/

namespace Candyland.Sdk

open Bytes (Yields ofU32 ofU64 readMany)
open Gummyroll (Bytes32 HeaderData ChangeLogData PathData RollData AccountData nodeBytes)

variable {D B : ℕ}

/-! ### What the fields are -/

/-- The header with its values. -/
def header (data : HeaderData) : MerkleRollHeader :=
  ⟨data.maxDepth.toNat, data.maxBufferSize.toNat, data.authority.toList,
    data.appendAuthority.toList, data.creationSlot.toNat⟩

/-- A change log with its values. -/
def changeLog (data : ChangeLogData D) : ChangeLog :=
  ⟨data.root.toList, data.path.toList.map Vector.toList, data.index.toNat, data.padding.toNat⟩

/-- The rightmost path with its values. -/
def path (data : PathData D) : Path :=
  ⟨data.leaf.toList, data.proof.toList.map Vector.toList, data.index.toNat, data.padding.toNat⟩

/-- The roll with its values, for a rightmost path. -/
def roll (data : RollData D B) (rightMostPath : Path) : MerkleRoll :=
  ⟨data.sequenceNumber.toNat, data.activeIndex.toNat, data.bufferSize.toNat,
    data.changeLogs.toList.map changeLog, rightMostPath⟩

/-- The account with its values. -/
def onChain (data : AccountData D B) : OnChainMerkleRoll :=
  ⟨header data.header, roll data.roll (path data.roll.rightmostProof)⟩

/-- The rightmost path as it is read: the leaf stands behind the proof, not before it. -/
def shiftedPath (data : PathData D) : Path :=
  ⟨((data.proof.toList ++ [data.leaf]).headD data.leaf).toList,
    (data.proof.toList ++ [data.leaf]).tail.map Vector.toList, data.index.toNat,
    data.padding.toNat⟩

/-! ### Reading them -/

theorem yields_publicKey (key : Bytes32) : Yields readPublicKey key.toList (some key.toList) := by
  have h := Yields.readBuffer key.toList
  rwa [Vector.length_toList] at h

theorem yields_publicKeys (keys : List Bytes32) {n : ℕ} (h : keys.length = n) :
    Yields (readMany n readPublicKey) (nodeBytes keys) (some (keys.map Vector.toList)) := by
  subst h
  exact Yields.readMany fun key _ => yields_publicKey key

theorem yields_header (data : HeaderData) : Yields readHeader data.bytes (some (header data)) := by
  refine (Yields.readU32 _).bind ((Yields.readU32 _).bind ((yields_publicKey _).bind
    ((yields_publicKey _).bind ?_)))
  exact (Yields.readU64 data.creationSlot).map _

theorem yields_changeLog (data : ChangeLogData D) :
    Yields (readChangeLog D) data.bytes (some (changeLog data)) := by
  refine (yields_publicKey _).bind ((yields_publicKeys _ (Vector.length_toList)).bind
    ((Yields.readU32 _).bind ?_))
  exact (Yields.readU32 data.padding).map _

/-- The nodes of the rightmost path are read one place too early. -/
theorem yields_path (data : PathData D) :
    Yields (readPath D) data.bytes (some (shiftedPath data)) := by
  obtain ⟨first, others, hnodes⟩ :=
    List.exists_cons_of_ne_nil (List.append_ne_nil_of_right_ne_nil data.proof.toList
      (List.cons_ne_nil data.leaf []))
  have hlength : others.length = D := by
    have h := congrArg List.length hnodes
    simpa using h.symm
  have hbytes : data.bytes = first.toList ++ (nodeBytes others ++
      (ofU32 data.index ++ ofU32 data.padding)) := by
    have h := congrArg nodeBytes hnodes
    simp only [nodeBytes, List.flatMap_append, List.flatMap_cons, List.flatMap_nil,
      List.append_nil] at h
    rw [PathData.bytes, nodeBytes, ← List.append_assoc, h, List.append_assoc, nodeBytes]
  have hshifted : shiftedPath data = ⟨first.toList, others.map Vector.toList, data.index.toNat,
      data.padding.toNat⟩ := by
    rw [shiftedPath, hnodes]
    rfl
  rw [hbytes, hshifted]
  refine (yields_publicKey _).bind ((yields_publicKeys _ hlength).bind
    ((Yields.readU32 _).bind ?_))
  exact (Yields.readU32 data.padding).map _

theorem yields_number (x : UInt64) : Yields readNumber (ofU64 x) (toNumber x.toNat) := by
  have h := (Yields.readU64 x).bind (f := fun n => Bytes.orThrow (toNumber n))
    (Yields.orThrow (toNumber x.toNat))
  rwa [List.append_nil] at h

/-- The roll is read, unless one of the two counters is too large for a number. -/
theorem yields_roll (data : RollData D B) :
    Yields (readRoll D B) data.bytes
      (if data.activeIndex.toNat < 2 ^ 53 ∧ data.bufferSize.toNat < 2 ^ 53 then
        some (roll data (shiftedPath data.rightmostProof)) else none) := by
  have hactive := yields_number data.activeIndex
  have hbuffer := yields_number data.bufferSize
  rw [toNumber] at hactive hbuffer
  refine (Yields.readU64 _).bind ?_
  by_cases ha : data.activeIndex.toNat < 2 ^ 53
  · rw [if_pos ha] at hactive
    refine hactive.bind ?_
    by_cases hb : data.bufferSize.toNat < 2 ^ 53
    · rw [if_pos hb] at hbuffer
      rw [if_pos ⟨ha, hb⟩]
      have hlogs : Yields (readMany B (readChangeLog D))
          (data.changeLogs.toList.flatMap ChangeLogData.bytes)
          (some (data.changeLogs.toList.map changeLog)) := by
        have h : Yields (readMany data.changeLogs.toList.length (readChangeLog D))
            (data.changeLogs.toList.flatMap ChangeLogData.bytes)
            (some (data.changeLogs.toList.map changeLog)) :=
          Yields.readMany fun cl _ => yields_changeLog cl
        rwa [Vector.length_toList] at h
      refine hbuffer.bind (hlogs.bind ?_)
      exact (yields_path data.rightmostProof).map _
    · rw [if_neg hb] at hbuffer
      rw [if_neg fun h => hb h.2]
      exact hbuffer.bind_none _ _
  · rw [if_neg ha] at hactive
    rw [if_neg fun h => ha h.1]
    exact hactive.bind_none _ _

/-! ### The size -/

theorem length_nodeBytes (nodes : List Bytes32) : (nodeBytes nodes).length = 32 * nodes.length := by
  induction nodes with
  | nil => rfl
  | cons node nodes ih =>
    rw [nodeBytes, List.flatMap_cons, List.length_append, ← nodeBytes, ih]
    simp
    omega

theorem length_changeLogs (logs : List (ChangeLogData D)) :
    (logs.flatMap ChangeLogData.bytes).length = (D * 32 + 32 + 4 + 4) * logs.length := by
  induction logs with
  | nil => rfl
  | cons cl logs ih =>
    have hcl : cl.bytes.length = D * 32 + 32 + 4 + 4 := by
      simp [ChangeLogData.bytes, length_nodeBytes]
      omega
    rw [List.flatMap_cons, List.length_append, ih, hcl, List.length_cons]
    ring

/-- The bytes of the fields are as many as the decoder expects. -/
theorem length_ownBytes (data : AccountData D B) :
    getMerkleRollAccountSize D B 0 = data.ownBytes.length := by
  have hheader : data.header.bytes.length = 80 := by
    simp [HeaderData.bytes]
  have hpath : data.roll.rightmostProof.bytes.length = D * 32 + 32 + 4 + 4 := by
    simp [PathData.bytes, length_nodeBytes]
    omega
  have hroll : data.roll.bytes.length =
      24 + ((D * 32 + 32 + 4 + 4) * B + (D * 32 + 32 + 4 + 4)) := by
    simp only [RollData.bytes, List.length_append, Bytes.length_ofU64, length_changeLogs,
      Vector.length_toList, hpath]
    omega
  rw [AccountData.ownBytes, List.length_append, hheader, hroll, getMerkleRollAccountSize]
  push_cast
  omega

/-! ### Decoding -/

/-- What the decoder makes of an account. -/
theorem decodeMerkleRoll_bytes (data : AccountData D B) :
    decodeMerkleRoll data.bytes =
      if data.roll.activeIndex.toNat < 2 ^ 53 ∧ data.roll.bufferSize.toNat < 2 ^ 53 then
        some ⟨header data.header, roll data.roll (shiftedPath data.roll.rightmostProof)⟩
      else none := by
  have hheader := yields_header data.header (data.roll.bytes ++ data.canopy) 0
  have hroll := yields_roll data.roll data.canopy (0 + data.header.bytes.length)
  have hsize := length_ownBytes data
  rw [AccountData.ownBytes, List.length_append] at hsize
  rw [decodeMerkleRoll, AccountData.bytes, AccountData.ownBytes, List.append_assoc, hheader]
  simp only [Option.map_some, Option.bind_eq_bind, Option.bind_some, header, data.depth_eq,
    data.size_eq]
  rw [hroll]
  split_ifs with hnumbers
  · simp only [Option.map_some, Option.bind_some, Nat.zero_add]
    rw [if_neg]
    rw [hsize, not_not]
  · rfl

theorem append_singleton_eq_cons_iff {α : Type} {a : α} {as : List α} :
    as ++ [a] = a :: as ↔ ∀ b ∈ as, b = a := by
  induction as with
  | nil => simp
  | cons b as ih =>
    simp only [List.cons_append, List.cons.injEq, List.mem_cons, forall_eq_or_imp]
    constructor
    · rintro ⟨rfl, h⟩
      exact ⟨rfl, ih.1 h⟩
    · rintro ⟨rfl, h⟩
      exact ⟨rfl, ih.2 h⟩

/-- The path is read as it is if all its nodes are the same. -/
theorem shiftedPath_eq_iff (data : PathData D) :
    shiftedPath data = path data ↔ ∀ node ∈ data.proof.toList, node = data.leaf := by
  rw [← append_singleton_eq_cons_iff]
  obtain ⟨first, others, hnodes⟩ :=
    List.exists_cons_of_ne_nil (List.append_ne_nil_of_right_ne_nil data.proof.toList
      (List.cons_ne_nil data.leaf []))
  have hinj : Function.Injective (Vector.toList : Bytes32 → List UInt8) := fun _ _ h =>
    Vector.toList_inj.1 h
  rw [shiftedPath, path, hnodes]
  simp [hinj.eq_iff, List.map_inj_right fun _ _ h => hinj h]

/-! ### The lists of the change logs -/

/-- On small numbers the bit operations are those of natural numbers. -/
theorem toInt_of_lt {x : BitVec 32} (h : x.toNat < 2 ^ 31) : x.toInt = x.toNat := by
  rw [BitVec.toInt_eq_toNat_cond, if_pos (by omega)]

theorem shiftLeft_one {n : ℕ} (h : n < 31) : shiftLeft 1 n = 2 ^ n := by
  have hpow : 2 ^ n ≤ 2 ^ 30 := Nat.pow_le_pow_right (by norm_num) (by omega)
  have hval : (BitVec.ofInt 32 1 <<< (n % 32)).toNat = 2 ^ n := by
    rw [Nat.mod_eq_of_lt (by omega), BitVec.toNat_shiftLeft]
    simp [Nat.shiftLeft_eq]
    omega
  rw [shiftLeft, toInt_of_lt (by omega), hval]
  norm_cast

/-- Shifting keeps the sign. -/
theorem shiftRight_eq {x : UInt32} {n : ℕ} (h : n < 32) :
    shiftRight x.toNat n =
      if x.toNat < 2 ^ 31 then (x.toNat : ℤ) / 2 ^ n else ((x.toNat : ℤ) - 2 ^ 32) / 2 ^ n := by
  have hx := x.toNat_lt
  rw [shiftRight, Nat.mod_eq_of_lt h, BitVec.toInt_sshiftRight, Int.shiftRight_eq_div_pow]
  have hval : (BitVec.ofInt 32 (x.toNat : ℤ)).toInt =
      if x.toNat < 2 ^ 31 then (x.toNat : ℤ) else (x.toNat : ℤ) - 2 ^ 32 := by
    rw [BitVec.toInt_ofInt, Int.bmod_def]
    split_ifs <;> omega
  rw [hval]
  split_ifs <;> norm_cast

/-- Masking counts back in the ring. -/
theorem bitAnd_mask (hpow : B.isPowerOfTwo) (hB : B ≤ 2 ^ 31) (a : Fin B) {k : ℕ} (hk : k < B) :
    bitAnd ((a : ℕ) - k) (B - 1) = (CircularBuffer.back a k : ℕ) := by
  obtain ⟨b, rfl⟩ := hpow
  have hb : b ≤ 31 := (Nat.pow_le_pow_iff_right (by norm_num)).1 hB
  have hpos : 0 < 2 ^ b := Nat.two_pow_pos b
  have hmask : (BitVec.ofInt 32 (((2 ^ b : ℕ) : ℤ) - 1)).toNat = 2 ^ b - 1 := by
    rw [BitVec.toNat_ofInt, Int.emod_eq_of_lt (by omega) (by omega)]
    omega
  have hand : (BitVec.ofInt 32 ((a : ℤ) - k) &&& BitVec.ofInt 32 (((2 ^ b : ℕ) : ℤ) - 1)).toNat =
      (((a : ℤ) - k) % 2 ^ 32).toNat % 2 ^ b := by
    rw [BitVec.toNat_and, hmask, Nat.and_two_pow_sub_one_eq_mod, BitVec.toNat_ofInt]
    rfl
  have hlt := Nat.mod_lt (((a : ℤ) - k) % 2 ^ 32).toNat hpos
  have hback : (CircularBuffer.back a k : ℕ) = (a + (2 ^ b - k)) % 2 ^ b := by
    simp only [CircularBuffer.back, Nat.mod_eq_of_lt hk]
  rw [bitAnd, toInt_of_lt (by omega), hand, hback]
  -- the remainders agree as integers, for the buffer divides the range of the words
  have hdvd : (2 ^ b : ℤ) ∣ 2 ^ 32 := pow_dvd_pow 2 (by omega)
  have hnonneg : 0 ≤ ((a : ℤ) - k) % 2 ^ 32 := Int.emod_nonneg _ (by norm_num)
  have hleft : (((((a : ℤ) - k) % 2 ^ 32).toNat % 2 ^ b : ℕ) : ℤ) = ((a : ℤ) - k) % 2 ^ b := by
    rw [Int.natCast_mod, Int.toNat_of_nonneg hnonneg, Nat.cast_pow, Nat.cast_ofNat,
      Int.emod_emod_of_dvd _ hdvd]
  have hright : (((a + (2 ^ b - k)) % 2 ^ b : ℕ) : ℤ) = ((a : ℤ) - k) % 2 ^ b := by
    rw [Int.natCast_mod, Nat.cast_add, Nat.cast_sub hk.le, Nat.cast_pow, Nat.cast_ofNat,
      show (a : ℤ) + (2 ^ b - k) = a - k + 2 ^ b by ring, Int.add_emod_right]
  rw [hleft, hright]

section Lists

open Gummyroll (ChangeLogEvent)
open ConcurrentMerkleTree (one_shiftLeft_toNat shiftRight_toNat)

variable {Node Pubkey : Type} (enc : Node → Bytes32)

/-- A node of an event, as the decoder shows it. -/
def eventNode (p : Gummyroll.PathNode Node) : PathNode := ⟨(enc p.node).toList, p.index.toNat⟩

/-- Below `2 ^ 31` an index has the same nodes in both languages; from there on the sign makes a
difference already one level above the leaf. -/
theorem nodeIdx_eq_iff (hD0 : 2 ≤ D) (hD : D < 31) (index : UInt32) :
    (∀ l < D, OnChainMerkleRoll.nodeIdx D l index.toNat =
        ((1 <<< UInt32.ofNat (D - l) + index >>> UInt32.ofNat l).toNat : ℤ)) ↔
      index.toNat < 2 ^ 31 := by
  have hindex := index.toNat_lt
  have hsum : ∀ l < D, (1 <<< UInt32.ofNat (D - l) + index >>> UInt32.ofNat l : UInt32).toNat =
      (2 ^ (D - l) + index.toNat / 2 ^ l) % 2 ^ 32 := by
    intro l hl
    rw [UInt32.toNat_add, one_shiftLeft_toNat (by omega), shiftRight_toNat _ (by omega)]
  constructor
  · intro h
    by_contra hge
    have hone := h 1 (by omega)
    have hpow : 2 ^ (D - 1) ≤ 2 ^ 29 := Nat.pow_le_pow_right (by norm_num) (by omega)
    rw [OnChainMerkleRoll.nodeIdx, shiftLeft_one (by omega), shiftRight_eq (by omega), if_neg hge,
      hsum 1 (by omega), Nat.mod_eq_of_lt (by omega)] at hone
    push_cast at hone
    omega
  · intro hlt l hl
    have hpow : 2 ^ (D - l) ≤ 2 ^ 30 := Nat.pow_le_pow_right (by norm_num) (by omega)
    have hdiv := Nat.div_le_self index.toNat (2 ^ l)
    rw [OnChainMerkleRoll.nodeIdx, shiftLeft_one (by omega), shiftRight_eq (by omega), if_pos hlt,
      hsum l hl, Nat.mod_eq_of_lt (by omega)]
    push_cast
    rfl

/-- The list of a change log is the path of its event exactly for an index below `2 ^ 31`. -/
theorem pathNodes_eq_iff (hD0 : 2 ≤ D) (hD : D < 31) {cl : ConcurrentMerkleTree.ChangeLog Node D}
    {data : ChangeLogData D} (hroot : data.root = enc cl.root) (hpath : data.path = cl.path.map enc)
    (hindex : data.index = cl.index) (id : Pubkey) (seq : ℕ) :
    OnChainMerkleRoll.pathNodes (changeLog data) =
        (ChangeLogEvent.ofChangeLog cl id seq).path.map (eventNode enc) ↔
      cl.index.toNat < 2 ^ 31 := by
  rw [← nodeIdx_eq_iff hD0 hD]
  have hlast : (eventNode enc ⟨cl.root, 1⟩) = ⟨(enc cl.root).toList, 1⟩ := rfl
  rw [OnChainMerkleRoll.pathNodes, ChangeLogEvent.ofChangeLog, List.map_append, List.map_singleton,
    hlast]
  simp only [changeLog, hroot, List.append_cancel_right_eq, List.length_map, Vector.length_toList]
  constructor
  · intro h l hl
    have hget := congrArg (·[l]?) h
    simpa [hpath, hindex, hl, eventNode] using hget
  · intro h
    refine List.ext_getElem (by simp) fun l h₁ h₂ => ?_
    have hl : l < D := by simpa using h₁
    simp [hpath, hindex, eventNode, h l hl]

theorem mapM_eq_some {α β : Type} {f : α → Option β} {g : α → β} {items : List α}
    (h : ∀ a ∈ items, f a = some (g a)) : items.mapM f = some (items.map g) := by
  induction items with
  | nil => rfl
  | cons a items ih =>
    have hitems := ih fun b hb => h b (List.mem_cons_of_mem a hb)
    simp [h a List.mem_cons_self, hitems]

/-- The list of age `k` is that of the change log of age `k`. -/
theorem getChangeLogsWithNodeIndex_eq (hpow : B.isPowerOfTwo) (hB : B ≤ 2 ^ 31) {active : Fin B}
    {data : AccountData D B} (hactive : data.roll.activeIndex.toNat = active)
    (hsize : data.roll.bufferSize.toNat ≤ B) (rightMostPath : Path) :
    OnChainMerkleRoll.getChangeLogsWithNodeIndex
        ⟨header data.header, roll data.roll rightMostPath⟩ =
      some ((List.range data.roll.bufferSize.toNat).map fun k => OnChainMerkleRoll.pathNodes
        (changeLog data.roll.changeLogs[CircularBuffer.back active k])) := by
  rw [OnChainMerkleRoll.getChangeLogsWithNodeIndex]
  refine mapM_eq_some (fun k hk => ?_)
  have hkB : k < B := (List.mem_range.1 hk).trans_le hsize
  have hidx : bitAnd (((data.roll.activeIndex.toNat : ℕ) : ℤ) - k)
      (((header data.header).maxBufferSize : ℤ) - 1) = (CircularBuffer.back active k : ℕ) := by
    rw [hactive, header, data.size_eq]
    exact bitAnd_mask hpow hB active hkB
  simp only [roll, hidx]
  simp

/-- The macros support buffers of at most 2048 change logs. -/
theorem size_le_of_supported {depth size : UInt32}
    (h : (depth, size) ∈ Gummyroll.supportedConstants) : size.toNat ≤ 2048 := by
  have hall : ∀ p ∈ Gummyroll.supportedConstants, p.2 ≤ 2048 := by
    simp [Gummyroll.supportedConstants]
  exact UInt32.le_iff_toNat_le.1 (hall _ h)

variable [ConcurrentMerkleTree.NodeHash Node] [DecidableEq Node] [DecidableEq Pubkey]
  [Gummyroll.Build] {c : ℕ} [hB : ConcurrentMerkleTree.BufferSize B]

/-- The decoder returns every field with its value if and only if the two counters are below
`2 ^ 53` and all nodes of the rightmost path are the same.  On a reachable account it returns
something, and the list of an event is its path if and only if its index is below `2 ^ 31`. -/
theorem decodeMerkleRoll_iff :
    (∀ data : AccountData D B, decodeMerkleRoll data.bytes = some (onChain data) ↔
      (data.roll.activeIndex.toNat < 2 ^ 53 ∧ data.roll.bufferSize.toNat < 2 ^ 53) ∧
        ∀ node ∈ data.roll.rightmostProof.proof.toList, node = data.roll.rightmostProof.leaf) ∧
      ∀ (account : Gummyroll.Account Node Pubkey D B) (ws : List (ℕ × Node))
        (events : List (ChangeLogEvent Node Pubkey)),
        Gummyroll.AccountReachable c account ws events →
          ∀ data : AccountData D B, data.Stores enc account →
            ∃ decoded lists, decodeMerkleRoll data.bytes = some decoded ∧
              decoded.getChangeLogsWithNodeIndex = some lists ∧
                ∀ k < account.roll.bufferSize, ∃ event, events[k]? = some event ∧
                  (lists[k]? = some (event.path.map (eventNode enc)) ↔
                    event.index.toNat < 2 ^ 31) := by
  constructor
  · intro data
    rw [decodeMerkleRoll_bytes, ← shiftedPath_eq_iff]
    split_ifs with hnumbers
    · rw [and_iff_right hnumbers]
      simp [onChain, roll]
    · exact iff_of_false (by simp) fun h => hnumbers h.1
  · intro account ws events hrun data hstores
    have hlog := hrun.eventLog
    have hthree : 3 ≤ D := by
      have h := Gummyroll.three_le_of_supported hlog.supported
      rwa [← hstores.depth, data.depth_eq] at h
    have hbuffers : B ≤ 2048 := by
      have h := size_le_of_supported hlog.supported
      rwa [← hstores.size, data.size_eq] at h
    have hsize : data.roll.bufferSize.toNat ≤ B := by
      rw [hstores.bufferSize]
      exact hlog.size_le
    have hactive : data.roll.activeIndex.toNat < B := by
      rw [hstores.activeIndex]
      exact account.roll.activeIndex.isLt
    have hdecode := decodeMerkleRoll_bytes data
    rw [if_pos ⟨by omega, by omega⟩] at hdecode
    refine ⟨_, _, hdecode, getChangeLogsWithNodeIndex_eq hlog.pow (by omega) hstores.activeIndex
      hsize _, ?_⟩
    intro k hk
    obtain ⟨seq, hevent⟩ := hlog.logged k hk
    refine ⟨_, hevent, ?_⟩
    rw [List.getElem?_map, List.getElem?_range (by rw [hstores.bufferSize]; exact hk),
      Option.map_some, Option.some_inj]
    exact pathNodes_eq_iff enc (by omega) hlog.depth (hstores.root _) (hstores.path _)
      (hstores.index _) account.key seq

end Lists

/-! ### An account after an append -/

section Memory

open ConcurrentMerkleTree (Term EMPTY)
open Gummyroll (AccountState accountTrace accountRun_trace)

/-- A node as 32 bytes, all zero for the empty node. -/
def termBytes (node : Term) : Bytes32 := Vector.replicate 32 (if node = EMPTY then 0 else 1)

/-- The memory of an account, but for its keys. -/
def memory (account : Gummyroll.Account Term ℕ 3 8) (hdepth : account.header.maxDepth.toNat = 3)
    (hsize : account.header.maxBufferSize.toNat = 8) : AccountData 3 8 where
  header :=
    { maxBufferSize := account.header.maxBufferSize
      maxDepth := account.header.maxDepth
      authority := Vector.replicate 32 0
      appendAuthority := Vector.replicate 32 0
      creationSlot := UInt64.ofNat account.header.creationSlot }
  roll :=
    { sequenceNumber := UInt64.ofNat account.roll.sequenceNumber
      activeIndex := UInt64.ofNat account.roll.activeIndex
      bufferSize := UInt64.ofNat account.roll.bufferSize
      changeLogs := account.roll.changeLogs.map fun cl =>
        ⟨termBytes cl.root, cl.path.map termBytes, cl.index, 0⟩
      rightmostProof := ⟨account.roll.rightmostProof.proof.map termBytes,
        termBytes account.roll.rightmostProof.leaf, account.roll.rightmostProof.index, 0⟩ }
  canopy := nodeBytes (account.canopy.nodes.map termBytes)
  depth_eq := hdepth
  size_eq := hsize

theorem stores_memory {account : Gummyroll.Account Term ℕ 3 8}
    (hdepth : account.header.maxDepth.toNat = 3) (hsize : account.header.maxBufferSize.toNat = 8)
    (hbuffer : account.roll.bufferSize ≤ 8) :
    (memory account hdepth hsize).Stores termBytes account where
  depth := rfl
  size := rfl
  activeIndex := by
    have hlt := account.roll.activeIndex.isLt
    simp [memory]
    omega
  bufferSize := by
    simp [memory]
    omega
  root k := by simp [memory]
  path k := by simp [memory]
  index k := by simp [memory]

/-- The account after one append. -/
def appended : AccountState Term ℕ 3 8 := accountTrace 0 [.append 0 0 (.leaf 1)]

/-- Its memory. -/
def appendedMemory : AccountData 3 8 := memory appended.account (by decide) (by decide)

theorem appended_reachable :
    Gummyroll.AccountReachable 0 appended.account appended.writes appended.events :=
  accountRun_trace (show 0 ≤ 3 by norm_num) fun _ _ _ => trivial

/-- The newest of its lists is the path of the append. -/
theorem decodeMerkleRoll_appended : ∃ decoded lists event,
    decodeMerkleRoll appendedMemory.bytes = some decoded ∧
      decoded.getChangeLogsWithNodeIndex = some lists ∧ appended.events[0]? = some event ∧
        lists[0]? = some (event.path.map (eventNode termBytes)) := by
  obtain ⟨decoded, lists, hdecoded, hlists, hevents⟩ :=
    (decodeMerkleRoll_iff termBytes).2 appended.account appended.writes appended.events
      appended_reachable appendedMemory (stores_memory (by decide) (by decide) (by decide))
  obtain ⟨event, hevent, hiff⟩ := hevents 0 (by decide)
  refine ⟨decoded, lists, event, hdecoded, hlists, hevent, hiff.2 ?_⟩
  have hindex : ∀ event ∈ appended.events[0]?, event.index.toNat < 2 ^ 31 := by decide
  exact hindex event hevent

/-- The rightmost path is not decoded to its values: the appended leaf comes back as the last
node of the proof. -/
theorem decodeMerkleRoll_shifted :
    appendedMemory.Stores termBytes appended.account ∧
      appendedMemory.roll.rightmostProof.leaf = Vector.replicate 32 1 ∧
        decodeMerkleRoll appendedMemory.bytes ≠ some (onChain appendedMemory) ∧
          ∃ decoded, decodeMerkleRoll appendedMemory.bytes = some decoded ∧
            decoded.roll.rightMostPath.leaf = List.replicate 32 0 := by
  have hleaf : appendedMemory.roll.rightmostProof.leaf = Vector.replicate 32 1 := by decide
  have hdecode := decodeMerkleRoll_bytes appendedMemory
  rw [if_pos (by decide)] at hdecode
  refine ⟨stores_memory (by decide) (by decide) (by decide), hleaf, ?_, _, hdecode,
    by decide +kernel⟩
  rw [hdecode]
  intro heq
  have hpath := congrArg (fun m => m.roll.rightMostPath) (Option.some.inj heq)
  have hsame := (shiftedPath_eq_iff _).1 hpath
  rw [hleaf] at hsame
  exact absurd (hsame (Vector.replicate 32 0) (by decide +kernel)) (by decide)

end Memory

end Candyland.Sdk
