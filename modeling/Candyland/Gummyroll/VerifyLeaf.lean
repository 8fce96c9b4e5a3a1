import Candyland.Gummyroll.Completion

/-!
# What `verify_leaf` writes

`verify_leaf` takes its account as one that is not written.  It shares the completion of its proof
with the instructions that write, however, and this completion puts the empty nodes that it infers
into the canopy.
-/

namespace Candyland.Gummyroll

open ConcurrentMerkleTree

variable {Node Pubkey : Type} {D B c : ℕ}

section Walk

variable [NodeHash Node]

/-- Beside the walk from the node with number `nodeIdx` up to the root no slot is zero, except one
of a leaf, for which zero is the empty node. -/
def WalkCached (D : ℕ) (nodes : List Node) (nodeIdx : ℕ) : Prop :=
  ∀ m, 2 ≤ nodeIdx / 2 ^ m →
    nodes[((nodeIdx / 2 ^ m) ^^^ 1) - 2]? = some EMPTY → (nodeIdx / 2 ^ m).log2 = D

/-- The walk of `fill_in_proof_from_canopy` starts above the leaf, where its path enters the
canopy. -/
def walkStart (D c : ℕ) (index : UInt32) : ℕ := (2 ^ D + index.toNat) % 2 ^ 32 / 2 ^ (D - c)

theorem walkCached_succ {nodes : List Node} {nodeIdx : ℕ} (hn : 2 ≤ nodeIdx) :
    WalkCached D nodes nodeIdx ↔
      (nodes[(nodeIdx ^^^ 1) - 2]? = some EMPTY → nodeIdx.log2 = D) ∧
        WalkCached D nodes (nodeIdx / 2) := by
  have hdiv : ∀ m, nodeIdx / 2 / 2 ^ m = nodeIdx / 2 ^ (m + 1) := fun m => by
    rw [Nat.div_div_eq_div_mul, pow_succ']
  constructor
  · intro h
    refine ⟨by simpa [hn] using h 0, fun m => ?_⟩
    rw [hdiv]
    exact h (m + 1)
  · rintro ⟨hzero, hsucc⟩ m
    cases m with
    | zero => simpa using fun _ => hzero
    | succ m =>
      rw [← hdiv]
      exact hsucc m

theorem walkCached_of_lt {nodes : List Node} {nodeIdx : ℕ} (hn : nodeIdx < 2) :
    WalkCached D nodes nodeIdx := by
  intro m hm
  have := Nat.div_le_self nodeIdx (2 ^ m)
  omega

variable [DecidableEq Node] {maxDepth : UInt32} {nodes nodes' : List Node} {fuel : ℕ}
  {nodeIdx : UInt32} {inferredNodes inferredNodes' : List Node}

omit [NodeHash Node] [DecidableEq Node] in
theorem half_toNat (nodeIdx : UInt32) : (nodeIdx >>> 1).toNat = nodeIdx.toNat / 2 := by
  rw [show (1 : UInt32) = UInt32.ofNat 1 from rfl, shiftRight_toNat nodeIdx (by norm_num), pow_one]

/-- One round of the walk: a zero slot is written with the empty node of its level. -/
theorem fillLoop_round (hone : nodeIdx > 1)
    (hok : fillLoop maxDepth (fuel + 1) nodeIdx (nodes, inferredNodes) =
      .ok (nodes', inferredNodes')) :
    ∃ cached nodes₁ inferredNodes₁, nodes[(nodeIdx.toNat ^^^ 1) - 2]? = some cached ∧
      fillLoop maxDepth fuel (nodeIdx >>> 1) (nodes₁, inferredNodes₁) =
        .ok (nodes', inferredNodes') ∧
      (cached ≠ EMPTY ∧ nodes₁ = nodes ∨ cached = EMPTY ∧
        nodes₁ = nodes.set ((nodeIdx.toNat ^^^ 1) - 2)
          (emptyNode (maxDepth - (31 - UInt32.ofNat (leadingZeros nodeIdx))).toNat)) := by
  have hn : 2 ≤ nodeIdx.toNat := UInt32.lt_iff_toNat_lt.1 hone
  rw [fillLoop, if_pos hone] at hok
  simp only [cachedIdx_eq hn, emptyNodeCached_replicate] at hok
  rcases hcached : nodes[(nodeIdx.toNat ^^^ 1) - 2]? with _ | cached
  · rw [hcached] at hok
    exact absurd hok (by simp)
  · rw [hcached] at hok
    dsimp only at hok
    split_ifs at hok with hempty
    · exact ⟨cached, _, _, rfl, hok, .inr ⟨hempty, rfl⟩⟩
    · exact ⟨cached, _, _, rfl, hok, .inl ⟨hempty, rfl⟩⟩

theorem fillLoop_ne_err (e : GummyrollError) :
    fillLoop maxDepth fuel nodeIdx (nodes, inferredNodes) ≠ .err e := by
  induction fuel generalizing nodeIdx nodes inferredNodes with
  | zero => simp [fillLoop]
  | succ fuel ih =>
    rw [fillLoop]
    split_ifs
    · dsimp only
      split
      · simp
      · split_ifs <;> exact ih
    · simp

/-- The walk writes zero slots only. -/
theorem fillLoop_frame
    (hok : fillLoop maxDepth fuel nodeIdx (nodes, inferredNodes) = .ok (nodes', inferredNodes'))
    {k : ℕ} {node : Node} (hnode : nodes[k]? = some node) (hne : node ≠ EMPTY) :
    nodes'[k]? = some node := by
  induction fuel generalizing nodeIdx nodes inferredNodes with
  | zero => exact absurd hok (by simp [fillLoop])
  | succ fuel ih =>
    by_cases hone : nodeIdx > 1
    · obtain ⟨cached, nodes₁, inferredNodes₁, hcached, hrest, hnodes⟩ := fillLoop_round hone hok
      refine ih hrest ?_
      rcases hnodes with ⟨-, rfl⟩ | ⟨hempty, rfl⟩
      · exact hnode
      · rw [List.getElem?_set_ne, hnode]
        rintro rfl
        rw [hcached] at hnode
        exact hne ((Option.some.inj hnode).symm.trans hempty)
    · rw [fillLoop, if_neg hone] at hok
      rw [← (Prod.mk.inj (Outcome.ok.inj hok)).1, hnode]

/-- The walk leaves the canopy unchanged if and only if it is cached. -/
theorem fillLoop_unchanged_iff [hN : NonzeroHash Node] (hlen : nodes.length + 2 = 2 ^ (c + 1))
    (hc : c ≤ D) (hD : D < 31) (hdepth : maxDepth.toNat = D)
    (hok : fillLoop maxDepth fuel nodeIdx (nodes, inferredNodes) = .ok (nodes', inferredNodes')) :
    nodes' = nodes ↔ WalkCached D nodes nodeIdx.toNat := by
  induction fuel generalizing nodeIdx nodes inferredNodes with
  | zero => exact absurd hok (by simp [fillLoop])
  | succ fuel ih =>
    by_cases hone : nodeIdx > 1
    · have hn : 2 ≤ nodeIdx.toNat := UInt32.lt_iff_toNat_lt.1 hone
      obtain ⟨cached, nodes₁, inferredNodes₁, hcached, hrest, hnodes⟩ := fillLoop_round hone hok
      rw [walkCached_succ hn, ← half_toNat, hcached]
      rcases hnodes with ⟨hne, rfl⟩ | ⟨rfl, rfl⟩
      · -- the slot holds its node
        rw [ih hlen hrest]
        exact ⟨fun h => ⟨fun heq => absurd (Option.some.inj heq) hne, h⟩, fun h => h.2⟩
      · obtain ⟨hlt, hslot⟩ := List.getElem?_eq_some_iff.1 hcached
        have hlog : nodeIdx.toNat.log2 ≤ D := by
          have hn' := two_le_xor_one hn
          rw [← Bits.log2_xor_one hn]
          exact (Nat.lt_succ_iff.1 ((Nat.log2_lt (by omega)).2 (by omega))).trans hc
        rw [level_toNat hD hdepth hn hlog] at hrest
        rcases Nat.eq_or_lt_of_le hlog with hleaf | habove
        · -- the empty node of a leaf is zero already
          have hset : nodes.set ((nodeIdx.toNat ^^^ 1) - 2) (emptyNode (D - nodeIdx.toNat.log2)) =
              nodes := by
            rw [hleaf, Nat.sub_self, emptyNode, ← hslot, List.set_getElem_self]
          rw [hset] at hrest
          rw [ih hlen hrest]
          exact ⟨fun h => ⟨fun _ => hleaf, h⟩, fun h => h.2⟩
        · -- any other one is a hash
          refine iff_of_false ?_ fun h => habove.ne (h.1 rfl)
          rintro rfl
          have hne : (emptyNode (D - nodeIdx.toNat.log2) : Node) ≠ EMPTY := by
            obtain ⟨l, hl⟩ := Nat.exists_eq_succ_of_ne_zero (Nat.sub_ne_zero_of_lt habove)
            rw [hl, emptyNode]
            exact hN.hashv_ne_empty _ _
          have hkept := fillLoop_frame hrest (List.getElem?_set_self hlt) hne
          rw [hcached] at hkept
          exact hne (Option.some.inj hkept).symm
    · rw [fillLoop, if_neg hone] at hok
      have hlt : nodeIdx.toNat < 2 := not_le.1 (UInt32.lt_iff_toNat_lt.not.1 hone)
      exact iff_of_true (Prod.mk.inj (Outcome.ok.inj hok)).1.symm (walkCached_of_lt hlt)

end Walk

section Verify

variable [NodeHash Node] [DecidableEq Node] [DecidableEq Pubkey] [Build] [hB : BufferSize B]

/-- `verify_leaf(root, leaf, index)`, with the account that it leaves behind also when it does not
succeed.  The canopy is written before the roll is asked. -/
def Account.verifyLeafInPlace (self : Account Node Pubkey D B) (root leaf : Node) (index : UInt32)
    (proof : List Node) : Outcome GummyrollError Unit × Account Node Pubkey D B :=
  match merkleRollGetSize self.header with
  | .panic => (.panic, self)
  | .err error => (.err error, self)
  | .ok () =>
    match fillInProofFromCanopy self.canopy self.header.maxDepth index proof with
    | .panic => (.panic, self)
    -- the canopy is checked before its first slot is written
    | .err error => (.err error, self)
    | .ok (canopy, proof) =>
      let res := self.roll.proveLeaf root leaf proof index
      let self := { self with roll := res.2, canopy := canopy }
      match res.1 with
      | .panic => (.panic, self)
      | .err _ => (.err .ConcurrentMerkleTreeError, self)
      | .ok _ => (.ok (), self)

omit [DecidableEq Pubkey] in
/-- `verifyLeaf` is the same instruction with only the accounts of successful calls. -/
theorem Account.verifyLeaf_eq (account : Account Node Pubkey D B) (root leaf : Node) (index : UInt32)
    (proof : List Node) :
    account.verifyLeaf root leaf index proof =
      (account.verifyLeafInPlace root leaf index proof).1 >>= fun _ =>
        .ok (account.verifyLeafInPlace root leaf index proof).2 := by
  rw [Account.verifyLeaf, Account.verifyLeafInPlace]
  rcases hsize : merkleRollGetSize account.header with ⟨⟨⟩⟩ | e | _
  · have hsupported : (account.header.maxDepth, account.header.maxBufferSize) ∈
        supportedConstants := by
      rw [merkleRollGetSize] at hsize
      split_ifs at hsize with hmem
      exact hmem
    rcases fillInProofFromCanopy account.canopy account.header.maxDepth index proof with
      ⟨canopy, proof'⟩ | e | _
    · simp only [Outcome.ok_bind, merkleRollApplyFn, if_pos hsupported]
      rcases account.roll.proveLeaf root leaf proof' index with ⟨r | e | _, roll'⟩ <;> rfl
    · rfl
    · rfl
  · rfl
  · rfl

variable {account : Account Node Pubkey D B} {ws : List (ℕ × Node)}
  {events : List (ChangeLogEvent Node Pubkey)}

omit [DecidableEq Pubkey] hB in
/-- Reading a proof fails only by a panic; otherwise it walks up to the root. -/
theorem AccountInv.fill_walk (h : AccountInv c account ws) (index : UInt32) (proof : List Node) :
    fillInProofFromCanopy account.canopy account.header.maxDepth index proof = .panic ∨
      ∃ nodeIdx nodes' inferredNodes, nodeIdx.toNat = walkStart D c index ∧
        fillLoop account.header.maxDepth 32 nodeIdx (account.canopy.nodes, []) =
          .ok (nodes', inferredNodes) ∧
        fillInProofFromCanopy account.canopy account.header.maxDepth index proof =
          .ok ({ account.canopy with nodes := nodes' }, proof ++ inferredNodes) := by
  have hD := h.depth_lt
  rw [fillInProofFromCanopy, checkCanopyBytes_eq h.trailing,
    getCachedPathLength_eq h.canopy.length h.cached hD h.depth_eq]
  simp only [Outcome.ok_bind, subU32_depth h.cached hD h.depth_eq]
  by_cases hsum : addU32 (1 <<< account.header.maxDepth) index =
      (.ok (1 <<< account.header.maxDepth + index) : Outcome GummyrollError UInt32)
  · rw [hsum]
    simp only [Outcome.ok_bind]
    rcases hloop : fillLoop account.header.maxDepth 32
      ((1 <<< account.header.maxDepth + index) >>> UInt32.ofNat (D - c)) (account.canopy.nodes, [])
      with ⟨nodes', inferredNodes⟩ | e | _
    · refine .inr ⟨_, nodes', inferredNodes, ?_, hloop, rfl⟩
      rw [shiftRight_toNat _ (by omega), UInt32.toNat_add, one_shiftLeft_depth hD h.depth_eq,
        walkStart]
    · exact absurd hloop (fillLoop_ne_err e)
    · exact .inl rfl
  · left
    rw [addU32] at hsum ⊢
    split_ifs at hsum ⊢ with hoverflow
    · rfl
    · exact absurd rfl hsum

/-- `verify_leaf` leaves its account as it was if and only if the slots beside its walk are
cached. -/
theorem verifyLeaf_unchanged_iff [CollisionFree Node] [NonzeroHash Node]
    (hrun : AccountReachable c account ws events) (root leaf : Node) (index : UInt32)
    (proof : List Node)
    (hreturns : (account.verifyLeafInPlace root leaf index proof).1 ≠ .panic) :
    (account.verifyLeafInPlace root leaf index proof).2 = account ↔
      WalkCached D account.canopy.nodes (walkStart D c index) := by
  have hinv := hrun.inv
  rcases hinv.fill_walk index proof with hpanic | ⟨nodeIdx, nodes', inferredNodes, hstart, hloop, hfill⟩
  · rw [Account.verifyLeafInPlace, merkleRollGetSize, if_pos hinv.supported, hpanic] at hreturns
    exact absurd rfl hreturns
  · -- whatever the roll returns, it is unchanged
    have haccount : (account.verifyLeafInPlace root leaf index proof).2 =
        { account with canopy := { account.canopy with nodes := nodes' } } := by
      rw [Account.verifyLeafInPlace, merkleRollGetSize, if_pos hinv.supported, hfill]
      dsimp only
      rw [MerkleRoll.proveLeaf_snd]
      rcases (account.roll.proveLeaf root leaf (proof ++ inferredNodes) index).1 with r | e | _ <;> rfl
    rw [haccount, ← hstart, ← fillLoop_unchanged_iff hinv.canopy.length hinv.cached hinv.depth_lt
      hinv.depth_eq hloop]
    constructor
    · intro heq
      exact congrArg (fun account => account.canopy.nodes) heq
    · rintro rfl
      rfl

end Verify

/-- The second time the same leaf is verified nothing is written. -/
theorem verifyLeaf_unchanged_iff_twice :
    let st := accountTrace 2 [.verifyLeaf (emptyNode 3) EMPTY 0 [EMPTY]]
    (st.account.verifyLeafInPlace (emptyNode 3) EMPTY 0 [EMPTY]).2 = st.account := by
  intro st
  have hrun : AccountReachable 2 st.account st.writes st.events :=
    accountRun_trace (show 2 ≤ 3 by norm_num) fun _ _ _ => trivial
  refine (verifyLeaf_unchanged_iff hrun _ _ 0 _ (by decide +kernel)).2 ?_
  have hstart : walkStart 3 2 0 = 4 := by decide
  rw [hstart, walkCached_succ (by norm_num), walkCached_succ (by norm_num)]
  exact ⟨by decide +kernel, by decide +kernel, walkCached_of_lt (by norm_num)⟩

/-- Verifying a leaf of a new tree succeeds, and two empty nodes are put into the canopy. -/
theorem verify_leaf_writes_canopy :
    let st := accountTrace 2 []
    AccountReachable 2 st.account st.writes st.events ∧
      (st.account.verifyLeafInPlace (emptyNode 3) EMPTY 0 [EMPTY]).1 = .ok () ∧
      st.account.canopy.nodes = List.replicate 6 EMPTY ∧
      (st.account.verifyLeafInPlace (emptyNode 3) EMPTY 0 [EMPTY]).2.canopy.nodes =
        [EMPTY, emptyNode 2, EMPTY, emptyNode 1, EMPTY, EMPTY] := by
  intro st
  have hrun : AccountReachable 2 st.account st.writes st.events :=
    accountRun_trace (show 2 ≤ 3 by norm_num) fun _ _ _ => trivial
  exact ⟨hrun, by decide +kernel, by decide +kernel, by decide +kernel⟩

end Candyland.Gummyroll
