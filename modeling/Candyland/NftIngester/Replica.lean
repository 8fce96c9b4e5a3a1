import Candyland.Gummyroll.Events
import Candyland.NftIngester.Gummyroll

/-!
# The replica of a tree

The rows of `cl_items` after all events of a run have been delivered, in any order and any
number of times.  Every node on a written path has one row, with its hash in the current
tree and the number of the last update that touched it; the other nodes have none, and the
leaves under them are empty.
-/

namespace Candyland.NftIngester

open ConcurrentMerkleTree Gummyroll
open MerkleTree (number numbered Under)

variable {Node Pubkey : Type} [NodeHash Node] {D B c : ℕ}

/-- Node `n` is on the path of leaf `j`. -/
def OnPath (D j n : ℕ) : Prop := 0 < n ∧ n.log2 ≤ D ∧ Under D n j

instance (D j n : ℕ) : Decidable (OnPath D j n) := inferInstanceAs (Decidable (_ ∧ _ ∧ _))

/-- The number of the last update that touched node `n`.  The initialisation has number
`0` and touches the path of leaf `0`. -/
def lastSeq (D n : ℕ) : List (ℕ × Node) → Option ℕ
  | [] => if OnPath D 0 n then some 0 else none
  | w :: ws => if OnPath D w.1 n then some (ws.length + 1) else lastSeq D n ws

/-- The row of node `n` for the update with number `seq`, after which the leaves are `T`. -/
def nodeRow (D : ℕ) (T : ℕ → Node) (n seq : ℕ) : ClItem Node where
  level := (D - n.log2 : ℕ)
  hash := numbered hashv D T n
  seq := seq
  leafIdx := if n.log2 = D then some (n - 2 ^ D) else none

/-- The rows of the tree are the replica of its state after the writes `ws`. -/
structure Replicates (D : ℕ) (tree : Pubkey) (ws : List (ℕ × Node))
    (clItems : Pubkey × ℤ → Option (ClItem Node)) : Prop where
  touched : ∀ n seq : ℕ, lastSeq D n ws = some seq →
    clItems (tree, n) = some (nodeRow D (treeAfter ws) n seq)
  untouched : ∀ x : ℤ, (∀ n : ℕ, x = n → lastSeq D n ws = none) → clItems (tree, x) = none
  empty : ∀ n, 0 < n → n.log2 ≤ D → lastSeq D n ws = none →
    ∀ q, Under D n q → treeAfter ws q = EMPTY

/-! ### The last update of a node -/

omit [NodeHash Node] in
theorem lastSeq_eq_none {n : ℕ} {ws : List (ℕ × Node)} :
    lastSeq D n ws = none ↔ ∀ ws', ws' <:+ ws → ¬ OnPath D (lastPosition ws') n := by
  induction ws with
  | nil =>
    rw [lastSeq]
    simp [lastPosition]
  | cons w ws ih =>
    rw [lastSeq]
    simp only [List.suffix_cons_iff, forall_eq_or_imp, ← ih]
    by_cases hpath : OnPath D w.1 n <;> simp [hpath, lastPosition]

/-- After its last update a node does not change. -/
theorem lastSeq_eq_some {n seq : ℕ} {ws : List (ℕ × Node)} (h : lastSeq D n ws = some seq) :
    ∃ ws', ws' <:+ ws ∧ ws'.length = seq ∧ OnPath D (lastPosition ws') n ∧
      numbered hashv D (treeAfter ws) n = numbered hashv D (treeAfter ws') n ∧
      ∀ ws'', ws'' <:+ ws → OnPath D (lastPosition ws'') n → ws''.length ≤ seq := by
  induction ws with
  | nil =>
    rw [lastSeq] at h
    split_ifs at h with hpath
    refine ⟨[], List.suffix_rfl, Option.some.inj h, hpath, rfl, fun ws'' hsuffix _ => ?_⟩
    rw [List.suffix_nil.1 hsuffix]
    exact Nat.zero_le seq
  | cons w ws ih =>
    rw [lastSeq] at h
    split_ifs at h with hpath
    · obtain rfl := Option.some.inj h
      exact ⟨w :: ws, List.suffix_rfl, rfl, hpath, rfl, fun ws'' hsuffix _ => hsuffix.length_le⟩
    · obtain ⟨ws', hsuffix, hlen, hpath', hnode, hmax⟩ := ih h
      refine ⟨ws', hsuffix.trans (List.suffix_cons w ws), hlen, hpath', ?_,
        fun ws'' hsuffix' hon => ?_⟩
      · rw [← hnode]
        -- the write is beside the node
        refine MerkleTree.numbered_update_of_ne hashv hpath'.1 hpath'.2.1 fun heq => hpath ?_
        exact ⟨hpath'.1, hpath'.2.1, (MerkleTree.under_iff hpath'.1 hpath'.2.1).2 heq.symm⟩
      · rcases List.suffix_cons_iff.1 hsuffix' with rfl | hsuffix'
        · exact absurd hon hpath
        · exact hmax ws'' hsuffix' hon

/-- Under a node that was never touched all leaves are empty. -/
theorem treeAfter_of_lastSeq_eq_none {n : ℕ} (hn : 0 < n) (hlog : n.log2 ≤ D)
    {ws : List (ℕ × Node)} (h : lastSeq D n ws = none) {q : ℕ} (hq : Under D n q) :
    treeAfter ws q = EMPTY := by
  induction ws with
  | nil => rfl
  | cons w ws ih =>
    rw [lastSeq] at h
    split_ifs at h with hpath
    have hne : q ≠ w.1 := by
      rintro rfl
      exact hpath ⟨hn, hlog, hq⟩
    rw [treeAfter, MerkleTree.after_cons, Function.update_of_ne hne]
    exact ih h

/-! ### The rows of the events -/

theorem asI64_eq {x : ℕ} (hx : x < 2 ^ 63) : asI64 x = x := if_pos hx

section Event

variable (tree : Pubkey) {ws : List (ℕ × Node)}

/-- Entry `l` of the path is the row of its node. -/
theorem clRow_eventAfter (hD : D < 31) (hlast : lastPosition ws < 2 ^ D)
    (hlen : ws.length < 2 ^ 63) {l : ℕ} (hl : l ≤ D) :
    clRow (eventAfter D tree ws) l
        ⟨MerkleTree.node hashv (treeAfter ws) l (lastPosition ws / 2 ^ l),
          UInt32.ofNat (number D (lastPosition ws) l)⟩ =
      ((tree, (number D (lastPosition ws) l : ℤ)),
        nodeRow D (treeAfter ws) (number D (lastPosition ws) l) ws.length) := by
  have hnumber := MerkleTree.number_lt hlast hl
  have hpow : 2 ^ (D + 1) ≤ 2 ^ 31 := Nat.pow_le_pow_right (by norm_num) (by omega)
  have hindex : (UInt32.ofNat (number D (lastPosition ws) l)).toNat =
      number D (lastPosition ws) l :=
    UInt32.toNat_ofNat'.trans (Nat.mod_eq_of_lt (by omega))
  have hdepth : (eventAfter D tree ws).path.length - 1 = D := by simp [eventAfter]
  have hleaf : D - l = D ↔ l = 0 := by omega
  rw [clRow, nodeRow, hindex, hdepth, MerkleTree.number_log2 hlast hl,
    MerkleTree.numbered_number hashv hlast hl, Nat.sub_sub_self hl, nodeIdxToLeafIdx]
  simp only [hleaf]
  exact congrArg _ (congrArg (fun seq => ClItem.mk _ _ seq _) (asI64_eq hlen))

/-- The rows of an event of the tree. -/
theorem mem_clRows_eventAfter (hD : D < 31) (hlast : lastPosition ws < 2 ^ D)
    (hlen : ws.length < 2 ^ 63) {key : Pubkey × ℤ} {row : ClItem Node} :
    (key, row) ∈ clRows (eventAfter D tree ws) ↔
      ∃ n : ℕ, key = (tree, (n : ℤ)) ∧ OnPath D (lastPosition ws) n ∧
        row = nodeRow D (treeAfter ws) n ws.length := by
  rw [mem_clRows]
  constructor
  · rintro ⟨l, p, hp, heq⟩
    obtain ⟨hl, rfl⟩ := List.getElem?_eq_some_iff.1 hp
    have hl' : l ≤ D := by simpa [eventAfter, Nat.lt_succ_iff] using hl
    simp only [eventAfter, List.getElem_map, List.getElem_range] at heq
    have hrow := clRow_eventAfter tree hD hlast hlen hl'
    rw [eventAfter] at hrow
    rw [hrow] at heq
    obtain ⟨rfl, rfl⟩ := Prod.mk.inj heq
    refine ⟨_, rfl, ⟨MerkleTree.number_pos D _ l, ?_, ?_⟩, rfl⟩
    · rw [MerkleTree.number_log2 hlast hl']
      exact Nat.sub_le D l
    · exact (MerkleTree.under_number hlast hl' _).2 rfl
  · rintro ⟨n, rfl, ⟨hn, hlog, hunder⟩, rfl⟩
    have hnumber := (MerkleTree.under_iff hn hlog).1 hunder
    have hrow := clRow_eventAfter tree hD hlast hlen (Nat.sub_le D n.log2)
    rw [hnumber] at hrow
    refine ⟨D - n.log2, _, ?_, hrow.symm⟩
    rw [eventAfter, List.getElem?_map, List.getElem?_range (by omega), Option.map_some, hnumber]

end Event

/-- The rows that the deliveries of all events of a tree have for the tree. -/
theorem mem_deliveries (hD : D < 31) (tree : Pubkey) {ws : List (ℕ × Node)}
    (hbound : ∀ w ∈ ws, w.1 < 2 ^ D) (hlen : ws.length < 2 ^ 63)
    {deliveries : List (ChangeLogEvent Node Pubkey × ℕ)}
    (hdeliveries : ∀ event, event.id = tree →
      ((∃ slot, (event, slot) ∈ deliveries) ↔ event ∈ history D tree ws))
    {x : ℤ} {row : ClItem Node} :
    ((tree, x), row) ∈ deliveries.flatMap (fun d => clRows d.1) ↔
      ∃ ws', ws' <:+ ws ∧ ∃ n : ℕ, x = n ∧ OnPath D (lastPosition ws') n ∧
        row = nodeRow D (treeAfter ws') n ws'.length := by
  have hrows : ∀ ws', ws' <:+ ws → ∀ {key : Pubkey × ℤ} {row : ClItem Node},
      (key, row) ∈ clRows (eventAfter D tree ws') ↔
        ∃ n : ℕ, key = (tree, (n : ℤ)) ∧ OnPath D (lastPosition ws') n ∧
          row = nodeRow D (treeAfter ws') n ws'.length := by
    intro ws' hsuffix key row
    refine mem_clRows_eventAfter tree hD ?_ (hsuffix.length_le.trans_lt hlen)
    cases ws' with
    | nil => exact Nat.two_pow_pos D
    | cons w ws' => exact hbound w (hsuffix.mem List.mem_cons_self)
  rw [List.mem_flatMap]
  constructor
  · rintro ⟨⟨event, slot⟩, hmem, hrow⟩
    -- the key of a row is the tree of its event
    have hid : event.id = tree := by
      obtain ⟨i, p, -, heq⟩ := mem_clRows.1 hrow
      exact (Prod.mk.inj (Prod.mk.inj heq).1).1.symm
    obtain ⟨ws', hsuffix, rfl⟩ := mem_history.1 ((hdeliveries event hid).1 ⟨slot, hmem⟩)
    obtain ⟨n, hkey, hpath, hrow⟩ := (hrows ws' hsuffix).1 hrow
    exact ⟨ws', hsuffix, n, (Prod.mk.inj hkey).2, hpath, hrow⟩
  · rintro ⟨ws', hsuffix, n, rfl, hpath, rfl⟩
    obtain ⟨slot, hmem⟩ := (hdeliveries (eventAfter D tree ws') rfl).2
      (mem_history.2 ⟨ws', hsuffix, rfl⟩)
    exact ⟨_, hmem, (hrows ws' hsuffix).2 ⟨n, rfl, hpath, rfl⟩⟩

/-- Rows of one node are told apart by their update. -/
theorem coherent_deliveries (hD : D < 31) [DecidableEq Pubkey] (tree : Pubkey)
    {ws : List (ℕ × Node)} (hbound : ∀ w ∈ ws, w.1 < 2 ^ D) (hlen : ws.length < 2 ^ 63)
    {deliveries : List (ChangeLogEvent Node Pubkey × ℕ)}
    (hdeliveries : ∀ event, event.id = tree →
      ((∃ slot, (event, slot) ∈ deliveries) ↔ event ∈ history D tree ws)) (x : ℤ) :
    LastWriter.Coherent ClItem.seq ClItem.overwrite (deliveries.flatMap fun d => clRows d.1)
      (tree, x) := by
  constructor
  · intro old row hold hrow
    obtain ⟨ws₁, -, n, hn, -, rfl⟩ := (mem_deliveries hD tree hbound hlen hdeliveries).1 hold
    obtain ⟨ws₂, -, m, hm, -, rfl⟩ := (mem_deliveries hD tree hbound hlen hdeliveries).1 hrow
    obtain rfl : n = m := by omega
    rfl
  · intro row row' hrow hrow' hseq
    obtain ⟨ws₁, hsuffix₁, n, hn, -, rfl⟩ :=
      (mem_deliveries hD tree hbound hlen hdeliveries).1 hrow
    obtain ⟨ws₂, hsuffix₂, m, hm, -, rfl⟩ :=
      (mem_deliveries hD tree hbound hlen hdeliveries).1 hrow'
    obtain rfl : n = m := by omega
    have hlength : ws₁.length = ws₂.length := Int.ofNat.inj hseq
    rw [(List.suffix_of_suffix_length_le hsuffix₁ hsuffix₂ hlength.le).eq_of_length hlength]

/-- Any deliveries of all events of a tree make its replica. -/
theorem replicates_deliver (hD : D < 31) [DecidableEq Pubkey] (tree : Pubkey)
    {ws : List (ℕ × Node)} (hbound : ∀ w ∈ ws, w.1 < 2 ^ D) (hlen : ws.length < 2 ^ 63)
    {deliveries : List (ChangeLogEvent Node Pubkey × ℕ)}
    (hdeliveries : ∀ event, event.id = tree →
      ((∃ slot, (event, slot) ∈ deliveries) ↔ event ∈ history D tree ws))
    {txn : Database Node Pubkey} (hempty : ∀ x, txn.clItems (tree, x) = none) :
    Replicates D tree ws (saveChangelogEvents txn deliveries).clItems := by
  rw [clItems_saveChangelogEvents]
  have hmem (x : ℤ) (row : ClItem Node) := @mem_deliveries Node Pubkey _ D hD tree ws hbound hlen
    deliveries hdeliveries x row
  refine ⟨fun n seq hseq => ?_, fun x hx => ?_, fun n hn hlog hnone q hq => ?_⟩
  · obtain ⟨ws', hsuffix, rfl, hpath, hnode, hmax⟩ := lastSeq_eq_some hseq
    have hrow : nodeRow D (treeAfter ws) n ws'.length = nodeRow D (treeAfter ws') n ws'.length := by
      rw [nodeRow, nodeRow, hnode]
    refine LastWriter.deliver_eq_some (hempty n)
      (coherent_deliveries hD tree hbound hlen hdeliveries n) ⟨?_, ?_⟩
    · exact (hmem _ _).2 ⟨ws', hsuffix, n, rfl, hpath, hrow⟩
    · intro row' hrow'
      obtain ⟨ws'', hsuffix', m, hm, hpath', rfl⟩ := (hmem _ _).1 hrow'
      obtain rfl : n = m := by omega
      exact Int.ofNat_le.2 (hmax ws'' hsuffix' hpath')
  · rw [LastWriter.deliver_of_not_mem, hempty]
    intro row hrow
    obtain ⟨ws', hsuffix, n, hn, hpath, -⟩ := (hmem _ _).1 hrow
    exact lastSeq_eq_none.1 (hx n hn) ws' hsuffix hpath
  · exact treeAfter_of_lastSeq_eq_none hn hlog hnone hq

/-! ### The rows of a replica -/

section Rows

variable {tree : Pubkey} {ws : List (ℕ × Node)} {clItems : Pubkey × ℤ → Option (ClItem Node)}

/-- A replica is determined by the writes. -/
theorem Replicates.row (h : Replicates D tree ws clItems) (n : ℕ) :
    clItems (tree, (n : ℤ)) = (lastSeq D n ws).map (nodeRow D (treeAfter ws) n) := by
  rcases hseq : lastSeq D n ws with _ | seq
  · refine h.untouched n fun m hm => ?_
    rw [← Int.ofNat.inj hm, hseq]
  · exact h.touched n seq hseq

/-- Every row of a replica is that of a touched node. -/
theorem Replicates.exists_of_eq_some (h : Replicates D tree ws clItems) {x : ℤ}
    {item : ClItem Node} (hitem : clItems (tree, x) = some item) :
    ∃ n seq : ℕ, x = n ∧ lastSeq D n ws = some seq ∧ item = nodeRow D (treeAfter ws) n seq := by
  by_cases hx : ∃ n seq : ℕ, x = n ∧ lastSeq D n ws = some seq
  · obtain ⟨n, seq, rfl, hseq⟩ := hx
    rw [h.touched n seq hseq] at hitem
    exact ⟨n, seq, rfl, hseq, (Option.some.inj hitem).symm⟩
  · rw [h.untouched x] at hitem
    · exact absurd hitem (by simp)
    · intro n hn
      by_contra hsome
      obtain ⟨seq, hseq⟩ := Option.ne_none_iff_exists'.1 hsome
      exact hx ⟨n, seq, hn, hseq⟩

/-- The node of a missing row is empty. -/
theorem numbered_of_lastSeq_eq_none {n : ℕ} (hn : 0 < n) (hlog : n.log2 ≤ D)
    (h : lastSeq D n ws = none) :
    numbered hashv D (treeAfter ws) n = emptyNode (D - n.log2) := by
  rw [emptyNode_eq_uniform]
  exact MerkleTree.node_eq_uniform hashv fun q hq => treeAfter_of_lastSeq_eq_none hn hlog h hq

omit [NodeHash Node] in
/-- Only nodes of the tree are touched. -/
theorem pos_of_lastSeq_eq_some {n seq : ℕ} (h : lastSeq D n ws = some seq) : 0 < n := by
  by_contra hn
  rw [lastSeq_eq_none.2 fun ws' _ hpath => hn hpath.1] at h
  exact absurd h (by simp)

omit [NodeHash Node] in
theorem lastSeq_le {n seq : ℕ} (h : lastSeq D n ws = some seq) : seq ≤ ws.length := by
  induction ws with
  | nil =>
    rw [lastSeq] at h
    split_ifs at h
    simp_all
  | cons w ws ih =>
    rw [lastSeq] at h
    split_ifs at h with hpath
    · simp_all
    · exact (ih h).trans (Nat.le_succ ws.length)

omit [NodeHash Node] in
/-- Every update touches the root. -/
theorem lastSeq_one (hbound : ∀ w ∈ ws, w.1 < 2 ^ D) : lastSeq D 1 ws = some ws.length := by
  have hroot : ∀ j < 2 ^ D, OnPath D j 1 := by
    intro j hj
    refine ⟨Nat.one_pos, Nat.zero_le D, ?_⟩
    rw [Under, show Nat.log2 1 = 0 from rfl]
    simpa using hj
  cases ws with
  | nil => exact if_pos (hroot 0 (by positivity))
  | cons w ws => exact if_pos (hroot w.1 (hbound w List.mem_cons_self))

variable [DecidableEq Pubkey]

/-- The replica as a table. -/
def replica (D : ℕ) (tree : Pubkey) (ws : List (ℕ × Node)) :
    Pubkey × ℤ → Option (ClItem Node) := fun (t, x) =>
  if t = tree ∧ 0 ≤ x then (lastSeq D x.toNat ws).map (nodeRow D (treeAfter ws) x.toNat) else none

theorem replicates_replica (D : ℕ) (tree : Pubkey) (ws : List (ℕ × Node)) :
    Replicates D tree ws (replica D tree ws) where
  touched n seq hseq := by simp [replica, hseq]
  untouched x hx := by
    rw [replica]
    split_ifs with h
    · rw [hx x.toNat (Int.toNat_of_nonneg h.2).symm]
      rfl
    · rfl
  empty n hn hlog hnone q hq := treeAfter_of_lastSeq_eq_none hn hlog hnone hq

end Rows

/-! ### Convergence -/

/-- Whichever way the events of a run in the tree are delivered, each at least once, the rows
become the replica of the final tree. -/
theorem replica_converges [DecidableEq Node] [DecidableEq Pubkey] [Build] [BufferSize B]
    [CollisionFree Node] [NonzeroHash Node] {account : Account Node Pubkey D B}
    {ws : List (ℕ × Node)} {events : List (ChangeLogEvent Node Pubkey)}
    (hrun : AccountRun (fun account ins => ins.InTree account ∧ SeqBelow account) c account ws
      events)
    {txn : Database Node Pubkey} (hempty : ∀ x, txn.clItems (account.key, x) = none)
    {deliveries : List (ChangeLogEvent Node Pubkey × ℕ)}
    (hdeliveries : ∀ event, event.id = account.key →
      ((∃ slot, (event, slot) ∈ deliveries) ↔ event ∈ events)) :
    Replicates D account.key ws (saveChangelogEvents txn deliveries).clItems := by
  have hinv := hrun.inv
  obtain ⟨rfl, -, hlen⟩ := hrun.events_eq
  exact replicates_deliver hinv.depth_lt account.key hinv.roll.bound hlen hdeliveries hempty

/-- Tables without rows. -/
def noRows : Database Term ℕ := ⟨fun _ => none, []⟩

/-- Two appends and a replaced leaf, delivered from the newest event to the oldest and then
once more in order. -/
theorem replica_converges_twice :
    let root := (accountTrace 2 [.append 0 0 (.leaf 1)]).account.roll.getChangeLog.root
    let replace : Instruction Term ℕ := .replaceLeaf 0 root (.leaf 1) (.leaf 3) 0 [EMPTY]
    let st := accountTrace 2 [.append 0 0 (.leaf 1), .append 0 0 (.leaf 2), replace]
    st.writes = [(0, .leaf 3), (1, .leaf 2), (0, .leaf 1)] ∧
      Replicates 3 0 st.writes (saveChangelogEvents noRows
        ((st.events ++ st.events.reverse).map fun event => (event, 7))).clItems := by
  intro root replace st
  have hrun : AccountRun (fun account ins => ins.InTree account ∧ SeqBelow account) 2
      st.account st.writes st.events := by
    have hopened := accountRun_trace (show 2 ≤ 3 by norm_num)
      (List.forall_mem_nil fun ins => ∀ account : Account Term ℕ 3 8,
        ins.InTree account ∧ SeqBelow account)
    have hfirst := hopened.step (.append 0 0 (.leaf 1))
      ⟨trivial, by unfold SeqBelow; decide +kernel⟩
    have hsecond := hfirst.step (.append 0 0 (.leaf 2))
      ⟨trivial, by unfold SeqBelow; decide +kernel⟩
    exact hsecond.step replace ⟨trivial, by unfold SeqBelow; decide +kernel⟩
  refine ⟨by decide +kernel, replica_converges hrun (fun _ => rfl) fun event _ => ?_⟩
  simp

/-- On a full tree whose leaf `3` was emptied, `insert_or_append` fills it again through the
index `2 ^ 32 - 5`. -/
def aliasedLeaf : AccountState Term ℕ 3 8 :=
  let st := accountTrace 0 ((List.range 8).map fun m => .append 0 0 (.leaf (m + 1)))
  let emptied := st.step (.replaceLeaf 0 (MerkleTree.root hashv 3 (treeAfter st.writes)) (.leaf 4)
    EMPTY 3 (siblings 3 (treeAfter st.writes) 3))
  emptied.step (.insertOrAppend 0 (MerkleTree.root hashv 3 (treeAfter emptied.writes)) (.leaf 9)
    4294967291 (siblings 3 (treeAfter emptied.writes) 3))

/-- Delivered in order, the events leave leaf `3` empty, as it was an update before. -/
theorem replica_of_aliased_leaf :
    AccountReachable 0 aliasedLeaf.account aliasedLeaf.writes aliasedLeaf.events ∧
      aliasedLeaf.events.length = 11 ∧
      ¬ Replicates 3 0 aliasedLeaf.writes (saveChangelogEvents noRows
        (aliasedLeaf.events.reverse.map fun event => (event, 7))).clItems := by
  have hrun : AccountReachable 0 aliasedLeaf.account aliasedLeaf.writes aliasedLeaf.events :=
    ((accountRun_trace (Nat.zero_le 3) fun _ _ _ => trivial).step _ trivial).step _ trivial
  refine ⟨hrun, by decide +kernel, fun hreplica => ?_⟩
  have hlast : lastSeq 3 11 aliasedLeaf.writes = some 10 := by decide +kernel
  have hrow := hreplica.touched 11 10 hlast
  revert hrow
  decide +kernel

end Candyland.NftIngester
