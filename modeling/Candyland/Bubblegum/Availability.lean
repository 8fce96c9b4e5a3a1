import Candyland.Bubblegum.Events
import Candyland.Bubblegum.Symbolic
import Candyland.Gummyroll.AgedProofs

/-!
# What a holder can do

The ledger says which instructions can have succeeded.  Here is the other direction: what the
ledger allows the holder of an asset can be done with one look at the tree, however many other
assets are changed in between, as long as the buffer holds these changes.
-/

namespace Candyland.Bubblegum

open ConcurrentMerkleTree
open Gummyroll (Build AccountInv ChangeLogEvent)

variable {Node Pubkey : Type}

/-! ### Requests -/

namespace Tree

/-- The levels below the root that the canopy caches. -/
def cached (self : Tree Node Pubkey) : ℕ :=
  Nat.log2 (self.slab.account.canopy.nodes.length + 2) - 1

/-- The root. -/
def root (self : Tree Node Pubkey) : Node := self.slab.account.roll.getChangeLog.root

/-- The siblings of a leaf below the canopy, which are what a client sends. -/
def proof [NodeHash Node] (self : Tree Node Pubkey) (i : ℕ) : List Node :=
  (siblings self.depth self.leaf i).take (self.depth - self.cached)

end Tree

/-- What the holder of an asset can ask for. -/
inductive Request (Pubkey : Type) where
  | transfer (newOwner : Pubkey)
  | delegate (newDelegate : Pubkey)
  | burn
  | redeem
  | cancelRedeem
deriving DecidableEq

namespace Request

/-- The instruction for an asset, with the root and the proof from a look at the tree. -/
def instruction [NodeHash Node] [ProgramAddress Pubkey] (slab : Pubkey) (tree : Tree Node Pubkey)
    (s : LeafSchema Node Pubkey) : Request Pubkey → Instruction Node Pubkey
  | transfer newOwner => .transfer slab s.owner s.delegate newOwner tree.root s.dataHash
      s.creatorHash s.nonce (UInt32.ofNat s.nonce.toNat) (tree.proof s.nonce.toNat)
  | delegate newDelegate => .delegate slab s.owner s.delegate newDelegate tree.root s.dataHash
      s.creatorHash s.nonce (UInt32.ofNat s.nonce.toNat) (tree.proof s.nonce.toNat)
  | burn => .burn slab s.owner s.delegate tree.root s.dataHash s.creatorHash s.nonce
      (UInt32.ofNat s.nonce.toNat) (tree.proof s.nonce.toNat)
  | redeem => .redeem slab s.owner s.delegate tree.root s.dataHash s.creatorHash s.nonce
      (UInt32.ofNat s.nonce.toNat) (tree.proof s.nonce.toNat)
  | cancelRedeem => .cancelRedeem slab (ProgramAddress.voucher slab s.nonce) s.owner tree.root
      (tree.proof s.nonce.toNat)

/-- The leaf that a request leaves. -/
def leaf [NodeHash Node] [LeafHash Node Pubkey] (s : LeafSchema Node Pubkey) :
    Request Pubkey → Node
  | transfer newOwner => { s with owner := newOwner, delegate := newOwner : LeafSchema _ _ }.toNode
  | delegate newDelegate => { s with delegate := newDelegate : LeafSchema _ _ }.toNode
  | burn => EMPTY
  | redeem => EMPTY
  | cancelRedeem => s.toNode

/-- The asset is where the request needs it, and the holder signs: a leaf of the tree, or for
`cancel_redeem` a voucher. -/
def Allowed [NodeHash Node] [LeafHash Node Pubkey] [ProgramAddress Pubkey] (st : State Node Pubkey)
    (slab : Pubkey) (signers : List Pubkey) (s : LeafSchema Node Pubkey) : Request Pubkey → Prop
  | transfer _ => st.leaf slab s.nonce.toNat = some s.toNode ∧
      (s.owner ∈ signers ∨ s.delegate ∈ signers)
  | delegate _ => st.leaf slab s.nonce.toNat = some s.toNode ∧ s.owner ∈ signers
  | burn => st.leaf slab s.nonce.toNat = some s.toNode ∧
      (s.owner ∈ signers ∨ s.delegate ∈ signers)
  | redeem => st.leaf slab s.nonce.toNat = some s.toNode ∧ s.owner ∈ signers
  | cancelRedeem => st.vouchers (ProgramAddress.voucher slab s.nonce) =
      some ⟨s, UInt32.ofNat s.nonce.toNat, slab⟩ ∧ s.owner ∈ signers

end Request

/-- What has become of the asset when the request is made. -/
def Request.life (s : LeafSchema Node Pubkey) : Request Pubkey → Life Node Pubkey
  | cancelRedeem => .redeemed s
  | _ => .live s

/-- The number of updates that instructions make to a tree. -/
def updates (slab : Pubkey) [DecidableEq Pubkey] (xs : List (Executed Node Pubkey)) : ℕ :=
  xs.countP fun x => decide (x.instruction.tree? = some slab)

section Holders

variable [NodeHash Node] [LeafHash Node Pubkey] [ProgramAddress Pubkey] [DecidableEq Node]
  [DecidableEq Pubkey] [Build]

/-! ### Other instructions -/

/-- A later state of a tree, after writes to other leaves. -/
structure Tree.Extends (n : ℕ) (tree tree' : Tree Node Pubkey) (later : List (ℕ × Node)) :
    Prop where
  depth_eq : tree'.depth = tree.depth
  size_eq : tree'.bufferSize = tree.bufferSize
  cached_eq : tree'.cached = tree.cached
  writes_eq : tree'.slab.writes = later ++ tree.slab.writes
  spared : ∀ w ∈ later, w.1 ≠ n

omit [NodeHash Node] [LeafHash Node Pubkey] [ProgramAddress Pubkey] [DecidableEq Node]
  [DecidableEq Pubkey] [Build] in
theorem Tree.Extends.refl (n : ℕ) (tree : Tree Node Pubkey) : tree.Extends n tree [] :=
  ⟨rfl, rfl, rfl, rfl, fun _ hw => absurd hw List.not_mem_nil⟩

omit [LeafHash Node Pubkey] [ProgramAddress Pubkey] [DecidableEq Node] [DecidableEq Pubkey]
  [Build] in
/-- The canopy has as many nodes as its levels need. -/
theorem Tree.cached_eq {tree : Tree Node Pubkey} {c : ℕ}
    (hinv : AccountInv c tree.slab.account tree.slab.writes) : tree.cached = c := by
  rw [cached, hinv.canopy.length, Nat.log2_two_pow, Nat.add_sub_cancel]

section Later

variable [CollisionFree Node] [NonzeroHash Node] [CollisionFreeLeaf Node Pubkey]
  [InjectiveAddress Pubkey] {st st' : State Node Pubkey} {L : Ledger Node Pubkey} {slab : Pubkey}
  {x : Executed Node Pubkey} {tree : Tree Node Pubkey}

omit [InjectiveAddress Pubkey] in
/-- An instruction writes the leaf of the asset that it is about, or a new one. -/
theorem State.Represents.event_position (h : st.Represents L) (hx : x.Takes st st')
    (hname : x.instruction.tree? = some slab) (htree : st.trees slab = some tree)
    {event : ChangeLogEvent Node Pubkey} (hevent : event ∈ changeLogs x.events) :
    (∃ n, x.instruction.Concerns slab n ∧ tree.position event.index = n.toNat) ∨
      tree.position event.index = tree.count := by
  obtain ⟨signers, instruction, events⟩ := x
  obtain ⟨-, hok⟩ := hx
  cases instruction with
  | createTree =>
    obtain rfl := Option.some.inj hname
    obtain ⟨⟨⟩, hnone, -⟩ := Outcome.bind_eq_ok.1 hok
    exact absurd (htree.symm.trans (h.tree_eq_none (constraint_eq_ok.1 hnone))) (by simp)
  | mintV1 =>
    obtain rfl := Option.some.inj hname
    obtain ⟨⟨⟩, -, hok⟩ := Outcome.bind_eq_ok.1 hok
    obtain ⟨count, -, hok⟩ := Outcome.bind_eq_ok.1 hok
    obtain ⟨⟨events₁, st₁⟩, hcall, hok⟩ := Outcome.bind_eq_ok.1 hok
    obtain ⟨rfl, rfl⟩ := Prod.mk.inj (Outcome.ok.inj hok)
    obtain ⟨lives, tree₁, tree', -, hshows, hinvoke, rfl⟩ := h.invoke hcall
    obtain rfl := Option.some.inj (htree.symm.trans hshows.tree_eq)
    obtain ⟨-, event₁, rfl, hposition, -⟩ := Tree.invoke_append hshows.made hinvoke
    obtain rfl := List.mem_singleton.1 hevent
    exact .inr hposition
  | transfer | delegate | burn =>
    obtain rfl := Option.some.inj hname
    obtain ⟨count, -, hok⟩ := Outcome.bind_eq_ok.1 hok
    obtain ⟨⟨⟩, -, hok⟩ := Outcome.bind_eq_ok.1 hok
    obtain ⟨⟨events₁, st₁⟩, hcall, hok⟩ := Outcome.bind_eq_ok.1 hok
    obtain ⟨rfl, rfl⟩ := Prod.mk.inj (Outcome.ok.inj hok)
    obtain ⟨lives, tree₁, tree', -, hshows, hinvoke, rfl⟩ := h.invoke hcall
    obtain rfl := Option.some.inj (htree.symm.trans hshows.tree_eq)
    obtain ⟨hprevious, event₁, rfl, hindex, -⟩ := Tree.invoke_replaceLeaf hshows.made hinvoke
    obtain rfl := List.mem_singleton.1 hevent
    rw [hindex]
    exact .inl ⟨_, ⟨rfl, rfl⟩, (hshows.live hprevious.symm).2.1.symm⟩
  | redeem =>
    obtain rfl := Option.some.inj hname
    obtain ⟨count, -, hok⟩ := Outcome.bind_eq_ok.1 hok
    obtain ⟨⟨⟩, -, hok⟩ := Outcome.bind_eq_ok.1 hok
    obtain ⟨⟨⟩, -, hok⟩ := Outcome.bind_eq_ok.1 hok
    obtain ⟨⟨events₁, st₁⟩, hcall, hok⟩ := Outcome.bind_eq_ok.1 hok
    obtain ⟨rfl, rfl⟩ := Prod.mk.inj (Outcome.ok.inj hok)
    obtain ⟨lives, tree₁, tree', -, hshows, hinvoke, rfl⟩ := h.invoke hcall
    obtain rfl := Option.some.inj (htree.symm.trans hshows.tree_eq)
    obtain ⟨hprevious, event₁, rfl, hindex, -⟩ := Tree.invoke_replaceLeaf hshows.made hinvoke
    obtain rfl := List.mem_singleton.1 hevent
    rw [hindex]
    exact .inl ⟨_, ⟨rfl, rfl⟩, (hshows.live hprevious.symm).2.1.symm⟩
  | cancelRedeem =>
    obtain rfl := Option.some.inj hname
    obtain ⟨count, -, hok⟩ := Outcome.bind_eq_ok.1 hok
    obtain ⟨voucher, hvoucher, hok⟩ := Outcome.bind_eq_ok.1 hok
    obtain ⟨⟨⟩, haddress, hok⟩ := Outcome.bind_eq_ok.1 hok
    obtain ⟨⟨⟩, -, hok⟩ := Outcome.bind_eq_ok.1 hok
    obtain ⟨⟨⟩, -, hok⟩ := Outcome.bind_eq_ok.1 hok
    obtain ⟨⟨events₁, st₁⟩, hcall, hok⟩ := Outcome.bind_eq_ok.1 hok
    obtain ⟨rfl, rfl⟩ := Prod.mk.inj (Outcome.ok.inj hok)
    obtain rfl := constraint_eq_ok.1 haddress
    obtain ⟨lives, tree₁, -, hshows, -, -, hposition, -⟩ :=
      h.redeemed (State.voucher_eq_ok.1 hvoucher)
    obtain rfl := Option.some.inj (htree.symm.trans hshows.tree_eq)
    obtain ⟨lives₂, tree₂, tree', -, hshows₂, hinvoke, rfl⟩ := h.invoke hcall
    obtain rfl := Option.some.inj (htree.symm.trans hshows₂.tree_eq)
    obtain ⟨-, event₁, rfl, hindex, -⟩ := Tree.invoke_replaceLeaf hshows.made hinvoke
    obtain rfl := List.mem_singleton.1 hevent
    rw [hindex]
    exact .inl ⟨_, rfl, hposition⟩
  | decompressV1 => exact absurd hname (by simp [Instruction.tree?])
  | compress => exact absurd hname (by simp [Instruction.tree?])

omit [LeafHash Node Pubkey] [ProgramAddress Pubkey] [CollisionFree Node] [NonzeroHash Node]
  [CollisionFreeLeaf Node Pubkey] [InjectiveAddress Pubkey] in
/-- A call of gummyroll does not touch the vouchers. -/
theorem State.vouchers_invoke {ins : Gummyroll.Instruction Node Pubkey}
    {events : List (Event Node Pubkey)} (hok : st.invoke slab ins = .ok (events, st')) :
    st'.vouchers = st.vouchers := by
  rw [State.invoke] at hok
  cases htree : st.trees slab with
  | none =>
    rw [htree] at hok
    exact absurd hok (by simp)
  | some tree =>
    rw [htree] at hok
    obtain ⟨⟨events₁, tree'⟩, -, hok⟩ := Outcome.bind_eq_ok.1 hok
    obtain ⟨-, rfl⟩ := Prod.mk.inj (Outcome.ok.inj hok)
    rfl

omit [CollisionFree Node] [NonzeroHash Node] [CollisionFreeLeaf Node Pubkey] in
/-- A voucher stays as it is under instructions about other assets. -/
theorem Executed.Takes.voucher_eq (hx : x.Takes st st') {n : UInt64}
    (hc : ¬ x.instruction.Concerns slab n) :
    st'.vouchers (ProgramAddress.voucher slab n) = st.vouchers (ProgramAddress.voucher slab n) := by
  obtain ⟨signers, instruction, events⟩ := x
  obtain ⟨-, hok⟩ := hx
  cases instruction with
  | createTree =>
    obtain ⟨⟨⟩, -, hok⟩ := Outcome.bind_eq_ok.1 hok
    obtain ⟨⟨⟩, -, hok⟩ := Outcome.bind_eq_ok.1 hok
    split at hok
    · obtain ⟨-, rfl⟩ := Prod.mk.inj (Outcome.ok.inj hok)
      rfl
    · exact absurd hok (by simp)
    · exact absurd hok (by simp)
  | mintV1 =>
    obtain ⟨⟨⟩, -, hok⟩ := Outcome.bind_eq_ok.1 hok
    obtain ⟨count, -, hok⟩ := Outcome.bind_eq_ok.1 hok
    obtain ⟨⟨events₁, st₁⟩, hcall, hok⟩ := Outcome.bind_eq_ok.1 hok
    obtain ⟨-, rfl⟩ := Prod.mk.inj (Outcome.ok.inj hok)
    exact congrFun (State.vouchers_invoke hcall) _
  | transfer | delegate | burn =>
    obtain ⟨count, -, hok⟩ := Outcome.bind_eq_ok.1 hok
    obtain ⟨⟨⟩, -, hok⟩ := Outcome.bind_eq_ok.1 hok
    obtain ⟨⟨events₁, st₁⟩, hcall, hok⟩ := Outcome.bind_eq_ok.1 hok
    obtain ⟨-, rfl⟩ := Prod.mk.inj (Outcome.ok.inj hok)
    exact congrFun (State.vouchers_invoke hcall) _
  | redeem slab₁ _ _ _ _ _ nonce =>
    obtain ⟨count, -, hok⟩ := Outcome.bind_eq_ok.1 hok
    obtain ⟨⟨⟩, -, hok⟩ := Outcome.bind_eq_ok.1 hok
    obtain ⟨⟨⟩, -, hok⟩ := Outcome.bind_eq_ok.1 hok
    obtain ⟨⟨events₁, st₁⟩, hcall, hok⟩ := Outcome.bind_eq_ok.1 hok
    obtain ⟨-, rfl⟩ := Prod.mk.inj (Outcome.ok.inj hok)
    have hne : ProgramAddress.voucher slab n ≠ ProgramAddress.voucher slab₁ nonce := by
      intro heq
      obtain ⟨rfl, rfl⟩ := InjectiveAddress.voucher_inj heq
      exact hc ⟨rfl, rfl⟩
    exact (Function.update_of_ne hne _ _).trans (congrFun (State.vouchers_invoke hcall) _)
  | cancelRedeem slab₁ voucherKey =>
    obtain ⟨count, -, hok⟩ := Outcome.bind_eq_ok.1 hok
    obtain ⟨voucher, -, hok⟩ := Outcome.bind_eq_ok.1 hok
    obtain ⟨⟨⟩, -, hok⟩ := Outcome.bind_eq_ok.1 hok
    obtain ⟨⟨⟩, -, hok⟩ := Outcome.bind_eq_ok.1 hok
    obtain ⟨⟨⟩, -, hok⟩ := Outcome.bind_eq_ok.1 hok
    obtain ⟨⟨events₁, st₁⟩, hcall, hok⟩ := Outcome.bind_eq_ok.1 hok
    obtain ⟨-, rfl⟩ := Prod.mk.inj (Outcome.ok.inj hok)
    have hne : ProgramAddress.voucher slab n ≠ voucherKey := fun heq => hc heq.symm
    exact (Function.update_of_ne hne _ _).trans (congrFun (State.vouchers_invoke hcall) _)
  | decompressV1 voucherKey owner metadata tokenCalls =>
    obtain ⟨voucher, -, hok⟩ := Outcome.bind_eq_ok.1 hok
    obtain ⟨⟨⟩, -, hok⟩ := Outcome.bind_eq_ok.1 hok
    obtain ⟨⟨⟩, -, hok⟩ := Outcome.bind_eq_ok.1 hok
    dsimp only at hok
    cases hversion : metadata.tokenProgramVersion with
    | Token2022 =>
      rw [hversion] at hok
      split_ifs at hok
    | Original =>
      rw [hversion] at hok
      split_ifs at hok
      obtain ⟨-, rfl⟩ := Prod.mk.inj (Outcome.ok.inj hok)
      have hne : ProgramAddress.voucher slab n ≠ voucherKey := fun heq => hc heq.symm
      exact Function.update_of_ne hne _ _
  | compress =>
    obtain ⟨⟨⟩, -, hok⟩ := Outcome.bind_eq_ok.1 hok
    obtain ⟨-, rfl⟩ := Prod.mk.inj (Outcome.ok.inj hok)
    rfl

omit [InjectiveAddress Pubkey] in
/-- One instruction about other assets. -/
theorem Executed.Takes.extends (hx : x.Takes st st') (h : st.Represents L) {n : UInt64}
    {l : Life Node Pubkey} (hl : L.life slab n.toNat = some l)
    (hc : ¬ x.instruction.Concerns slab n) (htree : st.trees slab = some tree) :
    ∃ tree' later, st'.trees slab = some tree' ∧ tree.Extends n.toNat tree' later ∧
      later.length = updates slab [x] := by
  have htrees := hx.trees fun _ hnone => h.tree_eq_none hnone
  cases hname : x.instruction.tree? with
  | none =>
    rw [hname] at htrees
    refine ⟨tree, [], ?_, .refl n.toNat tree, ?_⟩
    · rw [htrees.2, htree]
    · simp [updates, hname]
  | some slab₁ =>
    rw [hname] at htrees
    obtain ⟨event, tree', hevents, hstep, heq⟩ := htrees
    by_cases hslab : slab = slab₁
    · subst hslab
      have hevent : event ∈ changeLogs x.events := by simp [hevents]
      have hposition := h.event_position hx hname htree hevent
      rw [htree] at hstep
      cases hstep with
      | @write _ ins account _ hcalls hexec =>
        obtain ⟨lives, hL, hshows⟩ := h.tree htree
        obtain ⟨c, hrun⟩ := hshows.made.reachable
        rw [heq, Function.update_self]
        refine ⟨_, [(tree.position event.index, ins.leaf)], rfl, ⟨rfl, rfl, ?_, rfl, ?_⟩, ?_⟩
        · exact (Tree.cached_eq (Gummyroll.AccountRun.inv (.write hrun trivial hexec))).trans
            (Tree.cached_eq hrun.inv).symm
        · intro w hw
          obtain rfl := List.mem_singleton.1 hw
          rintro (hn : tree.position event.index = n.toNat)
          rcases hposition with ⟨m, hm, hpos⟩ | hpos
          · rw [UInt64.toNat_inj.1 (hn.symm.trans hpos)] at hc
            exact hc hm
          · -- the asset is there already
            rw [Ledger.life_of_eq hL] at hl
            have hlt := (List.getElem?_eq_some_iff.1 hl).1
            rw [← hn, hpos, hshows.count_eq] at hlt
            exact lt_irrefl _ hlt
        · simp [updates, hname]
    · refine ⟨tree, [], ?_, .refl n.toNat tree, ?_⟩
      · rw [heq, Function.update_of_ne hslab, htree]
      · simp [updates, hname, Ne.symm hslab]

/-- A run of instructions about other assets. -/
theorem State.Represents.extends (h : st.Represents L) {xs : List (Executed Node Pubkey)}
    (hsteps : Steps Executed.Takes st xs st') {n : UInt64} {l : Life Node Pubkey}
    (hl : L.life slab n.toNat = some l) (hc : ∀ x ∈ xs, ¬ x.instruction.Concerns slab n)
    (htree : st.trees slab = some tree) :
    ∃ tree' later, st'.trees slab = some tree' ∧ tree.Extends n.toNat tree' later ∧
      later.length = updates slab xs ∧
      st'.vouchers (ProgramAddress.voucher slab n) =
        st.vouchers (ProgramAddress.voucher slab n) := by
  induction hsteps with
  | refl => exact ⟨tree, [], htree, .refl n.toNat tree, rfl, rfl⟩
  | @step xs st₁ st₂ x hsteps hx ih =>
    have hc' : ∀ x ∈ xs, ¬ x.instruction.Concerns slab n := fun x hx =>
      hc x (List.mem_cons_of_mem _ hx)
    obtain ⟨tree₁, later, htree₁, hext, hlen, hvoucher⟩ := ih hc'
    obtain ⟨L₁, hledger, hrep⟩ := h.steps hsteps
    have hl₁ := Ledger.life_of_steps_of_not_concerns hledger hl hc'
    have hcx := hc x List.mem_cons_self
    obtain ⟨tree₂, now, htree₂, hext', hlen'⟩ := hx.extends hrep hl₁ hcx htree₁
    refine ⟨tree₂, now ++ later, htree₂, ⟨?_, ?_, ?_, ?_, ?_⟩, ?_, ?_⟩
    · exact hext'.depth_eq.trans hext.depth_eq
    · exact hext'.size_eq.trans hext.size_eq
    · exact hext'.cached_eq.trans hext.cached_eq
    · rw [hext'.writes_eq, hext.writes_eq, List.append_assoc]
    · intro w hw
      rcases List.mem_append.1 hw with hw | hw
      · exact hext'.spared w hw
      · exact hext.spared w hw
    · rw [List.length_append, hlen, hlen']
      exact List.countP_append.symm
    · exact (hx.voucher_eq hcx).trans hvoucher

/-! ### One request -/

omit [LeafHash Node Pubkey] [CollisionFreeLeaf Node Pubkey] [InjectiveAddress Pubkey] in
/-- The leaf of an asset that was not written since a look at the tree can be replaced with the
root and the proof from there. -/
theorem Tree.Extends.replaceLeaf {tree tree' : Tree Node Pubkey} {n : ℕ} {later : List (ℕ × Node)}
    (hext : tree.Extends n tree' later) (hmade : tree.Made slab) (hmade' : tree'.Made slab)
    (hn : n < tree'.count) (hleaf : tree'.leaf n = tree.leaf n)
    (hfew : later.length < tree.bufferSize) (htree' : st'.trees slab = some tree')
    (newLeaf : Node) :
    ∃ event tree'', st'.replaceLeaf slab tree.root (tree.leaf n) newLeaf (UInt32.ofNat n)
        (tree.proof n) = .ok ([.changeLog event],
          { st' with trees := Function.update st'.trees slab (some tree'') }) ∧
      tree''.leaf = Function.update tree'.leaf n newLeaf := by
  obtain ⟨c, hrun⟩ := hmade.reachable
  obtain ⟨c', hrun'⟩ := hmade'.reachable
  have hinv := hrun.inv
  have hinv' := hrun'.inv
  -- both canopies have the same levels
  obtain rfl : c' = c := by
    rw [← Tree.cached_eq hinv, ← Tree.cached_eq hinv', hext.cached_eq]
  have hcount := hinv'.roll.rightmost.le
  have hD := hinv'.depth_lt
  have hpow : 2 ^ tree'.depth ≤ 2 ^ 30 := Nat.pow_le_pow_right (by norm_num) (by omega)
  have hindex : (UInt32.ofNat n).toNat = n :=
    UInt32.toNat_ofNat'.trans (Nat.mod_eq_of_lt (by rw [Tree.count] at hn; omega))
  have hi : (UInt32.ofNat n).toNat < 2 ^ tree'.depth := by
    rw [hindex]
    exact hn.trans_le hcount
  have hle : UInt32.ofNat n ≤ tree'.slab.account.roll.rightmostProof.index := by
    rw [UInt32.le_iff_toNat_le, hindex]
    exact hn.le
  have hsize := hinv'.roll.size
  have hk : later.length < tree'.slab.account.roll.bufferSize := by
    have hlen := congrArg List.length hext.writes_eq
    rw [List.length_append] at hlen
    have hsame := hext.size_eq
    omega
  have hdrop : tree'.slab.writes.drop later.length = tree.slab.writes := by
    rw [hext.writes_eq, List.drop_left]
  have hroot : tree.root = MerkleTree.root hashv tree'.depth
      (treeAfter (tree'.slab.writes.drop later.length)) := by
    rw [hdrop, hext.depth_eq]
    exact hinv.roll.current_root
  have halias : tree'.slab.account.roll.NoAlias (MerkleTree.root hashv tree'.depth
      (treeAfter (tree'.slab.writes.drop later.length))) (UInt32.ofNat n) := by
    refine Gummyroll.noAlias_of_spared hinv'.roll.toRingInv hk fun w hw => ?_
    rw [hext.writes_eq, List.take_left] at hw
    rw [position_of_lt hi, hindex]
    exact hext.spared w hw
  have hleaf' : treeAfter tree'.slab.writes (UInt32.ofNat n).toNat =
      treeAfter (tree'.slab.writes.drop later.length) (UInt32.ofNat n).toNat := by
    rw [hdrop, hindex]
    exact hleaf
  obtain ⟨roll, canopy, r, hwritten, hok⟩ := hinv'.replaceLeaf_mixed hi hk hle halias hleaf' newLeaf
  have hproof : tree.proof n = (siblings tree'.depth
      (treeAfter (tree'.slab.writes.drop later.length)) (UInt32.ofNat n).toNat).take
        (tree'.depth - c') := by
    rw [hdrop, hindex, hext.depth_eq, ← Tree.cached_eq hinv]
    rfl
  have hprevious : tree.leaf n =
      treeAfter (tree'.slab.writes.drop later.length) (UInt32.ofNat n).toNat := by
    rw [hdrop, hindex]
    rfl
  rw [← hroot, ← hproof, ← hprevious, hmade'.authority_eq] at hok
  obtain ⟨event, account, hevent, hok⟩ : ∃ event account, event.index = UInt32.ofNat n ∧
      tree'.slab.account.replaceLeaf (ProgramAddress.authority slab) tree.root (tree.leaf n) newLeaf
        (UInt32.ofNat n) (tree.proof n) = .ok (event, account) :=
    ⟨_, _, hwritten.log_index, hok⟩
  have hposition : ConcurrentMerkleTree.position tree'.depth event.index = n := by
    rw [hevent, position_of_lt hi, hindex]
  refine ⟨event, { tree' with
    slab := ⟨account, (n, newLeaf) :: tree'.slab.writes, event :: tree'.slab.events⟩ }, ?_, rfl⟩
  rw [State.replaceLeaf, State.invoke, htree']
  dsimp only
  rw [Tree.invoke, Gummyroll.Instruction.exec, hok]
  dsimp only [Outcome.ok_bind]
  rw [hposition]
  rfl

omit [CollisionFree Node] [NonzeroHash Node] [InjectiveAddress Pubkey] in
theorem Request.Allowed.life_eq {request : Request Pubkey} {signers : List Pubkey}
    {s : LeafSchema Node Pubkey} (hallowed : request.Allowed st slab signers s)
    (h : st.Represents L) : L.life slab s.nonce.toNat = some (request.life s) := by
  cases request with
  | transfer | delegate | burn | redeem => exact h.leaf_eq_toNode_iff.1 hallowed.1
  | cancelRedeem => exact h.voucher_iff.1 ⟨_, hallowed.1, rfl⟩

/-- A request is carried out in every later state in which the tree has room for the writes in
between. -/
theorem State.Represents.exists_takes (hrep : st.Represents L) {xs : List (Executed Node Pubkey)}
    (htree : st.trees slab = some tree) {request : Request Pubkey} {signers : List Pubkey}
    {s : LeafSchema Node Pubkey} (hallowed : request.Allowed st slab signers s)
    (hlater : Steps Executed.Takes st xs st')
    (hothers : ∀ x ∈ xs, ¬ x.instruction.Concerns slab s.nonce)
    (hfew : updates slab xs < tree.bufferSize) :
    ∃ events st'', Executed.Takes st' ⟨signers, request.instruction slab tree s, events⟩ st'' ∧
      ∀ i, st''.leaf slab i =
        if i = s.nonce.toNat then some (request.leaf s) else st'.leaf slab i := by
  have hl := hallowed.life_eq hrep
  obtain ⟨tree', later, htree', hext, hlen, hvoucher⟩ := hrep.extends hlater hl hothers htree
  obtain ⟨L', hledger, hrep'⟩ := hrep.steps hlater
  have hl' := Ledger.life_of_steps_of_not_concerns hledger hl hothers
  obtain ⟨lives, hL, hshows⟩ := hrep.tree htree
  obtain ⟨lives', hL', hshows'⟩ := hrep'.tree htree'
  have hn : s.nonce.toNat < tree'.count := by
    rw [Ledger.life_of_eq hL'] at hl'
    rw [hshows'.count_eq]
    exact (List.getElem?_eq_some_iff.1 hl').1
  have hold : tree.leaf s.nonce.toNat = (request.life s).leaf := by
    have hleaf := hrep.leaf_of_life hl
    rw [State.leaf, htree, Option.map_some] at hleaf
    exact Option.some.inj hleaf
  have hnow : tree'.leaf s.nonce.toNat = (request.life s).leaf := by
    have hleaf := hrep'.leaf_of_life hl'
    rw [State.leaf, htree', Option.map_some] at hleaf
    exact Option.some.inj hleaf
  obtain ⟨event, tree'', hreplace, hleaf⟩ := hext.replaceLeaf hshows.made hshows'.made hn
    (hnow.trans hold.symm) (hlen.trans_lt hfew) htree' (request.leaf s)
  rw [hold] at hreplace
  have hid : s.id = getAssetId slab s.nonce := by
    refine (hrep.named hl ?_).2
    cases request <;> rfl
  have hschema (owner delegate : Pubkey) : LeafSchema.newV0 (getAssetId slab s.nonce) owner delegate
      s.nonce s.dataHash s.creatorHash = { s with owner := owner, delegate := delegate } := by
    rw [LeafSchema.newV0, ← hid]
  have hnonce : st'.nonce slab = .ok (UInt64.ofNat lives'.length) := by
    have hcount : st'.nonces (ProgramAddress.authority slab) = _ := hshows'.nonce_eq
    rw [State.nonce, hcount]
  have hleaves : ∀ (vouchers : Pubkey → Option (Voucher Node Pubkey)) (i : ℕ),
      State.leaf { st' with
        trees := Function.update st'.trees slab (some tree''), vouchers := vouchers } slab i =
          if i = s.nonce.toNat then some (request.leaf s) else st'.leaf slab i := by
    intro vouchers i
    simp only [State.leaf, htree', Function.update_self, Option.map_some, hleaf,
      Function.update_apply]
    split_ifs <;> rfl
  cases request with
  | transfer newOwner =>
    refine ⟨[.leafSchema ({ s with owner := newOwner, delegate := newOwner } :
      LeafSchema Node Pubkey).toEvent, .changeLog event], _, ⟨trivial, ?_⟩, hleaves st'.vouchers⟩
    simp only [Request.instruction, Instruction.exec, State.transfer, hnonce, Outcome.ok_bind,
      Outcome.assert, if_pos hallowed.2, hschema]
    exact congrArg (· >>= _) hreplace
  | delegate newDelegate =>
    refine ⟨[.leafSchema ({ s with delegate := newDelegate } : LeafSchema Node Pubkey).toEvent,
      .changeLog event], _, ⟨trivial, ?_⟩, hleaves st'.vouchers⟩
    simp only [Request.instruction, Instruction.exec, State.delegate, hnonce, Outcome.ok_bind,
      constraint, if_pos hallowed.2, hschema]
    exact congrArg (· >>= _) hreplace
  | burn =>
    refine ⟨[.leafSchema s.toEvent, .changeLog event], _, ⟨trivial, ?_⟩, hleaves st'.vouchers⟩
    simp only [Request.instruction, Instruction.exec, State.burn, hnonce, Outcome.ok_bind,
      Outcome.assert, if_pos hallowed.2, hschema]
    exact congrArg (· >>= _) hreplace
  | redeem =>
    have hnone : st'.vouchers (ProgramAddress.voucher slab s.nonce) = none := by
      have hheld := hshows'.held s.nonce
      rw [Ledger.life_of_eq hL'] at hl'
      rw [hl'] at hheld
      exact hheld.2
    refine ⟨[.leafSchema s.toEvent, .changeLog event], _, ⟨trivial, ?_⟩, hleaves (Function.update
      st'.vouchers (ProgramAddress.voucher slab s.nonce)
        (some ⟨s, UInt32.ofNat s.nonce.toNat, slab⟩))⟩
    simp only [Request.instruction, Instruction.exec, State.redeem, hnonce, Outcome.ok_bind,
      constraint, if_pos hallowed.2, if_pos hnone, hschema]
    exact congrArg (· >>= _) hreplace
  | cancelRedeem =>
    have hvoucher' := hvoucher.trans hallowed.1
    refine ⟨[.leafSchema s.toEvent, .changeLog event], _, ⟨trivial, ?_⟩, hleaves (Function.update
      st'.vouchers (ProgramAddress.voucher slab s.nonce) none)⟩
    simp only [Request.instruction, Instruction.exec, State.cancelRedeem, hnonce, Outcome.ok_bind,
      State.voucher, hvoucher', constraint, if_pos hallowed.2, assertPubkeyEqual, ne_eq,
      not_true_eq_false, if_false, if_true]
    exact congrArg (· >>= _) hreplace

/-- What a holder can ask for succeeds, with a root and a proof from before other instructions,
unless these make as many updates as the buffer holds. -/
theorem request_succeeds {history xs : List (Executed Node Pubkey)} (hreach : Reachable history st)
    (htree : st.trees slab = some tree) {request : Request Pubkey} {signers : List Pubkey}
    {s : LeafSchema Node Pubkey} (hallowed : request.Allowed st slab signers s)
    (hlater : Steps Executed.Takes st xs st')
    (hothers : ∀ x ∈ xs, ¬ x.instruction.Concerns slab s.nonce)
    (hfew : updates slab xs < tree.bufferSize) :
    ∃ events st'', Executed.Takes st' ⟨signers, request.instruction slab tree s, events⟩ st'' ∧
      ∀ i, st''.leaf slab i =
        if i = s.nonce.toNat then some (request.leaf s) else st'.leaf slab i := by
  obtain ⟨L, hrep, -⟩ := Reachable.ledger hreach
  exact hrep.exists_takes htree hallowed hlater hothers hfew

omit [NodeHash Node] [LeafHash Node Pubkey] [DecidableEq Node] [DecidableEq Pubkey] [Build]
  [CollisionFree Node] [NonzeroHash Node] [CollisionFreeLeaf Node Pubkey] in
/-- A request is about its asset only. -/
theorem Request.concerns_iff [NodeHash Node] (request : Request Pubkey) (tree : Tree Node Pubkey)
    (s : LeafSchema Node Pubkey) (n : UInt64) :
    (request.instruction slab tree s).Concerns slab n ↔ s.nonce = n := by
  cases request with
  | transfer | delegate | burn | redeem => exact and_iff_right rfl
  | cancelRedeem =>
    constructor
    · intro heq
      exact (InjectiveAddress.voucher_inj heq).2
    · rintro rfl
      rfl

/-! ### Many requests -/

omit [CollisionFree Node] [NonzeroHash Node] [CollisionFreeLeaf Node Pubkey]
  [InjectiveAddress Pubkey] [LeafHash Node Pubkey] [ProgramAddress Pubkey] [DecidableEq Node]
  [Build] [NodeHash Node] in
theorem updates_le_length (xs : List (Executed Node Pubkey)) : updates slab xs ≤ xs.length :=
  List.countP_le_length

/-- A request with its signers and its asset. -/
structure Pending (Node Pubkey : Type) where
  signers : List Pubkey
  request : Request Pubkey
  schema : LeafSchema Node Pubkey

/-- Requests for different assets that were made with one look at the tree all succeed, in any
order (here newest first), and leave the same tree. -/
theorem requests_succeed {history : List (Executed Node Pubkey)} (hreach : Reachable history st)
    (htree : st.trees slab = some tree) {pending : List (Pending Node Pubkey)}
    (hallowed : ∀ p ∈ pending, p.request.Allowed st slab p.signers p.schema)
    (hdistinct : (pending.map fun p => p.schema.nonce).Nodup)
    (hfew : pending.length ≤ tree.bufferSize) :
    ∃ xs st', Steps Executed.Takes st xs st' ∧
      xs.map (fun x => (x.signers, x.instruction)) =
        pending.map (fun p => (p.signers, p.request.instruction slab tree p.schema)) ∧
      (∀ p ∈ pending, st'.leaf slab p.schema.nonce.toNat = some (p.request.leaf p.schema)) ∧
      ∀ i, (∀ p ∈ pending, p.schema.nonce.toNat ≠ i) → st'.leaf slab i = st.leaf slab i := by
  obtain ⟨L, hrep, -⟩ := Reachable.ledger hreach
  induction pending with
  | nil =>
    refine ⟨[], st, .refl, rfl, fun p hp => ?_, fun _ _ => rfl⟩
    exact absurd hp List.not_mem_nil
  | cons p pending ih =>
    rw [List.map_cons, List.nodup_cons] at hdistinct
    obtain ⟨hnew, hdistinct⟩ := hdistinct
    rw [List.length_cons] at hfew
    obtain ⟨xs, st', hsteps, hmap, hwritten, hother⟩ := ih
      (fun q hq => hallowed q (List.mem_cons_of_mem p hq)) hdistinct (by omega)
    have hlen : xs.length = pending.length := by simpa using congrArg List.length hmap
    have hne : ∀ q ∈ pending, q.schema.nonce ≠ p.schema.nonce := fun q hq heq =>
      hnew (List.mem_map.2 ⟨q, hq, heq⟩)
    have hothers : ∀ x ∈ xs, ¬ x.instruction.Concerns slab p.schema.nonce := by
      intro x hx hconcerns
      have hmem : (x.signers, x.instruction) ∈ xs.map fun x => (x.signers, x.instruction) :=
        List.mem_map.2 ⟨x, hx, rfl⟩
      rw [hmap] at hmem
      obtain ⟨q, hq, heq⟩ := List.mem_map.1 hmem
      rw [← (Prod.mk.inj heq).2, Request.concerns_iff] at hconcerns
      exact hne q hq hconcerns
    have hupdates : updates slab xs ≤ xs.length := updates_le_length xs
    obtain ⟨events, st'', htakes, hleaf⟩ := hrep.exists_takes htree
      (hallowed p List.mem_cons_self) hsteps hothers (by omega)
    refine ⟨_ :: xs, st'', .step hsteps htakes, ?_, fun q hq => ?_, fun i hi => ?_⟩
    · rw [List.map_cons, List.map_cons, hmap]
    · rcases List.mem_cons.1 hq with rfl | hq
      · rw [hleaf, if_pos rfl]
      · rw [hleaf, if_neg fun heq => hne q hq (UInt64.toNat_inj.1 heq)]
        exact hwritten q hq
    · rw [hleaf, if_neg fun heq => hi p List.mem_cons_self heq.symm]
      exact hother i fun q hq => hi q (List.mem_cons_of_mem p hq)

end Later

end Holders

/-! ### Two assets -/

namespace Trace

/-- The mint of a second asset. -/
def mintAgain : Executed Term Key := minted.executed [creator] mintV1

/-- The accounts after the second mint. -/
def mintedTwice : State Term Key := (minted.after [creator] mintV1).2

theorem takes_mintAgain : Executed.Takes minted mintAgain mintedTwice := by
  refine State.takes_after trivial ?_
  decide +kernel

/-- The leaf of a new asset. -/
def newSchema (nonce : UInt64) : LeafSchema Term Key :=
  .newV0 (getAssetId slab nonce) alice alice nonce dataHash creatorHash

end Trace

/-- The owner looks at the tree, another asset is minted, and the transfer still succeeds. -/
theorem request_succeeds_minted : ∃ tree, Trace.minted.trees Trace.slab = some tree ∧
    ∃ events st'', Executed.Takes Trace.mintedTwice ⟨[Trace.alice],
      (Request.transfer Trace.bob).instruction Trace.slab tree (Trace.newSchema 0), events⟩ st'' ∧
      ∀ i, st''.leaf Trace.slab i = if i = 0
        then some ((Request.transfer Trace.bob).leaf (Trace.newSchema 0))
        else Trace.mintedTwice.leaf Trace.slab i := by
  have hsize : (Trace.minted.trees Trace.slab).map Tree.bufferSize = some 8 := by decide +kernel
  obtain ⟨tree, htree, hsize⟩ := Option.map_eq_some_iff.1 hsize
  have hallowed : (Request.transfer Trace.bob).Allowed Trace.minted Trace.slab [Trace.alice]
      (Trace.newSchema 0) :=
    ⟨by decide +kernel, .inl List.mem_cons_self⟩
  refine ⟨tree, htree, request_succeeds Trace.reachable_minted htree hallowed
    (.step .refl Trace.takes_mintAgain) ?_ ?_⟩
  · intro x hx
    obtain rfl := List.mem_singleton.1 hx
    exact id
  · rw [hsize]
    decide

/-- After one look at two assets, one is burned and then the other transferred. -/
theorem requests_succeed_minted : ∃ tree, Trace.mintedTwice.trees Trace.slab = some tree ∧
    ∃ xs st', Steps Executed.Takes Trace.mintedTwice xs st' ∧ xs.length = 2 ∧
      st'.leaf Trace.slab 0 = some ((Request.transfer Trace.bob).leaf (Trace.newSchema 0)) ∧
      st'.leaf Trace.slab 1 = some EMPTY := by
  have hsize : (Trace.mintedTwice.trees Trace.slab).map Tree.bufferSize = some 8 := by
    decide +kernel
  obtain ⟨tree, htree, hsize⟩ := Option.map_eq_some_iff.1 hsize
  let pending : List (Pending Term Key) :=
    [⟨[Trace.alice], .transfer Trace.bob, Trace.newSchema 0⟩,
      ⟨[Trace.alice], .burn, Trace.newSchema 1⟩]
  have hallowed : ∀ p ∈ pending,
      p.request.Allowed Trace.mintedTwice Trace.slab p.signers p.schema := by
    intro p hp
    rcases List.mem_pair.1 hp with rfl | rfl
    · exact ⟨by decide +kernel, .inl List.mem_cons_self⟩
    · exact ⟨by decide +kernel, .inl List.mem_cons_self⟩
  obtain ⟨xs, st', hsteps, hmap, hwritten, -⟩ := requests_succeed
    (.step Trace.reachable_minted Trace.takes_mintAgain) htree hallowed (by decide)
    (by rw [hsize]; decide)
  refine ⟨tree, htree, xs, st', hsteps, by simpa [pending] using congrArg List.length hmap, ?_, ?_⟩
  · exact hwritten _ List.mem_cons_self
  · exact hwritten _ (List.mem_cons_of_mem _ List.mem_cons_self)

end Candyland.Bubblegum
