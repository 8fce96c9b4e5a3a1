import Candyland.Bubblegum.Assets
import Candyland.Gummyroll.Events

/-!
# The events of the trees

Bubblegum lets gummyroll replace and append leaves, and nothing else.  So the account of a tree
runs in the tree, and its events are those of the instructions that name the tree.
-/

namespace Candyland.Bubblegum

open ConcurrentMerkleTree (NodeHash BufferSize CollisionFree NonzeroHash)
open Gummyroll (Build Account AccountRun ChangeLogEvent SeqBelow)

variable {Node Pubkey : Type}

/-- The tree that the instruction writes to. -/
def Instruction.tree? : Instruction Node Pubkey → Option Pubkey
  | createTree _ _ merkleSlab _ _ _ => some merkleSlab
  | mintV1 merkleSlab .. => some merkleSlab
  | transfer merkleSlab .. => some merkleSlab
  | delegate merkleSlab .. => some merkleSlab
  | burn merkleSlab .. => some merkleSlab
  | redeem merkleSlab .. => some merkleSlab
  | cancelRedeem merkleSlab .. => some merkleSlab
  | decompressV1 .. => none
  | compress .. => none

/-- The events of gummyroll among the events. -/
def changeLogs (events : List (Event Node Pubkey)) : List (ChangeLogEvent Node Pubkey) :=
  events.filterMap fun | .changeLog event => some event | _ => none

variable [NodeHash Node] [LeafHash Node Pubkey] [ProgramAddress Pubkey] [DecidableEq Node]
  [DecidableEq Pubkey] [Build]

/-! ### One instruction -/

/-- How an instruction that names a tree changes its account, with the event of gummyroll. -/
inductive Tree.Step (slab : Pubkey) :
    Option (Tree Node Pubkey) → ChangeLogEvent Node Pubkey → Tree Node Pubkey → Prop
  | init {D B : ℕ} {size : BufferSize B} {account₀ account : Account Node Pubkey D B} {c slot : ℕ}
      {appendAuthority : Pubkey} {event : ChangeLogEvent Node Pubkey} (hkey : account₀.key = slab)
      (hfresh : account₀.Fresh c)
      (h : account₀.initEmptyGummyroll (ProgramAddress.authority slab) appendAuthority slot =
        .ok (event, account)) :
      Step slab none event ⟨D, B, size, ⟨account, [], [event]⟩⟩
  | write {tree : Tree Node Pubkey} {ins : Gummyroll.Instruction Node Pubkey}
      {account : Account Node Pubkey tree.depth tree.bufferSize}
      {event : ChangeLogEvent Node Pubkey} (hcalls : Tree.Calls ins)
      (h : ins.exec tree.slab.account = .ok (some event, account)) :
      Step slab (some tree) event { tree with
        slab := ⟨account, (ConcurrentMerkleTree.position tree.depth event.index, ins.leaf) ::
          tree.slab.writes, event :: tree.slab.events⟩ }

variable {st st' : State Node Pubkey} {slab : Pubkey} {events : List (Event Node Pubkey)}

omit [LeafHash Node Pubkey] in
/-- A successful call steps the tree and leaves the other accounts. -/
theorem State.invoke_ok {ins : Gummyroll.Instruction Node Pubkey}
    (hok : st.invoke slab ins = .ok (events, st')) (hins : Tree.Calls ins) :
    ∃ event tree', events = [.changeLog event] ∧ Tree.Step slab (st.trees slab) event tree' ∧
      st' = { st with trees := Function.update st.trees slab (some tree') } := by
  rw [State.invoke] at hok
  cases htree : st.trees slab with
  | none =>
    rw [htree] at hok
    exact absurd hok (by simp)
  | some tree =>
    rw [htree] at hok
    obtain ⟨⟨events₁, tree'⟩, hinvoke, hok⟩ := Outcome.bind_eq_ok.1 hok
    obtain ⟨rfl, rfl⟩ := Prod.mk.inj (Outcome.ok.inj hok)
    obtain ⟨event, account, hexec, rfl, rfl⟩ := Tree.invoke_ok hinvoke hins
    exact ⟨event, _, rfl, .write hins hexec, rfl⟩

/-- What an instruction does to the trees: the one that it names makes a step. -/
theorem Executed.Takes.trees {x : Executed Node Pubkey} (hx : x.Takes st st')
    (hnew : ∀ slab, st.nonces (ProgramAddress.authority slab) = none → st.trees slab = none) :
    match x.instruction.tree? with
    | some slab => ∃ event tree', changeLogs x.events = [event] ∧
        Tree.Step slab (st.trees slab) event tree' ∧
        st'.trees = Function.update st.trees slab (some tree')
    | none => changeLogs x.events = [] ∧ st'.trees = st.trees := by
  obtain ⟨signers, instruction, events⟩ := x
  obtain ⟨hallocated, hok⟩ := hx
  cases instruction with
  | createTree payer treeCreator slab size account slot =>
    obtain ⟨⟨⟩, hnone, hok⟩ := Outcome.bind_eq_ok.1 hok
    obtain ⟨⟨⟩, -, hok⟩ := Outcome.bind_eq_ok.1 hok
    obtain ⟨hkey, c, hfresh⟩ := hallocated
    split at hok
    · rename_i event account' hinit
      obtain ⟨rfl, rfl⟩ := Prod.mk.inj (Outcome.ok.inj hok)
      refine ⟨event, _, rfl, ?_, rfl⟩
      rw [hnew slab (constraint_eq_ok.1 hnone)]
      exact .init hkey hfresh hinit
    · exact absurd hok (by simp)
    · exact absurd hok (by simp)
  | mintV1 =>
    obtain ⟨⟨⟩, -, hok⟩ := Outcome.bind_eq_ok.1 hok
    obtain ⟨count, -, hok⟩ := Outcome.bind_eq_ok.1 hok
    obtain ⟨⟨events₁, st₁⟩, hcall, hok⟩ := Outcome.bind_eq_ok.1 hok
    obtain ⟨rfl, rfl⟩ := Prod.mk.inj (Outcome.ok.inj hok)
    obtain ⟨event, tree', rfl, hstep, rfl⟩ := State.invoke_ok hcall trivial
    exact ⟨event, tree', rfl, hstep, rfl⟩
  | transfer | delegate | burn =>
    obtain ⟨count, -, hok⟩ := Outcome.bind_eq_ok.1 hok
    obtain ⟨⟨⟩, -, hok⟩ := Outcome.bind_eq_ok.1 hok
    obtain ⟨⟨events₁, st₁⟩, hcall, hok⟩ := Outcome.bind_eq_ok.1 hok
    obtain ⟨rfl, rfl⟩ := Prod.mk.inj (Outcome.ok.inj hok)
    obtain ⟨event, tree', rfl, hstep, rfl⟩ := State.invoke_ok hcall trivial
    exact ⟨event, tree', rfl, hstep, rfl⟩
  | redeem =>
    obtain ⟨count, -, hok⟩ := Outcome.bind_eq_ok.1 hok
    obtain ⟨⟨⟩, -, hok⟩ := Outcome.bind_eq_ok.1 hok
    obtain ⟨⟨⟩, -, hok⟩ := Outcome.bind_eq_ok.1 hok
    obtain ⟨⟨events₁, st₁⟩, hcall, hok⟩ := Outcome.bind_eq_ok.1 hok
    obtain ⟨rfl, rfl⟩ := Prod.mk.inj (Outcome.ok.inj hok)
    obtain ⟨event, tree', rfl, hstep, rfl⟩ := State.invoke_ok hcall trivial
    exact ⟨event, tree', rfl, hstep, rfl⟩
  | cancelRedeem =>
    obtain ⟨count, -, hok⟩ := Outcome.bind_eq_ok.1 hok
    obtain ⟨voucher, -, hok⟩ := Outcome.bind_eq_ok.1 hok
    obtain ⟨⟨⟩, -, hok⟩ := Outcome.bind_eq_ok.1 hok
    obtain ⟨⟨⟩, -, hok⟩ := Outcome.bind_eq_ok.1 hok
    obtain ⟨⟨⟩, -, hok⟩ := Outcome.bind_eq_ok.1 hok
    obtain ⟨⟨events₁, st₁⟩, hcall, hok⟩ := Outcome.bind_eq_ok.1 hok
    obtain ⟨rfl, rfl⟩ := Prod.mk.inj (Outcome.ok.inj hok)
    obtain ⟨event, tree', rfl, hstep, rfl⟩ := State.invoke_ok hcall trivial
    exact ⟨event, tree', rfl, hstep, rfl⟩
  | decompressV1 voucherKey owner metadata tokenCalls =>
    obtain ⟨voucher, -, hok⟩ := Outcome.bind_eq_ok.1 hok
    obtain ⟨⟨⟩, -, hok⟩ := Outcome.bind_eq_ok.1 hok
    obtain ⟨⟨⟩, -, hok⟩ := Outcome.bind_eq_ok.1 hok
    dsimp only at hok
    cases hversion : metadata.tokenProgramVersion with
    | Token2022 =>
      rw [hversion] at hok
      split_ifs at hok
    | Original =>
      rw [hversion] at hok
      split_ifs at hok
      obtain ⟨rfl, rfl⟩ := Prod.mk.inj (Outcome.ok.inj hok)
      exact ⟨rfl, rfl⟩
  | compress =>
    obtain ⟨⟨⟩, -, hok⟩ := Outcome.bind_eq_ok.1 hok
    obtain ⟨rfl, rfl⟩ := Prod.mk.inj (Outcome.ok.inj hok)
    exact ⟨rfl, rfl⟩

/-! ### Runs -/

section Runs

variable [CollisionFree Node] [NonzeroHash Node] [CollisionFreeLeaf Node Pubkey]
  [InjectiveAddress Pubkey] {history : List (Executed Node Pubkey)} {tree : Tree Node Pubkey}

omit [CollisionFree Node] [NonzeroHash Node] [CollisionFreeLeaf Node Pubkey]
  [InjectiveAddress Pubkey] in
/-- Without a counter there is no tree. -/
theorem State.Represents.tree_eq_none {L : Ledger Node Pubkey} (h : st.Represents L)
    {slab : Pubkey} (hnone : st.nonces (ProgramAddress.authority slab) = none) :
    st.trees slab = none := by
  have hview := h.view slab
  cases hL : L slab with
  | none =>
    rw [hL] at hview
    exact congrArg View.tree hview
  | some lives =>
    rw [hL] at hview
    obtain ⟨tree, hshows⟩ := hview
    exact absurd (hnone.symm.trans hshows.nonce_eq) (by simp)

/-- The events of a tree are those of the instructions that name it. -/
theorem Reachable.tree_events (h : Reachable history st) (slab : Pubkey) :
    ((st.trees slab).map fun tree => tree.slab.events).getD [] =
      (history.filter fun x => x.instruction.tree? = some slab).flatMap
        fun x => changeLogs x.events := by
  induction h with
  | refl => rfl
  | @step history st st' x h hx ih =>
    obtain ⟨L, hrep, -⟩ := Reachable.ledger h
    have htrees := hx.trees fun _ hnone => hrep.tree_eq_none hnone
    rw [List.filter_cons]
    cases hname : x.instruction.tree? with
    | none =>
      rw [hname] at htrees
      rw [htrees.2, ih]
      simp
    | some slab₁ =>
      rw [hname] at htrees
      obtain ⟨event, tree', hevents, hstep, heq⟩ := htrees
      rw [heq]
      by_cases hslab : slab = slab₁
      · subst hslab
        rw [Function.update_self]
        simp only [decide_true, if_true, List.flatMap_cons, hevents, ← ih]
        generalize st.trees slab = before at hstep
        cases hstep <;> rfl
      · rw [Function.update_of_ne hslab, ih]
        simp [Ne.symm hslab]

/-- The account of a tree runs in the tree, as long as its updates can be numbered. -/
theorem Reachable.tree_run (h : Reachable history st) (htree : st.trees slab = some tree)
    (hseq : tree.slab.account.roll.sequenceNumber < 2 ^ 63) :
    ∃ c, AccountRun (fun account ins => ins.InTree account ∧ SeqBelow account) c
      tree.slab.account tree.slab.writes tree.slab.events := by
  induction h generalizing tree with
  | refl => exact absurd htree (by simp [State.empty])
  | @step history st st' x h hx ih =>
    obtain ⟨L, hrep, -⟩ := Reachable.ledger h
    have htrees := hx.trees fun _ hnone => hrep.tree_eq_none hnone
    cases hname : x.instruction.tree? with
    | none =>
      rw [hname] at htrees
      rw [htrees.2] at htree
      exact ih htree hseq
    | some slab₁ =>
      rw [hname] at htrees
      obtain ⟨event, tree', -, hstep, heq⟩ := htrees
      rw [heq] at htree
      by_cases hslab : slab = slab₁
      · subst hslab
        rw [Function.update_self] at htree
        obtain rfl := Option.some.inj htree
        generalize hbefore : st.trees slab = before at hstep
        cases hstep with
        | init hkey hfresh hinit => exact ⟨_, .init hfresh hinit⟩
        | @write tree ins account _ hcalls hexec =>
          obtain ⟨lives, -, hshows⟩ := hrep.tree hbefore
          obtain ⟨c, hinv⟩ := hshows.made.exists_inv
          obtain ⟨call, canopy, hwrote⟩ := Gummyroll.Instruction.exec_some hexec
          obtain ⟨-, r, hwritten⟩ := hinv.written hwrote
          -- the numbers only grow
          have hgrow := hwritten.sequence
          have hbelow : tree.slab.account.roll.sequenceNumber + 1 < 2 ^ 63 := by
            simp only at hseq
            omega
          obtain ⟨c, hrun⟩ := ih hbefore (by omega)
          refine ⟨c, .write hrun ⟨?_, hbelow⟩ hexec⟩
          cases ins with
          | replaceLeaf | append => trivial
          | insertOrAppend | verifyLeaf | transferAuthority => exact False.elim hcalls
      · rw [Function.update_of_ne hslab] at htree
        exact ih htree hseq

end Runs

end Candyland.Bubblegum
