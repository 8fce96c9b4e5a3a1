import Candyland.NftIngester.AssetRows

/-!
# Mints

Who mints into a tree, and that no asset is minted twice.
-/

namespace Candyland.Bubblegum

open ConcurrentMerkleTree (NodeHash CollisionFree NonzeroHash)
open Gummyroll (Build)
open NftIngester (Mints minted? not_mints_of_move step_cases)

variable {Node Pubkey : Type} [NodeHash Node] [LeafHash Node Pubkey] [ProgramAddress Pubkey]
  [DecidableEq Node] [DecidableEq Pubkey] [Build] [CollisionFree Node] [NonzeroHash Node]
  {st st' : State Node Pubkey} {slab : Pubkey} {x : Executed Node Pubkey}
  {history xs : List (Executed Node Pubkey)} {tree : Tree Node Pubkey}

/-! ### The authority of a tree -/

/-- The key that signs the mints into a tree. -/
def Tree.appendAuthority (self : Tree Node Pubkey) : Pubkey :=
  self.slab.account.header.appendAuthority

/-- A tree keeps its append authority. -/
theorem Executed.Takes.appendAuthority_eq {L : Ledger Node Pubkey} (hx : x.Takes st st')
    (hrep : st.Represents L) (htree : st.trees slab = some tree) :
    ∃ tree', st'.trees slab = some tree' ∧ tree'.appendAuthority = tree.appendAuthority := by
  have htrees := hx.trees fun _ hnone => hrep.tree_eq_none hnone
  cases hname : x.instruction.tree? with
  | none =>
    rw [hname] at htrees
    exact ⟨tree, by rw [htrees.2, htree], rfl⟩
  | some slab₁ =>
    rw [hname] at htrees
    obtain ⟨event, tree', -, hstep, heq⟩ := htrees
    rw [heq]
    by_cases hslab : slab = slab₁
    · subst hslab
      obtain ⟨lives, -, hshows⟩ := hrep.tree htree
      rw [htree] at hstep
      cases hstep with
      | write hcalls hexec =>
        exact ⟨_, Function.update_self .., (hshows.made.wrote hexec).append_eq⟩
    · exact ⟨tree, by rw [Function.update_of_ne hslab, htree], rfl⟩

variable [CollisionFreeLeaf Node Pubkey] [InjectiveAddress Pubkey]

theorem Reachable.appendAuthority_of_steps (h : Reachable history st)
    (hsteps : Steps Executed.Takes st xs st') (htree : st.trees slab = some tree) :
    ∃ tree', st'.trees slab = some tree' ∧ tree'.appendAuthority = tree.appendAuthority := by
  induction hsteps with
  | refl => exact ⟨tree, htree, rfl⟩
  | step hsteps hx ih =>
    obtain ⟨tree₁, htree₁, hauthority₁⟩ := ih
    obtain ⟨L, hrep, -⟩ := Reachable.ledger (h.trans hsteps)
    obtain ⟨tree', htree', hauthority⟩ := hx.appendAuthority_eq hrep htree₁
    exact ⟨tree', htree', hauthority.trans hauthority₁⟩

/-- Every mint is into a tree and was signed by its append authority. -/
theorem Reachable.mint_signed (h : Reachable history st) (hx : x ∈ history)
    {mintAuthority owner leafDelegate : Pubkey} {message : MetadataArgs Pubkey}
    (hins : x.instruction = .mintV1 slab mintAuthority owner leafDelegate message) :
    ∃ tree, st.trees slab = some tree ∧ tree.appendAuthority ∈ x.signers := by
  induction h with
  | refl => cases hx
  | @step history st st' y hreach htakes ih =>
    obtain ⟨L, hrep, -⟩ := Reachable.ledger hreach
    obtain ⟨tree, htree, hsigned⟩ :
        ∃ tree, st.trees slab = some tree ∧ tree.appendAuthority ∈ x.signers := by
      rcases List.mem_cons.1 hx with rfl | hx
      · obtain ⟨signers, instruction, events⟩ := x
        obtain rfl : instruction = _ := hins
        obtain ⟨⟨⟩, -, hok⟩ := Outcome.bind_eq_ok.1 htakes.2
        obtain ⟨count, -, hok⟩ := Outcome.bind_eq_ok.1 hok
        obtain ⟨⟨_, _⟩, happend, -⟩ := Outcome.bind_eq_ok.1 hok
        obtain ⟨lives, tree, tree', -, hshows, -⟩ := hrep.invoke happend
        obtain ⟨hsigner, heq⟩ := hrep.mint_authority htakes.2 hshows.tree_eq
        exact ⟨tree, hshows.tree_eq, heq ▸ hsigner⟩
      · exact ih hx
    obtain ⟨tree', htree', hauthority⟩ := htakes.appendAuthority_eq hrep htree
    exact ⟨tree', htree', hauthority ▸ hsigned⟩

/-! ### New assets -/

/-- What was minted is in the ledger, and nothing was minted twice. -/
theorem Reachable.minted (h : Reachable history st) :
    ∃ L, st.Represents L ∧ (history.filterMap minted?).Nodup ∧
      ∀ slab n, (slab, n) ∈ history.filterMap minted? →
        ∃ l, L.life slab n.toNat = some l := by
  induction h with
  | refl => exact ⟨_, represents_empty, List.nodup_nil, fun _ _ h => absurd h List.not_mem_nil⟩
  | @step history st st' x hreach htakes ih =>
    obtain ⟨L, hrep, hnodup, hlives⟩ := ih
    obtain ⟨L', hstep, hrep'⟩ := hrep.step htakes
    have hkept : ∀ slab n, (slab, n) ∈ history.filterMap minted? →
        ∃ l, L'.life slab n.toNat = some l := by
      intro slab n hmem
      obtain ⟨l, hl⟩ := hlives slab n hmem
      rcases step_cases hstep slab n with ⟨hlife, -⟩ | ⟨s, -, hl', -⟩ | ⟨-, l', -, hl', -⟩
      · exact ⟨l, hlife.trans hl⟩
      · exact ⟨_, hl'⟩
      · exact ⟨l', hl'⟩
    refine ⟨L', hrep', ?_⟩
    cases hmint : minted? x with
    | none =>
      rw [List.filterMap_cons_none hmint]
      exact ⟨hnodup, hkept⟩
    | some asset =>
      obtain ⟨slab, n⟩ := asset
      rw [List.filterMap_cons_some hmint]
      obtain ⟨s, hnone, hl', -⟩ : ∃ s, L.life slab n.toNat = none ∧
          L'.life slab n.toNat = some (.live s) ∧ NftIngester.Minting slab n x s := by
        rcases step_cases hstep slab n with ⟨-, habout, -⟩ | hminting | ⟨_, _, -, -, hmove⟩
        · exact absurd (.inl hmint) habout
        · exact hminting
        · exact absurd hmint (not_mints_of_move hmove slab n)
      refine ⟨List.nodup_cons.2 ⟨fun hmem => ?_, hnodup⟩, fun slab' n' hmem => ?_⟩
      · obtain ⟨l, hl⟩ := hlives slab n hmem
        exact absurd (hnone.symm.trans hl) (by simp)
      · rcases List.mem_cons.1 hmem with heq | hmem
        · obtain ⟨rfl, rfl⟩ := Prod.mk.inj heq
          exact ⟨_, hl'⟩
        · exact hkept slab' n' hmem

omit [CollisionFree Node] [NonzeroHash Node] [CollisionFreeLeaf Node Pubkey]
  [InjectiveAddress Pubkey] [NodeHash Node] [LeafHash Node Pubkey] [ProgramAddress Pubkey]
  [DecidableEq Node] [DecidableEq Pubkey] [Build] in
theorem exists_instruction_of_mints {n : UInt64} (h : Mints slab n x) :
    ∃ mintAuthority owner leafDelegate message,
      x.instruction = .mintV1 slab mintAuthority owner leafDelegate message := by
  rw [Mints, minted?] at h
  split at h
  case h_1 mintAuthority owner leafDelegate message event _ hins _ =>
    obtain ⟨rfl, -⟩ := Prod.mk.inj (Option.some.inj h)
    exact ⟨mintAuthority, owner, leafDelegate, message, hins⟩
  case h_2 => cases h

/-- A mint makes an asset in its tree. -/
theorem Reachable.exists_minted (h : Reachable history st) (hx : x ∈ history)
    {mintAuthority owner leafDelegate : Pubkey} {message : MetadataArgs Pubkey}
    (hins : x.instruction = .mintV1 slab mintAuthority owner leafDelegate message) :
    ∃ n, Mints slab n x := by
  obtain ⟨later, earlier, rfl⟩ := List.append_of_mem hx
  obtain ⟨st₁, hreach₁, -⟩ := Steps.exists_of_append h
  obtain ⟨st₀, hreach₀, htakes⟩ := Steps.exists_of_cons hreach₁
  obtain ⟨L, hrep, -⟩ := Reachable.ledger hreach₀
  obtain ⟨L', hstep, -⟩ := hrep.step htakes
  cases hstep with
  | mintV1 =>
    obtain ⟨rfl, -⟩ := Instruction.mintV1.inj hins
    exact ⟨_, rfl⟩
  | createTree | compress => cases hins
  | move _ _ _ hmove => cases hmove <;> cases hins

/-- Two mints make two assets. -/
theorem Reachable.mint_unique (h : Reachable history st) {y : Executed Node Pubkey} {n : UInt64}
    (hx : x ∈ history) (hy : y ∈ history) (hmint : Mints slab n x) (hmint' : Mints slab n y) :
    x = y := by
  obtain ⟨-, -, hnodup, -⟩ := h.minted
  by_contra hne
  have hpairwise := List.pairwise_filterMap.1 hnodup
  have : Std.Symm fun x y : Executed Node Pubkey =>
      ∀ b, minted? x = some b → ∀ b', minted? y = some b' → b ≠ b' :=
    ⟨fun x y hxy b hb b' hb' => (hxy b' hb' b hb).symm⟩
  exact hpairwise.forall hx hy hne _ hmint _ hmint' rfl

end Candyland.Bubblegum
