import Candyland.Bubblegum.State

/-!
# The instructions of bubblegum

An instruction returns the events that it and gummyroll emit and the new accounts.  One that
fails is undone, so only `Ok` carries accounts.  An account at a derived address is not an
argument, since the checks of Anchor leave no choice of it, except for a voucher whose address
is derived from its own data.
-/

namespace Candyland.Bubblegum

open ConcurrentMerkleTree (NodeHash EMPTY BufferSize position)
open Gummyroll (Build GummyrollError Account)

/-- `BubblegumError`. -/
inductive BubblegumError where
  | AssetOwnerMismatch
  | PublicKeyMismatch
  | HashingMismatch
  | UnsupportedSchemaVersion
deriving DecidableEq

/-- An error of an instruction. -/
inductive Error where
  | custom (error : BubblegumError)
  /-- An account is missing, exists already, has another address or did not sign. -/
  | constraint
  | gummyroll (error : GummyrollError)
  | invalidArgument
  /-- A call of the token programs failed. -/
  | token
deriving DecidableEq

/-- A check that Anchor makes of the accounts. -/
def constraint (p : Prop) [Decidable p] : Outcome Error Unit :=
  if p then .ok () else .err .constraint

theorem constraint_eq_ok {p : Prop} [Decidable p] {u : Unit} : constraint p = .ok u ↔ p := by
  rw [constraint]
  split_ifs with h <;> simp [h]

/-- `assert_pubkey_equal(a, b, error)`. -/
def assertPubkeyEqual {Pubkey : Type} [DecidableEq Pubkey] (a b : Pubkey)
    (error : Option BubblegumError) : Outcome Error Unit :=
  if a ≠ b then .err (.custom (error.getD .PublicKeyMismatch)) else .ok ()

theorem assertPubkeyEqual_eq_ok {Pubkey : Type} [DecidableEq Pubkey] {a b : Pubkey}
    {error : Option BubblegumError} {u : Unit} :
    assertPubkeyEqual a b error = .ok u ↔ a = b := by
  rw [assertPubkeyEqual]
  split_ifs with h <;> simp_all

/-- `a.saturating_add(b)`. -/
def saturatingAdd (a b : UInt64) : UInt64 := UInt64.ofNat (min (a.toNat + b.toNat) (2 ^ 64 - 1))

variable {Node Pubkey : Type} [NodeHash Node] [DecidableEq Node] [DecidableEq Pubkey] [Build]

/-- Calls gummyroll for the account of a tree. -/
def Tree.invoke (self : Tree Node Pubkey) (ins : Gummyroll.Instruction Node Pubkey) :
    Outcome Error (List (Event Node Pubkey) × Tree Node Pubkey) :=
  match ins.exec self.slab.account with
  | .ok (some event, account) =>
    .ok ([.changeLog event], { self with
      slab := ⟨account, (position self.depth event.index, ins.leaf) :: self.slab.writes,
        event :: self.slab.events⟩ })
  | .ok (none, account) => .ok ([], { self with slab := { self.slab with account := account } })
  | .err e => .err (.gummyroll e)
  | .panic => .panic

namespace State

variable [LeafHash Node Pubkey] [ProgramAddress Pubkey] (self : State Node Pubkey)

omit [NodeHash Node] [DecidableEq Node] [DecidableEq Pubkey] [Build] [LeafHash Node Pubkey] in
/-- The `Nonce` at the address for a slab. -/
def nonce (merkleSlab : Pubkey) : Outcome Error UInt64 :=
  match self.nonces (ProgramAddress.authority merkleSlab) with
  | some count => .ok count
  | none => .err .constraint

omit [NodeHash Node] [DecidableEq Node] [DecidableEq Pubkey] [Build] [LeafHash Node Pubkey]
  [ProgramAddress Pubkey] in
/-- The `Voucher` at an address. -/
def voucher (key : Pubkey) : Outcome Error (Voucher Node Pubkey) :=
  match self.vouchers key with
  | some voucher => .ok voucher
  | none => .err .constraint

omit [NodeHash Node] [DecidableEq Node] [DecidableEq Pubkey] [Build] [LeafHash Node Pubkey]
  [ProgramAddress Pubkey] in
theorem voucher_eq_ok {self : State Node Pubkey} {key : Pubkey} {v : Voucher Node Pubkey} :
    self.voucher key = .ok v ↔ self.vouchers key = some v := by
  rw [voucher]
  cases self.vouchers key <;> simp

/-- Calls gummyroll for the account at an address.  With the `Nonce` of a slab there always is
the account of its tree. -/
def invoke (merkleSlab : Pubkey) (ins : Gummyroll.Instruction Node Pubkey) :
    Outcome Error (List (Event Node Pubkey) × State Node Pubkey) :=
  match self.trees merkleSlab with
  | some tree => do
    let (events, tree) ← tree.invoke ins
    .ok (events, { self with trees := Function.update self.trees merkleSlab (some tree) })
  | none => .err .constraint

/-- `replace_leaf(seed, bump, .., root_node, previous_leaf, new_leaf, index)`. -/
def replaceLeaf (merkleSlab : Pubkey) (root previousLeaf newLeaf : Node) (index : UInt32)
    (proof : List Node) : Outcome Error (List (Event Node Pubkey) × State Node Pubkey) :=
  self.invoke merkleSlab
    (.replaceLeaf (ProgramAddress.authority merkleSlab) root previousLeaf newLeaf index proof)

/-- `append_leaf(seed, bump, .., append_authority, .., leaf_node)`. -/
def appendLeaf (merkleSlab appendAuthority : Pubkey) (leaf : Node) :
    Outcome Error (List (Event Node Pubkey) × State Node Pubkey) :=
  self.invoke merkleSlab (.append (ProgramAddress.authority merkleSlab) appendAuthority leaf)

variable (signers : List Pubkey)

/-- `create_tree(max_depth, max_buffer_size)`, on a given account at the address of the slab. -/
def createTree (payer treeCreator merkleSlab : Pubkey) {D B : ℕ} (size : BufferSize B)
    (account : Account Node Pubkey D B) (slot : ℕ) :
    Outcome Error (List (Event Node Pubkey) × State Node Pubkey) := do
  constraint (self.nonces (ProgramAddress.authority merkleSlab) = none)
  constraint (payer ∈ signers ∧ treeCreator ∈ signers)
  match account.initEmptyGummyroll (ProgramAddress.authority merkleSlab) treeCreator slot with
  | .ok (event, account) =>
    .ok ([.changeLog event], { self with
      nonces := Function.update self.nonces (ProgramAddress.authority merkleSlab) (some 0)
      trees := Function.update self.trees merkleSlab
        (some ⟨D, B, size, ⟨account, [], [event]⟩⟩) })
  | .err e => .err (.gummyroll e)
  | .panic => .panic

/-- `mint_v1(message)`. -/
def mintV1 (merkleSlab mintAuthority owner delegate : Pubkey) (message : MetadataArgs Pubkey) :
    Outcome Error (List (Event Node Pubkey) × State Node Pubkey) := do
  constraint (mintAuthority ∈ signers)
  let count ← self.nonce merkleSlab
  let dataHash : Node := LeafHash.hashMetadata message
  let creatorHash : Node :=
    LeafHash.hashCreators (message.creators.map fun c => (c.address, c.share))
  let assetId := getAssetId merkleSlab count
  let leaf := LeafSchema.newV0 assetId owner delegate count dataHash creatorHash
  let (events, st) ← self.appendLeaf merkleSlab mintAuthority leaf.toNode
  .ok (.newNFT ⟨.V1, message, count⟩ :: .leafSchema leaf.toEvent :: events, { st with
    nonces := Function.update st.nonces (ProgramAddress.authority merkleSlab)
      (some (saturatingAdd count 1)) })

/-- `transfer(root, data_hash, creator_hash, nonce, index)`. -/
def transfer (merkleSlab owner delegate newOwner : Pubkey) (root dataHash creatorHash : Node)
    (nonce : UInt64) (index : UInt32) (proof : List Node) :
    Outcome Error (List (Event Node Pubkey) × State Node Pubkey) := do
  let _ ← self.nonce merkleSlab
  Outcome.assert (owner ∈ signers ∨ delegate ∈ signers)
  let assetId := getAssetId merkleSlab nonce
  let previousLeaf := LeafSchema.newV0 assetId owner delegate nonce dataHash creatorHash
  let newLeaf := LeafSchema.newV0 assetId newOwner newOwner nonce dataHash creatorHash
  let (events, st) ←
    self.replaceLeaf merkleSlab root previousLeaf.toNode newLeaf.toNode index proof
  .ok (.leafSchema newLeaf.toEvent :: events, st)

/-- `delegate(root, data_hash, creator_hash, nonce, index)`. -/
def delegate (merkleSlab owner previousDelegate newDelegate : Pubkey)
    (root dataHash creatorHash : Node) (nonce : UInt64) (index : UInt32) (proof : List Node) :
    Outcome Error (List (Event Node Pubkey) × State Node Pubkey) := do
  let _ ← self.nonce merkleSlab
  constraint (owner ∈ signers)
  let assetId := getAssetId merkleSlab nonce
  let previousLeaf := LeafSchema.newV0 assetId owner previousDelegate nonce dataHash creatorHash
  let newLeaf := LeafSchema.newV0 assetId owner newDelegate nonce dataHash creatorHash
  let (events, st) ←
    self.replaceLeaf merkleSlab root previousLeaf.toNode newLeaf.toNode index proof
  .ok (.leafSchema newLeaf.toEvent :: events, st)

/-- `burn(root, data_hash, creator_hash, nonce, index)`. -/
def burn (merkleSlab owner delegate : Pubkey) (root dataHash creatorHash : Node)
    (nonce : UInt64) (index : UInt32) (proof : List Node) :
    Outcome Error (List (Event Node Pubkey) × State Node Pubkey) := do
  let _ ← self.nonce merkleSlab
  Outcome.assert (owner ∈ signers ∨ delegate ∈ signers)
  let assetId := getAssetId merkleSlab nonce
  let previousLeaf := LeafSchema.newV0 assetId owner delegate nonce dataHash creatorHash
  let (events, st) ← self.replaceLeaf merkleSlab root previousLeaf.toNode EMPTY index proof
  .ok (.leafSchema previousLeaf.toEvent :: events, st)

/-- `redeem(root, data_hash, creator_hash, nonce, index)`. -/
def redeem (merkleSlab owner delegate : Pubkey) (root dataHash creatorHash : Node)
    (nonce : UInt64) (index : UInt32) (proof : List Node) :
    Outcome Error (List (Event Node Pubkey) × State Node Pubkey) := do
  let _ ← self.nonce merkleSlab
  constraint (owner ∈ signers)
  constraint (self.vouchers (ProgramAddress.voucher merkleSlab nonce) = none)
  let assetId := getAssetId merkleSlab nonce
  let previousLeaf := LeafSchema.newV0 assetId owner delegate nonce dataHash creatorHash
  let (events, st) ← self.replaceLeaf merkleSlab root previousLeaf.toNode EMPTY index proof
  .ok (.leafSchema previousLeaf.toEvent :: events, { st with
    vouchers := Function.update st.vouchers (ProgramAddress.voucher merkleSlab nonce)
      (some ⟨previousLeaf, index, merkleSlab⟩) })

/-- `cancel_redeem(root)`. -/
def cancelRedeem (merkleSlab voucherKey owner : Pubkey) (root : Node) (proof : List Node) :
    Outcome Error (List (Event Node Pubkey) × State Node Pubkey) := do
  let _ ← self.nonce merkleSlab
  let voucher ← self.voucher voucherKey
  constraint (voucherKey = ProgramAddress.voucher merkleSlab voucher.leafSchema.nonce)
  constraint (owner ∈ signers)
  assertPubkeyEqual owner voucher.leafSchema.owner (some .AssetOwnerMismatch)
  let (events, st) ←
    self.replaceLeaf merkleSlab root EMPTY voucher.leafSchema.toNode voucher.index proof
  .ok (.leafSchema voucher.leafSchema.toEvent :: events, { st with
    vouchers := Function.update st.vouchers voucherKey none })

/-- `decompress_v1(metadata)`; whether the calls of the token programs succeed is an
argument. -/
def decompressV1 (voucherKey owner : Pubkey) (metadata : MetadataArgs Pubkey)
    (tokenCalls : Bool) : Outcome Error (List (Event Node Pubkey) × State Node Pubkey) := do
  let voucher ← self.voucher voucherKey
  let nonce := voucher.leafSchema.nonce
  constraint (voucherKey = ProgramAddress.voucher voucher.merkleSlab nonce)
  constraint (owner ∈ signers)
  if voucher.leafSchema.dataHash ≠ LeafHash.hashMetadata metadata then
    .err (.custom .HashingMismatch)
  else if voucher.leafSchema.owner ≠ owner then
    .err (.custom .AssetOwnerMismatch)
  else
    let id := getAssetId voucher.merkleSlab nonce
    match metadata.tokenProgramVersion with
    | .Token2022 => .err .invalidArgument
    | .Original =>
      if tokenCalls then
        -- a mint that is there already is used as it is
        .ok ([.decompression ⟨.V1, id, voucher.merkleSlab, nonce⟩], { self with
          mints := Function.update self.mints (ProgramAddress.asset voucher.merkleSlab nonce)
            (some ((self.mints (ProgramAddress.asset voucher.merkleSlab nonce)).getD 0 + 1))
          vouchers := Function.update self.vouchers voucherKey none })
      else .err .token

/-- `compress()`. -/
def compress (owner payer : Pubkey) :
    Outcome Error (List (Event Node Pubkey) × State Node Pubkey) := do
  constraint (owner ∈ signers ∧ payer ∈ signers)
  .ok ([], self)

end State

/-! ### Runs -/

/-- An instruction with its arguments and its accounts. -/
inductive Instruction (Node Pubkey : Type) where
  | createTree (payer treeCreator merkleSlab : Pubkey) {D B : ℕ} (size : BufferSize B)
      (account : Account Node Pubkey D B) (slot : ℕ)
  | mintV1 (merkleSlab mintAuthority owner leafDelegate : Pubkey) (message : MetadataArgs Pubkey)
  | transfer (merkleSlab owner leafDelegate newOwner : Pubkey) (root dataHash creatorHash : Node)
      (nonce : UInt64) (index : UInt32) (proof : List Node)
  | delegate (merkleSlab owner previousDelegate newDelegate : Pubkey)
      (root dataHash creatorHash : Node) (nonce : UInt64) (index : UInt32) (proof : List Node)
  | burn (merkleSlab owner leafDelegate : Pubkey) (root dataHash creatorHash : Node)
      (nonce : UInt64) (index : UInt32) (proof : List Node)
  | redeem (merkleSlab owner leafDelegate : Pubkey) (root dataHash creatorHash : Node)
      (nonce : UInt64) (index : UInt32) (proof : List Node)
  | cancelRedeem (merkleSlab voucherKey owner : Pubkey) (root : Node) (proof : List Node)
  | decompressV1 (voucherKey owner : Pubkey) (metadata : MetadataArgs Pubkey) (tokenCalls : Bool)
  | compress (owner payer : Pubkey)

/-- `InstructionName`. -/
inductive InstructionName where
  | Unknown
  | MintV1
  | Redeem
  | CancelRedeem
  | Transfer
  | Delegate
  | DecompressV1
  | Compress
  | Burn
deriving DecidableEq

namespace Instruction

omit [NodeHash Node] [DecidableEq Node] [DecidableEq Pubkey] [Build] in
/-- `get_instruction_type(full_bytes)` on the bytes of the instruction. -/
def name : Instruction Node Pubkey → InstructionName
  | createTree .. => .Unknown
  | mintV1 .. => .MintV1
  | transfer .. => .Transfer
  | delegate .. => .Delegate
  | burn .. => .Burn
  | redeem .. => .Redeem
  | cancelRedeem .. => .CancelRedeem
  | decompressV1 .. => .DecompressV1
  | compress .. => .Compress

variable [LeafHash Node Pubkey] [ProgramAddress Pubkey]

/-- Executes the instruction. -/
def exec (ins : Instruction Node Pubkey) (signers : List Pubkey) (st : State Node Pubkey) :
    Outcome Error (List (Event Node Pubkey) × State Node Pubkey) :=
  match ins with
  | createTree payer treeCreator merkleSlab size account slot =>
    st.createTree signers payer treeCreator merkleSlab size account slot
  | mintV1 merkleSlab mintAuthority owner leafDelegate message =>
    st.mintV1 signers merkleSlab mintAuthority owner leafDelegate message
  | transfer merkleSlab owner leafDelegate newOwner root dataHash creatorHash nonce index
      proof =>
    st.transfer signers merkleSlab owner leafDelegate newOwner root dataHash creatorHash nonce
      index proof
  | delegate merkleSlab owner previousDelegate newDelegate root dataHash creatorHash nonce index
      proof =>
    st.delegate signers merkleSlab owner previousDelegate newDelegate root dataHash creatorHash
      nonce index proof
  | burn merkleSlab owner leafDelegate root dataHash creatorHash nonce index proof =>
    st.burn signers merkleSlab owner leafDelegate root dataHash creatorHash nonce index proof
  | redeem merkleSlab owner leafDelegate root dataHash creatorHash nonce index proof =>
    st.redeem signers merkleSlab owner leafDelegate root dataHash creatorHash nonce index proof
  | cancelRedeem merkleSlab voucherKey owner root proof =>
    st.cancelRedeem signers merkleSlab voucherKey owner root proof
  | decompressV1 voucherKey owner metadata tokenCalls =>
    st.decompressV1 signers voucherKey owner metadata tokenCalls
  | compress owner payer => st.compress signers owner payer

omit [DecidableEq Node] [DecidableEq Pubkey] [Build] [LeafHash Node Pubkey]
  [ProgramAddress Pubkey] in
/-- An account that `create_tree` is given is at the address of the slab and holds nothing but
zero bytes. -/
def Allocated : Instruction Node Pubkey → Prop
  | createTree _ _ merkleSlab _ account _ => account.key = merkleSlab ∧ ∃ c, account.Fresh c
  | _ => True

end Instruction

/-- An instruction that succeeded, with the keys that signed it and the events. -/
structure Executed (Node Pubkey : Type) where
  signers : List Pubkey
  instruction : Instruction Node Pubkey
  events : List (Event Node Pubkey)

variable [LeafHash Node Pubkey] [ProgramAddress Pubkey]

/-- The instruction takes one state to the other. -/
def Executed.Takes (st : State Node Pubkey) (x : Executed Node Pubkey) (st' : State Node Pubkey) :
    Prop :=
  x.instruction.Allocated ∧ x.instruction.exec x.signers st = .ok (x.events, st')

/-- The states that successful instructions reach from no accounts, with these instructions,
newest first. -/
abbrev Reachable (history : List (Executed Node Pubkey)) (st : State Node Pubkey) : Prop :=
  Steps Executed.Takes State.empty history st

end Candyland.Bubblegum
