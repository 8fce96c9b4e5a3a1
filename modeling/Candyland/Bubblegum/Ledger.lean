import Candyland.Bubblegum.Program

/-!
# The ledger

What bubblegum is for: the assets of a tree are numbered, and every asset lives through stages.
Here there are no hashes, proofs or derived accounts, only what an instruction may do to an
asset and who has to sign it.
-/

namespace Candyland.Bubblegum

open ConcurrentMerkleTree (NodeHash EMPTY)
open Gummyroll (ChangeLogEvent)

variable {Node Pubkey : Type}

/-- What has become of an asset. -/
inductive Life (Node Pubkey : Type) where
  /-- It is a leaf of the tree. -/
  | live (schema : LeafSchema Node Pubkey)
  /-- A voucher stands for it. -/
  | redeemed (schema : LeafSchema Node Pubkey)
  | burned
  | decompressed
deriving DecidableEq

namespace Life

/-- The owner, the delegate and the hashes, as long as they are on record. -/
def schema? : Life Node Pubkey → Option (LeafSchema Node Pubkey)
  | live s => some s
  | redeemed s => some s
  | burned => none
  | decompressed => none

/-- The leaf of the tree. -/
def leaf [NodeHash Node] [LeafHash Node Pubkey] : Life Node Pubkey → Node
  | live s => s.toNode
  | _ => EMPTY

end Life

/-- The assets by their nonces, for every slab that has a tree. -/
abbrev Ledger (Node Pubkey : Type) := Pubkey → Option (List (Life Node Pubkey))

namespace Ledger

/-- What has become of the asset of a nonce. -/
def life (self : Ledger Node Pubkey) (slab : Pubkey) (n : ℕ) : Option (Life Node Pubkey) :=
  (self slab).bind fun lives => lives[n]?

theorem life_of_eq {self : Ledger Node Pubkey} {slab : Pubkey} {lives : List (Life Node Pubkey)}
    (h : self slab = some lives) (n : ℕ) : self.life slab n = lives[n]? := by
  rw [life, h, Option.bind_some]

variable [DecidableEq Pubkey]

/-- Another stage for the asset of a nonce. -/
def set (self : Ledger Node Pubkey) (slab : Pubkey) (n : ℕ) (l : Life Node Pubkey) :
    Ledger Node Pubkey :=
  Function.update self slab ((self slab).map fun lives => lives.set n l)

theorem life_set {self : Ledger Node Pubkey} {slab : Pubkey} {n : ℕ} {l : Life Node Pubkey}
    (h : self.life slab n = some l) (l' : Life Node Pubkey) (slab' : Pubkey) (n' : ℕ) :
    (self.set slab n l').life slab' n' =
      if slab' = slab ∧ n' = n then some l' else self.life slab' n' := by
  by_cases hslab : slab' = slab
  · subst hslab
    cases hlives : self slab' with
    | none => simp [life, hlives] at h
    | some lives =>
      simp only [life, hlives, Option.bind_some] at h
      have hlt := (List.getElem?_eq_some_iff.1 h).1
      by_cases hn : n' = n
      · subst hn
        simp [life, set, hlives, hlt]
      · simp [life, set, hlives, hn, List.getElem?_set_ne (Ne.symm hn)]
  · simp [life, set, hslab]

theorem life_update {self : Ledger Node Pubkey} {slab : Pubkey} {lives : List (Life Node Pubkey)}
    (slab' : Pubkey) (n' : ℕ) :
    Ledger.life (Function.update self slab (some lives)) slab' n' =
      if slab' = slab then lives[n']? else self.life slab' n' := by
  by_cases hslab : slab' = slab
  · subst hslab
    simp [life]
  · simp [life, hslab]

end Ledger

section Steps

variable [LeafHash Node Pubkey] [ProgramAddress Pubkey]

/-- How an instruction that was signed and emitted events changes the asset of a nonce. -/
inductive Life.Move (slab : Pubkey) (nonce : UInt64) :
    Executed Node Pubkey → Life Node Pubkey → Life Node Pubkey → Prop
  | transfer {signers : List Pubkey} {owner delegate newOwner : Pubkey}
      {root dataHash creatorHash : Node} {index : UInt32} {proof : List Node}
      {event : ChangeLogEvent Node Pubkey} (hsigner : owner ∈ signers ∨ delegate ∈ signers) :
      Move slab nonce
        ⟨signers, .transfer slab owner delegate newOwner root dataHash creatorHash nonce index
            proof,
          [.leafSchema (LeafSchema.newV0 (getAssetId slab nonce) newOwner newOwner nonce dataHash
            creatorHash).toEvent, .changeLog event]⟩
        (.live (.newV0 (getAssetId slab nonce) owner delegate nonce dataHash creatorHash))
        (.live (.newV0 (getAssetId slab nonce) newOwner newOwner nonce dataHash creatorHash))
  | delegate {signers : List Pubkey} {owner previousDelegate newDelegate : Pubkey}
      {root dataHash creatorHash : Node} {index : UInt32} {proof : List Node}
      {event : ChangeLogEvent Node Pubkey} (hsigner : owner ∈ signers) :
      Move slab nonce
        ⟨signers, .delegate slab owner previousDelegate newDelegate root dataHash creatorHash nonce
            index proof,
          [.leafSchema (LeafSchema.newV0 (getAssetId slab nonce) owner newDelegate nonce dataHash
            creatorHash).toEvent, .changeLog event]⟩
        (.live (.newV0 (getAssetId slab nonce) owner previousDelegate nonce dataHash creatorHash))
        (.live (.newV0 (getAssetId slab nonce) owner newDelegate nonce dataHash creatorHash))
  | burn {signers : List Pubkey} {owner delegate : Pubkey} {root dataHash creatorHash : Node}
      {index : UInt32} {proof : List Node} {event : ChangeLogEvent Node Pubkey}
      (hsigner : owner ∈ signers ∨ delegate ∈ signers) :
      Move slab nonce
        ⟨signers, .burn slab owner delegate root dataHash creatorHash nonce index proof,
          [.leafSchema (LeafSchema.newV0 (getAssetId slab nonce) owner delegate nonce dataHash
            creatorHash).toEvent, .changeLog event]⟩
        (.live (.newV0 (getAssetId slab nonce) owner delegate nonce dataHash creatorHash)) .burned
  | redeem {signers : List Pubkey} {owner delegate : Pubkey} {root dataHash creatorHash : Node}
      {index : UInt32} {proof : List Node} {event : ChangeLogEvent Node Pubkey}
      (hsigner : owner ∈ signers) :
      Move slab nonce
        ⟨signers, .redeem slab owner delegate root dataHash creatorHash nonce index proof,
          [.leafSchema (LeafSchema.newV0 (getAssetId slab nonce) owner delegate nonce dataHash
            creatorHash).toEvent, .changeLog event]⟩
        (.live (.newV0 (getAssetId slab nonce) owner delegate nonce dataHash creatorHash))
        (.redeemed (.newV0 (getAssetId slab nonce) owner delegate nonce dataHash creatorHash))
  | cancelRedeem {signers : List Pubkey} {schema : LeafSchema Node Pubkey} {root : Node}
      {proof : List Node} {event : ChangeLogEvent Node Pubkey} (hsigner : schema.owner ∈ signers)
      (hid : schema.id = getAssetId slab nonce) :
      Move slab nonce
        ⟨signers, .cancelRedeem slab (ProgramAddress.voucher slab nonce) schema.owner root proof,
          [.leafSchema schema.toEvent, .changeLog event]⟩
        (.redeemed schema) (.live schema)
  | decompressV1 {signers : List Pubkey} {schema : LeafSchema Node Pubkey}
      {metadata : MetadataArgs Pubkey} (hsigner : schema.owner ∈ signers)
      (hhash : schema.dataHash = LeafHash.hashMetadata metadata) :
      Move slab nonce
        ⟨signers, .decompressV1 (ProgramAddress.voucher slab nonce) schema.owner metadata true,
          [.decompression ⟨.V1, getAssetId slab nonce, slab, nonce⟩]⟩
        (.redeemed schema) .decompressed

namespace Instruction

/-- The instruction burns the asset of a nonce. -/
def Burns (slab : Pubkey) (nonce : UInt64) : Instruction Node Pubkey → Prop
  | burn merkleSlab _ _ _ _ _ n _ _ => merkleSlab = slab ∧ n = nonce
  | _ => False

/-- The instruction decompresses the asset of a nonce. -/
def Decompresses (slab : Pubkey) (nonce : UInt64) : Instruction Node Pubkey → Prop
  | decompressV1 voucherKey _ _ _ => voucherKey = ProgramAddress.voucher slab nonce
  | _ => False

/-- The instruction is about the asset of a nonce, which is there already. -/
def Concerns (slab : Pubkey) (nonce : UInt64) : Instruction Node Pubkey → Prop
  | createTree .. => False
  | mintV1 .. => False
  | transfer merkleSlab _ _ _ _ _ _ n _ _ => merkleSlab = slab ∧ n = nonce
  | delegate merkleSlab _ _ _ _ _ _ n _ _ => merkleSlab = slab ∧ n = nonce
  | burn merkleSlab _ _ _ _ _ n _ _ => merkleSlab = slab ∧ n = nonce
  | redeem merkleSlab _ _ _ _ _ n _ _ => merkleSlab = slab ∧ n = nonce
  | cancelRedeem _ voucherKey _ _ _ => voucherKey = ProgramAddress.voucher slab nonce
  | decompressV1 voucherKey _ _ _ => voucherKey = ProgramAddress.voucher slab nonce
  | compress .. => False

instance [DecidableEq Pubkey] (slab : Pubkey) (nonce : UInt64) :
    (ins : Instruction Node Pubkey) → Decidable (ins.Concerns slab nonce)
  | createTree .. => inferInstanceAs (Decidable False)
  | mintV1 .. => inferInstanceAs (Decidable False)
  | transfer .. => inferInstanceAs (Decidable (_ ∧ _))
  | delegate .. => inferInstanceAs (Decidable (_ ∧ _))
  | burn .. => inferInstanceAs (Decidable (_ ∧ _))
  | redeem .. => inferInstanceAs (Decidable (_ ∧ _))
  | cancelRedeem .. => inferInstanceAs (Decidable (_ = _))
  | decompressV1 .. => inferInstanceAs (Decidable (_ = _))
  | compress .. => inferInstanceAs (Decidable False)

end Instruction

namespace Life.Move

variable {slab slab' : Pubkey} {nonce nonce' : UInt64} {x : Executed Node Pubkey}
  {l l' : Life Node Pubkey}

theorem concerns (h : Move slab nonce x l l') : x.instruction.Concerns slab nonce := by
  cases h with
  | transfer | delegate | burn | redeem => exact ⟨rfl, rfl⟩
  | cancelRedeem | decompressV1 => rfl

theorem schema?_isSome (h : Move slab nonce x l l') : l.schema?.isSome := by
  cases h <;> rfl

/-- The hashes of an asset do not change. -/
theorem hashes (h : Move slab nonce x l l') {s s' : LeafSchema Node Pubkey}
    (hs : l.schema? = some s) (hs' : l'.schema? = some s') :
    s'.dataHash = s.dataHash ∧ s'.creatorHash = s.creatorHash := by
  cases h <;> cases hs <;> cases hs' <;> exact ⟨rfl, rfl⟩

theorem eq_burned_iff (h : Move slab nonce x l l') :
    l' = .burned ↔ x.instruction.Burns slab nonce := by
  cases h <;> simp [Instruction.Burns]

theorem eq_decompressed_iff (h : Move slab nonce x l l') :
    l' = .decompressed ↔ x.instruction.Decompresses slab nonce := by
  cases h <;> simp [Instruction.Decompresses]

variable [InjectiveAddress Pubkey]

/-- An instruction is about one asset. -/
theorem unique (h : Move slab nonce x l l') (hc : x.instruction.Concerns slab' nonce') :
    slab' = slab ∧ nonce' = nonce := by
  cases h with
  | transfer | delegate | burn | redeem => exact ⟨hc.1.symm, hc.2.symm⟩
  | cancelRedeem | decompressV1 =>
    obtain ⟨rfl, rfl⟩ := InjectiveAddress.voucher_inj hc
    exact ⟨rfl, rfl⟩

end Life.Move

variable [DecidableEq Pubkey]

/-- How an instruction changes the ledger. -/
inductive Ledger.Step (L : Ledger Node Pubkey) : Executed Node Pubkey → Ledger Node Pubkey → Prop
  | createTree {signers : List Pubkey} {payer treeCreator slab : Pubkey} {D B : ℕ}
      {size : ConcurrentMerkleTree.BufferSize B} {account : Gummyroll.Account Node Pubkey D B}
      {slot : ℕ} {event : ChangeLogEvent Node Pubkey} (hnone : L slab = none) :
      Step L ⟨signers, .createTree payer treeCreator slab size account slot, [.changeLog event]⟩
        (Function.update L slab (some []))
  | mintV1 {signers : List Pubkey} {slab mintAuthority owner delegate : Pubkey}
      {message : MetadataArgs Pubkey} {lives : List (Life Node Pubkey)} {nonce : UInt64}
      {schema : LeafSchema Node Pubkey} {event : ChangeLogEvent Node Pubkey}
      (hlives : L slab = some lives) (hnonce : nonce.toNat = lives.length)
      (hschema : schema = .newV0 (getAssetId slab nonce) owner delegate nonce
        (LeafHash.hashMetadata message)
        (LeafHash.hashCreators (message.creators.map fun c => (c.address, c.share))))
      (hsigner : mintAuthority ∈ signers) :
      Step L ⟨signers, .mintV1 slab mintAuthority owner delegate message,
          [.newNFT ⟨.V1, message, nonce⟩, .leafSchema schema.toEvent, .changeLog event]⟩
        (Function.update L slab (some (lives ++ [.live schema])))
  | move {x : Executed Node Pubkey} (slab : Pubkey) (nonce : UInt64) {l l' : Life Node Pubkey}
      (hlife : L.life slab nonce.toNat = some l) (hmove : Life.Move slab nonce x l l') :
      Step L x (L.set slab nonce.toNat l')
  | compress {signers : List Pubkey} {owner payer : Pubkey} :
      Step L ⟨signers, .compress owner payer, []⟩ L

namespace Ledger.Step

variable {L L' : Ledger Node Pubkey} {x : Executed Node Pubkey}

/-- What a step does to one asset: nothing, its mint, or a move. -/
theorem life_cases (h : L.Step x L') (slab : Pubkey) (i : ℕ) :
    L'.life slab i = L.life slab i ∨
    (L.life slab i = none ∧ x.instruction.name = .MintV1 ∧ ∃ s, L'.life slab i = some (.live s)) ∨
    ∃ nonce l l', nonce.toNat = i ∧ L.life slab i = some l ∧ L'.life slab i = some l' ∧
      Life.Move slab nonce x l l' := by
  cases h with
  | createTree hnone =>
    left
    rw [life_update]
    split_ifs with hslab
    · rw [hslab, life, hnone]
      rfl
    · rfl
  | @mintV1 _ slab₁ _ _ _ _ lives _ schema _ hlives =>
    rw [life_update]
    split_ifs with hslab
    · rw [hslab, life_of_eq hlives]
      rcases lt_trichotomy i lives.length with hlt | rfl | hgt
      · exact .inl (List.getElem?_append_left hlt)
      · exact .inr (.inl ⟨List.getElem?_eq_none le_rfl, rfl, schema,
          List.getElem?_concat_length⟩)
      · rw [List.getElem?_eq_none hgt.le, List.getElem?_eq_none (by simp; omega)]
        exact .inl rfl
    · exact .inl rfl
  | @move _ slab₁ nonce l l' hlife hmove =>
    rw [life_set hlife]
    split_ifs with heq
    · obtain ⟨rfl, rfl⟩ := heq
      exact .inr (.inr ⟨nonce, l, l', rfl, hlife, rfl, hmove⟩)
    · exact .inl rfl
  | compress => exact .inl rfl

variable {slab : Pubkey} {nonce : UInt64}

/-- An instruction that succeeds for an asset makes a move of it. -/
theorem exists_move [InjectiveAddress Pubkey] (h : L.Step x L') (slab : Pubkey)
    (nonce : UInt64) (hc : x.instruction.Concerns slab nonce) :
    ∃ l l', L.life slab nonce.toNat = some l ∧ L'.life slab nonce.toNat = some l' ∧
      Life.Move slab nonce x l l' := by
  cases h with
  | createTree | mintV1 | compress => exact False.elim hc
  | @move _ slab₁ nonce₁ l l' hlife hmove =>
    obtain ⟨rfl, rfl⟩ := hmove.unique hc
    refine ⟨l, l', hlife, ?_, hmove⟩
    rw [life_set hlife, if_pos ⟨rfl, rfl⟩]

/-- An asset that no instruction is about stays as it is. -/
theorem life_of_not_concerns (h : L.Step x L') {l : Life Node Pubkey}
    (hl : L.life slab nonce.toNat = some l) (hc : ¬ x.instruction.Concerns slab nonce) :
    L'.life slab nonce.toNat = some l := by
  rcases h.life_cases slab nonce.toNat with heq | ⟨hnone, -⟩ | ⟨nonce', _, _, hn, -, -, hmove⟩
  · rw [heq, hl]
  · exact absurd (hl.symm.trans hnone) (by simp)
  · rw [UInt64.toNat_inj] at hn
    subst hn
    exact absurd hmove.concerns hc

end Ledger.Step

/-! ### Runs -/

/-- The burns and the decompressions of a history are those of the ledger. -/
def Ledger.Records (L : Ledger Node Pubkey) (history : List (Executed Node Pubkey)) : Prop :=
  ∀ slab nonce,
    (L.life slab nonce.toNat = some .burned ↔ ∃ x ∈ history, x.instruction.Burns slab nonce) ∧
    (L.life slab nonce.toNat = some .decompressed ↔
      ∃ x ∈ history, x.instruction.Decompresses slab nonce)

section Runs

variable {L L' : Ledger Node Pubkey} {slab : Pubkey} {nonce : UInt64}
  {history : List (Executed Node Pubkey)}

theorem Ledger.Step.records [InjectiveAddress Pubkey] {x : Executed Node Pubkey} (h : L.Step x L')
    (hL : L.Records history) : L'.Records (x :: history) := by
  intro slab nonce
  simp only [List.exists_mem_cons_iff]
  rw [← (hL slab nonce).1, ← (hL slab nonce).2]
  by_cases hc : x.instruction.Concerns slab nonce
  · obtain ⟨l, l', hl, hl', hmove⟩ := h.exists_move slab nonce hc
    have hsome := hmove.schema?_isSome
    simp only [hl, hl', Option.some_inj, hmove.eq_burned_iff, hmove.eq_decompressed_iff]
    cases l with
    | live s | redeemed s => simp
    | burned | decompressed => exact absurd hsome (by simp [Life.schema?])
  · -- a burn or a decompression of the asset would be about it
    have hburns : ¬ x.instruction.Burns slab nonce := fun hb => hc (by
      revert hb
      cases x.instruction <;> simp [Instruction.Burns, Instruction.Concerns])
    have hdecompresses : ¬ x.instruction.Decompresses slab nonce := fun hd => hc (by
      revert hd
      cases x.instruction <;> simp [Instruction.Decompresses, Instruction.Concerns])
    simp only [hburns, hdecompresses, false_or]
    rcases h.life_cases slab nonce.toNat with heq | ⟨hnone, -, s, hs⟩ | ⟨n, _, _, hn, -, -, hmove⟩
    · rw [heq]
      exact ⟨Iff.rfl, Iff.rfl⟩
    · simp [hnone, hs]
    · rw [UInt64.toNat_inj] at hn
      subst hn
      exact absurd hmove.concerns hc

theorem Ledger.Records.steps [InjectiveAddress Pubkey] (hL : L.Records history)
    {later : List (Executed Node Pubkey)} (h : Steps Ledger.Step L later L') :
    L'.Records (later ++ history) := by
  refine h.invariant (I := fun later L => Ledger.Records L (later ++ history)) hL ?_
  intro later L x L' _ hL hstep
  exact hstep.records hL

omit [LeafHash Node Pubkey] [DecidableEq Pubkey] in
theorem Ledger.records_none :
    Ledger.Records (fun _ => none : Ledger Node Pubkey) [] := by
  intro slab nonce
  simp [Ledger.life]

/-- A run keeps the hashes of an asset, and what is burned or decompressed stays so. -/
theorem Ledger.life_of_steps (h : Steps Ledger.Step L history L') {i : ℕ} {l : Life Node Pubkey}
    (hl : L.life slab i = some l) :
    ∃ l', L'.life slab i = some l' ∧ (l.schema? = none → l' = l) ∧
      ∀ s', l'.schema? = some s' → ∃ s, l.schema? = some s ∧ s'.dataHash = s.dataHash ∧
        s'.creatorHash = s.creatorHash := by
  induction h with
  | refl => exact ⟨l, hl, fun _ => rfl, fun s' hs' => ⟨s', hs', rfl, rfl⟩⟩
  | step _ hstep ih =>
    obtain ⟨l₁, hl₁, hfinal, hhashes⟩ := ih
    rcases hstep.life_cases slab i with heq | ⟨hnone, -⟩ | ⟨n, l₁', l₂, -, hl₁', hl₂, hmove⟩
    · exact ⟨l₁, heq.trans hl₁, hfinal, hhashes⟩
    · exact absurd (hl₁.symm.trans hnone) (by simp)
    · obtain rfl := Option.some.inj (hl₁.symm.trans hl₁')
      obtain ⟨s₁, hs₁⟩ := Option.isSome_iff_exists.1 hmove.schema?_isSome
      obtain ⟨s, hs, hdata, hcreator⟩ := hhashes s₁ hs₁
      refine ⟨l₂, hl₂, fun hnone => absurd (hs.symm.trans hnone) (by simp), ?_⟩
      intro s₂ hs₂
      obtain ⟨hdata₂, hcreator₂⟩ := hmove.hashes hs₁ hs₂
      exact ⟨s, hs, hdata₂.trans hdata, hcreator₂.trans hcreator⟩

/-- A run without an instruction for the asset keeps it as it is. -/
theorem Ledger.life_of_steps_of_not_concerns (h : Steps Ledger.Step L history L')
    {l : Life Node Pubkey} (hl : L.life slab nonce.toNat = some l)
    (hc : ∀ x ∈ history, ¬ x.instruction.Concerns slab nonce) :
    L'.life slab nonce.toNat = some l := by
  induction h with
  | refl => exact hl
  | step _ hstep ih =>
    exact hstep.life_of_not_concerns (ih fun x hx => hc x (List.mem_cons_of_mem _ hx))
      (hc _ List.mem_cons_self)

end Runs

end Steps

end Candyland.Bubblegum
