import Candyland.NftIngester.AssetRows
import Candyland.Sdk.Indexer.Calls

/-!
# The calls for an asset

Of the calls for an asset the indexer keeps what the one with the largest number says, and the
metadata of a mint.  In a run of bubblegum the numbers order the calls of a tree as the chain
does, the newest call has the schema that is on record, and there is one mint.
-/

namespace Candyland.Sdk.Indexer

open Bubblegum
open ConcurrentMerkleTree (NodeHash EMPTY CollisionFree NonzeroHash)
open Gummyroll (Build ChangeLogEvent)
open NftIngester (About Minting Mints OnRecord minted? step_cases)

variable {Node Pubkey : Type}

namespace IngestCall

/-- The nonce of the asset that the call is about. -/
def nonce? (self : IngestCall Node Pubkey) : Option UInt64 :=
  self.leafSchema?.map fun event => event.schema.nonce

/-- The metadata that the call stores. -/
def metadata? : IngestCall Node Pubkey → Option (MetadataArgs Pubkey)
  | mint _ newLeafData _ => some newLeafData.metadata
  | _ => none

/-- The value of the column `compressed`. -/
def compressed? : IngestCall Node Pubkey → Option Bool
  | createTree _ => none
  | mint .. => some true
  | replaceLeaf _ _ compressed => some compressed

end IngestCall

variable [DecidableEq Pubkey]

/-- The call for an instruction that names a tree. -/
def callOf? (slab : Pubkey) (x : Executed Node Pubkey) : Option (IngestCall Node Pubkey) :=
  if x.instruction.tree? = some slab then x.ingestCall? else none

/-- The calls for a tree, the newest first. -/
def callsOf (slab : Pubkey) (history : List (Executed Node Pubkey)) :
    List (IngestCall Node Pubkey) := history.filterMap (callOf? slab)

/-- The calls for an asset, the newest first. -/
def callsFor (slab : Pubkey) (n : UInt64) (history : List (Executed Node Pubkey)) :
    List (IngestCall Node Pubkey) :=
  (callsOf slab history).filter fun call => call.nonce? = some n

variable {slab : Pubkey} {n : UInt64} {x : Executed Node Pubkey}
  {history : List (Executed Node Pubkey)} {call : IngestCall Node Pubkey}

theorem callOf?_eq_some_iff :
    callOf? slab x = some call ↔ x.instruction.tree? = some slab ∧ x.ingestCall? = some call := by
  rw [callOf?]
  split_ifs with hname
  · simp [hname]
  · simp [hname]

theorem mem_callsOf : call ∈ callsOf slab history ↔
    ∃ x ∈ history, x.instruction.tree? = some slab ∧ x.ingestCall? = some call := by
  simp only [callsOf, List.mem_filterMap, callOf?_eq_some_iff]

theorem mem_callsFor :
    call ∈ callsFor slab n history ↔ call ∈ callsOf slab history ∧ call.nonce? = some n := by
  simp only [callsFor, List.mem_filter, decide_eq_true_eq]

theorem callsFor_cons : callsFor slab n (x :: history) =
    ((callOf? slab x).toList.filter fun call => call.nonce? = some n) ++
      callsFor slab n history := by
  rw [callsFor, callsOf, List.filterMap_cons]
  cases callOf? slab x with
  | none => rfl
  | some call => exact List.filter_append [call] _

theorem callsFor_cons_of_ne (h : ∀ call, callOf? slab x = some call → call.nonce? ≠ some n) :
    callsFor slab n (x :: history) = callsFor slab n history := by
  rw [callsFor_cons, List.filter_eq_nil_iff.2, List.nil_append]
  intro call hcall
  simpa using h call (Option.mem_toList.1 hcall)

theorem callsFor_cons_of_eq (h : callOf? slab x = some call) (hnonce : call.nonce? = some n) :
    callsFor slab n (x :: history) = call :: callsFor slab n history := by
  rw [callsFor_cons, h]
  simp [hnonce]

/-! ### One step -/

section Step

variable [NodeHash Node] [LeafHash Node Pubkey] [ProgramAddress Pubkey] {L L' : Ledger Node Pubkey}
  {l l' : Life Node Pubkey} {s : LeafSchema Node Pubkey}

omit [DecidableEq Pubkey] [NodeHash Node] [LeafHash Node Pubkey] [ProgramAddress Pubkey] in
/-- The column `compressed` for a stage.  It is set again by a burn. -/
def compressedColumn : Life Node Pubkey → Bool
  | .live _ => true
  | .redeemed _ => false
  | .burned => true
  | .decompressed => false

omit [NodeHash Node] in
/-- The call for a move has the schema that is on record after it.  For a decompression there is
none. -/
theorem callsFor_move (history : List (Executed Node Pubkey)) (h : Life.Move slab n x l l')
    (hs : l.schema? = some s) (hnonce : s.nonce = n) :
    (l' = .decompressed ∧ compressedColumn l = false ∧
      callsFor slab n (x :: history) = callsFor slab n history) ∨
    ∃ event, callsFor slab n (x :: history) =
      .replaceLeaf event (l'.schema?.getD s).toEvent (compressedColumn l') ::
        callsFor slab n history := by
  cases h with
  | transfer | delegate | burn | redeem =>
    cases hs
    refine .inr ⟨_, callsFor_cons_of_eq (callOf?_eq_some_iff.2 ⟨rfl, rfl⟩) rfl⟩
  | cancelRedeem =>
    cases hs
    refine .inr ⟨_, callsFor_cons_of_eq (callOf?_eq_some_iff.2 ⟨rfl, rfl⟩) (congrArg some hnonce)⟩
  | decompressV1 =>
    refine .inl ⟨rfl, rfl, callsFor_cons_of_ne fun call hcall => ?_⟩
    exact absurd (callOf?_eq_some_iff.1 hcall).1 (by simp [Instruction.tree?])

omit [DecidableEq Pubkey] [NodeHash Node] in
/-- A move keeps what is fixed at the mint. -/
theorem fixed_of_move (h : Life.Move slab n x l l') (hs : l.schema? = some s) (hnonce : s.nonce = n)
    (hid : s.id = getAssetId slab n) :
    (l'.schema?.getD s).nonce = n ∧ (l'.schema?.getD s).id = getAssetId slab n ∧
      (l'.schema?.getD s).dataHash = s.dataHash ∧
      (l'.schema?.getD s).creatorHash = s.creatorHash := by
  cases h <;> cases hs <;> exact ⟨hnonce, hid, rfl, rfl⟩

/-- The schema of an asset has its nonce and its address. -/
theorem named [DecidableEq Node] [Build] {st : State Node Pubkey} (hrep : st.Represents L)
    (hl : L.life slab n.toNat = some l) (hs : l.schema? = some s) :
    s.nonce = n ∧ s.id = getAssetId slab n := by
  obtain ⟨lives, hlives, hget⟩ := Option.bind_eq_some_iff.1 hl
  have hview := hrep.view slab
  rw [hlives] at hview
  obtain ⟨tree, hshows⟩ := hview
  obtain ⟨hnonce, hid⟩ := hshows.named n.toNat l s hget hs
  obtain rfl := UInt64.toNat_inj.1 hnonce
  exact ⟨rfl, hid⟩

/-- An instruction with a call for an asset is about it. -/
theorem about_of_nonce? [DecidableEq Node] [Build] {st : State Node Pubkey}
    (hrep : st.Represents L) (hstep : L.Step x L') (hof : callOf? slab x = some call)
    (hnonce : call.nonce? = some n) : About slab n x := by
  obtain ⟨hname, hcall⟩ := callOf?_eq_some_iff.1 hof
  cases hstep with
  | createTree =>
    obtain rfl := Option.some.inj hcall
    cases hnonce
  | mintV1 _ _ hschema =>
    obtain rfl := Option.some.inj hcall
    obtain rfl := Option.some.inj hname
    subst hschema
    obtain rfl := Option.some.inj hnonce
    exact .inl rfl
  | @move _ slab₁ nonce l l' hlife hmove =>
    refine .inr ?_
    cases hmove with
    | transfer | delegate | burn | redeem =>
      obtain rfl := Option.some.inj hname
      obtain rfl := Option.some.inj hcall
      obtain rfl := Option.some.inj hnonce
      exact ⟨rfl, rfl⟩
    | cancelRedeem =>
      obtain rfl := Option.some.inj hname
      obtain rfl := Option.some.inj hcall
      -- the voucher holds the nonce
      obtain ⟨hn, -⟩ := named hrep hlife rfl
      obtain rfl : nonce = n := hn.symm.trans (Option.some.inj hnonce)
      exact rfl
    | decompressV1 => cases hname
  | compress => cases hname

omit [NodeHash Node] in
/-- The call for a mint has its metadata. -/
theorem callsFor_mint (history : List (Executed Node Pubkey)) (h : Minting slab n x s)
    (hstep : L.Step x L') :
    s.nonce = n ∧ s.id = getAssetId slab n ∧ ∃ message event,
      s.dataHash = LeafHash.hashMetadata message ∧
      s.creatorHash = LeafHash.hashCreators (message.creators.map fun c => (c.address, c.share)) ∧
      callsFor slab n (x :: history) =
        .mint event ⟨.V1, message, n⟩ s.toEvent :: callsFor slab n history := by
  cases h with
  | @mintV1 signers mintAuthority owner delegate message dataHash creatorHash event =>
    refine ⟨rfl, rfl, message, event, ?_⟩
    cases hstep with
    | mintV1 _ _ hschema =>
      simp only [LeafSchema.newV0, LeafSchema.mk.injEq] at hschema
      obtain ⟨-, -, -, -, hdata, hcreators⟩ := hschema
      exact ⟨hdata, hcreators, callsFor_cons_of_eq (callOf?_eq_some_iff.2 ⟨rfl, rfl⟩) rfl⟩
    | move _ _ _ hmove => cases hmove

end Step

/-! ### Runs -/

section Runs

variable [NodeHash Node] [LeafHash Node Pubkey] [ProgramAddress Pubkey] [DecidableEq Node] [Build]
  {st : State Node Pubkey} {l l' : Life Node Pubkey} {s : LeafSchema Node Pubkey}
  {message : MetadataArgs Pubkey}

/-- What the calls of a run say of an asset in a stage: the newest one has the schema on record,
and the metadata are those that the schema has the hash of. -/
structure Recorded (slab : Pubkey) (n : UInt64) (history : List (Executed Node Pubkey))
    (l : Life Node Pubkey) (s : LeafSchema Node Pubkey) (message : MetadataArgs Pubkey) : Prop where
  record : OnRecord slab n history s
  schema_eq : l.schema?.getD s = s
  nonce_eq : s.nonce = n
  id_eq : s.id = getAssetId slab n
  dataHash_eq : s.dataHash = LeafHash.hashMetadata message
  creatorHash_eq : s.creatorHash =
    LeafHash.hashCreators (message.creators.map fun c => (c.address, c.share))
  newest : ∃ call, (callsFor slab n history).head? = some call ∧
    call.leafSchema? = some s.toEvent ∧ call.compressed? = some (compressedColumn l)
  mints : (callsFor slab n history).filterMap IngestCall.metadata? = [message]

variable [CollisionFree Node] [NonzeroHash Node] [CollisionFreeLeaf Node Pubkey]
  [InjectiveAddress Pubkey] {L L' : Ledger Node Pubkey}

omit [CollisionFree Node] [NonzeroHash Node] [InjectiveAddress Pubkey] in
theorem Recorded.of_not_about (h : Recorded slab n history l s message)
    (hreach : Reachable (x :: history) st) (hrep : st.Represents L)
    (hl : L.life slab n.toNat = some l)
    (hcalls : callsFor slab n (x :: history) = callsFor slab n history) :
    Recorded slab n (x :: history) l s message := by
  have hrecord := h.record.step hreach hrep hl
  rw [h.schema_eq] at hrecord
  exact ⟨hrecord, h.schema_eq, h.nonce_eq, h.id_eq, h.dataHash_eq, h.creatorHash_eq,
    hcalls ▸ h.newest, hcalls ▸ h.mints⟩

omit [CollisionFree Node] [NonzeroHash Node] [InjectiveAddress Pubkey] in
theorem Recorded.move (h : Recorded slab n history l s message)
    (hreach : Reachable (x :: history) st) (hrep : st.Represents L)
    (hl : L.life slab n.toNat = some l') (hmove : Life.Move slab n x l l') :
    Recorded slab n (x :: history) l' (l'.schema?.getD s) message := by
  have hs : l.schema? = some s := by
    obtain ⟨s', hs'⟩ := Option.isSome_iff_exists.1 hmove.schema?_isSome
    rw [hs', ← h.schema_eq, hs']
    rfl
  obtain ⟨hnonce, hid, hdata, hcreators⟩ := fixed_of_move hmove hs h.nonce_eq h.id_eq
  have hschema : l'.schema?.getD (l'.schema?.getD s) = l'.schema?.getD s := by
    cases l'.schema? <;> rfl
  refine ⟨h.record.step hreach hrep hl, hschema, hnonce, hid, hdata.trans h.dataHash_eq,
    hcreators.trans h.creatorHash_eq, ?_, ?_⟩
  · rcases callsFor_move history hmove hs h.nonce_eq with
      ⟨rfl, hcompressed, hcalls⟩ | ⟨event, hcalls⟩
    · have hnewest := h.newest
      rw [hcompressed] at hnewest
      rw [hcalls]
      exact hnewest
    · rw [hcalls]
      exact ⟨_, rfl, rfl, rfl⟩
  · rcases callsFor_move history hmove hs h.nonce_eq with ⟨-, -, hcalls⟩ | ⟨event, hcalls⟩
    · rw [hcalls, h.mints]
    · rw [hcalls, ← h.mints]
      rfl

/-- In a run the calls for every asset say what has become of it, and there are none before its
mint. -/
theorem exists_recorded (h : Reachable history st) :
    ∃ L : Ledger Node Pubkey, st.Represents L ∧ L.Records history ∧ ∀ slab n,
      match L.life slab n.toNat with
      | none => callsFor slab n history = []
      | some l => ∃ s message, Recorded slab n history l s message := by
  induction h with
  | refl => exact ⟨_, represents_empty, Ledger.records_none, fun _ _ => rfl⟩
  | @step history st st' x hreach hx ih =>
    obtain ⟨L, hrep, hrecords, hlives⟩ := ih
    obtain ⟨L', hstep, hrep'⟩ := hrep.step hx
    refine ⟨L', hrep', hstep.records hrecords, fun slab n => ?_⟩
    have hbefore := hlives slab n
    rcases step_cases hstep slab n with ⟨hlife, habout, -⟩ | ⟨s, hnone, hl', hmint⟩ |
      ⟨l, l', hl, hl', hmove⟩
    · -- another asset
      have hcalls : callsFor slab n (x :: history) = callsFor slab n history :=
        callsFor_cons_of_ne fun call hcall hnonce =>
          habout (about_of_nonce? hrep hstep hcall hnonce)
      rw [hlife]
      cases hl : L.life slab n.toNat with
      | none =>
        rw [hl] at hbefore
        exact hcalls.trans hbefore
      | some l =>
        rw [hl] at hbefore hlife
        obtain ⟨s, message, hrecorded⟩ := hbefore
        exact ⟨s, message, hrecorded.of_not_about (.step hreach hx) hrep' hlife hcalls⟩
    · -- its mint
      rw [hnone] at hbefore
      obtain ⟨hnonce, hid, message, event, hdata, hcreators, hcalls⟩ :=
        callsFor_mint history hmint hstep
      rw [hbefore] at hcalls
      rw [hl']
      refine ⟨s, message, .holds (.step hreach hx) (hrep'.holds_iff.2 ⟨_, hl', rfl⟩), rfl, hnonce,
        hid, hdata, hcreators, ?_, ?_⟩
      · rw [hcalls]
        exact ⟨_, rfl, rfl, rfl⟩
      · rw [hcalls]
        rfl
    · rw [hl] at hbefore
      obtain ⟨s, message, hrecorded⟩ := hbefore
      rw [hl']
      exact ⟨_, message, hrecorded.move (.step hreach hx) hrep' hl' hmove⟩

/-- What is on record was called for. -/
theorem callsFor_ne_nil {s : LeafSchema Node Pubkey} (h : OnRecord slab n history s) :
    callsFor slab n history ≠ [] := by
  induction h with
  | holds hreach hs =>
    obtain ⟨L, hrep, -, hlives⟩ := exists_recorded hreach
    obtain ⟨l, hl, -⟩ := hrep.holds_iff.1 hs
    have hlife := hlives slab n
    rw [hl] at hlife
    obtain ⟨s, metadata, hrecorded⟩ := hlife
    obtain ⟨call, hhead, -⟩ := hrecorded.newest
    exact List.ne_nil_of_mem (List.mem_of_mem_head? hhead)
  | left _ _ _ ih =>
    rw [callsFor_cons]
    exact List.append_ne_nil_of_right_ne_nil _ ih

/-- The newest call for an asset has the schema that is on record. -/
theorem exists_recorded_of_head? (h : Reachable history st)
    (hhead : (callsFor slab n history).head? = some call) :
    ∃ L l s metadata, st.Represents L ∧ L.Records history ∧ L.life slab n.toNat = some l ∧
      Recorded slab n history l s metadata ∧ call.leafSchema? = some s.toEvent ∧
      call.compressed? = some (compressedColumn l) := by
  obtain ⟨L, hrep, hrecords, hlives⟩ := exists_recorded h
  have hlife := hlives slab n
  cases hl : L.life slab n.toNat with
  | none =>
    rw [hl] at hlife
    rw [hlife] at hhead
    cases hhead
  | some l =>
    rw [hl] at hlife
    obtain ⟨s, metadata, hrecorded⟩ := hlife
    obtain ⟨call', hhead', hschema, hcompressed⟩ := hrecorded.newest
    obtain rfl := Option.some.inj (hhead.symm.trans hhead')
    exact ⟨L, l, s, metadata, hrep, hrecords, hl, hrecorded, hschema, hcompressed⟩

/-- A leaf that is not empty is the one on record. -/
theorem leaf_of_record (h : Reachable history st) (hrecord : OnRecord slab n history s)
    {leaf : Node} (hleaf : st.leaf slab n.toNat = some leaf) (hne : leaf ≠ EMPTY) : leaf = s.toNode := by
  obtain ⟨call, calls, hcalls⟩ := List.exists_cons_of_ne_nil (callsFor_ne_nil hrecord)
  have hhead : (callsFor slab n history).head? = some call := by rw [hcalls, List.head?_cons]
  obtain ⟨L, l, s', metadata, hrep, -, hl, hrecorded, -⟩ := exists_recorded_of_head? h hhead
  obtain rfl := hrecord.unique hrecorded.record
  obtain rfl := Option.some.inj ((hrep.leaf_of_life hl).symm.trans hleaf)
  have hschema := hrecorded.schema_eq
  cases l with
  | live s' => exact congrArg LeafSchema.toNode hschema
  | redeemed | burned | decompressed => exact absurd rfl hne

/-- The call for a mint is about the asset that was minted. -/
theorem of_mint_call (h : Reachable history st) (hx : x ∈ history)
    {changeLog : ChangeLogEvent Node Pubkey} {newLeafData : NewNFTEvent Pubkey}
    {leafSchema : LeafSchemaEvent Node Pubkey}
    (hcall : x.ingestCall? = some (.mint changeLog newLeafData leafSchema)) :
    ∃ slab mintAuthority owner delegate,
      x.instruction = .mintV1 slab mintAuthority owner delegate newLeafData.metadata ∧
      minted? x = some (slab, leafSchema.schema.nonce) ∧
      leafSchema.schema.id = getAssetId slab leafSchema.schema.nonce := by
  induction h with
  | refl => cases hx
  | step hreach htakes ih =>
    rcases List.mem_cons.1 hx with rfl | hx
    · obtain ⟨L, hrep, -⟩ := Reachable.ledger hreach
      obtain ⟨L', hstep, -⟩ := hrep.step htakes
      cases hstep with
      | createTree => cases hcall
      | mintV1 _ _ hschema =>
        cases hcall
        subst hschema
        exact ⟨_, _, _, _, rfl, rfl, rfl⟩
      | move _ _ _ hmove => cases hmove <;> cases hcall
      | compress => cases hcall
    · exact ih hx

/-- What is on record was minted, with metadata that it has the hash of. -/
theorem exists_mint_of_record (h : Reachable history st) {s : LeafSchema Node Pubkey}
    (hrecord : OnRecord slab n history s) :
    ∃ x ∈ history, Mints slab n x ∧ ∃ mintAuthority owner delegate message,
      x.instruction = .mintV1 slab mintAuthority owner delegate message ∧
      s.dataHash = LeafHash.hashMetadata message := by
  obtain ⟨L, -, -, hlives⟩ := exists_recorded h
  have hlife := hlives slab n
  cases hl : L.life slab n.toNat with
  | none =>
    rw [hl] at hlife
    exact absurd hlife (callsFor_ne_nil hrecord)
  | some l =>
    rw [hl] at hlife
    obtain ⟨s', message, hrecorded⟩ := hlife
    obtain rfl := hrecord.unique hrecorded.record
    have hmem : message ∈ (callsFor slab n history).filterMap IngestCall.metadata? := by
      rw [hrecorded.mints]
      exact List.mem_singleton.2 rfl
    obtain ⟨call, hcall, hmetadata⟩ := List.mem_filterMap.1 hmem
    obtain ⟨hcallsOf, hnonce⟩ := mem_callsFor.1 hcall
    obtain ⟨x, hx, hname, hingest⟩ := mem_callsOf.1 hcallsOf
    cases call with
    | createTree | replaceLeaf => cases hmetadata
    | mint changeLog newLeafData leafSchema =>
      obtain rfl := Option.some.inj hmetadata
      obtain rfl := Option.some.inj hnonce
      obtain ⟨slab', mintAuthority, owner, delegate, hins, hminted, -⟩ :=
        of_mint_call h hx hingest
      rw [hins] at hname
      obtain rfl := Option.some.inj hname
      exact ⟨x, hx, hminted, mintAuthority, owner, delegate, newLeafData.metadata, hins,
        hrecorded.dataHash_eq⟩

/-! ### Numbers -/

omit [CollisionFreeLeaf Node Pubkey] [InjectiveAddress Pubkey] [Build] [LeafHash Node Pubkey]
  [ProgramAddress Pubkey] [DecidableEq Node] [CollisionFree Node] [NonzeroHash Node]
  [DecidableEq Pubkey] in
theorem history_pairwise (D : ℕ) (id : Pubkey) (ws : List (ℕ × Node)) :
    (Gummyroll.history D id ws).Pairwise fun event event' => event'.seq < event.seq := by
  induction ws with
  | nil => exact List.pairwise_singleton _ _
  | cons w ws ih =>
    refine List.pairwise_cons.2 ⟨fun event hevent => ?_, ih⟩
    obtain ⟨ws', hws', rfl⟩ := Gummyroll.mem_history.1 hevent
    exact Nat.lt_succ_of_le hws'.length_le

/-- Every instruction that names a tree leads to a call. -/
theorem exists_call (h : Reachable history st) (hx : x ∈ history)
    (hname : x.instruction.tree? = some slab) :
    ∃ call, x.ingestCall? = some call ∧ changeLogs x.events = [call.changeLog] := by
  induction h with
  | refl => cases hx
  | step hreach hstep ih =>
    rcases List.mem_cons.1 hx with rfl | hx
    · obtain ⟨L, hrep, -⟩ := Reachable.ledger hreach
      obtain ⟨call, hcall, hevents, -⟩ := hstep.ingestCall hrep hname
      exact ⟨call, hcall, hevents⟩
    · exact ih hx

/-- The calls for a tree are about its events. -/
theorem map_changeLog_callsOf (h : Reachable history st) (slab : Pubkey) :
    (callsOf slab history).map IngestCall.changeLog =
      ((st.trees slab).map fun tree => tree.slab.events).getD [] := by
  rw [h.tree_events, callsOf, List.map_filterMap]
  have hcalls : ∀ x ∈ history, x.instruction.tree? = some slab →
      ∃ call, x.ingestCall? = some call ∧ changeLogs x.events = [call.changeLog] :=
    fun x hx hname => exists_call h hx hname
  clear h
  induction history with
  | nil => rfl
  | cons x history ih =>
    have htail := ih fun y hy => hcalls y (List.mem_cons_of_mem _ hy)
    rw [List.filterMap_cons, List.filter_cons]
    by_cases hname : x.instruction.tree? = some slab
    · obtain ⟨call, hcall, hevents⟩ := hcalls x List.mem_cons_self hname
      have hof : callOf? slab x = some call := callOf?_eq_some_iff.2 ⟨hname, hcall⟩
      simp [hof, hname, hevents, htail]
    · have hof : callOf? slab x = none := if_neg hname
      simp [hof, hname, htail]

/-- The numbers order the calls for a tree as the chain does. -/
theorem callsOf_pairwise (h : Reachable history st) {tree : Tree Node Pubkey}
    (htree : st.trees slab = some tree) (hlogged : tree.Logged slab) :
    (callsOf slab history).Pairwise fun call call' => call'.changeLog.seq < call.changeLog.seq := by
  have hmap := map_changeLog_callsOf h slab
  rw [htree] at hmap
  have hevents : ((callsOf slab history).map IngestCall.changeLog).Pairwise
      fun event event' => event'.seq < event.seq := by
    rw [hmap]
    show tree.slab.events.Pairwise _
    rw [hlogged.events_eq]
    exact history_pairwise _ _ _
  exact List.pairwise_map.1 hevents

end Runs

section Order

omit [DecidableEq Pubkey] in
/-- Calls with numbers of their own. -/
theorem call_unique {calls : List (IngestCall Node Pubkey)}
    (h : calls.Pairwise fun call call' => call'.changeLog.seq < call.changeLog.seq)
    {call' : IngestCall Node Pubkey} (hcall : call ∈ calls) (hcall' : call' ∈ calls)
    (hseq : call.changeLog.seq = call'.changeLog.seq) : call = call' := by
  refine List.inj_on_of_nodup_map (f := fun call => call.changeLog.seq) ?_ hcall hcall' hseq
  exact List.pairwise_map.2 (h.imp fun hlt => hlt.ne')

/-- The newest call for an asset has the largest number. -/
theorem seq_le_of_head?
    (h : (callsOf slab history).Pairwise fun call call' => call'.changeLog.seq < call.changeLog.seq)
    (hhead : (callsFor slab n history).head? = some call)
    {call' : IngestCall Node Pubkey} (hcall' : call' ∈ callsFor slab n history) :
    call'.changeLog.seq ≤ call.changeLog.seq := by
  obtain ⟨tail, htail⟩ := List.head?_eq_some_iff.1 hhead
  have hsorted := h.filter fun call => call.nonce? = some n
  rw [← callsFor, htail] at hsorted
  rw [htail] at hcall'
  rcases List.mem_cons.1 hcall' with rfl | hcall'
  · exact le_rfl
  · exact (List.rel_of_pairwise_cons hsorted hcall').le

end Order

end Candyland.Sdk.Indexer
