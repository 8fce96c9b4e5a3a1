import Candyland.NftIngester.Replica
import Candyland.Sdk.Indexer.ArrivalOrder
import Candyland.Sdk.Indexer.Calls

/-!
# The rows of a tree

What the tables hold for a tree when some of its events were ingested, in any order: the rows of
nodes are those of the paths that the events list, and the row of a leaf is that of its last
ingested event.
-/

namespace Candyland.Sdk.Indexer

open Bubblegum (Executed LeafHash State Tree)
open ConcurrentMerkleTree (NodeHash CollisionFree NonzeroHash EMPTY hashv treeAfter)
open Gummyroll (Build eventAfter lastPosition)
open MerkleTree (number numbered)
open NftIngester (OnPath)

variable {Node Pubkey : Type}

/-- An event of a tree with a number was delivered. -/
def Ingested (deliveries : List (Delivery Node Pubkey)) (tree : Pubkey) (seq : ℕ) : Prop :=
  ∃ d ∈ deliveries, d.call.changeLog.id = tree ∧ d.call.changeLog.seq = seq

/-- The delivery of an executed instruction. -/
def deliveryOf (slot : ℕ) (txId : String) (x : Executed Node Pubkey) :
    Option (Delivery Node Pubkey) :=
  match x.ingestCall? with
  | some call => if h : call.changeLog.path ≠ [] then some ⟨call, slot, txId, h⟩ else none
  | none => none

theorem call_of_deliveryOf {slot : ℕ} {txId : String} {x : Executed Node Pubkey}
    {d : Delivery Node Pubkey} (h : deliveryOf slot txId x = some d) :
    x.ingestCall? = some d.call := by
  rw [deliveryOf] at h
  split at h
  · rename_i call hcall
    split_ifs at h
    rw [hcall, ← Option.some.inj h]
  · cases h

/-- What is delivered for a tree are events of instructions that name it. -/
def FromHistory (deliveries : List (Delivery Node Pubkey)) (tree : Pubkey)
    (history : List (Executed Node Pubkey)) : Prop :=
  ∀ d ∈ deliveries, d.call.changeLog.id = tree →
    ∃ x ∈ history, x.instruction.tree? = some tree ∧ x.ingestCall? = some d.call

variable [NodeHash Node]

/-- The tables hold the events of the writes `ws` to a tree whose numbers satisfy `held`. -/
structure Holds (db : NFTDatabaseConnection Node Pubkey) (D : ℕ) (tree : Pubkey)
    (ws : List (ℕ × Node)) (held : ℕ → Prop) : Prop where
  nodup_merkle : (db.merkle.map MerkleRow.key).Nodup
  nodup_leafSchema : (db.leafSchema.map LeafSchemaRow.key).Nodup
  of_mem_merkle : ∀ row ∈ db.merkle, row.treeId = tree →
    ∃ ws', ws' <:+ ws ∧ ws' ≠ [] ∧ held ws'.length ∧ OnPath D (lastPosition ws') row.nodeIdx ∧
      row.seq = ws'.length ∧ row.level = D - row.nodeIdx.log2 ∧
      row.hash = numbered hashv D (treeAfter ws') row.nodeIdx
  mem_merkle : ∀ ws', ws' <:+ ws → ws' ≠ [] → held ws'.length →
    ∀ n, OnPath D (lastPosition ws') n → ∃ row ∈ db.merkle, row.key = (tree, ws'.length, n)
  of_mem_leafSchema : ∀ row ∈ db.leafSchema, row.treeId = tree →
    ∃ ws', ws' <:+ ws ∧ ws' ≠ [] ∧ held ws'.length ∧ row.nonce = lastPosition ws' ∧
      row.seq = ws'.length ∧ row.leafHash = treeAfter ws' (lastPosition ws') ∧
      ∀ ws'', ws'' <:+ ws → ws'' ≠ [] → held ws''.length → lastPosition ws'' = lastPosition ws' →
        ws''.length ≤ ws'.length
  mem_leafSchema : ∀ ws', ws' <:+ ws → ws' ≠ [] → held ws'.length →
    ∃ row ∈ db.leafSchema, row.key = (tree, lastPosition ws')

section Event

variable {D : ℕ} {ws : List (ℕ × Node)} {d : Delivery Node Pubkey} {tree : Pubkey}

omit [NodeHash Node] in
theorem lastPosition_lt {ws' : List (ℕ × Node)} (hbound : ∀ w ∈ ws, w.1 < 2 ^ D)
    (hws : ws' <:+ ws) : lastPosition ws' < 2 ^ D := by
  cases ws' with
  | nil => exact Nat.two_pow_pos D
  | cons w ws' => exact hbound w (hws.subset List.mem_cons_self)

theorem onPath_iff {j n : ℕ} (hj : j < 2 ^ D) :
    OnPath D j n ↔ ∃ l ≤ D, n = number D j l := by
  constructor
  · rintro ⟨hpos, hlog, hunder⟩
    exact ⟨D - n.log2, Nat.sub_le _ _, ((MerkleTree.under_iff hpos hlog).1 hunder).symm⟩
  · rintro ⟨l, hl, rfl⟩
    refine ⟨MerkleTree.number_pos D j l, ?_, (MerkleTree.under_number hj hl j).2 rfl⟩
    rw [MerkleTree.number_log2 hj hl]
    exact Nat.sub_le _ _

/-- The rows that `updateChangeLogs` inserts for the event of a write. -/
theorem merkleRows_eventAfter (hD : D < 31) (hlast : lastPosition ws < 2 ^ D) (txId : String)
    (slot : ℕ) : NFTDatabaseConnection.merkleRows (eventAfter D tree ws) txId slot tree =
      (List.range (D + 1)).map fun l =>
        ⟨txId, slot, tree, number D (lastPosition ws) l, ws.length, l,
          MerkleTree.node hashv (treeAfter ws) l (lastPosition ws / 2 ^ l)⟩ := by
  refine List.ext_getElem (by simp [NFTDatabaseConnection.merkleRows, eventAfter]) ?_
  intro l hl hl'
  have hlD : l ≤ D := by
    simp only [List.length_map, List.length_range] at hl'
    omega
  have hpow := Nat.pow_le_pow_right (n := 2) (by norm_num) (show D + 1 ≤ 31 by omega)
  have hindex : (UInt32.ofNat (number D (lastPosition ws) l)).toNat =
      number D (lastPosition ws) l := by
    have hnumber := MerkleTree.number_lt hlast hlD
    exact UInt32.toNat_ofNat'.trans (Nat.mod_eq_of_lt (by omega))
  simp [NFTDatabaseConnection.merkleRows, eventAfter, hindex]

omit [NodeHash Node] in
/-- The row of a leaf for the event of a write; with such a row the call does not throw. -/
theorem leafRow_eq {leafSchema : Bubblegum.LeafSchemaEvent Node Pubkey}
    (hschema : d.call.leafSchema? = some leafSchema) :
    (∃ compressed, d.leafRow? = d.leafRowOf leafSchema compressed) ∧
      d.succeeds = d.leafRow?.isSome := by
  rw [Delivery.succeeds, Delivery.leafRow?]
  cases hcall : d.call with
  | createTree changeLog =>
    rw [hcall] at hschema
    cases hschema
  | mint changeLog newLeafData leafSchema' =>
    rw [hcall] at hschema
    cases hschema
    exact ⟨⟨true, rfl⟩, rfl⟩
  | replaceLeaf changeLog leafSchema' compressed =>
    rw [hcall] at hschema
    cases hschema
    exact ⟨⟨compressed, rfl⟩, rfl⟩

/-- The delivery is that of the write that comes last in `ws`. -/
structure Delivery.Writes (d : Delivery Node Pubkey) (D : ℕ) (tree : Pubkey)
    (ws : List (ℕ × Node)) : Prop where
  ne_nil : ws ≠ []
  event_eq : d.call.changeLog = eventAfter D tree ws
  succeeds : d.succeeds = true
  leafRow : ∃ row, d.leafRow? = some row ∧ row.treeId = tree ∧ row.nonce = lastPosition ws ∧
    row.seq = ws.length ∧ row.leafHash = treeAfter ws (lastPosition ws)

/-- The event of a write, with the nonce of the leaf. -/
theorem writes_of_event (hD : D < 31) (hlast : lastPosition ws < 2 ^ D) (hne : ws ≠ [])
    {leafSchema : Bubblegum.LeafSchemaEvent Node Pubkey}
    (hevent : d.call.changeLog = eventAfter D tree ws)
    (hschema : d.call.leafSchema? = some leafSchema)
    (hnonce : lastPosition ws = leafSchema.schema.nonce.toNat) : d.Writes D tree ws := by
  obtain ⟨⟨compressed, hrow⟩, hsucceeds⟩ := leafRow_eq hschema
  have hpow := Nat.pow_le_pow_right (n := 2) (by norm_num) hD.le
  have hnumber : toNumber leafSchema.schema.nonce.toNat = some (lastPosition ws) := by
    rw [toNumber, if_pos (by omega), hnonce]
  have hhead : (eventAfter D tree ws).path.head? =
      some ⟨treeAfter ws (lastPosition ws), UInt32.ofNat (number D (lastPosition ws) 0)⟩ := by
    simp [eventAfter, List.range_succ_eq_map]
  rw [Delivery.leafRowOf, hnumber, hevent, hhead] at hrow
  exact ⟨hne, hevent, hsucceeds.trans (by rw [hrow]; rfl), _, hrow, rfl, rfl, rfl, rfl⟩

/-- The rows of nodes for the event of a write. -/
theorem Delivery.Writes.mem_nodeRows_iff (h : d.Writes D tree ws) (hD : D < 31)
    (hlast : lastPosition ws < 2 ^ D) {row : MerkleRow Node Pubkey} :
    row ∈ d.nodeRows ↔ ∃ n, OnPath D (lastPosition ws) n ∧
      row = ⟨d.txId, d.slot, tree, n, ws.length, D - n.log2,
        numbered hashv D (treeAfter ws) n⟩ := by
  have hseq : d.call.changeLog.seq ≠ 0 := by
    rw [h.event_eq]
    simpa [eventAfter] using h.ne_nil
  have hid : d.call.changeLog.id = tree := by rw [h.event_eq, eventAfter]
  rw [Delivery.nodeRows, if_pos ⟨h.succeeds, hseq⟩, hid, h.event_eq,
    merkleRows_eventAfter hD hlast, List.mem_map]
  constructor
  · rintro ⟨l, hl, rfl⟩
    have hl : l ≤ D := Nat.lt_succ_iff.1 (List.mem_range.1 hl)
    refine ⟨number D (lastPosition ws) l, (onPath_iff hlast).2 ⟨l, hl, rfl⟩, ?_⟩
    rw [MerkleTree.number_log2 hlast hl, Nat.sub_sub_self hl,
      MerkleTree.numbered_number hashv hlast hl]
  · rintro ⟨n, hpath, rfl⟩
    obtain ⟨l, hl, rfl⟩ := (onPath_iff hlast).1 hpath
    refine ⟨l, List.mem_range.2 (Nat.lt_succ_of_le hl), ?_⟩
    rw [MerkleTree.number_log2 hlast hl, Nat.sub_sub_self hl,
      MerkleTree.numbered_number hashv hlast hl]

end Event

/-! ### The events of a run -/

section Run

variable [LeafHash Node Pubkey] [Bubblegum.ProgramAddress Pubkey] [DecidableEq Node]
  [DecidableEq Pubkey] [Build] [CollisionFree Node] [NonzeroHash Node]
  [Bubblegum.CollisionFreeLeaf Node Pubkey] [Bubblegum.InjectiveAddress Pubkey]
  [SystemProgramId Pubkey] {st : State Node Pubkey} {slab : Pubkey}
  {history : List (Executed Node Pubkey)} {deliveries : List (Delivery Node Pubkey)}

/-- After the ingestion of events of a run, the tables hold those of a tree. -/
theorem holds_ingestAll (h : Bubblegum.Reachable history st) {tree : Tree Node Pubkey}
    (htree : st.trees slab = some tree) (hlogged : tree.Logged slab)
    (hdeliveries : FromHistory deliveries slab history) :
    Holds (ingestAll deliveries) tree.depth slab tree.slab.writes
      (Ingested deliveries slab) := by
  -- what is delivered for the tree is the event of a write, or that of the creation
  have hcall : ∀ d ∈ deliveries, d.call.changeLog.id = slab → ∃ ws, ws <:+ tree.slab.writes ∧
      (d.Writes tree.depth slab ws ∨ d.call.changeLog.seq = 0 ∧ d.leafRow? = none) ∧
      d.call.changeLog.seq = ws.length := by
    intro d hd hid
    obtain ⟨x, hx, hname, hcall⟩ := hdeliveries d hd hid
    obtain ⟨ws, hws, hevent, hmatch⟩ := h.call_eq hx hname hcall htree hlogged
    refine ⟨ws, hws, ?_, by rw [hevent, eventAfter]⟩
    cases hschema : d.call.leafSchema? with
    | none =>
      rw [hschema] at hmatch
      refine .inr ⟨by rw [hevent, hmatch]; rfl, ?_⟩
      rw [Delivery.leafRow?]
      cases hcase : d.call with
      | createTree => rfl
      | mint => simp [hcase, IngestCall.leafSchema?] at hschema
      | replaceLeaf => simp [hcase, IngestCall.leafSchema?] at hschema
    | some s =>
      rw [hschema] at hmatch
      exact .inl (writes_of_event hlogged.depth_lt (lastPosition_lt hlogged.bound hws) hmatch.1
        hevent hschema hmatch.2)
  have hfind : ∀ ws, ws <:+ tree.slab.writes → ws ≠ [] → Ingested deliveries slab ws.length →
      ∃ d ∈ deliveries, d.Writes tree.depth slab ws := by
    rintro ws hws hne ⟨d, hd, hid, hseq⟩
    obtain ⟨ws', hws', hwrites | ⟨hzero, -⟩, hlen⟩ := hcall d hd hid
    · have hsuffix := List.suffix_of_suffix_length_le hws' hws (by omega)
      rw [hsuffix.eq_of_length (by omega)] at hwrites
      exact ⟨d, hd, hwrites⟩
    · exact absurd (List.length_eq_zero_iff.1 (hseq.symm.trans hzero)) hne
  have hingested : ∀ d ∈ deliveries, ∀ ws, d.Writes tree.depth slab ws →
      Ingested deliveries slab ws.length := fun d hd ws hwrites =>
    ⟨d, hd, by rw [hwrites.event_eq, eventAfter], by rw [hwrites.event_eq, eventAfter]⟩
  refine ⟨nodup_merkle deliveries, nodup_leafSchema deliveries, ?_, ?_, ?_, ?_⟩
  · intro row hrow htreeId
    obtain ⟨d, hd, hrow⟩ := exists_of_mem_merkle hrow
    obtain ⟨hid, -⟩ := Delivery.of_mem_nodeRows hrow
    obtain ⟨ws, hws, hwrites | ⟨hzero, -⟩, -⟩ := hcall d hd (hid.symm.trans htreeId)
    · obtain ⟨n, hpath, rfl⟩ := (hwrites.mem_nodeRows_iff hlogged.depth_lt
        (lastPosition_lt hlogged.bound hws)).1 hrow
      exact ⟨ws, hws, hwrites.ne_nil, hingested d hd ws hwrites, hpath, rfl, rfl, rfl⟩
    · simp [Delivery.nodeRows, hzero] at hrow
  · intro ws hws hne hheld n hpath
    obtain ⟨d, hd, hwrites⟩ := hfind ws hws hne hheld
    exact exists_mem_merkle hd ((hwrites.mem_nodeRows_iff hlogged.depth_lt
      (lastPosition_lt hlogged.bound hws)).2 ⟨n, hpath, rfl⟩)
  · intro row hrow htreeId
    obtain ⟨d, hd, row₁, hrow₁, hcolumns, hmax⟩ := exists_of_mem_leafSchema hrow
    obtain ⟨hid, hnonce', hseq', hhash'⟩ := LeafSchemaRow.of_columns_eq hcolumns
    obtain ⟨hid₁, -⟩ := Delivery.of_leafRow hrow₁
    obtain ⟨ws, hws, hwrites | ⟨-, hnone⟩, -⟩ := hcall d hd (by rw [← hid₁, ← hid, htreeId])
    · obtain ⟨row₂, hrow₂, htree₂, hnonce, hseq, hhash⟩ := hwrites.leafRow
      obtain rfl := Option.some.inj (hrow₁.symm.trans hrow₂)
      refine ⟨ws, hws, hwrites.ne_nil, hingested d hd ws hwrites, hnonce'.trans hnonce,
        hseq'.trans hseq, hhash'.trans hhash, ?_⟩
      intro ws' hws' hne' hheld' hlast
      obtain ⟨d', hd', hwrites'⟩ := hfind ws' hws' hne' hheld'
      obtain ⟨row', hrow', htree', hnonce₁, hseq₁, -⟩ := hwrites'.leafRow
      have hkey : row'.key = row.key := by
        rw [LeafSchemaRow.key, LeafSchemaRow.key, htree', htreeId, hnonce₁, hlast, hnonce', hnonce]
      rw [← hseq₁, ← hseq, ← hseq']
      exact hmax d' hd' row' hrow' hkey
    · rw [hrow₁] at hnone
      cases hnone
  · intro ws hws hne hheld
    obtain ⟨d, hd, hwrites⟩ := hfind ws hws hne hheld
    obtain ⟨row, hrow, htreeId, hnonce, -⟩ := hwrites.leafRow
    obtain ⟨row', hrow', hkey⟩ := exists_mem_leafSchema hd hrow
    exact ⟨row', hrow', by rw [hkey, LeafSchemaRow.key, htreeId, hnonce]⟩

end Run

section Leaf

variable {db : NFTDatabaseConnection Node Pubkey} {D i : ℕ} {tree : Pubkey} {ws : List (ℕ × Node)}
  {held : ℕ → Prop}

/-- A leaf that is not empty was written, and is what was written last. -/
theorem exists_last_write (h : treeAfter ws i ≠ EMPTY) :
    ∃ ws', ws' <:+ ws ∧ ws' ≠ [] ∧ lastPosition ws' = i ∧ treeAfter ws' i = treeAfter ws i ∧
      ∀ ws'', ws'' <:+ ws → ws'' ≠ [] → lastPosition ws'' = i → ws''.length ≤ ws'.length := by
  induction ws with
  | nil => exact absurd rfl h
  | cons w ws ih =>
    by_cases hw : w.1 = i
    · exact ⟨w :: ws, List.suffix_rfl, by simp, hw, rfl, fun ws'' hws'' _ _ => hws''.length_le⟩
    · have hleaf : treeAfter (w :: ws) i = treeAfter ws i := Function.update_of_ne (Ne.symm hw) ..
      rw [hleaf] at h ⊢
      obtain ⟨ws', hws', hne, hlast, heq, hmax⟩ := ih h
      refine ⟨ws', hws'.trans (List.suffix_cons _ _), hne, hlast, heq, ?_⟩
      intro ws'' hws'' hne'' hlast''
      rcases List.suffix_cons_iff.1 hws'' with rfl | hws''
      · exact absurd hlast'' hw
      · exact hmax ws'' hws'' hne'' hlast''

end Leaf

end Candyland.Sdk.Indexer
