import Candyland.GumballMachine.ConfigLines

/-!
# The sale

Which indices a machine hands out, over whole runs.  The index array is a pool whose prefix of
length `remaining` is not sold yet.  The supply is what `remaining` began with: the added
lines, or all items of a machine without lines.  An instruction that raises `remaining` after
the first sale puts sold indices back into the prefix.
-/

namespace Candyland.GumballMachine

open Gummyroll (Build)
open Shuffle (Draws)
open Machine

variable {Pubkey ε : Type}

/-- The number of items that are for sale once the indices are initialised. -/
def Machine.supply (machine : Machine Pubkey) : ℕ :=
  if machine.header.extensionLen = 0 then machine.header.maxItems.toNat
  else machine.header.totalItemsAdded.toNat

/-- The instruction raises `remaining` only before the first sale. -/
def Instruction.BeforeSale (machine : Machine Pubkey) (handed : List ℕ) :
    Instruction Pubkey ε → Prop
  | addConfigLines _ data => handed ≠ [] → data = []
  | initializeIndicesChunk _ => handed ≠ [] → machine.header.extensionLen ≠ 0
  | _ => True

section Run

variable [DecidableEq Pubkey] [Build]

/-- The machines that are reached by instructions that satisfy `P`, with the indices that were
handed out, the last one first. -/
inductive SaleRun (P : Machine Pubkey → List ℕ → Instruction Pubkey ε → Prop) :
    Machine Pubkey → List ℕ → Prop
  /-- The start. -/
  | init {header : GumballMachineHeader Pubkey} {configData : List UInt8}
      {machine : Machine Pubkey} (hlen : configData.length < 2 ^ 63)
      (h : Machine.initializeGumballMachine header configData =
        (.ok machine : Outcome ε (Machine Pubkey))) : SaleRun P machine []
  /-- A successful instruction. -/
  | step {machine machine' : Machine Pubkey} {handed : List ℕ} {ins : Instruction Pubkey ε}
      (hrun : SaleRun P machine handed) (hdata : ins.data.length < 2 ^ 63)
      (hP : P machine handed ins) (h : ins.exec machine = .ok machine') :
      SaleRun P machine' (ins.drawn machine ++ handed)

/-! ### The pool -/

/-- What holds in every run. -/
structure PoolInv (machine : Machine Pubkey) (handed : List ℕ) : Prop where
  first_le : machine.header.smallestUninitializedIndex ≤ machine.header.maxItems
  total_le : machine.header.totalItemsAdded.toNat ≤ machine.header.maxItems.toNat
  /-- The lines are either sold or not. -/
  count : machine.header.extensionLen ≠ 0 →
    machine.header.remaining.toNat + handed.length = machine.header.totalItemsAdded.toNat
  remaining_le : machine.header.remaining.toNat ≤ machine.supply
  /-- Nothing is sold before all indices are initialised. -/
  unsold : machine.header.smallestUninitializedIndex ≠ machine.header.maxItems → handed = []
  fresh : machine.header.smallestUninitializedIndex ≠ machine.header.maxItems →
    ∀ i < machine.header.smallestUninitializedIndex.toNat, machine.order[i]? = some i
  perm : machine.header.smallestUninitializedIndex = machine.header.maxItems →
    machine.order.Perm (List.range machine.header.maxItems.toNat)
  /-- Draws do not reach the places from the supply on. -/
  place : machine.header.smallestUninitializedIndex = machine.header.maxItems →
    ∀ i, machine.supply ≤ i → i < machine.header.maxItems.toNat → machine.order[i]? = some i

/-- The sold indices stand between `remaining` and the supply. -/
structure Aligned (machine : Machine Pubkey) (handed : List ℕ) : Prop where
  count : machine.header.smallestUninitializedIndex = machine.header.maxItems →
    machine.header.remaining.toNat + handed.length = machine.supply
  drop_eq : machine.header.smallestUninitializedIndex = machine.header.maxItems →
    machine.order.drop machine.header.remaining.toNat = handed ++ machine.order.drop machine.supply

variable {machine machine' : Machine Pubkey} {handed drawn : List ℕ}

omit [DecidableEq Pubkey] [Build] in
/-- Before the first sale everything is left. -/
theorem Aligned.of_unsold (h : machine.header.remaining.toNat = machine.supply) :
    Aligned machine [] where
  count _ := h
  drop_eq _ := by rw [h, List.nil_append]

/-! ### Initialising the indices -/

omit [DecidableEq Pubkey] [Build] in
theorem Machine.Chunked.order_eq (h : Chunked machine machine') :
    machine'.order = machine.order.mapIdx fun i k =>
      if machine.header.smallestUninitializedIndex.toNat ≤ i ∧
        i < machine'.header.smallestUninitializedIndex.toNat then i else k := by
  rw [order, order, h.indices_eq]
  ext1 i
  simp only [List.getElem?_map, List.getElem?_mapIdx, Option.map_map]
  congr 1
  ext1 idx
  simp only [Function.comp_apply]
  split_ifs with hi
  · have hnext := machine'.header.smallestUninitializedIndex.toNat_lt
    simp only [UInt32.toNat_ofNat']
    exact Nat.mod_eq_of_lt (by omega)
  · rfl

omit [DecidableEq Pubkey] [Build] in
/-- Nothing is initialised twice. -/
theorem Machine.Chunked.order_eq_of_initialized (h : Chunked machine machine')
    (heq : machine.header.smallestUninitializedIndex = machine.header.maxItems) :
    machine'.order = machine.order := by
  have hnext := UInt32.le_iff_toNat_le.1 h.next_le
  rw [h.order_eq, heq]
  ext1 i
  rw [List.getElem?_mapIdx]
  simp [show ¬ (machine.header.maxItems.toNat ≤ i ∧
    i < machine'.header.smallestUninitializedIndex.toNat) by omega]

omit [DecidableEq Pubkey] [Build] in
theorem Machine.Chunked.length_order (h : Chunked machine machine') :
    machine'.order.length = machine.header.maxItems.toNat := by
  rw [h.order_eq, List.length_mapIdx, order, List.length_map, length_indices h.room]

omit [DecidableEq Pubkey] [Build] in
theorem Machine.Chunked.initialized (h : Chunked machine machine')
    (heq : machine.header.smallestUninitializedIndex = machine.header.maxItems) :
    machine'.header.smallestUninitializedIndex = machine.header.maxItems :=
  UInt32.le_antisymm h.next_le (heq ▸ h.first_le)

namespace PoolInv

omit [DecidableEq Pubkey] [Build] in
/-- The initialised places hold their numbers. -/
theorem fresh_chunked (h : PoolInv machine handed) (hchunk : Chunked machine machine')
    (hne : machine.header.smallestUninitializedIndex ≠ machine.header.maxItems) {i : ℕ}
    (hi : i < machine'.header.smallestUninitializedIndex.toNat) : machine'.order[i]? = some i := by
  have hnext := UInt32.le_iff_toNat_le.1 hchunk.next_le
  obtain ⟨k, hk⟩ : ∃ k, machine.order[i]? = some k := by
    refine ⟨_, List.getElem?_eq_getElem ?_⟩
    rw [order, List.length_map, length_indices hchunk.room]
    omega
  rw [hchunk.order_eq, List.getElem?_mapIdx, hk]
  rcases Nat.lt_or_ge i machine.header.smallestUninitializedIndex.toNat with hlt | hge
  · rw [h.fresh hne i hlt] at hk
    simp [Option.some.inj hk]
  · simp [hge, hi]

omit [DecidableEq Pubkey] [Build] in
theorem chunked (h : PoolInv machine handed) (hchunk : Chunked machine machine') :
    PoolInv machine' handed := by
  have hmax : machine'.header.maxItems = machine.header.maxItems := by rw [hchunk.header_eq]
  have hext : machine'.header.extensionLen = machine.header.extensionLen := by
    rw [hchunk.header_eq]
  have htotal : machine'.header.totalItemsAdded = machine.header.totalItemsAdded := by
    rw [hchunk.header_eq]
  have hremaining : machine'.header.remaining = if machine.header.extensionLen = 0 then
      machine.header.maxItems else machine.header.remaining := by rw [hchunk.header_eq]
  have hsupply : machine'.supply = machine.supply := by rw [supply, supply, hext, hmax, htotal]
  -- the last chunk makes the array the identity
  have hrange : machine.header.smallestUninitializedIndex ≠ machine.header.maxItems →
      machine'.header.smallestUninitializedIndex = machine.header.maxItems →
      machine'.order = List.range machine.header.maxItems.toNat := by
    intro hne heq
    refine List.ext_getElem? fun i => ?_
    rcases Nat.lt_or_ge i machine.header.maxItems.toNat with hlt | hge
    · rw [h.fresh_chunked hchunk hne (by rwa [heq]), List.getElem?_range hlt]
    · rw [List.getElem?_eq_none (hchunk.length_order.trans_le hge),
        List.getElem?_eq_none (by simpa using hge)]
  constructor
  case first_le => rw [hmax]; exact hchunk.next_le
  case total_le => rw [htotal, hmax]; exact h.total_le
  case count =>
    rw [hext, hremaining, htotal]
    intro hne
    rw [if_neg hne]
    exact h.count hne
  case remaining_le =>
    rw [hremaining, hsupply]
    split_ifs with hzero
    · rw [supply, if_pos hzero]
    · exact h.remaining_le
  case unsold =>
    rw [hmax]
    intro hne
    exact h.unsold fun heq => hne (hchunk.initialized heq)
  case fresh =>
    rw [hmax]
    intro hne i hi
    exact h.fresh_chunked hchunk (fun heq => hne (hchunk.initialized heq)) hi
  case perm =>
    rw [hmax]
    intro heq
    by_cases hinit : machine.header.smallestUninitializedIndex = machine.header.maxItems
    · rw [hchunk.order_eq_of_initialized hinit]
      exact h.perm hinit
    · rw [hrange hinit heq]
  case place =>
    rw [hmax, hsupply]
    intro heq i hsupply hi
    by_cases hinit : machine.header.smallestUninitializedIndex = machine.header.maxItems
    · rw [hchunk.order_eq_of_initialized hinit]
      exact h.place hinit i hsupply hi
    · rw [hrange hinit heq, List.getElem?_range hi]

/-! ### Lines and draws -/

omit [DecidableEq Pubkey] [Build] in
/-- An instruction that changes nothing of the pool. -/
theorem congr (h : PoolInv machine handed) (hmax : machine'.header.maxItems = machine.header.maxItems)
    (hext : machine'.header.extensionLen = machine.header.extensionLen)
    (htotal : machine'.header.totalItemsAdded = machine.header.totalItemsAdded)
    (hremaining : machine'.header.remaining = machine.header.remaining)
    (hfirst : machine'.header.smallestUninitializedIndex =
      machine.header.smallestUninitializedIndex)
    (horder : machine'.order = machine.order) : PoolInv machine' handed := by
  have hsupply : machine'.supply = machine.supply := by rw [supply, supply, hext, hmax, htotal]
  constructor
  case first_le => rw [hfirst, hmax]; exact h.first_le
  case total_le => rw [htotal, hmax]; exact h.total_le
  case count => rw [hext, hremaining, htotal]; exact h.count
  case remaining_le => rw [hremaining, hsupply]; exact h.remaining_le
  case unsold => rw [hfirst, hmax]; exact h.unsold
  case fresh => rw [hfirst, hmax, horder]; exact h.fresh
  case perm => rw [hfirst, hmax, horder]; exact h.perm
  case place => rw [hfirst, hmax, horder, hsupply]; exact h.place

omit [DecidableEq Pubkey] [Build] in
/-- Added lines join the unsold ones. -/
theorem added (h : PoolInv machine handed) {data : List UInt8}
    (hadded : Added machine data machine') :
    PoolInv machine' handed ∧ machine'.order = machine.order ∧
      machine'.header.remaining.toNat = machine.header.remaining.toNat +
        data.length / machine.header.extensionLen.toNat := by
  obtain ⟨hline, -, hfits, ⟨hheader, -, -⟩, hindices⟩ := hadded
  have hext : machine.header.extensionLen ≠ 0 := by
    intro hzero
    exact hline (by rw [hzero]; rfl)
  have horder : machine'.order = machine.order := by
    rw [order, order, indices, indices, hindices]
  have hmax := machine.header.maxItems.toNat_lt
  have hcount := h.count hext
  generalize data.length / machine.header.extensionLen.toNat = n at hfits hheader ⊢
  have hn : n % 2 ^ 32 = n := Nat.mod_eq_of_lt (by omega)
  -- neither count wraps around
  have htotal : machine'.header.totalItemsAdded.toNat =
      machine.header.totalItemsAdded.toNat + n := by
    rw [hheader, addedHeader]
    simp only [UInt32.toNat_add, UInt32.toNat_ofNat', hn]
    exact Nat.mod_eq_of_lt (by omega)
  have hremaining : machine'.header.remaining.toNat = machine.header.remaining.toNat + n := by
    rw [hheader, addedHeader]
    simp only [UInt32.toNat_add, UInt32.toNat_ofNat', hn]
    exact Nat.mod_eq_of_lt (by omega)
  have hsupply : machine.supply = machine.header.totalItemsAdded.toNat := by
    rw [supply, if_neg hext]
  have hsupply' : machine'.supply = machine.supply + n := by
    rw [hsupply, ← htotal, supply, if_neg]
    rw [hheader]
    exact hext
  refine ⟨?_, horder, hremaining⟩
  constructor
  case first_le => rw [hheader]; exact h.first_le
  case total_le => rw [htotal, hheader]; exact hfits
  case count => rw [hremaining, htotal]; omega
  case remaining_le =>
    rw [hremaining, hsupply']
    exact Nat.add_le_add_right h.remaining_le n
  case unsold => rw [hheader]; exact h.unsold
  case fresh => rw [hheader, horder]; exact h.fresh
  case perm => rw [hheader, horder]; exact h.perm
  case place =>
    rw [hheader, horder, hsupply']
    intro hinit i hi
    exact h.place hinit i (by omega)

omit [DecidableEq Pubkey] [Build] in
theorem dispensed (h : PoolInv machine handed) (hdispensed : Dispensed machine drawn machine') :
    PoolInv machine' (drawn ++ handed) := by
  obtain ⟨hinit, hheader, -, -, hdraws⟩ := hdispensed
  have hcount := hdraws.count
  have hsupply : machine'.supply = machine.supply := by rw [supply, supply, hheader]
  constructor
  case first_le => rw [hheader]; exact h.first_le
  case total_le => rw [hheader]; exact h.total_le
  case count =>
    intro hext
    rw [hheader] at hext ⊢
    have hlines := h.count hext
    rw [List.length_append]
    simp only
    omega
  case remaining_le =>
    have hle := h.remaining_le
    rw [hsupply]
    omega
  case unsold => rw [hheader]; exact fun hne => absurd hinit.symm hne
  case fresh => rw [hheader]; exact fun hne => absurd hinit.symm hne
  case perm =>
    rw [hheader]
    intro heq
    exact hdraws.perm.trans (h.perm heq)
  case place =>
    rw [hsupply, hheader]
    intro heq i hi hlt
    rw [hdraws.getElem?_eq (h.remaining_le.trans hi)]
    exact h.place heq i hi hlt

omit [DecidableEq Pubkey] [Build] in
theorem nodup (h : PoolInv machine handed)
    (hinit : machine.header.smallestUninitializedIndex = machine.header.maxItems) :
    machine.order.Nodup := (h.perm hinit).nodup_iff.2 List.nodup_range

omit [DecidableEq Pubkey] [Build] in
/-- The unsold indices belong to the supply. -/
theorem lt_of_mem_take (h : PoolInv machine handed)
    (hinit : machine.header.smallestUninitializedIndex = machine.header.maxItems) {k : ℕ}
    (hk : k ∈ machine.order.take machine.header.remaining.toNat) : k < machine.supply := by
  obtain ⟨p, hp, hpk⟩ := List.mem_take_iff_getElem.1 hk
  have hmem : k ∈ machine.order := by
    rw [← hpk]
    exact List.getElem_mem _
  have hlt : k < machine.header.maxItems.toNat := List.mem_range.1 ((h.perm hinit).subset hmem)
  by_contra hge
  -- otherwise it stands at its own place, behind the prefix
  obtain ⟨hlen, hplace⟩ := List.getElem?_eq_some_iff.1 (h.place hinit k (by omega) hlt)
  have heq : p = k := (h.nodup hinit).getElem_inj_iff.1 (hpk.trans hplace.symm)
  have hremaining := h.remaining_le
  omega

omit [DecidableEq Pubkey] [Build] in
/-- What is handed out belongs to the supply. -/
theorem lt_supply (h : PoolInv machine handed) (hdispensed : Dispensed machine drawn machine')
    {k : ℕ} (hk : k ∈ drawn) : k < machine.supply :=
  h.lt_of_mem_take hdispensed.initialized.symm (hdispensed.draws.mem_take hk)

end PoolInv

/-! ### Runs -/

/-- What one instruction preserves. -/
theorem PoolInv.exec (h : PoolInv machine handed) {ins : Instruction Pubkey ε}
    (hdata : ins.data.length < 2 ^ 63) (hexec : ins.exec machine = .ok machine') :
    PoolInv machine' (ins.drawn machine ++ handed) := by
  cases ins with
  | initializeIndicesChunk authority => exact h.chunked (initializeIndicesChunk_ok hexec)
  | addConfigLines authority data => exact (h.added (addConfigLines_ok hdata hexec)).1
  | updateConfigLines authority startingLine data =>
    obtain ⟨hheader, hindices, -⟩ := updateConfigLines_frame hexec
    have horder : machine'.order = machine.order := by
      rw [order, order, indices, indices, hindices]
    refine h.congr ?_ ?_ ?_ ?_ ?_ horder <;> rw [hheader]
  | updateHeaderMetadata authority update =>
    obtain ⟨⟨⟩, -, hexec⟩ := Outcome.bind_eq_ok.1 hexec
    obtain rfl := Outcome.ok.inj hexec
    exact h.congr rfl rfl rfl rfl rfl rfl
  | dispense validTransaction unixTimestamp entropy mint numItems =>
    exact h.dispensed (Instruction.exec_dispense hexec)

omit [DecidableEq Pubkey] [Build] in
theorem PoolInv.remaining_eq (h : PoolInv machine []) (hext : machine.header.extensionLen ≠ 0) :
    machine.header.remaining.toNat = machine.supply := by
  rw [supply, if_neg hext]
  exact h.count hext

namespace Aligned

omit [DecidableEq Pubkey] [Build] in
theorem chunked (h : Aligned machine handed) (hinv : PoolInv machine handed)
    (hbefore : handed ≠ [] → machine.header.extensionLen ≠ 0)
    (hchunk : Chunked machine machine') : Aligned machine' handed := by
  have hinv' := hinv.chunked hchunk
  have hheader := hchunk.header_eq
  by_cases hhanded : handed = []
  · subst hhanded
    by_cases hext : machine.header.extensionLen = 0
    · refine .of_unsold ?_
      rw [supply, hheader]
      simp [hext]
    · refine .of_unsold (hinv'.remaining_eq ?_)
      rw [hheader]
      exact hext
  · have hext := hbefore hhanded
    have hinit : machine.header.smallestUninitializedIndex = machine.header.maxItems := by
      by_contra hne
      exact hhanded (hinv.unsold hne)
    rw [if_neg hext] at hheader
    constructor
    · intro _
      rw [supply, hheader]
      exact h.count hinit
    · intro _
      rw [supply, hheader, hchunk.order_eq_of_initialized hinit]
      exact h.drop_eq hinit

omit [DecidableEq Pubkey] [Build] in
theorem added (h : Aligned machine handed) (hinv : PoolInv machine handed) {data : List UInt8}
    (hbefore : handed ≠ [] → data = []) (hadded : Added machine data machine') :
    Aligned machine' handed := by
  obtain ⟨hinv', horder, hremaining⟩ := hinv.added hadded
  have hheader := hadded.made.header_eq
  have hext : machine'.header.extensionLen ≠ 0 := by
    intro hzero
    refine hadded.lineSize ?_
    rw [hheader] at hzero
    exact (congrArg UInt64.toNat hzero).trans rfl
  by_cases hhanded : handed = []
  · subst hhanded
    exact .of_unsold (hinv'.remaining_eq hext)
  · obtain rfl := hbefore hhanded
    rw [List.length_nil, Nat.zero_div] at hremaining hheader
    have htotal : machine'.header.totalItemsAdded = machine.header.totalItemsAdded := by
      rw [hheader, addedHeader]
      simp
    have hsupply : machine'.supply = machine.supply := by
      rw [supply, supply, htotal, hheader]
      rfl
    constructor
    · rw [hremaining, hsupply, hheader]
      exact h.count
    · rw [hremaining, hsupply, horder, hheader]
      exact h.drop_eq

end Aligned

/-- Instructions that raise `remaining` before the first sale only keep the sold indices
together. -/
theorem Aligned.exec (h : Aligned machine handed) (hinv : PoolInv machine handed)
    {ins : Instruction Pubkey ε} (hdata : ins.data.length < 2 ^ 63)
    (hbefore : ins.BeforeSale machine handed) (hexec : ins.exec machine = .ok machine') :
    Aligned machine' (ins.drawn machine ++ handed) := by
  cases ins with
  | initializeIndicesChunk authority =>
    exact h.chunked hinv hbefore (initializeIndicesChunk_ok hexec)
  | addConfigLines authority data =>
    exact h.added hinv hbefore (addConfigLines_ok hdata hexec)
  | updateConfigLines authority startingLine data =>
    obtain ⟨hheader, hindices, -⟩ := updateConfigLines_frame hexec
    have horder : machine'.order = machine.order := by
      rw [order, order, indices, indices, hindices]
    constructor
    · rw [hheader, supply, hheader]; exact h.count
    · rw [hheader, horder, supply, hheader]; exact h.drop_eq
  | updateHeaderMetadata authority update =>
    obtain ⟨⟨⟩, -, hexec⟩ := Outcome.bind_eq_ok.1 hexec
    obtain rfl := Outcome.ok.inj hexec
    exact ⟨h.count, h.drop_eq⟩
  | dispense validTransaction unixTimestamp entropy mint numItems =>
    have hdispensed := Instruction.exec_dispense hexec
    generalize Instruction.drawn machine _ = drawn at hdispensed ⊢
    obtain ⟨hinit, hheader, -, -, hdraws⟩ := hdispensed
    have hsupply : machine'.supply = machine.supply := by rw [supply, supply, hheader]
    have hcount := h.count hinit.symm
    constructor
    · intro _
      rw [hsupply, ← hcount, ← hdraws.count, List.length_append]
      omega
    · intro _
      rw [hdraws.drop_eq, h.drop_eq hinit.symm, hsupply, hdraws.drop_eq_of_le hinv.remaining_le,
        List.append_assoc]

omit [DecidableEq Pubkey] in
/-- The pool of a new machine. -/
theorem PoolInv.init {header : GumballMachineHeader Pubkey} {configData : List UInt8}
    (h : Machine.initializeGumballMachine header configData =
      (.ok machine : Outcome ε (Machine Pubkey))) :
    PoolInv machine [] ∧ Aligned machine [] := by
  obtain ⟨configSize, -, h⟩ := Outcome.bind_eq_ok.1 h
  obtain ⟨dataSize, -, h⟩ := Outcome.bind_eq_ok.1 h
  obtain ⟨⟨⟩, -, h⟩ := Outcome.bind_eq_ok.1 h
  obtain rfl := Outcome.ok.inj h
  -- the indices are initialised only if there are none
  have hempty : 0 = header.maxItems → header.maxItems.toNat = 0 := by
    intro heq
    rw [← heq]
    rfl
  constructor
  · constructor
    case first_le => exact UInt32.zero_le
    case total_le => exact Nat.zero_le _
    case count => exact fun _ => rfl
    case remaining_le => exact Nat.zero_le _
    case unsold => exact fun _ => rfl
    case fresh => exact fun _ i hi => absurd hi (Nat.not_lt_zero i)
    case perm =>
      intro heq
      simp [order, indices, indicesData, hempty heq, Bytes.toArray]
    case place =>
      intro heq i _ hi
      exact absurd ((hempty heq).symm ▸ hi) (Nat.not_lt_zero i)
  · constructor
    · intro heq
      simp [supply, hempty heq]
    · intro heq
      simp [supply, hempty heq]

variable {P : Machine Pubkey → List ℕ → Instruction Pubkey ε → Prop}

/-- The pool along every run. -/
theorem SaleRun.inv (h : SaleRun P machine handed) : PoolInv machine handed := by
  induction h with
  | init hlen h => exact (PoolInv.init h).1
  | step _ hdata _ h ih => exact ih.exec hdata h

theorem SaleRun.aligned
    (hP : ∀ machine handed ins, P machine handed ins → ins.BeforeSale machine handed)
    (h : SaleRun P machine handed) : Aligned machine handed := by
  induction h with
  | init hlen h => exact (PoolInv.init h).2
  | step hrun hdata hcond h ih => exact ih.exec hrun.inv hdata (hP _ _ _ hcond) h

/-- No index is handed out twice if `remaining` is not raised after the first sale. -/
theorem SaleRun.nodup
    (hP : ∀ machine handed ins, P machine handed ins → ins.BeforeSale machine handed)
    (h : SaleRun P machine handed) : handed.Nodup := by
  by_cases hinit : machine.header.smallestUninitializedIndex = machine.header.maxItems
  · have hdrop := (h.inv.nodup hinit).sublist (List.drop_sublist machine.header.remaining.toNat _)
    rw [(h.aligned hP).drop_eq hinit] at hdrop
    exact hdrop.sublist (List.sublist_append_left _ _)
  · rw [h.inv.unsold hinit]
    exact List.nodup_nil

/-- An instruction that raises `remaining` after the first sale makes the item that was sold
last available again. -/
theorem SaleRun.unsold_again {k : ℕ}
    (hP : ∀ machine handed ins, P machine handed ins → ins.BeforeSale machine handed)
    (hrun : SaleRun P machine (k :: handed)) {ins : Instruction Pubkey ε}
    (hdata : ins.data.length < 2 ^ 63) (hraise : ¬ ins.BeforeSale machine (k :: handed))
    (h : ins.exec machine = .ok machine') :
    k ∈ machine'.order.take machine'.header.remaining.toNat := by
  have hinit : machine.header.smallestUninitializedIndex = machine.header.maxItems := by
    by_contra hne
    exact absurd (hrun.inv.unsold hne) (List.cons_ne_nil _ _)
  have hcount := (hrun.aligned hP).count hinit
  rw [List.length_cons] at hcount
  have hlast : machine.order[machine.header.remaining.toNat]? = some k := by
    have hdrop := (hrun.aligned hP).drop_eq hinit
    rw [← Nat.add_zero machine.header.remaining.toNat, ← List.getElem?_drop, hdrop,
      List.cons_append, List.getElem?_cons_zero]
  suffices machine'.order = machine.order ∧
      machine.header.remaining.toNat < machine'.header.remaining.toNat by
    rw [this.1]
    refine List.mem_of_getElem? (i := machine.header.remaining.toNat) ?_
    rw [List.getElem?_take_of_lt this.2, hlast]
  cases ins with
  | initializeIndicesChunk authority =>
    have hext : machine.header.extensionLen = 0 := by simpa [Instruction.BeforeSale] using hraise
    have hchunk := initializeIndicesChunk_ok h
    refine ⟨hchunk.order_eq_of_initialized hinit, ?_⟩
    rw [supply, if_pos hext] at hcount
    rw [hchunk.header_eq]
    simp only [if_pos hext]
    omega
  | addConfigLines authority data =>
    rw [Instruction.data] at hdata
    have hne : data ≠ [] := by simpa [Instruction.BeforeSale] using hraise
    have hadded := addConfigLines_ok hdata h
    obtain ⟨-, horder, hremaining⟩ := hrun.inv.added hadded
    refine ⟨horder, ?_⟩
    -- at least one line
    have hpos : 0 < data.length / machine.header.extensionLen.toNat := by
      refine Nat.pos_of_ne_zero fun hzero => hne ?_
      have hwhole := hadded.whole
      rw [hzero, Nat.zero_mul] at hwhole
      exact List.eq_nil_of_length_eq_zero hwhole
    omega
  | updateConfigLines authority startingLine data => exact absurd trivial hraise
  | updateHeaderMetadata authority update => exact absurd trivial hraise
  | dispense validTransaction unixTimestamp entropy mint numItems => exact absurd trivial hraise

/-- A machine with config lines: what is left and what is sold are the added lines, a draw hands
out an added one, and none twice if no lines are added after the first sale. -/
theorem no_duplicate_mint (hrun : SaleRun P machine handed)
    (hext : machine.header.extensionLen ≠ 0) :
    machine.header.remaining.toNat + handed.length = machine.header.totalItemsAdded.toNat ∧
      (∀ (ins : Instruction Pubkey ε) machine', ins.exec machine = .ok machine' →
        ∀ i ∈ ins.drawn machine, i < machine.header.totalItemsAdded.toNat) ∧
      ((∀ machine handed ins, P machine handed ins → ins.BeforeSale machine handed) →
        handed.Nodup) := by
  refine ⟨hrun.inv.count hext, fun ins machine' hexec i hi => ?_, fun hP => hrun.nodup hP⟩
  cases ins with
  | dispense validTransaction unixTimestamp entropy mint numItems =>
    have hlt := hrun.inv.lt_supply (Instruction.exec_dispense hexec) hi
    rwa [supply, if_neg hext] at hlt
  | initializeIndicesChunk authority => simp [Instruction.drawn] at hi
  | addConfigLines authority data => simp [Instruction.drawn] at hi
  | updateConfigLines authority startingLine data => simp [Instruction.drawn] at hi
  | updateHeaderMetadata authority update => simp [Instruction.drawn] at hi

end Run

/-! ### Two items -/

/-- A machine with the indices that it handed out. -/
abbrev SaleState := Machine ℕ × List ℕ

/-- Executes an instruction; one that fails is undone. -/
def SaleState.step [Build] (st : SaleState) (ins : Instruction ℕ Unit) : SaleState :=
  match ins.exec st.1 with
  | .ok machine => (machine, ins.drawn st.1 ++ st.2)
  | _ => st

theorem SaleRun.step_state [Build] {P : Machine ℕ → List ℕ → Instruction ℕ Unit → Prop}
    {st : SaleState} (h : SaleRun P st.1 st.2) (ins : Instruction ℕ Unit)
    (hdata : ins.data.length < 2 ^ 63) (hP : P st.1 st.2 ins) :
    SaleRun P (st.step ins).1 (st.step ins).2 := by
  rw [SaleState.step]
  rcases hexec : ins.exec st.1 with machine | _ | _
  · exact h.step hdata hP hexec
  · exact h
  · exact h

/-- A machine for two items with lines of `L` bytes, after its initialisation. -/
def twoItems (L : UInt64) : SaleState :=
  (⟨{ threeLines with extensionLen := L, maxItems := 2 }, List.replicate (8 + 2 * L.toNat) 0⟩, [])

/-- Dispenses one item. -/
def dispenseOne : Instruction ℕ Unit := .dispense true 1 (fun _ => 0) (fun _ _ _ => .ok ()) 1

theorem saleRun_twoItems (P : Machine ℕ → List ℕ → Instruction ℕ Unit → Prop) {L : UInt64}
    (hL : L = 0 ∨ L = 1) : SaleRun P (twoItems L).1 (twoItems L).2 := by
  rcases hL with rfl | rfl
  · have hinit : Machine.initializeGumballMachine (twoItems 0).1.header (twoItems 0).1.configData =
        (.ok (twoItems 0).1 : Outcome Unit (Machine ℕ)) := by decide
    exact .init (by decide) hinit
  · have hinit : Machine.initializeGumballMachine (twoItems 1).1.header (twoItems 1).1.configData =
        (.ok (twoItems 1).1 : Outcome Unit (Machine ℕ)) := by decide
    exact .init (by decide) hinit

/-- Two lines, both sold. -/
theorem no_duplicate_mint_two :
    let st := ((((twoItems 1).step (.initializeIndicesChunk 1)).step
      (.addConfigLines 1 [7, 8])).step dispenseOne).step dispenseOne
    st.2 = [1, 0] ∧ st.2.Nodup := by
  intro st
  have hrun : SaleRun (ε := Unit) (fun machine handed ins => ins.BeforeSale machine handed)
      st.1 st.2 := by
    refine ((((saleRun_twoItems _ (.inr rfl)).step_state _ (by decide) ?_).step_state _
      (by decide) ?_).step_state _ (by decide) trivial).step_state _ (by decide) trivial
    · exact fun hne => absurd rfl hne
    · exact fun hne => absurd (by decide) hne
  exact ⟨by decide, (no_duplicate_mint hrun (by decide)).2.2 fun _ _ _ h => h⟩

/-- A line that is added after the first sale: the item that was sold is sold again. -/
theorem sold_twice :
    let st := (((((twoItems 1).step (.initializeIndicesChunk 1)).step
      (.addConfigLines 1 [7])).step dispenseOne).step (.addConfigLines 1 [8])).step dispenseOne
    SaleRun (fun _ _ (_ : Instruction ℕ Unit) => True) st.1 st.2 ∧
      st.1.header.extensionLen ≠ 0 ∧ st.2 = [0, 0] := by
  intro st
  refine ⟨?_, by decide, by decide⟩
  exact (((((saleRun_twoItems _ (.inr rfl)).step_state _ (by decide) trivial).step_state _
    (by decide) trivial).step_state _ (by decide) trivial).step_state _
    (by decide) trivial).step_state _ (by decide) trivial

section Cap

variable [DecidableEq Pubkey] [Build] {machine : Machine Pubkey} {handed : List ℕ}
  {P : Machine Pubkey → List ℕ → Instruction Pubkey ε → Prop}

/-- A machine without config lines: no index is handed out twice, and at most `max_items` of
them, if no chunk is initialised after the first sale. -/
theorem supply_cap
    (hP : ∀ machine handed ins, P machine handed ins → ins.BeforeSale machine handed)
    (hrun : SaleRun P machine handed) (hext : machine.header.extensionLen = 0) :
    handed.Nodup ∧ handed.length ≤ machine.header.maxItems.toNat := by
  refine ⟨hrun.nodup hP, ?_⟩
  by_cases hinit : machine.header.smallestUninitializedIndex = machine.header.maxItems
  · have hcount := (hrun.aligned hP).count hinit
    rw [supply, if_pos hext] at hcount
    omega
  · rw [hrun.inv.unsold hinit]
    exact Nat.zero_le _

end Cap

/-- Two items without lines, both sold. -/
theorem supply_cap_two :
    let st := (((twoItems 0).step (.initializeIndicesChunk 1)).step dispenseOne).step dispenseOne
    st.2 = [1, 0] ∧ st.2.Nodup ∧ st.2.length ≤ st.1.header.maxItems.toNat := by
  intro st
  have hrun : SaleRun (ε := Unit) (fun machine handed ins => ins.BeforeSale machine handed)
      st.1 st.2 := by
    refine (((saleRun_twoItems _ (.inl rfl)).step_state _ (by decide) ?_).step_state _
      (by decide) trivial).step_state _ (by decide) trivial
    exact fun hne => absurd rfl hne
  exact ⟨by decide, supply_cap (fun _ _ _ h => h) hrun (by decide)⟩

/-- A chunk after the sale of both items: a third one is sold. -/
theorem oversold :
    let st := (((((twoItems 0).step (.initializeIndicesChunk 1)).step dispenseOne).step
      dispenseOne).step (.initializeIndicesChunk 1)).step dispenseOne
    SaleRun (fun _ _ (_ : Instruction ℕ Unit) => True) st.1 st.2 ∧
      st.1.header.extensionLen = 0 ∧ st.1.header.maxItems = 2 ∧ st.2 = [1, 1, 0] := by
  intro st
  refine ⟨?_, by decide, by decide, by decide⟩
  exact (((((saleRun_twoItems _ (.inl rfl)).step_state _ (by decide) trivial).step_state _
    (by decide) trivial).step_state _ (by decide) trivial).step_state _
    (by decide) trivial).step_state _ (by decide) trivial

end Candyland.GumballMachine
