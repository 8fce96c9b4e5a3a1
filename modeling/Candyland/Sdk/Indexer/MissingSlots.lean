import Candyland.Sdk.Indexer.Fetching

/-!
# The slots of missing updates

`fillGapsTx` fetches only slots that hold transactions of the tree.  One cursor goes through the
gaps and one through the slots, and each slot is requested for a single gap: the first that does
not end before it.  A slot in which one gap ends may hold updates of the next gap as well.
-/

namespace Candyland.Sdk.Indexer

variable {Node Pubkey : Type}

/-! ### Gaps -/

/-- `GapTxInfo`. -/
structure GapTxInfo where
  prevSeq : ℕ
  currSeq : ℕ
  prevSlot : ℕ
  currSlot : ℕ
  prevTxId : String
  currTxId : String
deriving DecidableEq

/-- `BatchedGapRequest`. -/
structure BatchedGapRequest where
  slot : ℕ
  startSeq : ℕ
  endSeq : ℕ
deriving DecidableEq

/-- The loop of `getMissingDataWithTx`; two rows with one `seq` are an error. -/
def findGapsWithTx : List (ℕ × ℕ × String) → Option (List GapTxInfo)
  | (prevSeq, prevSlot, prevTxId) :: (currSeq, currSlot, currTxId) :: res =>
    if currSeq = prevSeq then none
    else do
      let gaps ← findGapsWithTx ((currSeq, currSlot, currTxId) :: res)
      if currSeq - prevSeq > 1 then
        some (⟨prevSeq, currSeq, prevSlot, currSlot, prevTxId, currTxId⟩ :: gaps)
      else some gaps
  | _ => some []

section Queries

variable [DecidableEq Pubkey] (self : NFTDatabaseConnection Node Pubkey)

/-- The query of `getMissingDataWithTx`. -/
def NFTDatabaseConnection.seqSlotTxs (minSeq : ℕ) (treeId : Pubkey) : List (ℕ × ℕ × String) :=
  Table.orderBy Prod.fst <| List.dedup <| (self.merkle.filter fun row =>
    decide (row.treeId = treeId) && decide (minSeq ≤ row.seq)).map fun row =>
      (row.seq, row.slot, row.transactionId)

/-- `getMissingDataWithTx(minSeq, treeId)`: the gaps, and the last `seq` with its slot. -/
def NFTDatabaseConnection.getMissingDataWithTx (minSeq : ℕ) (treeId : Pubkey) :
    Option (List GapTxInfo × Option (ℕ × ℕ)) := do
  let res := self.seqSlotTxs minSeq treeId
  let gaps ← findGapsWithTx res
  some (gaps, res.getLast?.map fun (seq, slot, _) => (seq, slot))

end Queries

/-! ### Slots -/

/-- The loop of `findMissingTxSlots`, with the slots and the gaps that the cursors have before
them. -/
def findMissingTxSlotsLoop : List ℕ → List GapTxInfo → List BatchedGapRequest
  | slot :: txSlots, currGap :: missingData =>
    if slot > currGap.currSlot then findMissingTxSlotsLoop (slot :: txSlots) missingData
    else if slot < currGap.prevSlot then findMissingTxSlotsLoop txSlots (currGap :: missingData)
    else ⟨slot, currGap.prevSeq, currGap.currSeq⟩ ::
      findMissingTxSlotsLoop txSlots (currGap :: missingData)
  | _, _ => []
termination_by txSlots missingData => txSlots.length + missingData.length

/-- `findMissingTxSlots(connection, treeId, missingData)`.  Without gaps it throws. -/
def findMissingTxSlots (getAllTreeSlots : String → String → Option (List ℕ))
    (missingData : List GapTxInfo) : Option (List BatchedGapRequest) := do
  let mostRecentGap ← missingData.getLast?
  let firstGap ← missingData.head?
  let txSlots ← getAllTreeSlots firstGap.prevTxId mostRecentGap.currTxId
  some (findMissingTxSlotsLoop txSlots missingData)

/-! ### What is requested -/

/-- A slot is requested for the first gap that does not end before it, unless that gap begins
behind it. -/
theorem mem_findMissingTxSlotsLoop {txSlots : List ℕ} (hsorted : txSlots.Pairwise (· < ·))
    {missingData : List GapTxInfo} {request : BatchedGapRequest} :
    request ∈ findMissingTxSlotsLoop txSlots missingData ↔
      request.slot ∈ txSlots ∧
        ∃ gap ∈ missingData.find? fun gap => decide (request.slot ≤ gap.currSlot),
          gap.prevSlot ≤ request.slot ∧ request.startSeq = gap.prevSeq ∧
            request.endSeq = gap.currSeq := by
  obtain ⟨t, startSeq, endSeq⟩ := request
  dsimp only
  fun_induction findMissingTxSlotsLoop txSlots missingData with
  | case1 slot txSlots currGap missingData hgt ih =>
    -- the gap ends before all slots that are left
    have hlater : ∀ t ∈ slot :: txSlots, ¬ t ≤ currGap.currSlot := by
      intro t ht
      rcases List.mem_cons.1 ht with rfl | ht
      · omega
      · have := List.rel_of_pairwise_cons hsorted ht
        omega
    rw [ih hsorted]
    refine and_congr_right fun ht => ?_
    rw [List.find?_cons_of_neg (by simpa using hlater t ht)]
  | case2 slot txSlots currGap missingData hle hlt ih =>
    rw [ih hsorted.of_cons, List.mem_cons]
    constructor
    · rintro ⟨ht, hgap⟩
      exact ⟨.inr ht, hgap⟩
    · rintro ⟨rfl | ht, hgap⟩
      · rw [List.find?_cons_of_pos (by simpa using hle)] at hgap
        obtain ⟨gap, hgap, hprev, -⟩ := hgap
        obtain rfl := Option.some.inj hgap
        omega
      · exact ⟨ht, hgap⟩
  | case3 slot txSlots currGap missingData hle hge ih =>
    rw [List.mem_cons, ih hsorted.of_cons, List.mem_cons]
    constructor
    · rintro (heq | ⟨ht, hgap⟩)
      · obtain ⟨rfl, rfl, rfl⟩ := BatchedGapRequest.mk.inj heq
        refine ⟨.inl rfl, currGap, ?_, by omega, rfl, rfl⟩
        rw [List.find?_cons_of_pos (by simpa using hle)]
        rfl
      · exact ⟨.inr ht, hgap⟩
    · rintro ⟨rfl | ht, hgap⟩
      · rw [List.find?_cons_of_pos (by simpa using hle)] at hgap
        obtain ⟨gap, hgap, -, rfl, rfl⟩ := hgap
        obtain rfl := Option.some.inj hgap
        exact .inl rfl
      · exact .inr ⟨ht, hgap⟩
  | case4 txSlots missingData hnone =>
    cases txSlots with
    | nil => simp
    | cons slot txSlots =>
      cases missingData with
      | nil => simp
      | cons currGap missingData => exact absurd rfl (hnone slot txSlots currGap missingData rfl)

/-! ### The gaps of a list -/

/-- A gap lies between two rows, and the gaps follow one another. -/
theorem findGapsWithTx_spec {res : List (ℕ × ℕ × String)} {gaps : List GapTxInfo}
    (hsorted : res.Pairwise fun a b => a.1 ≤ b.1) (h : findGapsWithTx res = some gaps) :
    (∀ gap ∈ gaps, (∃ prev ∈ res, gap.prevSeq = prev.1 ∧ gap.prevSlot = prev.2.1) ∧
      (∃ curr ∈ res, gap.currSeq = curr.1 ∧ gap.currSlot = curr.2.1) ∧
      gap.prevSeq ≤ gap.currSeq) ∧
    gaps.Pairwise fun gap gap' => gap.currSeq ≤ gap'.prevSeq := by
  induction res generalizing gaps with
  | nil => simp_all [findGapsWithTx]
  | cons a res ih =>
    cases res with
    | nil => simp_all [findGapsWithTx]
    | cons b res =>
      obtain ⟨prevSeq, prevSlot, prevTxId⟩ := a
      obtain ⟨currSeq, currSlot, currTxId⟩ := b
      have hle : prevSeq ≤ currSeq := List.rel_of_pairwise_cons hsorted List.mem_cons_self
      obtain ⟨rest, hrest⟩ :
          ∃ rest, findGapsWithTx ((currSeq, currSlot, currTxId) :: res) = some rest := by
        rw [findGapsWithTx] at h
        split_ifs at h <;> exact (Option.bind_eq_some_iff.1 h).imp fun _ hrest => hrest.1
      rw [findGapsWithTx, hrest] at h
      simp only [Option.bind_eq_bind, Option.bind_some] at h
      obtain ⟨hgaps, hpairwise⟩ := ih hsorted.of_cons hrest
      have hlift : ∀ gap ∈ rest,
          (∃ prev ∈ (prevSeq, prevSlot, prevTxId) :: (currSeq, currSlot, currTxId) :: res,
            gap.prevSeq = prev.1 ∧ gap.prevSlot = prev.2.1) ∧
          (∃ curr ∈ (prevSeq, prevSlot, prevTxId) :: (currSeq, currSlot, currTxId) :: res,
            gap.currSeq = curr.1 ∧ gap.currSlot = curr.2.1) ∧ gap.prevSeq ≤ gap.currSeq := by
        intro gap hgap
        obtain ⟨⟨prev, hprev, hp⟩, ⟨curr, hcurr, hc⟩, hlt⟩ := hgaps gap hgap
        exact ⟨⟨prev, List.mem_cons_of_mem _ hprev, hp⟩, ⟨curr, List.mem_cons_of_mem _ hcurr, hc⟩,
          hlt⟩
      split_ifs at h with heq hgap
      · obtain rfl := Option.some.inj h
        refine ⟨List.forall_mem_cons.2 ⟨?_, hlift⟩, List.pairwise_cons.2 ⟨?_, hpairwise⟩⟩
        · exact ⟨⟨_, List.mem_cons_self, rfl, rfl⟩,
            ⟨_, List.mem_cons_of_mem _ List.mem_cons_self, rfl, rfl⟩, hle⟩
        · -- a later gap begins at the second row or behind it
          intro gap hgap
          obtain ⟨⟨prev, hprev, hp, -⟩, -⟩ := hgaps gap hgap
          rw [hp]
          rcases List.mem_cons.1 hprev with rfl | hprev
          · exact le_rfl
          · exact List.rel_of_pairwise_cons hsorted.of_cons hprev
      · obtain rfl := Option.some.inj h
        exact ⟨hlift, hpairwise⟩

section Covers

variable [DecidableEq Pubkey] {db : NFTDatabaseConnection Node Pubkey} {minSeq : ℕ}
  {treeId : Pubkey} {missingData : List GapTxInfo} {last : Option (ℕ × ℕ)}

theorem mem_seqSlotTxs {p : ℕ × ℕ × String} : p ∈ db.seqSlotTxs minSeq treeId ↔
    ∃ row ∈ db.merkle, row.treeId = treeId ∧ minSeq ≤ row.seq ∧
      p = (row.seq, row.slot, row.transactionId) := by
  rw [NFTDatabaseConnection.seqSlotTxs, (Table.orderBy_perm _ _).mem_iff, List.mem_dedup,
    List.mem_map]
  simp only [List.mem_filter, Bool.and_eq_true, decide_eq_true_eq, and_assoc, eq_comm (b := p)]

/-- The slots at the ends of a gap are those of its numbers. -/
structure GapTxInfo.Within (gap : GapTxInfo) (slotOf : ℕ → ℕ) : Prop where
  prevSlot : gap.prevSlot = slotOf gap.prevSeq
  currSlot : gap.currSlot = slotOf gap.currSeq
  le : gap.prevSeq ≤ gap.currSeq

/-- What the query reports when each row has the slot of its number. -/
theorem getMissingDataWithTx_spec (h : db.getMissingDataWithTx minSeq treeId = some (missingData, last))
    {slotOf : ℕ → ℕ} (hrows : ∀ row ∈ db.merkle, row.treeId = treeId → row.slot = slotOf row.seq) :
    (∀ gap ∈ missingData, gap.Within slotOf) ∧
      missingData.Pairwise fun gap gap' => gap.currSeq ≤ gap'.prevSeq := by
  obtain ⟨gaps, hgaps, h⟩ := Option.bind_eq_some_iff.1 h
  obtain ⟨rfl, -⟩ := Prod.mk.inj (Option.some.inj h)
  obtain ⟨hends, hpairwise⟩ := findGapsWithTx_spec (Table.orderBy_pairwise _ _) hgaps
  have hslot : ∀ p ∈ db.seqSlotTxs minSeq treeId, p.2.1 = slotOf p.1 := by
    intro p hp
    obtain ⟨row, hrow, htree, -, rfl⟩ := mem_seqSlotTxs.1 hp
    exact hrows row hrow htree
  refine ⟨fun gap hgap => ?_, hpairwise⟩
  obtain ⟨⟨prev, hprev, hp, hps⟩, ⟨curr, hcurr, hc, hcs⟩, hle⟩ := hends gap hgap
  exact ⟨by rw [hp, hps, hslot prev hprev], by rw [hc, hcs, hslot curr hcurr], hle⟩

/-- An update with this number is missing. -/
def Missing (missingData : List GapTxInfo) (seq : ℕ) : Prop :=
  ∃ gap ∈ missingData, gap.prevSeq < seq ∧ seq < gap.currSeq

/-- Every missing update is requested in its slot. -/
def Requested (missingData : List GapTxInfo) (slotOf : ℕ → ℕ) (requests : List BatchedGapRequest) :
    Prop :=
  ∀ seq, Missing missingData seq →
    ∃ request ∈ requests, request.slot = slotOf seq ∧ request.startSeq < seq ∧ seq < request.endSeq

/-- The first gap that does not end before a slot of a missing update is not behind the gap of this
update. -/
theorem find_gap
    (hpairwise : missingData.Pairwise fun gap gap' => gap.currSeq ≤ gap'.prevSeq)
    {gap : GapTxInfo} {slot : ℕ}
    (hgap : gap ∈ missingData) (hle : slot ≤ gap.currSlot) :
    ∃ first ∈ missingData.find? fun gap => decide (slot ≤ gap.currSlot),
      slot ≤ first.currSlot ∧ (first = gap ∨ first.currSeq ≤ gap.prevSeq) := by
  obtain ⟨first, hfirst⟩ : ∃ first, missingData.find? (fun gap => decide (slot ≤ gap.currSlot)) =
      some first := by
    rw [← Option.isSome_iff_exists, List.find?_isSome]
    exact ⟨gap, hgap, decide_eq_true hle⟩
  obtain ⟨hp, before, behind, hsplit, hnone⟩ := List.find?_eq_some_iff_append.1 hfirst
  refine ⟨first, hfirst, of_decide_eq_true hp, ?_⟩
  rw [hsplit, List.mem_append, List.mem_cons] at hgap
  rcases hgap with hgap | rfl | hgap
  · exact absurd hle (by simpa using hnone gap hgap)
  · exact .inl rfl
  · rw [hsplit, List.pairwise_append, List.pairwise_cons] at hpairwise
    exact .inr (hpairwise.2.1.1 gap hgap)

/-- Every missing update is requested in its slot if and only if none was executed in the slot in
which an earlier gap ends. -/
theorem findMissingTxSlots_requested_iff {slotOf : ℕ → ℕ} (hmono : Monotone slotOf)
    (hrows : ∀ row ∈ db.merkle, row.treeId = treeId → row.slot = slotOf row.seq)
    (hmissing : db.getMissingDataWithTx minSeq treeId = some (missingData, last))
    (hne : missingData ≠ []) {getAllTreeSlots : String → String → Option (List ℕ)}
    {txSlots : List ℕ}
    (hslots : ∀ firstGap ∈ missingData.head?, ∀ mostRecentGap ∈ missingData.getLast?,
      getAllTreeSlots firstGap.prevTxId mostRecentGap.currTxId = some txSlots)
    (hsorted : txSlots.Pairwise (· < ·))
    (hall : ∀ seq, Missing missingData seq → slotOf seq ∈ txSlots) :
    (∃ requests, findMissingTxSlots getAllTreeSlots missingData = some requests ∧
      Requested missingData slotOf requests) ↔
    ∀ gap ∈ missingData, ∀ seq, gap.prevSeq < seq → seq < gap.currSeq →
      ∀ earlier ∈ missingData, earlier.currSeq ≤ gap.prevSeq → earlier.currSlot ≠ slotOf seq := by
  obtain ⟨hwithin, hpairwise⟩ := getMissingDataWithTx_spec hmissing hrows
  have hrequests : findMissingTxSlots getAllTreeSlots missingData =
      some (findMissingTxSlotsLoop txSlots missingData) := by
    obtain ⟨mostRecentGap, hlast⟩ := Option.isSome_iff_exists.1 (List.getLast?_isSome.2 hne)
    obtain ⟨firstGap, hhead⟩ := Option.isSome_iff_exists.1 (List.isSome_head?.2 hne)
    simp only [findMissingTxSlots, hlast, hhead, Option.bind_eq_bind, Option.bind_some,
      hslots firstGap hhead mostRecentGap hlast]
  simp only [hrequests, Option.some.injEq, exists_eq_left']
  constructor
  · intro hcovers gap hgap seq hprev hcurr earlier hearlier hle heq
    obtain ⟨request, hrequest, hslot, hstart, hend⟩ := hcovers seq ⟨gap, hgap, hprev, hcurr⟩
    obtain ⟨-, first, hfirst, -, -, hendSeq⟩ := (mem_findMissingTxSlotsLoop hsorted).1 hrequest
    rw [hslot] at hfirst
    -- the slot was requested for the earlier gap or one before it
    obtain ⟨first', hfirst', -, horder⟩ := find_gap hpairwise hearlier heq.ge
    obtain rfl := Option.some.inj (hfirst.symm.trans hfirst')
    have hearlierLe := (hwithin earlier hearlier).le
    rcases horder with rfl | horder <;> omega
  · rintro hcond seq ⟨gap, hgap, hprev, hcurr⟩
    have hgapWithin := hwithin gap hgap
    have hle : slotOf seq ≤ gap.currSlot := by
      rw [hgapWithin.currSlot]
      exact hmono hcurr.le
    obtain ⟨first, hfirst, hfirstLe, horder⟩ := find_gap hpairwise hgap hle
    obtain rfl : first = gap := by
      refine horder.resolve_right fun horder => ?_
      have hmem := List.mem_of_find?_eq_some hfirst
      refine hcond gap hgap seq hprev hcurr first hmem horder (le_antisymm ?_ hfirstLe)
      rw [(hwithin first hmem).currSlot]
      exact hmono (horder.trans hprev.le)
    refine ⟨⟨slotOf seq, first.prevSeq, first.currSeq⟩, ?_, rfl, hprev, hcurr⟩
    refine (mem_findMissingTxSlotsLoop hsorted).2
      ⟨hall seq ⟨first, hgap, hprev, hcurr⟩, first, hfirst, ?_, rfl, rfl⟩
    rw [hgapWithin.prevSlot]
    exact hmono hprev.le

end Covers

section Alternating

/-- Tables with the roots of the first, the third and the fifth update of a tree. -/
def oddUpdates (slotOf : ℕ → ℕ) : NFTDatabaseConnection ℕ ℕ where
  merkle := [⟨"a", slotOf 1, 0, 1, 1, 3, 0⟩, ⟨"c", slotOf 3, 0, 1, 3, 3, 0⟩,
    ⟨"e", slotOf 5, 0, 1, 5, 3, 0⟩]
  leafSchema := []
  nft := []

/-- The gaps in them. -/
def oddGaps (slotOf : ℕ → ℕ) : List GapTxInfo :=
  [⟨1, 3, slotOf 1, slotOf 3, "a", "c"⟩, ⟨3, 5, slotOf 3, slotOf 5, "c", "e"⟩]

theorem oddUpdates_rows (slotOf : ℕ → ℕ) :
    ∀ row ∈ (oddUpdates slotOf).merkle, row.treeId = 0 → row.slot = slotOf row.seq := by
  simp [oddUpdates]

/-- With an update in each slot everything is requested. -/
theorem findMissingTxSlots_one_per_slot :
    (oddUpdates id).getMissingDataWithTx 0 0 = some (oddGaps id, some (5, 5)) ∧
    ∃ requests, findMissingTxSlots (fun _ _ => some [2, 3, 4]) (oddGaps id) = some requests ∧
      Requested (oddGaps id) id requests := by
  have hmissing : (oddUpdates id).getMissingDataWithTx 0 0 = some (oddGaps id, some (5, 5)) := by
    decide
  refine ⟨hmissing, (findMissingTxSlots_requested_iff monotone_id (oddUpdates_rows id) hmissing
    (by decide) (fun _ _ _ _ => rfl) (by decide) ?_).2 ?_⟩
  · rintro seq ⟨gap, hgap, hprev, hcurr⟩
    simp only [oddGaps, List.mem_cons, List.not_mem_nil, or_false] at hgap
    rcases hgap with rfl | rfl <;> (simp_all; omega)
  · intro gap hgap seq hprev hcurr earlier hearlier hle heq
    simp only [oddGaps, List.mem_cons, List.not_mem_nil, or_false] at hgap hearlier
    rcases hgap with rfl | rfl <;> rcases hearlier with rfl | rfl <;> simp_all
    omega

/-- The second to the fourth update share a slot. -/
def sharedSlot (seq : ℕ) : ℕ := if seq ≤ 1 then 4 else if seq ≤ 4 then 5 else 6

/-- The slot is requested for the gap that ends in it, and the fourth update is not found. -/
theorem findMissingTxSlots_loses_update :
    (oddUpdates sharedSlot).getMissingDataWithTx 0 0 = some (oddGaps sharedSlot, some (5, 6)) ∧
    Missing (oddGaps sharedSlot) 4 ∧
    findMissingTxSlots (fun _ _ => some [5]) (oddGaps sharedSlot) = some [⟨5, 1, 3⟩] ∧
    ¬ Requested (oddGaps sharedSlot) sharedSlot [⟨5, 1, 3⟩] := by
  have hmissing : Missing (oddGaps sharedSlot) 4 :=
    ⟨⟨3, 5, 5, 6, "c", "e"⟩, by decide, by decide, by decide⟩
  refine ⟨by decide, hmissing, ?_, fun hrequested => ?_⟩
  · simp [findMissingTxSlots, findMissingTxSlotsLoop, oddGaps, sharedSlot]
  · obtain ⟨request, hrequest, -, -, hend⟩ := hrequested 4 hmissing
    rw [List.mem_singleton.1 hrequest] at hend
    exact absurd hend (by decide)

end Alternating

end Candyland.Sdk.Indexer
