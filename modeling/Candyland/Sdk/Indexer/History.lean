import Mathlib

/-!
# The history of a tree

The backfiller reads the slots of a tree page by page, from the newest transaction to the oldest.
It goes on behind the last successful transaction of a page, which is there only if the page has
one, and it stops at a page that is not full.  An empty page makes it forget all the others.
-/

namespace Candyland.Sdk.Indexer

/-! ### The history -/

/-- `ConfirmedSignatureInfo`, as far as it is read. -/
structure SignatureInfo where
  signature : String
  slot : ℕ
  err : Bool
deriving DecidableEq

/-- The transactions of a tree, newest first. -/
structure TreeHistory where
  txs : List SignatureInfo
  nodup : (txs.map (·.signature)).Nodup
  slots : txs.Pairwise fun tx tx' => tx'.slot ≤ tx.slot
  signed : ∀ tx ∈ txs, tx.signature ≠ ""

/-- The transactions behind `after` and before `before`, as far as these are given. -/
def TreeHistory.between (self : TreeHistory) (after before : Option String) :
    List SignatureInfo :=
  let newer :=
    match after with
    | none => self.txs
    | some sig => self.txs.takeWhile (·.signature != sig)
  match before with
  | none => newer
  | some sig => (newer.dropWhile (·.signature != sig)).tail

/-- `connection.getSignaturesForAddress(address, { until, before })`. -/
abbrev SignatureQuery := Option String → Option String → List SignatureInfo

/-- The query answers with the newest transactions of the range, at most 1000 of them. -/
def TreeHistory.Serves (self : TreeHistory) (getSignatures : SignatureQuery) : Prop :=
  ∀ after before, getSignatures after before = (self.between after before).take 1000

/-! ### The loop -/

/-- `onlyUnique(value, index, self)`. -/
def onlyUnique (value index : ℕ) (self : List ℕ) : Bool := self.idxOf value == index

/-- `self.filter(onlyUnique)`. -/
def filterUnique (self : List ℕ) : List ℕ :=
  (self.zipIdx.filter fun (value, index) => onlyUnique value index self).map Prod.fst

/-- A string as a condition: the empty one is as good as none. -/
def given (sig : Option String) : Option String := sig.filter (· != "")

theorem given_some {sig : String} (h : sig ≠ "") : given (some sig) = some sig :=
  Option.filter_some_pos (bne_iff_ne.2 h)

/-- The loop of `getAllTreeSlots`.  The outer `none` is a run that needs more rounds, the inner one
an exception: the last of no signatures has no field. -/
def getAllTreeSlotsLoop (getSignatures : SignatureQuery) (afterSig : Option String) :
    ℕ → Option String → List ℕ → Option (Option (List ℕ))
  | 0, _, _ => none
  | fuel + 1, lastAddress, history =>
    let rawSigs := getSignatures (given afterSig) (given lastAddress)
    if rawSigs.length = 0 then some (some [])
    else
      let done := decide (rawSigs.length < 1000)
      let sigs := rawSigs.filter fun confirmedSig => !confirmedSig.err
      match sigs.getLast? with
      | none => some none
      | some last =>
        let history := history ++ sigs.map (·.slot)
        if done then some (some (filterUnique history.reverse))
        else getAllTreeSlotsLoop getSignatures afterSig fuel (some last.signature) history

/-- `getAllTreeSlots(connection, treeId, afterSig, untilSig)`. -/
def getAllTreeSlots (getSignatures : SignatureQuery) (fuel : ℕ) (afterSig untilSig : Option String) :
    Option (Option (List ℕ)) :=
  getAllTreeSlotsLoop getSignatures afterSig fuel untilSig []

/-! ### First occurrences -/

theorem mem_filterUnique {xs : List ℕ} {x : ℕ} : x ∈ filterUnique xs ↔ x ∈ xs := by
  simp only [filterUnique, List.mem_map, List.mem_filter, onlyUnique, beq_iff_eq, Prod.exists,
    exists_and_right, exists_eq_right]
  constructor
  · rintro ⟨i, hmem, -⟩
    exact List.fst_mem_of_mem_zipIdx hmem
  · intro hx
    refine ⟨xs.idxOf x, ?_, rfl⟩
    rw [List.mem_zipIdx_iff_getElem?]
    exact List.getElem?_idxOf hx

theorem filterUnique_sublist (xs : List ℕ) : (filterUnique xs).Sublist xs := by
  have h := (List.filter_sublist (p := fun x : ℕ × ℕ => onlyUnique x.1 x.2 xs)
    (l := xs.zipIdx)).map Prod.fst
  rwa [List.zipIdx_map_fst] at h

theorem filterUnique_nodup (xs : List ℕ) : (filterUnique xs).Nodup := by
  have hnodup : xs.zipIdx.Nodup := by
    have hindex : (xs.zipIdx.map Prod.snd).Nodup := by
      rw [List.zipIdx_map_snd]
      exact List.nodup_range'
    exact hindex.of_map
  refine (hnodup.filter _).map_on ?_
  rintro ⟨x, i⟩ hi ⟨y, j⟩ hj heq
  obtain rfl : x = y := heq
  have hi := (List.mem_filter.1 hi).2
  have hj := (List.mem_filter.1 hj).2
  simp only [onlyUnique, beq_iff_eq] at hi hj
  rw [← hi, ← hj]

/-- In an ascending list only the repetitions go. -/
theorem filterUnique_pairwise {xs : List ℕ} (h : xs.Pairwise (· ≤ ·)) :
    (filterUnique xs).Pairwise (· < ·) := by
  have hle := h.sublist (filterUnique_sublist xs)
  exact (hle.and (filterUnique_nodup xs)).imp fun hab => lt_of_le_of_ne hab.1 hab.2

/-! ### Where the next page begins -/

namespace TreeHistory

variable (self : TreeHistory) (after : Option String)

theorem between_sublist (before : Option String) : (self.between after before).Sublist self.txs := by
  have hnewer : ∀ sig, (self.txs.takeWhile (·.signature != sig)).Sublist self.txs :=
    fun sig => List.takeWhile_sublist _
  cases after <;> cases before
  · exact .refl _
  · exact (List.tail_sublist _).trans (List.dropWhile_sublist _)
  · exact hnewer _
  · exact ((List.tail_sublist _).trans (List.dropWhile_sublist _)).trans (hnewer _)

/-- Behind a signature of the range is what follows it in the range. -/
theorem between_signature {before : Option String} {newer older : List SignatureInfo}
    {tx : SignatureInfo} (h : self.between after before = newer ++ tx :: older) :
    self.between after (some tx.signature) = older := by
  -- the range is the end of all that is newer than `after`
  obtain ⟨start, hstart⟩ : ∃ start, self.between after none = start ++ (newer ++ tx :: older) := by
    rw [← h]
    cases before with
    | none => exact ⟨[], rfl⟩
    | some sig =>
      exact ((List.tail_suffix _).trans (List.dropWhile_suffix _)).imp fun _ heq => heq.symm
  have hnodup : ((start ++ (newer ++ tx :: older)).map (·.signature)).Nodup := by
    rw [← hstart]
    exact self.nodup.sublist ((self.between_sublist after none).map _)
  have hdrop : ∀ tx' ∈ start ++ newer, (tx'.signature != tx.signature) = true := by
    intro tx' htx'
    rw [← List.append_assoc, List.map_append, List.nodup_append] at hnodup
    exact bne_iff_ne.2 (hnodup.2.2 _ (List.mem_map_of_mem htx') _ (by simp))
  have hbetween : self.between after (some tx.signature) =
      ((self.between after none).dropWhile (·.signature != tx.signature)).tail := rfl
  rw [hbetween, hstart, ← List.append_assoc, List.dropWhile_append_of_pos hdrop,
    List.dropWhile_cons_of_neg (by simp), List.tail_cons]

end TreeHistory

/-- The pages of the loop: each begins behind the last successful transaction of the one before,
all but the last have 1000 entries, and each has a successful one. -/
inductive Paged : List SignatureInfo → Prop
  | last {page : List SignatureInfo} (hlength : page.length < 1000)
      (hsuccess : ∃ tx ∈ page, tx.err = false) : Paged page
  | more {page failed rest : List SignatureInfo} {tx : SignatureInfo}
      (hlength : (page ++ tx :: failed).length = 1000) (hsuccess : tx.err = false)
      (hfailed : ∀ tx ∈ failed, tx.err = true) (hrest : Paged (failed ++ rest)) :
      Paged (page ++ tx :: failed ++ rest)

/-- The slots of the successful transactions. -/
def successSlots (txs : List SignatureInfo) : List ℕ :=
  (txs.filter fun tx => !tx.err).map (·.slot)

theorem successSlots_append (txs txs' : List SignatureInfo) :
    successSlots (txs ++ txs') = successSlots txs ++ successSlots txs' := by
  simp [successSlots]

theorem successSlots_of_failed {txs : List SignatureInfo} (h : ∀ tx ∈ txs, tx.err = true) :
    successSlots txs = [] := by
  rw [successSlots, List.filter_eq_nil_iff.2 (by simpa using h), List.map_nil]

theorem mem_successSlots {txs : List SignatureInfo} {slot : ℕ} :
    slot ∈ successSlots txs ↔ ∃ tx ∈ txs, tx.err = false ∧ tx.slot = slot := by
  simp [successSlots, and_assoc]

/-- Some transactions have a last successful one, or all have failed. -/
theorem failed_or_last_success (txs : List SignatureInfo) :
    (∀ tx ∈ txs, tx.err = true) ∨ ∃ page tx failed, txs = page ++ tx :: failed ∧ tx.err = false ∧
      ∀ tx ∈ failed, tx.err = true := by
  induction txs with
  | nil => exact .inl (by simp)
  | cons tx txs ih =>
    rcases ih with hfailed | ⟨page, last, failed, rfl, hsuccess, hfailed⟩
    · cases herr : tx.err with
      | true => exact .inl (List.forall_mem_cons.2 ⟨herr, hfailed⟩)
      | false => exact .inr ⟨[], tx, txs, rfl, herr, hfailed⟩
    · exact .inr ⟨tx :: page, last, failed, rfl, hsuccess, hfailed⟩

section Loop

variable {self : TreeHistory} {getSignatures : SignatureQuery} {afterSig lastAddress : Option String}
  {txs : List SignatureInfo} {history : List ℕ} {fuel : ℕ}

/-! ### One page -/

/-- Nothing is left: the loop returns no slots at all. -/
theorem getAllTreeSlotsLoop_nil (hserves : self.Serves getSignatures)
    (htxs : self.between (given afterSig) (given lastAddress) = []) :
    getAllTreeSlotsLoop getSignatures afterSig (fuel + 1) lastAddress history = some (some []) := by
  rw [getAllTreeSlotsLoop, hserves, htxs]
  rfl

/-- A page of failures: the loop throws. -/
theorem getAllTreeSlotsLoop_failed (hserves : self.Serves getSignatures)
    (htxs : self.between (given afterSig) (given lastAddress) = txs) (hne : txs ≠ [])
    (hfailed : ∀ tx ∈ txs.take 1000, tx.err = true) :
    getAllTreeSlotsLoop getSignatures afterSig (fuel + 1) lastAddress history = some none := by
  have hlength : (txs.take 1000).length ≠ 0 := by
    have := List.length_pos_iff.2 hne
    rw [List.length_take]
    omega
  have hsigs : (txs.take 1000).filter (fun tx => !tx.err) = [] :=
    List.filter_eq_nil_iff.2 (by simpa using hfailed)
  rw [getAllTreeSlotsLoop, hserves, htxs]
  dsimp only
  rw [if_neg hlength, hsigs]
  rfl

/-- A page with a success: the loop goes on behind the last of them if the page is full. -/
theorem getAllTreeSlotsLoop_page (hserves : self.Serves getSignatures)
    (htxs : self.between (given afterSig) (given lastAddress) = txs)
    {page failed : List SignatureInfo} {tx : SignatureInfo}
    (hpage : txs.take 1000 = page ++ tx :: failed) (hsuccess : tx.err = false)
    (hfailed : ∀ tx ∈ failed, tx.err = true) :
    getAllTreeSlotsLoop getSignatures afterSig (fuel + 1) lastAddress history =
      let history := history ++ successSlots (page ++ tx :: failed)
      if txs.length < 1000 then some (some (filterUnique history.reverse))
      else getAllTreeSlotsLoop getSignatures afterSig fuel (some tx.signature) history := by
  have hlength : (txs.take 1000).length ≠ 0 := by simp [hpage]
  have hnone : failed.filter (fun tx => !tx.err) = [] :=
    List.filter_eq_nil_iff.2 (by simpa using hfailed)
  have hsigs : (txs.take 1000).filter (fun tx => !tx.err) =
      page.filter (fun tx => !tx.err) ++ [tx] := by
    rw [hpage, List.filter_append, List.filter_cons_of_pos (by simp [hsuccess]), hnone]
  have hslots : (page.filter (fun tx => !tx.err) ++ [tx]).map (·.slot) =
      successSlots (page ++ tx :: failed) := by
    rw [← hsigs, hpage, successSlots]
  have hfull : (txs.take 1000).length < 1000 ↔ txs.length < 1000 := by
    rw [List.length_take]
    omega
  rw [getAllTreeSlotsLoop, hserves, htxs]
  dsimp only
  rw [if_neg hlength, hsigs, List.getLast?_concat]
  simp only [hslots, hfull, decide_eq_true_eq]

/-- What the next page is taken from. -/
theorem between_next {page failed : List SignatureInfo} {tx : SignatureInfo}
    (htxs : self.between (given afterSig) (given lastAddress) = txs)
    (hpage : txs.take 1000 = page ++ tx :: failed) :
    self.between (given afterSig) (given (some tx.signature)) = failed ++ txs.drop 1000 := by
  have hsplit : self.between (given afterSig) (given lastAddress) =
      page ++ tx :: (failed ++ txs.drop 1000) := by
    rw [htxs]
    calc txs = txs.take 1000 ++ txs.drop 1000 := (List.take_append_drop 1000 txs).symm
      _ = page ++ tx :: (failed ++ txs.drop 1000) := by rw [hpage]; simp
  have hmem : tx ∈ self.txs := by
    refine (self.between_sublist (given afterSig) (given lastAddress)).subset ?_
    rw [hsplit]
    simp
  rw [given_some (self.signed tx hmem)]
  exact self.between_signature _ hsplit

/-! ### All pages -/

/-- Along pages the loop collects all slots. -/
theorem getAllTreeSlotsLoop_paged (hserves : self.Serves getSignatures) (hpaged : Paged txs)
    (htxs : self.between (given afterSig) (given lastAddress) = txs) (hfuel : txs.length < fuel) :
    getAllTreeSlotsLoop getSignatures afterSig fuel lastAddress history =
      some (some (filterUnique (history ++ successSlots txs).reverse)) := by
  induction hpaged generalizing lastAddress history fuel with
  | @last txs hlength hsuccess =>
    obtain ⟨fuel, rfl⟩ := Nat.exists_eq_add_one_of_ne_zero (Nat.ne_zero_of_lt hfuel)
    rcases failed_or_last_success txs with hfailed | ⟨page, tx, failed, rfl, htx, hfailed⟩
    · obtain ⟨tx, htx, herr⟩ := hsuccess
      exact absurd herr (by rw [hfailed tx htx]; decide)
    · rw [getAllTreeSlotsLoop_page hserves htxs (List.take_of_length_le hlength.le) htx hfailed]
      exact if_pos hlength
  | @more page failed rest tx hlength htx hfailed hrest ih =>
    obtain ⟨fuel, rfl⟩ := Nat.exists_eq_add_one_of_ne_zero (Nat.ne_zero_of_lt hfuel)
    have htake : (page ++ tx :: failed ++ rest).take 1000 = page ++ tx :: failed :=
      List.take_left' hlength
    have hdrop : (page ++ tx :: failed ++ rest).drop 1000 = rest := List.drop_left' hlength
    have hnext := between_next htxs htake
    rw [hdrop] at hnext
    have hshort : (failed ++ rest).length < fuel := by
      simp only [List.length_append, List.length_cons] at hfuel ⊢
      omega
    rw [getAllTreeSlotsLoop_page hserves htxs htake htx hfailed]
    dsimp only
    rw [if_neg (by rw [List.length_append]; omega),
      ih hnext hshort, successSlots_append failed, successSlots_of_failed hfailed, List.nil_append, List.append_assoc,
      ← successSlots_append]

/-- Without pages it throws or loses them. -/
theorem getAllTreeSlotsLoop_not_paged (hserves : self.Serves getSignatures) (hnot : ¬ Paged txs)
    (hne : txs ≠ []) (htxs : self.between (given afterSig) (given lastAddress) = txs)
    (hfuel : txs.length < fuel) :
    getAllTreeSlotsLoop getSignatures afterSig fuel lastAddress history = some none ∨
      getAllTreeSlotsLoop getSignatures afterSig fuel lastAddress history = some (some []) ∧
        ∃ tx ∈ txs, tx.err = false := by
  induction fuel generalizing txs lastAddress history with
  | zero => omega
  | succ fuel ih =>
    rcases failed_or_last_success (txs.take 1000) with hfailed | ⟨page, tx, failed, hpage, htx, hfailed⟩
    · exact .inl (getAllTreeSlotsLoop_failed hserves htxs hne hfailed)
    · have hmem : tx ∈ txs := by
        refine List.mem_of_mem_take (i := 1000) ?_
        rw [hpage]
        simp
      have hnext := between_next htxs hpage
      rw [getAllTreeSlotsLoop_page hserves htxs hpage htx hfailed]
      dsimp only
      by_cases hlt : txs.length < 1000
      · exact absurd (.last hlt ⟨tx, hmem, htx⟩) hnot
      · rw [if_neg hlt]
        have hlength : (page ++ tx :: failed).length = 1000 := by
          rw [← hpage, List.length_take]
          omega
        have hsplit : txs = page ++ tx :: failed ++ txs.drop 1000 := by
          rw [← hpage, List.take_append_drop]
        rcases eq_or_ne (failed ++ txs.drop 1000) [] with hnil | hrest
        · -- the next page is empty
          rw [hnil] at hnext
          obtain ⟨fuel, rfl⟩ : ∃ n, fuel = n + 1 := Nat.exists_eq_add_one_of_ne_zero (by omega)
          exact .inr ⟨getAllTreeSlotsLoop_nil hserves hnext, tx, hmem, htx⟩
        · have hshort : (failed ++ txs.drop 1000).length < fuel := by
            have := congrArg List.length hsplit
            simp only [List.length_append, List.length_cons] at this hlength ⊢
            omega
          refine (ih (fun hpaged => hnot ?_) hrest hnext hshort).imp_right fun h => ⟨h.1, tx, hmem, htx⟩
          rw [hsplit]
          exact .more hlength htx hfailed hpaged

end Loop

/-- The backfiller gets all slots between the two signatures, oldest first and each once, exactly
if there are no transactions or they are read in pages with a success each. -/
theorem getAllTreeSlots_complete_iff (self : TreeHistory) {getSignatures : SignatureQuery}
    (hserves : self.Serves getSignatures) (afterSig untilSig : Option String) :
    let txs := self.between (given afterSig) (given untilSig)
    (∃ slots, (∀ fuel, self.txs.length < fuel →
        getAllTreeSlots getSignatures fuel afterSig untilSig = some (some slots)) ∧
      slots.Pairwise (· < ·) ∧
      ∀ slot, slot ∈ slots ↔ ∃ tx ∈ txs, tx.err = false ∧ tx.slot = slot) ↔
    txs = [] ∨ Paged txs := by
  intro txs
  have hlength : txs.length ≤ self.txs.length := (self.between_sublist _ _).length_le
  constructor
  · rintro ⟨slots, hslots, -, hmem⟩
    by_contra hcond
    rw [not_or] at hcond
    have hrun := hslots _ (Nat.lt_succ_self _)
    have hloop : getAllTreeSlotsLoop getSignatures _ _ _ [] = _ ∨ _ :=
      getAllTreeSlotsLoop_not_paged hserves hcond.2 hcond.1 rfl
        (hlength.trans_lt (Nat.lt_succ_self _))
    rcases hloop with hnone | ⟨hnil, tx, htx, herr⟩
    · exact absurd (hrun.symm.trans hnone) (by simp)
    · obtain rfl : slots = [] := by simpa using hrun.symm.trans hnil
      exact absurd ((hmem tx.slot).2 ⟨tx, htx, herr, rfl⟩) (by simp)
  · intro hcond
    refine ⟨filterUnique (successSlots txs).reverse, fun fuel hfuel => ?_, ?_, fun slot => ?_⟩
    · rcases hcond with hnil | hpaged
      · obtain ⟨fuel, rfl⟩ := Nat.exists_eq_add_one_of_ne_zero (Nat.ne_zero_of_lt hfuel)
        rw [hnil]
        exact getAllTreeSlotsLoop_nil hserves hnil
      · exact getAllTreeSlotsLoop_paged hserves hpaged rfl (hlength.trans_lt hfuel)
    · have hsorted : txs.Pairwise fun tx tx' => tx'.slot ≤ tx.slot :=
        self.slots.sublist (self.between_sublist _ _)
      refine filterUnique_pairwise (List.pairwise_reverse.2 ?_)
      exact List.pairwise_map.2 (hsorted.filter _)
    · rw [mem_filterUnique, List.mem_reverse, mem_successSlots]

section Answers

/-- A query that answers as it should. -/
def TreeHistory.answer (self : TreeHistory) : SignatureQuery :=
  fun after before => (self.between after before).take 1000

/-- Five transactions in four slots; the second and the fourth have failed. -/
def fiveTxs : TreeHistory where
  txs := [⟨"e", 9, false⟩, ⟨"d", 9, true⟩, ⟨"c", 7, false⟩, ⟨"b", 6, true⟩, ⟨"a", 5, false⟩]
  nodup := by decide
  slots := by decide
  signed := by decide

/-- From the newest transaction back to the oldest there is a page with a success. -/
theorem getAllTreeSlots_complete_five : ∃ slots,
    (∀ fuel, 5 < fuel →
      getAllTreeSlots fiveTxs.answer fuel (some "a") (some "e") = some (some slots)) ∧
    slots.Pairwise (· < ·) ∧ ∀ slot, slot ∈ slots ↔ ∃ tx ∈ fiveTxs.between (some "a") (some "e"),
      tx.err = false ∧ tx.slot = slot :=
  (getAllTreeSlots_complete_iff fiveTxs (fun _ _ => rfl) (some "a") (some "e")).2
    (.inr (.last (by decide) (by decide)))

/-- Between the last two of them there is nothing but a failure, and the backfiller throws instead
of returning no slots. -/
theorem getAllTreeSlots_throws :
    fiveTxs.between (some "a") (some "c") = [⟨"b", 6, true⟩] ∧
      ∀ fuel, getAllTreeSlots fiveTxs.answer (fuel + 1) (some "a") (some "c") = some none :=
  ⟨by decide, fun _ => rfl⟩

end Answers

end Candyland.Sdk.Indexer
