import Candyland.NftIngester.Backfill

/-!
# Runs of the backfiller

What the rows of `backfill_items` keep while insertions of the ingester, failures and restarts
come between the statements of the backfiller.
-/

namespace Candyland.NftIngester.Backfill

variable {Pubkey : Type} [DecidableEq Pubkey] {table : List (Row Pubkey)} {tree : Pubkey}
  {s s' s₀ : Service Pubkey} {a : Event Pubkey} {as : List (Event Pubkey)}

/-! ### The queries -/

/-- A tree that the table knows. -/
def Has (table : List (Row Pubkey)) (tree : Pubkey) : Prop := ∃ row ∈ table, row.tree = tree

omit [DecidableEq Pubkey] in
theorem has_append {rows : List (Row Pubkey)} :
    Has (table ++ rows) tree ↔ Has table tree ∨ Has rows tree := by
  simp only [Has, List.mem_append, or_and_right, exists_or]

theorem mem_multiRowTrees (h : tree ∈ multiRowTrees table) : Has table tree := by
  obtain ⟨row, hrow, rfl⟩ := List.mem_map.1 (List.mem_dedup.1 (List.mem_filter.1 h).1)
  exact ⟨row, hrow, rfl⟩

theorem mem_forceChkTrees :
    tree ∈ forceChkTrees table ↔ ∃ row ∈ table, row.forceChk = some true ∧ row.tree = tree := by
  simp only [forceChkTrees, List.mem_dedup, List.mem_map, List.mem_filter, decide_eq_true_eq,
    and_assoc]

/-- The number that `fetch_and_plug_gaps` returns is the largest of the tree, and a row has it. -/
theorem fetchAndPlugGaps_spec (h : Has table tree) :
    (∃ row ∈ table, row.tree = tree ∧ row.seq = fetchAndPlugGaps table tree) ∧
      ∀ row ∈ table, row.tree = tree → row.seq ≤ fetchAndPlugGaps table tree := by
  obtain ⟨row, hrow, htree⟩ := h
  have hmem : row.seq ∈ (table.filter fun row => row.tree = tree).map fun row => row.seq :=
    List.mem_map.2 ⟨row, List.mem_filter.2 ⟨hrow, by simpa using htree⟩, rfl⟩
  obtain ⟨m, hm⟩ : ∃ m, maxSeq table tree = some m := by
    cases hmax : maxSeq table tree with
    | none =>
      rw [maxSeq, List.max?_eq_none_iff] at hmax
      rw [hmax] at hmem
      exact absurd hmem List.not_mem_nil
    | some m => exact ⟨m, rfl⟩
  obtain ⟨hm_mem, hm_max⟩ := List.max?_eq_some_iff.1 hm
  obtain ⟨top, htop, htop_seq⟩ := List.mem_map.1 hm_mem
  obtain ⟨htop, htop_tree⟩ := List.mem_filter.1 htop
  have hne : top ∈ getItemsWithMaxSeq table tree :=
    List.mem_filter.2 ⟨htop, by simp [hm, htop_seq, of_decide_eq_true htop_tree]⟩
  have hseq : fetchAndPlugGaps table tree = m := by
    rw [fetchAndPlugGaps]
    cases hitems : getItemsWithMaxSeq table tree with
    | nil =>
      rw [hitems] at hne
      exact absurd hne List.not_mem_nil
    | cons item rest =>
      have hitem : item ∈ getItemsWithMaxSeq table tree := hitems ▸ List.mem_cons_self
      have hitem := of_decide_eq_true (List.mem_filter.1 hitem).2
      exact Option.some.inj (hitem.2.trans hm)
  refine ⟨⟨top, htop, of_decide_eq_true htop_tree, htop_seq.trans hseq.symm⟩,
    fun r hr hr_tree => ?_⟩
  rw [hseq]
  exact hm_max _ (List.mem_map.2 ⟨r, List.mem_filter.2 ⟨hr, by simpa using hr_tree⟩, rfl⟩)

/-! ### No tree is forgotten -/

/-- What the place promises: the trees that are left are known, a row has the number that is
kept, and every row that will be deleted by its key has a twin that will not. -/
def Place.Sound (table : List (Row Pubkey)) : Place Pubkey → Prop
  | .loops _ multi => ∀ tree ∈ multi, Has table tree
  | .deleteOtherSeqs tree seq multi =>
    (∃ row ∈ table, row.tree = tree ∧ row.seq = seq) ∧ ∀ tree ∈ multi, Has table tree
  | .findItems tree _ multi => Has table tree ∧ ∀ tree ∈ multi, Has table tree
  | .deleteItems ids multi =>
    ids.Nodup ∧ (∀ id ∈ ids, ∃ row ∈ table, row.id = id ∧ ∃ keep ∈ table, keep.id ∉ ids ∧
      keep.tree = row.tree ∧ keep.seq = row.seq) ∧ ∀ tree ∈ multi, Has table tree
  | _ => True

/-- The keys are different, and the place is sound. -/
structure Service.Inv (s : Service Pubkey) : Prop where
  nodup : ((s.table ++ s.txn).map Row.id).Nodup
  lt : ∀ row ∈ s.table ++ s.txn, row.id < s.nextId
  sound : s.place.Sound s.table

omit [DecidableEq Pubkey] in
theorem Service.Inv.nodup_table (h : s.Inv) : (s.table.map Row.id).Nodup := by
  have hnodup := h.nodup
  rw [List.map_append] at hnodup
  exact hnodup.of_append_left

omit [DecidableEq Pubkey] in
theorem Service.Initial.inv (h : s.Initial) : s.Inv := by
  refine ⟨?_, ?_, ?_⟩
  · rw [h.txn, List.append_nil]
    exact h.nodup
  · rw [h.txn, List.append_nil]
    exact h.lt
  · rw [h.place]
    trivial

omit [DecidableEq Pubkey] in
theorem Has.mono {table' : List (Row Pubkey)} (h : Has table tree) (hsub : table ⊆ table') :
    Has table' tree := by
  obtain ⟨row, hrow, htree⟩ := h
  exact ⟨row, hsub hrow, htree⟩

omit [DecidableEq Pubkey] in
theorem Place.Sound.mono {place : Place Pubkey} {table' : List (Row Pubkey)}
    (h : place.Sound table) (hsub : table ⊆ table') : place.Sound table' := by
  cases place with
  | loops force multi => exact fun t ht => (h t ht).mono hsub
  | deleteOtherSeqs t seq multi =>
    obtain ⟨⟨row, hrow, hseq⟩, hmulti⟩ := h
    exact ⟨⟨row, hsub hrow, hseq⟩, fun t ht => (hmulti t ht).mono hsub⟩
  | findItems t seq multi => exact ⟨h.1.mono hsub, fun t ht => (h.2 t ht).mono hsub⟩
  | deleteItems ids multi =>
    obtain ⟨hnodup, hids, hmulti⟩ := h
    refine ⟨hnodup, fun id hid => ?_, fun t ht => (hmulti t ht).mono hsub⟩
    obtain ⟨row, hrow, hrow_id, keep, hkeep, hkeep_eq⟩ := hids id hid
    exact ⟨row, hsub hrow, hrow_id, keep, hsub hkeep, hkeep_eq⟩
  | _ => trivial

theorem mem_deleteOtherSeqs {seq : ℤ} {row : Row Pubkey} :
    row ∈ deleteOtherSeqs table tree seq ↔ row ∈ table ∧ (row.tree = tree → row.seq = seq) := by
  simp only [deleteOtherSeqs, List.mem_filter, decide_eq_true_eq, not_and_or, ne_eq, not_not,
    imp_iff_not_or]

omit [DecidableEq Pubkey] in
theorem mem_deleteById {id : ℕ} {row : Row Pubkey} :
    row ∈ deleteById table id ↔ row ∈ table ∧ row.id ≠ id := by
  simp only [deleteById, List.mem_filter, decide_eq_true_eq]

theorem mem_itemsWithSeq {seq : ℤ} {row : Row Pubkey} :
    row ∈ itemsWithSeq table tree seq ↔ row ∈ table ∧ row.tree = tree ∧ row.seq = seq := by
  simp only [itemsWithSeq, List.mem_filter, decide_eq_true_eq]

/-- After the first statement of `delete_extra_tree_rows` every tree that was known still is. -/
theorem Has.deleteOtherSeqs {seq : ℤ} {t : Pubkey}
    (hrow : ∃ row ∈ table, row.tree = tree ∧ row.seq = seq) (h : Has table t) :
    Has (deleteOtherSeqs table tree seq) t := by
  by_cases ht : t = tree
  · obtain ⟨row, hrow, htree, hseq⟩ := hrow
    exact ⟨row, mem_deleteOtherSeqs.2 ⟨hrow, fun _ => hseq⟩, htree.trans ht.symm⟩
  · obtain ⟨row, hrow, htree⟩ := h
    exact ⟨row, mem_deleteOtherSeqs.2 ⟨hrow, fun h => absurd (htree.symm.trans h) ht⟩, htree⟩

omit [DecidableEq Pubkey] in
/-- A row that is deleted by its key has a twin that stays. -/
theorem exists_twin {id : ℕ} {ids : List ℕ} {multi : List Pubkey} {row : Row Pubkey}
    (hnodup : (table.map Row.id).Nodup) (h : (Place.deleteItems (id :: ids) multi).Sound table)
    (hrow : row ∈ table) :
    ∃ keep ∈ deleteById table id, keep.tree = row.tree ∧ keep.seq = row.seq := by
  by_cases hid : row.id = id
  · obtain ⟨row', hrow', hid', keep, hkeep, hkeep_id, hkeep_eq⟩ := h.2.1 id List.mem_cons_self
    obtain rfl := List.inj_on_of_nodup_map hnodup hrow hrow' (hid.trans hid'.symm)
    exact ⟨keep, mem_deleteById.2 ⟨hkeep, List.ne_of_not_mem_cons hkeep_id⟩, hkeep_eq⟩
  · exact ⟨row, mem_deleteById.2 ⟨hrow, hid⟩, rfl, rfl⟩

/-- A statement only deletes rows. -/
theorem Succeeds.sublist {place place' : Place Pubkey} {table' : List (Row Pubkey)}
    (h : Succeeds place table place' table') : table'.Sublist table := by
  cases h with
  | deleteOtherSeqs => exact List.filter_sublist
  | deleteItem => exact List.filter_sublist
  | _ => exact List.Sublist.refl _

/-- A statement that succeeds forgets no tree. -/
theorem Succeeds.has {place place' : Place Pubkey} {table' : List (Row Pubkey)} {t : Pubkey}
    (h : Succeeds place table place' table') (hnodup : (table.map Row.id).Nodup)
    (hsound : place.Sound table) (ht : Has table t) : Has table' t := by
  cases h with
  | deleteOtherSeqs => exact ht.deleteOtherSeqs hsound.1
  | deleteItem =>
    obtain ⟨row, hrow, rfl⟩ := ht
    obtain ⟨keep, hkeep, htree, -⟩ := exists_twin hnodup hsound hrow
    exact ⟨keep, hkeep, htree⟩
  | _ => exact ht

/-- The keys that `delete_extra_tree_rows` deletes are those of all items but one. -/
theorem sound_findItems {seq : ℤ} {multi : List Pubkey} {items : List (Row Pubkey)}
    (hnodup : (table.map Row.id).Nodup) (h : items.Perm (itemsWithSeq table tree seq))
    (hmulti : ∀ t ∈ multi, Has table t) :
    (Place.deleteItems (if items.length > 1 then (items.drop 1).map fun item => item.id else [])
      multi).Sound table := by
  cases items with
  | nil => exact ⟨List.nodup_nil, fun _ hid => absurd hid List.not_mem_nil, hmulti⟩
  | cons keep items =>
    have hmem : ∀ row ∈ keep :: items, row ∈ table ∧ row.tree = tree ∧ row.seq = seq :=
      fun row hrow => mem_itemsWithSeq.1 (h.mem_iff.1 hrow)
    have hids : ((keep :: items).map Row.id).Nodup :=
      (h.map Row.id).nodup_iff.2 (hnodup.sublist (List.filter_sublist.map _))
    obtain ⟨hkeep_id, hids⟩ := List.nodup_cons.1 hids
    split_ifs
    · refine ⟨hids, fun id hid => ?_, hmulti⟩
      obtain ⟨row, hrow, rfl⟩ := List.mem_map.1 hid
      obtain ⟨hrow, htree, hseq⟩ := hmem row (List.mem_cons_of_mem _ hrow)
      obtain ⟨hkeep, hkeep_tree, hkeep_seq⟩ := hmem keep List.mem_cons_self
      exact ⟨row, hrow, rfl, keep, hkeep, hkeep_id, hkeep_tree.trans htree.symm,
        hkeep_seq.trans hseq.symm⟩
    · exact ⟨List.nodup_nil, fun _ hid => absurd hid List.not_mem_nil, hmulti⟩

/-- A statement that succeeds leads to a sound place. -/
theorem Succeeds.sound {place place' : Place Pubkey} {table' : List (Row Pubkey)}
    (h : Succeeds place table place' table') (hnodup : (table.map Row.id).Nodup)
    (hsound : place.Sound table) : place'.Sound table' := by
  have hhas := fun t => h.has (t := t) hnodup hsound
  cases h with
  | selectMultiRow h =>
    split_ifs
    · trivial
    · exact fun t ht => mem_multiRowTrees (h.mem_iff.1 ht)
  | maxSeq =>
    exact ⟨(fetchAndPlugGaps_spec (hsound _ List.mem_cons_self)).1,
      fun t ht => hsound t (List.mem_cons_of_mem _ ht)⟩
  | deleteOtherSeqs =>
    obtain ⟨⟨row, hrow, htree, -⟩, hmulti⟩ := hsound
    exact ⟨hhas _ ⟨row, hrow, htree⟩, fun t ht => hhas t (hmulti t ht)⟩
  | findItems h => exact sound_findItems hnodup h hsound.2
  | deleteItem =>
    obtain ⟨hids, hkeep, hmulti⟩ := hsound
    obtain ⟨hid, hids⟩ := List.nodup_cons.1 hids
    refine ⟨hids, fun id' hid' => ?_, fun t ht => hhas t (hmulti t ht)⟩
    obtain ⟨row, hrow, rfl, keep, hkeep, hkeep_id, hkeep_eq⟩ :=
      hkeep id' (List.mem_cons_of_mem _ hid')
    exact ⟨row, mem_deleteById.2 ⟨hrow, fun h => hid (h ▸ hid')⟩, rfl, keep,
      mem_deleteById.2 ⟨hkeep, List.ne_of_not_mem_cons hkeep_id⟩,
      List.not_mem_of_not_mem_cons hkeep_id, hkeep_eq⟩
  | deleted => exact hsound.2.2
  | _ => trivial

omit [DecidableEq Pubkey] in
theorem Fails.sound {place place' : Place Pubkey} (h : Fails place place')
    (hsound : place.Sound table) : place'.Sound table := by
  cases h with
  | maxSeq => exact fun t ht => hsound t (List.mem_cons_of_mem _ ht)
  | deleteOtherSeqs => exact hsound.2
  | findItems => exact hsound.2
  | deleteItem => exact hsound.2.2
  | _ => trivial

theorem has_clearForceChkFlag {t : Pubkey} :
    Has (clearForceChkFlag table tree) t ↔ Has table t := by
  simp only [Has, clearForceChkFlag, List.mem_map, exists_exists_and_eq_and]
  refine exists_congr fun row => and_congr_right fun _ => ?_
  split_ifs <;> rfl

theorem map_id_clearForceChkFlag :
    (clearForceChkFlag table tree).map Row.id = table.map Row.id := by
  rw [clearForceChkFlag, List.map_map]
  refine List.map_congr_left fun row _ => ?_
  rw [Function.comp_apply]
  split_ifs <;> rfl

theorem mem_forceChkTrees_clear {t : Pubkey} :
    t ∈ forceChkTrees (clearForceChkFlag table tree) ↔ t ≠ tree ∧ t ∈ forceChkTrees table := by
  simp only [mem_forceChkTrees, clearForceChkFlag, List.mem_map, exists_exists_and_eq_and]
  constructor
  · rintro ⟨row, hrow, hflag, rfl⟩
    split_ifs at hflag ⊢ with htree
    · cases hflag
    · exact ⟨htree, row, hrow, hflag, rfl⟩
  · rintro ⟨hne, row, hrow, hflag, rfl⟩
    refine ⟨row, hrow, ?_⟩
    rw [if_neg hne]
    exact ⟨hflag, rfl⟩

/-- A step forgets no tree. -/
theorem Step.has (h : Step s a s') (hinv : s.Inv) (ht : Has s.table tree) : Has s'.table tree := by
  cases h with
  | commit => exact has_append.2 (Or.inl ht)
  | success h => exact h.has hinv.nodup_table hinv.sound ht
  | cleared => exact has_clearForceChkFlag.2 ht
  | _ => exact ht

theorem Service.Inv.step (hinv : s.Inv) (h : Step s a s') : s'.Inv := by
  have htable := hinv.nodup_table
  obtain ⟨hnodup, hlt, hsound⟩ := hinv
  cases h with
  | insert =>
    refine ⟨?_, ?_, hsound⟩
    · rw [← List.append_assoc, List.map_append, List.nodup_append']
      refine ⟨hnodup, List.nodup_singleton _, ?_⟩
      rintro id hid hid'
      obtain ⟨row, hrow, rfl⟩ := List.mem_map.1 hid
      exact absurd (List.mem_singleton.1 hid') (hlt row hrow).ne
    · intro row hrow
      rw [← List.append_assoc, List.mem_append, List.mem_singleton] at hrow
      obtain hrow | rfl := hrow
      · exact Nat.lt_succ_of_lt (hlt row hrow)
      · exact Nat.lt_succ_self _
  | commit =>
    refine ⟨?_, ?_, hsound.mono (List.subset_append_left _ _)⟩
    · rw [List.append_nil]
      exact hnodup
    · rw [List.append_nil]
      exact hlt
  | rollback =>
    refine ⟨?_, fun row hrow => hlt row ?_, hsound⟩
    · rw [List.append_nil]
      exact htable
    · rw [List.append_nil] at hrow
      exact List.mem_append_left _ hrow
  | success h =>
    have hsub : _ ⊆ s.table := h.sublist.subset
    refine ⟨hnodup.sublist ((h.sublist.append (List.Sublist.refl _)).map _), fun row hrow => ?_,
      h.sound htable hsound⟩
    exact hlt row (List.append_subset.2 ⟨List.subset_append_of_subset_left _ hsub,
      List.subset_append_right _ _⟩ hrow)
  | failure h => exact ⟨hnodup, hlt, h.sound hsound⟩
  | cleared h =>
    rw [h] at hsound
    refine ⟨?_, fun row hrow => ?_, fun t ht => has_clearForceChkFlag.2 (hsound t ht)⟩
    · rw [List.map_append, map_id_clearForceChkFlag, ← List.map_append]
      exact hnodup
    · have hmem : row.id ∈ (s.table ++ s.txn).map Row.id := by
        rw [List.map_append, ← map_id_clearForceChkFlag, ← List.map_append]
        exact List.mem_map_of_mem hrow
      obtain ⟨row', hrow', hid⟩ := List.mem_map.1 hmem
      exact hid ▸ hlt row' hrow'
  | notCleared h =>
    rw [h] at hsound
    exact ⟨hnodup, hlt, hsound⟩
  | notification => exact ⟨hnodup, hlt, trivial⟩
  | restart =>
    refine ⟨?_, fun row hrow => hlt row ?_, trivial⟩
    · rw [List.append_nil]
      exact htable
    · rw [List.append_nil] at hrow
      exact List.mem_append_left _ hrow

theorem Service.Initial.inv_of_steps (hinit : s₀.Initial) (h : Steps Step s₀ as s) : s.Inv :=
  h.invariant (I := fun _ s => s.Inv) hinit.inv fun _ _ _ _ _ hinv hstep => hinv.step hstep

/-! ### The flags -/

/-- The rows that a run has committed, the oldest first. -/
def committed : List (Event Pubkey) → List (Row Pubkey)
  | [] => []
  | .commit rows :: as => committed as ++ rows
  | _ :: as => committed as

omit [DecidableEq Pubkey] in
theorem mem_committed_cons {row : Row Pubkey} :
    row ∈ committed (a :: as) ↔ row ∈ committed as ∨ ∃ rows, a = .commit rows ∧ row ∈ rows := by
  cases a with
  | commit rows => simp [committed]
  | _ => simp [committed]

/-- A tree is known when the table had it at the start or a row of it was committed. -/
theorem has_iff_committed (hinit : s₀.Initial) (h : Steps Step s₀ as s) :
    Has s.table tree ↔ Has (s₀.table ++ committed as) tree := by
  induction h with
  | refl => rw [committed, List.append_nil]
  | @step as t t' a hsteps hstep ih =>
    have hmono (hhas : Has t.table tree) : Has t'.table tree :=
      hstep.has (hinit.inv_of_steps hsteps) hhas
    cases hstep with
    | commit =>
      rw [committed, ← List.append_assoc, has_append, ih, ← has_append]
    | success hsucc =>
      exact ⟨fun hhas => ih.1 (hhas.mono hsucc.sublist.subset), fun hhas => hmono (ih.2 hhas)⟩
    | cleared => exact has_clearForceChkFlag.trans ih
    | _ => exact ih

/-- A service over an empty table. -/
def fresh : Service ℕ := ⟨[], [], 0, 0, .listen⟩

theorem fresh_initial : fresh.Initial :=
  ⟨List.nodup_nil, fun _ h => absurd h List.not_mem_nil, rfl, rfl, rfl⟩

/-- A row for the second event of tree 7, whose first event was not seen. -/
def lateRow : Row ℕ := ⟨⟨7, 2, 5, some true⟩, 0⟩

/-- The row is inserted and committed. -/
theorem fresh_run :
    Steps Step fresh [.commit [lateRow], .insert 7 2 5] ⟨[lateRow], [], 1, 0, .listen⟩ :=
  .step (.step .refl (.insert (by norm_num))) .commit

/-- Among the rows of `new` the flag `force_chk` is set exactly on those that are the first of
their tree, after `old`, and do not start its history. -/
def Flagged (old new : List (Row Pubkey)) : Prop :=
  ∀ front row back, new = front ++ row :: back →
    (row.forceChk = some true ↔ ¬ Has (old ++ front) row.tree ∧ row.seq ≠ 0 ∧ row.seq ≠ 1)

omit [DecidableEq Pubkey] in
theorem flagged_nil {old : List (Row Pubkey)} : Flagged old [] := by
  intro front row back h
  exact absurd h.symm (List.append_ne_nil_of_right_ne_nil _ (List.cons_ne_nil _ _))

theorem asI64_gt_one {seq : ℕ} (h : seq < 2 ^ 64) : seq > 1 ↔ asI64 seq ≠ 0 ∧ asI64 seq ≠ 1 := by
  rw [asI64]
  split_ifs <;> omega

theorem forceChk_backfillItem {rows : List (Row Pubkey)} {seq slot : ℕ} (h : seq < 2 ^ 64) :
    (backfillItem (items rows) tree seq slot).forceChk = some true ↔
      ¬ Has rows tree ∧ asI64 seq ≠ 0 ∧ asI64 seq ≠ 1 := by
  have hfound : (items rows).any (fun item => item.tree = tree) = true ↔ Has rows tree := by
    simp only [items, List.any_map, List.any_eq_true, Function.comp_apply, decide_eq_true_eq, Has]
  rw [← asI64_gt_one h, ← hfound]
  simp only [backfillItem, Option.some.injEq, Bool.and_eq_true, Bool.not_eq_true',
    decide_eq_true_eq, Bool.not_eq_true]

theorem Step.txn_of_commit {rows : List (Row Pubkey)} (h : Step s (.commit rows) s') :
    s.txn = rows := by
  cases h
  rfl

/-- The rows of the open transaction are flagged with regard to all that was committed. -/
theorem flagged_txn (hinit : s₀.Initial) (h : Steps Step s₀ as s) :
    Flagged (s₀.table ++ committed as) s.txn := by
  induction h with
  | refl =>
    rw [hinit.txn]
    exact flagged_nil
  | @step as t t' a hsteps hstep ih =>
    cases hstep with
    | insert hseq =>
      intro front row back hrows
      obtain rfl | ⟨back, last, rfl⟩ := List.eq_nil_or_concat back
      · obtain ⟨rfl, hrow⟩ := List.append_inj' hrows rfl
        obtain rfl := List.singleton_inj.1 hrow
        refine (forceChk_backfillItem hseq).trans (and_congr_left fun _ => not_congr ?_)
        rw [has_append, has_append, has_iff_committed hinit hsteps]
        rfl
      · rw [List.concat_eq_append, ← List.cons_append, ← List.append_assoc] at hrows
        exact ih front row back (List.append_inj_left' hrows rfl)
    | commit => exact flagged_nil
    | rollback => exact flagged_nil
    | restart => exact flagged_nil
    | _ => exact ih

/-- The flag is set on the first row of a tree, at most once, and only on a row that does not
start the history of the tree. -/
theorem forceChk_iff_first (hinit : s₀.Initial) (h : Steps Step s₀ as s)
    {later earlier : List (Event Pubkey)} {front back : List (Row Pubkey)} {row : Row Pubkey}
    (has : as = later ++ .commit (front ++ row :: back) :: earlier) :
    row.forceChk = some true ↔
      (∀ r ∈ s₀.table ++ committed earlier ++ front, r.tree ≠ row.tree) ∧
        row.seq ≠ 0 ∧ row.seq ≠ 1 := by
  obtain ⟨t, hcommit, -⟩ := (has ▸ h).exists_of_append
  obtain ⟨t', hsteps, hstep⟩ := hcommit.exists_of_cons
  refine (flagged_txn hinit hsteps front row back hstep.txn_of_commit).trans
    (and_congr_left fun _ => ?_)
  simp only [Has, not_exists, not_and, ne_eq]

theorem forceChk_iff_first_fresh : lateRow.forceChk = some true ↔
    (∀ r ∈ fresh.table ++ committed [.insert 7 2 5] ++ [], r.tree ≠ lateRow.tree) ∧
      lateRow.seq ≠ 0 ∧ lateRow.seq ≠ 1 :=
  forceChk_iff_first fresh_initial fresh_run
    (rfl : _ = [] ++ Event.commit ([] ++ lateRow :: []) :: [Event.insert 7 2 5])

end Candyland.NftIngester.Backfill
