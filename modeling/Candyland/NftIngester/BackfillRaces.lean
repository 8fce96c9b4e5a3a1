import Candyland.NftIngester.BackfillRuns

/-!
# Races of the backfiller

Between two statements of the backfiller the ingester may commit rows.  Two such moments
matter: a row that is newer than the number picked by `fetch_and_plug_gaps` is deleted with the
others, and a flagged row that comes between the two queries of `get_trees_to_backfill` may be
deleted before the flag is seen.  At all other times nothing is lost.
-/

namespace Candyland.NftIngester.Backfill

variable {Pubkey : Type} [DecidableEq Pubkey] {table : List (Row Pubkey)} {tree : Pubkey}
  {s s' s₀ : Service Pubkey} {a : Event Pubkey} {as : List (Event Pubkey)} {row : Row Pubkey}

/-! ### The newest row of a tree -/

/-- A row of the tree of `row` is as new as `row`. -/
def Kept (table : List (Row Pubkey)) (row : Row Pubkey) : Prop :=
  ∃ r ∈ table, r.tree = row.tree ∧ row.seq ≤ r.seq

/-- No newer row of a tree is committed between the statement that picks the number to keep and
the one that deletes the rows with other numbers. -/
def NoneNewer (s : Service Pubkey) (a : Event Pubkey) : Prop :=
  ∀ tree seq multi rows, s.place = .deleteOtherSeqs tree seq multi → a = .commit rows →
    ∀ row ∈ rows, row.tree = tree → row.seq ≤ seq

omit [DecidableEq Pubkey] in
theorem kept_of_mem (h : row ∈ table) : Kept table row := ⟨row, h, rfl, le_rfl⟩

omit [DecidableEq Pubkey] in
theorem Kept.mono {table' : List (Row Pubkey)} (h : Kept table row) (hsub : table ⊆ table') :
    Kept table' row := by
  obtain ⟨r, hr, hkept⟩ := h
  exact ⟨r, hsub hr, hkept⟩

omit [DecidableEq Pubkey] in
theorem Kept.trans {table' : List (Row Pubkey)} (h : Kept table row)
    (hall : ∀ r ∈ table, Kept table' r) : Kept table' row := by
  obtain ⟨r, hr, htree, hseq⟩ := h
  obtain ⟨r', hr', htree', hseq'⟩ := hall r hr
  exact ⟨r', hr', htree'.trans htree, hseq.trans hseq'⟩

theorem kept_clearForceChkFlag (h : row ∈ table) : Kept (clearForceChkFlag table tree) row := by
  refine ⟨_, List.mem_map_of_mem h, ?_⟩
  split_ifs <;> exact ⟨rfl, le_rfl⟩

/-- The rows with other numbers are deleted, so those that were newer are not kept. -/
theorem kept_deleteOtherSeqs {seq : ℤ} (hseq : ∃ r ∈ table, r.tree = tree ∧ r.seq = seq)
    (h : row ∈ table) :
    Kept (deleteOtherSeqs table tree seq) row ↔ (row.tree = tree → row.seq ≤ seq) := by
  constructor
  · rintro ⟨r, hr, htree, hle⟩ hrow
    exact hle.trans ((mem_deleteOtherSeqs.1 hr).2 (htree.trans hrow)).le
  · intro hle
    by_cases htree : row.tree = tree
    · obtain ⟨r, hr, hr_tree, hr_seq⟩ := hseq
      exact ⟨r, mem_deleteOtherSeqs.2 ⟨hr, fun _ => hr_seq⟩, hr_tree.trans htree.symm,
        (hle htree).trans hr_seq.ge⟩
    · exact kept_of_mem (mem_deleteOtherSeqs.2 ⟨h, fun h => absurd h htree⟩)

/-- A step keeps a row unless it deletes the rows with other numbers than a smaller one. -/
theorem Step.kept (h : Step s a s') (hinv : s.Inv) (hrow : row ∈ s.table)
    (hle : ∀ tree seq multi, s.place = .deleteOtherSeqs tree seq multi → a = .success →
      row.tree = tree → row.seq ≤ seq) : Kept s'.table row := by
  have hnodup := hinv.nodup_table
  have hsound := hinv.sound
  cases h with
  | commit => exact kept_of_mem (List.mem_append_left _ hrow)
  | cleared => exact kept_clearForceChkFlag hrow
  | @success place' table' h =>
    show Kept table' row
    generalize hplace : s.place = place at h hsound hle
    generalize s.table = table at h hrow hnodup hsound
    cases h with
    | deleteOtherSeqs => exact (kept_deleteOtherSeqs hsound.1 hrow).2 (hle _ _ _ rfl rfl)
    | deleteItem =>
      obtain ⟨keep, hkeep, htree, hseq⟩ := exists_twin hnodup hsound hrow
      exact ⟨keep, hkeep, htree, hseq.ge⟩
    | _ => exact kept_of_mem hrow
  | _ => exact kept_of_mem hrow

/-- A step of a sound service loses the newest row of a tree exactly when it deletes the rows
with other numbers than one that a row has outgrown. -/
theorem Step.loses_iff (h : Step s a s') (hinv : s.Inv) :
    (∃ row ∈ s.table, ¬ Kept s'.table row) ↔
      a = .success ∧ ∃ tree seq multi, s.place = .deleteOtherSeqs tree seq multi ∧
        ∃ row ∈ s.table, row.tree = tree ∧ seq < row.seq := by
  constructor
  · rintro ⟨row, hrow, hlost⟩
    by_contra hno
    refine hlost (h.kept hinv hrow fun tree seq multi hplace ha htree => ?_)
    by_contra hlt
    exact hno ⟨ha, tree, seq, multi, hplace, row, hrow, htree, not_le.1 hlt⟩
  · rintro ⟨rfl, tree, seq, multi, hplace, row, hrow, htree, hlt⟩
    refine ⟨row, hrow, fun hkept => ?_⟩
    have hsound := hinv.sound
    cases h with
    | success h =>
      rw [hplace] at h hsound
      cases h
      exact hlt.not_ge ((kept_deleteOtherSeqs hsound.1 hrow).1 hkept htree)

/-- The number that is kept is the largest of its tree while no newer row is committed. -/
def Place.Newest (table : List (Row Pubkey)) (place : Place Pubkey) : Prop :=
  ∀ tree seq multi, place = .deleteOtherSeqs tree seq multi →
    ∀ row ∈ table, row.tree = tree → row.seq ≤ seq

theorem Succeeds.newest {place place' : Place Pubkey} {table' : List (Row Pubkey)}
    (h : Succeeds place table place' table') (hsound : place.Sound table) :
    place'.Newest table' := by
  intro t seq multi hplace row hrow htree
  cases h with
  | selectMultiRow =>
    split_ifs at hplace
  | maxSeq =>
    injection hplace with ht hseq
    rw [← ht] at htree
    rw [← hseq]
    exact (fetchAndPlugGaps_spec (hsound _ List.mem_cons_self)).2 row hrow htree
  | _ => cases hplace

omit [DecidableEq Pubkey] in
theorem Fails.newest {place place' : Place Pubkey} (h : Fails place place') :
    place'.Newest table := by
  intro t seq multi hplace
  cases h <;> cases hplace

theorem Step.newest (h : Step s a s') (hinv : s.Inv) (hnew : s.place.Newest s.table)
    (hnone : NoneNewer s a) : s'.place.Newest s'.table := by
  cases h with
  | commit =>
    intro t seq multi hplace row hrow htree
    obtain hrow | hrow := List.mem_append.1 hrow
    · exact hnew t seq multi hplace row hrow htree
    · exact hnone t seq multi _ hplace rfl row hrow htree
  | success h => exact h.newest hinv.sound
  | failure h => exact h.newest
  | insert => exact hnew
  | rollback => exact hnew
  | _ =>
    intro _ _ _ hplace
    cases hplace

/-- The tree has the flag, and `backfill_tree_from_seq_1` was not called for it since. -/
def Due (table : List (Row Pubkey)) (tree : Pubkey) : List (Event Pubkey) → Prop
  | [] => tree ∈ forceChkTrees table
  | .commit rows :: as => tree ∈ forceChkTrees rows ∨ Due table tree as
  | .backfillTreeFromSeq1 t _ :: as => tree ≠ t ∧ Due table tree as
  | _ :: as => Due table tree as

/-- No flagged row is committed between the two queries of `get_trees_to_backfill`. -/
def NoneFlagged (s : Service Pubkey) (a : Event Pubkey) : Prop :=
  ∀ force rows, s.place = .selectMultiRow force → a = .commit rows → forceChkTrees rows = []

/-- The place will not delete the flag of `tree` before `backfill_tree_from_seq_1` is called. -/
def Place.Spares (table : List (Row Pubkey)) (tree : Pubkey) : Place Pubkey → Prop
  | .selectMultiRow force => tree ∈ force
  | .loops force multi => tree ∈ multi → tree ∈ force
  | .deleteOtherSeqs t _ multi => tree ≠ t ∧ tree ∉ multi
  | .findItems t _ multi => tree ≠ t ∧ tree ∉ multi
  | .deleteItems ids multi => (∀ row ∈ table, row.id ∈ ids → row.tree ≠ tree) ∧ tree ∉ multi
  | _ => True

theorem Succeeds.spares {place place' : Place Pubkey} {table' : List (Row Pubkey)}
    (h : Succeeds place table place' table') (hnodup : (table.map Row.id).Nodup)
    (hflag : tree ∈ forceChkTrees table) (hspares : place.Spares table tree) :
    tree ∈ forceChkTrees table' ∧ place'.Spares table' tree := by
  cases h with
  | listen => exact ⟨hflag, trivial⟩
  | selectForceChk h => exact ⟨hflag, h.mem_iff.2 hflag⟩
  | selectMultiRow =>
    refine ⟨hflag, ?_⟩
    split_ifs
    · trivial
    · exact fun _ => hspares
  | maxSeq =>
    exact ⟨hflag, List.ne_of_not_mem_cons fun h => absurd (hspares h) List.not_mem_nil,
      fun h => absurd (hspares (List.mem_cons_of_mem _ h)) List.not_mem_nil⟩
  | again => exact ⟨hflag, trivial⟩
  | deleteOtherSeqs =>
    obtain ⟨row, hrow, hrow_flag, rfl⟩ := mem_forceChkTrees.1 hflag
    exact ⟨mem_forceChkTrees.2 ⟨row, mem_deleteOtherSeqs.2 ⟨hrow, fun h => absurd h hspares.1⟩,
      hrow_flag, rfl⟩, hspares⟩
  | @findItems _ _ _ _ items h =>
    refine ⟨hflag, fun row hrow hid htree => ?_, hspares.2⟩
    have hid : row.id ∈ items.map fun item => item.id := by
      split_ifs at hid
      · exact ((List.drop_sublist 1 items).map _).subset hid
      · exact absurd hid List.not_mem_nil
    obtain ⟨item, hitem, hid⟩ := List.mem_map.1 hid
    obtain ⟨hitem, hitem_tree, -⟩ := mem_itemsWithSeq.1 (h.mem_iff.1 hitem)
    obtain rfl := List.inj_on_of_nodup_map hnodup hitem hrow hid
    exact hspares.1 (htree.symm.trans hitem_tree)
  | deleteItem =>
    obtain ⟨row, hrow, hrow_flag, rfl⟩ := mem_forceChkTrees.1 hflag
    obtain ⟨hids, hmulti⟩ := hspares
    refine ⟨mem_forceChkTrees.2 ⟨row, mem_deleteById.2 ⟨hrow, fun hid => ?_⟩, hrow_flag, rfl⟩,
      fun r hr hid => hids r (mem_deleteById.1 hr).1 (List.mem_cons_of_mem _ hid), hmulti⟩
    exact hids row hrow (hid ▸ List.mem_cons_self) rfl
  | deleted => exact ⟨hflag, fun h => absurd h hspares.2⟩

omit [DecidableEq Pubkey] in
theorem Fails.spares [DecidableEq Pubkey] {place place' : Place Pubkey} (h : Fails place place')
    (hspares : place.Spares table tree) : place'.Spares table tree := by
  cases h with
  | maxSeq =>
    exact fun h => absurd (hspares (List.mem_cons_of_mem _ h)) List.not_mem_nil
  | deleteOtherSeqs => exact fun h => absurd h hspares.2
  | findItems => exact fun h => absurd h hspares.2
  | deleteItem => exact fun h => absurd h hspares.2
  | _ => trivial

theorem mem_forceChkTrees_append {rows : List (Row Pubkey)} :
    tree ∈ forceChkTrees (table ++ rows) ↔
      tree ∈ forceChkTrees table ∨ tree ∈ forceChkTrees rows := by
  simp only [mem_forceChkTrees, List.mem_append, or_and_right, exists_or]

omit [DecidableEq Pubkey] in
/-- No row of the open transaction will be deleted by its key. -/
theorem Service.Inv.not_mem_ids {ids : List ℕ} {multi : List Pubkey} (hinv : s.Inv)
    (hplace : s.place = .deleteItems ids multi) (hrow : row ∈ s.txn) : row.id ∉ ids := by
  intro hid
  have hsound := hinv.sound
  rw [hplace] at hsound
  obtain ⟨r, hr, hr_id, -⟩ := hsound.2.1 _ hid
  have hdisjoint := hinv.nodup
  rw [List.map_append, List.nodup_append'] at hdisjoint
  exact hdisjoint.2.2 (List.mem_map_of_mem hr) (hr_id ▸ List.mem_map_of_mem hrow)

omit [DecidableEq Pubkey] in
/-- What is spared stays so when the open transaction is committed. -/
theorem Place.Spares.append (hinv : s.Inv) (h : s.place.Spares s.table tree) :
    s.place.Spares (s.table ++ s.txn) tree := by
  generalize hplace : s.place = place at h ⊢
  cases place with
  | deleteItems ids multi =>
    refine ⟨fun r hr hid => ?_, h.2⟩
    obtain hr | hr := List.mem_append.1 hr
    · exact h.1 r hr hid
    · exact absurd hid (hinv.not_mem_ids hplace hr)
  | _ => exact h

omit [DecidableEq Pubkey] in
/-- The flag of a tree that is not known yet is spared. -/
theorem Service.Inv.spares (hinv : s.Inv) (hnew : ¬ Has s.table tree)
    (hplace : ∀ force, s.place ≠ .selectMultiRow force) :
    s.place.Spares (s.table ++ s.txn) tree := by
  have hsound := hinv.sound
  refine Place.Spares.append hinv ?_
  generalize s.place = place at hsound hplace ⊢
  cases place with
  | selectMultiRow force => exact absurd rfl (hplace force)
  | loops force multi => exact fun h => absurd (hsound tree h) hnew
  | deleteOtherSeqs t seq multi =>
    obtain ⟨⟨r, hr, htree, -⟩, hmulti⟩ := hsound
    exact ⟨fun h => hnew ⟨r, hr, htree.trans h.symm⟩, fun h => hnew (hmulti tree h)⟩
  | findItems t seq multi => exact ⟨fun h => hnew (h ▸ hsound.1), fun h => hnew (hsound.2 tree h)⟩
  | deleteItems ids multi =>
    exact ⟨fun r hr _ htree => hnew ⟨r, hr, htree⟩, fun h => hnew (hsound.2.2 tree h)⟩
  | _ => trivial

/-- A flagged tree that is due is still flagged, and its flag is spared. -/
theorem due_spared (hinit : s₀.Initial)
    (h : Steps (fun s a s' => Step s a s' ∧ NoneFlagged s a) s₀ as s)
    (hdue : Due s₀.table tree as) : tree ∈ forceChkTrees s.table ∧ s.place.Spares s.table tree := by
  induction h with
  | refl =>
    refine ⟨hdue, ?_⟩
    rw [hinit.place]
    trivial
  | @step as t t' a hsteps hstep ih =>
    have hsteps : Steps Step s₀ as t := hsteps.mono fun _ _ _ h => h.1
    have hinv := hinit.inv_of_steps hsteps
    obtain ⟨hstep, hnone⟩ := hstep
    cases hstep with
    | insert => exact ih hdue
    | commit =>
      obtain hnew | hold := hdue
      · refine ⟨mem_forceChkTrees_append.2 (Or.inr hnew), hinv.spares ?_ fun force hplace => ?_⟩
        · obtain ⟨row, hrow, hflag, rfl⟩ := mem_forceChkTrees.1 hnew
          obtain ⟨front, back, hrows⟩ := List.append_of_mem hrow
          intro hhas
          have hfirst := ((flagged_txn hinit hsteps front row back hrows).1 hflag).1
          exact hfirst (has_append.2 (Or.inl ((has_iff_committed hinit hsteps).1 hhas)))
        · exact List.ne_nil_of_mem hnew (hnone force _ hplace rfl)
      · exact ⟨mem_forceChkTrees_append.2 (Or.inl (ih hold).1), (ih hold).2.append hinv⟩
    | rollback => exact ih hdue
    | success h =>
      exact h.spares hinv.nodup_table (ih hdue).1 (ih hdue).2
    | failure h =>
      obtain ⟨hflag, hspares⟩ := ih hdue
      exact ⟨hflag, h.spares hspares⟩
    | cleared hplace =>
      obtain ⟨hne, hdue⟩ := hdue
      obtain ⟨hflag, hspares⟩ := ih hdue
      rw [hplace] at hspares
      refine ⟨mem_forceChkTrees_clear.2 ⟨hne, hflag⟩, fun h => ?_⟩
      exact List.mem_of_ne_of_mem hne (hspares h)
    | notCleared hplace =>
      obtain ⟨hne, hdue⟩ := hdue
      obtain ⟨hflag, hspares⟩ := ih hdue
      rw [hplace] at hspares
      exact ⟨hflag, fun h => List.mem_of_ne_of_mem hne (hspares h)⟩
    | notification => exact ⟨(ih hdue).1, trivial⟩
    | restart => exact ⟨(ih hdue).1, trivial⟩

/-- A tree that is due is so until `backfill_tree_from_seq_1` is called for it. -/
theorem due_append {later : List (Event Pubkey)} (hdue : Due table tree as)
    (hcalled : ¬ ∃ fails, .backfillTreeFromSeq1 tree fails ∈ later) :
    Due table tree (later ++ as) := by
  induction later with
  | nil => exact hdue
  | cons b later ih =>
    have hrest := ih fun h => hcalled (h.imp fun _ => List.mem_cons_of_mem _)
    cases b with
    | commit rows => exact Or.inr hrest
    | backfillTreeFromSeq1 t fails =>
      refine ⟨?_, hrest⟩
      rintro rfl
      exact hcalled ⟨fails, List.mem_cons_self⟩
    | _ => exact hrest

end Candyland.NftIngester.Backfill
