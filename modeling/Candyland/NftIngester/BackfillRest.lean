import Candyland.NftIngester.BackfillRaces

/-!
# When the backfiller rests

The backfiller waits for a notification when it finds nothing to do.  It never does so while
there is work and no notification is on its way, and when nothing disturbs it, it comes to rest
after a number of statements that the size of the table bounds.
-/

namespace Candyland.NftIngester.Backfill

variable {Pubkey : Type} [DecidableEq Pubkey] {table : List (Row Pubkey)} {tree : Pubkey}
  {s s' s₀ : Service Pubkey} {a : Event Pubkey} {as : List (Event Pubkey)} {row : Row Pubkey}

/-! ### No notification is missed -/

/-- There is nothing to do. -/
def Settled (table : List (Row Pubkey)) : Prop :=
  forceChkTrees table = [] ∧ multiRowTrees table = []

theorem mem_multiRowTrees_iff :
    tree ∈ multiRowTrees table ↔ 1 < (table.map fun row => row.tree).count tree := by
  have hcount : (table.map fun row => row.tree).count tree =
      table.countP fun row => row.tree = tree := by
    rw [List.count, List.countP_map]
    exact List.countP_congr fun row _ => by simp
  rw [multiRowTrees, List.mem_filter, List.mem_dedup, decide_eq_true_eq, hcount,
    and_iff_right_iff_imp, ← hcount]
  exact fun h => List.count_pos_iff.1 (by omega)

/-- No flag is set and no tree has two rows. -/
theorem settled_iff :
    Settled table ↔ (∀ row ∈ table, row.forceChk ≠ some true) ∧
      (table.map fun row => row.tree).Nodup := by
  refine and_congr ?_ ?_
  · rw [List.eq_nil_iff_forall_not_mem]
    constructor
    · exact fun h row hrow hflag => h row.tree (mem_forceChkTrees.2 ⟨row, hrow, hflag, rfl⟩)
    · intro h tree htree
      obtain ⟨row, hrow, hflag, -⟩ := mem_forceChkTrees.1 htree
      exact h row hrow hflag
  · rw [List.eq_nil_iff_forall_not_mem, List.nodup_iff_count_le_one]
    exact forall_congr' fun tree => by rw [mem_multiRowTrees_iff, not_lt]

/-- What the queries have found so far is still so, or a notification is on its way. -/
def Service.Alert (s : Service Pubkey) : Prop :=
  s.notifications = 0 →
    (∀ force, s.place = .selectMultiRow force → force.length = 0 → forceChkTrees s.table = []) ∧
      (s.place = .recv → Settled s.table)

theorem Succeeds.alert {place place' : Place Pubkey} {table' : List (Row Pubkey)}
    (h : Succeeds place table place' table')
    (hforce : ∀ force, place = .selectMultiRow force → force.length = 0 →
      forceChkTrees table = []) :
    (∀ force, place' = .selectMultiRow force → force.length = 0 → forceChkTrees table' = []) ∧
      (place' = .recv → Settled table') := by
  cases h with
  | selectForceChk h =>
    refine ⟨fun force hplace hlength => ?_, fun hplace => absurd hplace (by simp)⟩
    injection hplace with hforce
    rw [hforce, List.length_eq_zero_iff.1 hlength] at h
    exact h.nil_eq.symm
  | @selectMultiRow _ force multi h =>
    by_cases hnil : force.length = 0 ∧ multi.length = 0
    · rw [if_pos hnil]
      rw [List.length_eq_zero_iff.1 hnil.2] at h
      exact ⟨fun _ hplace => absurd hplace (by simp), fun _ => ⟨hforce _ rfl hnil.1, h.nil_eq.symm⟩⟩
    · rw [if_neg hnil]
      exact ⟨fun _ hplace => absurd hplace (by simp), fun hplace => absurd hplace (by simp)⟩
  | _ => exact ⟨fun _ hplace => absurd hplace (by simp), fun hplace => absurd hplace (by simp)⟩

omit [DecidableEq Pubkey] in
theorem Fails.ne {place place' : Place Pubkey} (h : Fails place place') :
    (∀ force, place' ≠ .selectMultiRow force) ∧ place' ≠ .recv := by
  cases h <;> simp

theorem Service.Alert.step (halert : s.Alert) (h : Step s a s') : s'.Alert := by
  cases h with
  | insert => exact halert
  | commit =>
    intro hnone
    by_cases hcommit : s.place.listening ∧ s.txn ≠ []
    · rw [if_pos hcommit] at hnone
      exact absurd hnone (Nat.succ_ne_zero _)
    rw [if_neg hcommit] at hnone
    obtain ⟨hforce, hrest⟩ := halert hnone
    have hnil : s.place.listening = true → s.table ++ s.txn = s.table := fun hlisten =>
      List.append_right_eq_self.2 (not_not.1 fun h => hcommit ⟨hlisten, h⟩)
    refine ⟨fun force hplace hlength => ?_, fun hplace => ?_⟩
    · show forceChkTrees (s.table ++ s.txn) = []
      rw [hnil (hplace ▸ rfl)]
      exact hforce force hplace hlength
    · show Settled (s.table ++ s.txn)
      rw [hnil (hplace ▸ rfl)]
      exact hrest hplace
  | rollback => exact halert
  | success h => exact fun hnone => h.alert (halert hnone).1
  | failure h =>
    exact fun _ => ⟨fun force hplace => absurd hplace (h.ne.1 force),
      fun hplace => absurd hplace h.ne.2⟩
  | _ =>
    exact fun _ => ⟨fun _ hplace => absurd hplace (by simp),
      fun hplace => absurd hplace (by simp)⟩

instance : Decidable (Settled table) := inferInstanceAs (Decidable (_ ∧ _))

/-- A statement of the backfiller succeeds, and nothing else happens. -/
def Undisturbed (s : Service Pubkey) (a : Event Pubkey) (s' : Service Pubkey) : Prop :=
  Step s a s' ∧ (a = .success ∨ ∃ tree, a = .backfillTreeFromSeq1 tree false)

/-- What an undisturbed pass over the trees has done so far: the trees with a flag or with
several rows are among those that are left. -/
def Place.Pass (table : List (Row Pubkey)) : Place Pubkey → Prop
  | .selectForceChk => True
  | .selectMultiRow force => force.Perm (forceChkTrees table)
  | .recv => Settled table
  | .loops force multi => forceChkTrees table ⊆ force ∧ multiRowTrees table ⊆ multi
  | .deleteOtherSeqs tree _ multi =>
    forceChkTrees table = [] ∧ multiRowTrees table ⊆ tree :: multi
  | .findItems tree seq multi =>
    forceChkTrees table = [] ∧ multiRowTrees table ⊆ tree :: multi ∧
      ∀ row ∈ table, row.tree = tree → row.seq = seq
  | .deleteItems ids multi =>
    forceChkTrees table = [] ∧ ∃ tree, multiRowTrees table ⊆ tree :: multi ∧
      ∀ row ∈ table, row.tree = tree → row.id ∉ ids →
        ∀ row' ∈ table, row'.tree = tree → row'.id ∉ ids → row.id = row'.id
  | _ => False

/-- A bound for the statements of the two loops. -/
def loopsLeft (table : List (Row Pubkey)) (force multi : List Pubkey) : ℕ :=
  force.length + 4 * multi.length + table.length + 3

/-- A bound for the statements until the backfiller waits. -/
def Place.left (table : List (Row Pubkey)) : Place Pubkey → ℕ
  | .selectForceChk =>
    if Settled table then 2 else loopsLeft table (forceChkTrees table) (multiRowTrees table) + 2
  | .selectMultiRow force =>
    if Settled table then 1 else loopsLeft table force (multiRowTrees table) + 1
  | .loops force multi => loopsLeft table force multi
  | .deleteOtherSeqs _ _ multi => loopsLeft table [] multi + 3
  | .findItems _ _ multi => loopsLeft table [] multi + 2
  | .deleteItems _ multi => loopsLeft table [] multi + 1
  | .listen => 0
  | .recv => 0
  | .stopped => 0

theorem forceChkTrees_eq_nil {table' : List (Row Pubkey)} (h : forceChkTrees table = [])
    (hsub : table' ⊆ table) : forceChkTrees table' = [] := by
  refine List.eq_nil_iff_forall_not_mem.2 fun t ht => ?_
  obtain ⟨row, hrow, hflag, htree⟩ := mem_forceChkTrees.1 ht
  exact List.eq_nil_iff_forall_not_mem.1 h t (mem_forceChkTrees.2 ⟨row, hsub hrow, hflag, htree⟩)

theorem multiRowTrees_subset {table' : List (Row Pubkey)} (h : table'.Sublist table) :
    multiRowTrees table' ⊆ multiRowTrees table := by
  intro t ht
  exact mem_multiRowTrees_iff.2 ((mem_multiRowTrees_iff.1 ht).trans_le ((h.map _).count_le t))

theorem multiRowTrees_clearForceChkFlag :
    multiRowTrees (clearForceChkFlag table tree) ⊆ multiRowTrees table := by
  have hmap : (clearForceChkFlag table tree).map (fun row => row.tree) =
      table.map fun row => row.tree := by
    rw [clearForceChkFlag, List.map_map]
    refine List.map_congr_left fun row _ => ?_
    rw [Function.comp_apply]
    split_ifs <;> rfl
  intro t ht
  rw [mem_multiRowTrees_iff, hmap] at ht
  exact mem_multiRowTrees_iff.2 ht

/-- A tree whose rows have one key has one row. -/
theorem not_mem_multiRowTrees (hnodup : (table.map Row.id).Nodup)
    (h : ∀ row ∈ table, row.tree = tree → ∀ row' ∈ table, row'.tree = tree → row.id = row'.id) :
    tree ∉ multiRowTrees table := by
  intro htree
  have hlength := mem_multiRowTrees_iff.1 htree
  rw [List.count, List.countP_map, List.countP_eq_length_filter] at hlength
  generalize hrows : table.filter _ = rows at hlength
  have hids : (rows.map Row.id).Nodup := hnodup.sublist (hrows ▸ List.filter_sublist.map _)
  have hmem : ∀ row ∈ rows, row ∈ table ∧ row.tree = tree := by
    intro row hrow
    rw [← hrows, List.mem_filter] at hrow
    exact ⟨hrow.1, by simpa using hrow.2⟩
  cases rows with
  | nil => exact absurd hlength (by simp)
  | cons x rows =>
    cases rows with
    | nil => exact absurd hlength (by simp)
    | cons y rows =>
      obtain ⟨hx, hx_tree⟩ := hmem x List.mem_cons_self
      obtain ⟨hy, hy_tree⟩ := hmem y (List.mem_cons_of_mem _ List.mem_cons_self)
      have hne := List.ne_of_not_mem_cons (List.nodup_cons.1 hids).1
      exact hne (h x hx hx_tree y hy hy_tree)

omit [DecidableEq Pubkey] in
/-- The item that is not deleted is the first one. -/
theorem id_eq_head {items : List (Row Pubkey)} (hrow : row ∈ items)
    (hid : row.id ∉ if items.length > 1 then (items.drop 1).map fun item => item.id else []) :
    row.id = (items.head (List.ne_nil_of_mem hrow)).id := by
  cases items with
  | nil => exact absurd hrow List.not_mem_nil
  | cons keep items =>
    obtain rfl | hrow := List.mem_cons.1 hrow
    · rfl
    · rw [if_pos (by simpa using List.length_pos_of_mem hrow)] at hid
      exact absurd (List.mem_map_of_mem hrow) hid

/-- The statement is one of a pass, which it brings nearer to its end. -/
theorem Succeeds.pass {place place' : Place Pubkey} {table' : List (Row Pubkey)}
    (h : Succeeds place table place' table') (hnodup : (table.map Row.id).Nodup)
    (hsound : place.Sound table) (hpass : place.Pass table) :
    place'.Pass table' ∧ place'.left table' < place.left table := by
  have hlength := h.sublist.length_le
  cases h with
  | listen => exact hpass.elim
  | selectForceChk h =>
    refine ⟨h, ?_⟩
    rw [Place.left, Place.left, loopsLeft, loopsLeft, h.length_eq]
    split_ifs <;> omega
  | @selectMultiRow _ force multi h =>
    by_cases hnil : force.length = 0 ∧ multi.length = 0
    · rw [if_pos hnil]
      rw [List.length_eq_zero_iff.1 hnil.2] at h
      rw [List.length_eq_zero_iff.1 hnil.1] at hpass
      refine ⟨⟨hpass.nil_eq.symm, h.nil_eq.symm⟩, ?_⟩
      rw [Place.left, Place.left]
      split_ifs <;> omega
    · have hsettled : ¬ Settled table := by
        intro hsettled
        refine hnil ⟨?_, ?_⟩
        · rw [hpass.length_eq, hsettled.1, List.length_nil]
        · rw [h.length_eq, hsettled.2, List.length_nil]
      rw [if_neg hnil, Place.left, Place.left, if_neg hsettled, loopsLeft, loopsLeft, h.length_eq]
      exact ⟨⟨hpass.symm.subset, h.symm.subset⟩, by omega⟩
  | maxSeq =>
    refine ⟨⟨List.subset_nil.1 hpass.1, hpass.2⟩, ?_⟩
    rw [Place.left, Place.left, loopsLeft, loopsLeft, List.length_cons]
    omega
  | again =>
    refine ⟨trivial, ?_⟩
    rw [Place.left, Place.left, if_pos ⟨List.subset_nil.1 hpass.1, List.subset_nil.1 hpass.2⟩,
      loopsLeft]
    omega
  | deleteOtherSeqs =>
    obtain ⟨hforce, hmulti⟩ := hpass
    refine ⟨⟨forceChkTrees_eq_nil hforce (fun row hrow => (mem_deleteOtherSeqs.1 hrow).1),
      List.Subset.trans (multiRowTrees_subset List.filter_sublist) hmulti,
      fun row hrow => (mem_deleteOtherSeqs.1 hrow).2⟩, ?_⟩
    rw [Place.left, Place.left, loopsLeft, loopsLeft]
    omega
  | @findItems _ tree seq multi items h =>
    obtain ⟨hforce, hmulti, hseq⟩ := hpass
    refine ⟨⟨hforce, tree, hmulti, fun row hrow htree hid row' hrow' htree' hid' => ?_⟩, ?_⟩
    · have hrow := h.mem_iff.2 (mem_itemsWithSeq.2 ⟨hrow, htree, hseq row hrow htree⟩)
      have hrow' := h.mem_iff.2 (mem_itemsWithSeq.2 ⟨hrow', htree', hseq row' hrow' htree'⟩)
      exact (id_eq_head hrow hid).trans (id_eq_head hrow' hid').symm
    · rw [Place.left, Place.left]
      omega
  | @deleteItem _ id ids multi =>
    obtain ⟨hforce, tree, hmulti, hone⟩ := hpass
    refine ⟨⟨forceChkTrees_eq_nil hforce (fun row hrow => (mem_deleteById.1 hrow).1), tree,
      List.Subset.trans (multiRowTrees_subset List.filter_sublist) hmulti,
      fun row hrow htree hid row' hrow' htree' hid' => ?_⟩, ?_⟩
    · obtain ⟨hrow, hne⟩ := mem_deleteById.1 hrow
      obtain ⟨hrow', hne'⟩ := mem_deleteById.1 hrow'
      exact hone row hrow htree (List.not_mem_cons_of_ne_of_not_mem hne hid) row' hrow' htree'
        (List.not_mem_cons_of_ne_of_not_mem hne' hid')
    · obtain ⟨row, hrow, hid, -⟩ := hsound.2.1 id List.mem_cons_self
      have hlt : (deleteById table id).length < table.length :=
        List.length_filter_lt_length_iff_exists.2 ⟨row, hrow, by simp [hid]⟩
      rw [Place.left, Place.left, loopsLeft, loopsLeft]
      omega
  | deleted =>
    obtain ⟨hforce, tree, hmulti, hone⟩ := hpass
    refine ⟨⟨List.subset_nil.2 hforce, fun t ht => ?_⟩, ?_⟩
    · obtain rfl | ht' := List.mem_cons.1 (hmulti ht)
      · exact absurd ht (not_mem_multiRowTrees hnodup fun row hrow htree row' hrow' htree' =>
          hone row hrow htree List.not_mem_nil row' hrow' htree' List.not_mem_nil)
      · exact ht'
    · rw [Place.left, Place.left]
      omega

theorem Undisturbed.pass (h : Undisturbed s a s') (hinv : s.Inv)
    (hpass : s.place.Pass s.table) :
    s'.place.Pass s'.table ∧ s'.place.left s'.table < s.place.left s.table := by
  obtain ⟨hstep, rfl | ⟨tree, rfl⟩⟩ := h
  · cases hstep with
    | success h => exact h.pass hinv.nodup_table hinv.sound hpass
  · cases hstep with
    | @cleared _ force multi hplace =>
      rw [hplace] at hpass ⊢
      obtain ⟨hforce, hmulti⟩ := hpass
      refine ⟨⟨fun t ht => ?_, List.Subset.trans multiRowTrees_clearForceChkFlag hmulti⟩, ?_⟩
      · obtain ⟨hne, ht⟩ := mem_forceChkTrees_clear.1 ht
        exact List.mem_of_ne_of_mem hne (hforce ht)
      · rw [Place.left, Place.left, loopsLeft, loopsLeft, clearForceChkFlag, List.length_map,
          List.length_cons]
        omega

/-- In a pass there is a next statement until the backfiller waits. -/
theorem Place.Pass.exists_succeeds {place : Place Pubkey} (hpass : place.Pass table)
    (hplace : place ≠ .recv) : (∃ place' table', Succeeds place table place' table') ∨
      ∃ tree force multi, place = .loops (tree :: force) multi := by
  cases place with
  | listen => exact hpass.elim
  | selectForceChk => exact Or.inl ⟨_, _, .selectForceChk (.refl _)⟩
  | selectMultiRow force => exact Or.inl ⟨_, _, .selectMultiRow (.refl _)⟩
  | recv => exact absurd rfl hplace
  | loops force multi =>
    cases force with
    | cons tree force => exact Or.inr ⟨tree, force, multi, rfl⟩
    | nil =>
      cases multi with
      | nil => exact Or.inl ⟨_, _, .again⟩
      | cons tree multi => exact Or.inl ⟨_, _, .maxSeq⟩
  | deleteOtherSeqs tree seq multi => exact Or.inl ⟨_, _, .deleteOtherSeqs⟩
  | findItems tree seq multi => exact Or.inl ⟨_, _, .findItems (.refl _)⟩
  | deleteItems ids multi =>
    cases ids with
    | nil => exact Or.inl ⟨_, _, .deleted⟩
    | cons id ids => exact Or.inl ⟨_, _, .deleteItem⟩
  | stopped => exact hpass.elim

theorem exists_undisturbed (hpass : s.place.Pass s.table) (hplace : s.place ≠ .recv) :
    ∃ a s', Undisturbed s a s' := by
  obtain ⟨place, table, h⟩ | ⟨tree, force, multi, h⟩ := hpass.exists_succeeds hplace
  · exact ⟨_, _, .success h, Or.inl rfl⟩
  · exact ⟨_, _, .cleared h, Or.inr ⟨tree, rfl⟩⟩

/-- The rows are some of `old`, up to the flag. -/
def RowsOf (old table : List (Row Pubkey)) : Prop :=
  ∀ r ∈ table, ∃ row ∈ old, row.id = r.id ∧ row.tree = r.tree ∧ row.seq = r.seq ∧ row.slot = r.slot

theorem Undisturbed.rowsOf (h : Undisturbed s a s') {old : List (Row Pubkey)}
    (hold : RowsOf old s.table) : RowsOf old s'.table := by
  obtain ⟨hstep, rfl | ⟨tree, rfl⟩⟩ := h
  · cases hstep with
    | success h => exact fun r hr => hold r (h.sublist.subset hr)
  · cases hstep with
    | cleared =>
      intro r hr
      obtain ⟨row, hrow, rfl⟩ := List.mem_map.1 hr
      obtain ⟨row', hrow', heq⟩ := hold row hrow
      refine ⟨row', hrow', ?_⟩
      split_ifs <;> exact heq

/-- What an undisturbed run from the first query of a pass keeps. -/
theorem undisturbed_run {t : Service Pubkey} (hinv : s.Inv) (hplace : s.place = .selectForceChk)
    (h : Steps Undisturbed s as t) :
    t.Inv ∧ t.place.Pass t.table ∧ as.length + t.place.left t.table ≤ s.place.left s.table ∧
      t.place.Newest t.table ∧ (∀ row ∈ s.table, Kept t.table row) ∧ RowsOf s.table t.table := by
  induction h with
  | refl =>
    refine ⟨hinv, ?_, ?_, ?_, fun _ => kept_of_mem, fun r hr => ⟨r, hr, rfl, rfl, rfl, rfl⟩⟩
    · rw [hplace]
      trivial
    · rw [List.length_nil, Nat.zero_add]
    · intro tree seq multi h
      rw [hplace] at h
      cases h
  | @step as t t' a _ hstep ih =>
    obtain ⟨hinv, hpass, hleft, hnew, hkept, hrows⟩ := ih
    obtain ⟨hpass', hlt⟩ := hstep.pass hinv hpass
    have hkeep : ∀ r ∈ t.table, Kept t'.table r := fun r hr =>
      hstep.1.kept hinv hr fun tree seq multi hplace _ => hnew tree seq multi hplace r hr
    refine ⟨hinv.step hstep.1, hpass', ?_, hstep.1.newest hinv hnew ?_,
      fun row hrow => (hkept row hrow).trans hkeep, hstep.rowsOf hrows⟩
    · rw [List.length_cons]
      omega
    · rintro _ _ _ rows - rfl
      obtain h | ⟨_, h⟩ := hstep.2 <;> cases h

theorem left_selectForceChk_le (table : List (Row Pubkey)) :
    Place.selectForceChk.left table ≤ 6 * table.length + 5 := by
  have hforce : (forceChkTrees table).length ≤ table.length := by
    refine (List.dedup_sublist _).length_le.trans ?_
    rw [List.length_map]
    exact List.length_filter_le _ _
  have hmulti : (multiRowTrees table).length ≤ table.length := by
    refine (List.length_filter_le _ _).trans ((List.dedup_sublist _).length_le.trans ?_)
    rw [List.length_map]
  rw [Place.left, loopsLeft]
  split_ifs <;> omega

/-- Left alone, the backfiller comes to rest: from the first query of a pass it has a next
statement until it waits, which happens after a number of statements that the size of the table
bounds, and then every tree has one row, which is its newest and has no flag. -/
theorem comes_to_rest (hinit : s₀.Initial) {bs : List (Event Pubkey)} (h₀ : Steps Step s₀ bs s)
    (hplace : s.place = .selectForceChk) {t : Service Pubkey} (h : Steps Undisturbed s as t) :
    as.length ≤ 6 * s.table.length + 5 ∧ (t.place ≠ .recv → ∃ a t', Undisturbed t a t') ∧
      (t.place = .recv →
        (∀ row ∈ s.table, ∃ r ∈ t.table, r.tree = row.tree ∧ row.seq ≤ r.seq) ∧
        (∀ r ∈ t.table, r.forceChk ≠ some true ∧ ∀ r' ∈ t.table, r'.tree = r.tree → r' = r) ∧
        RowsOf s.table t.table) := by
  obtain ⟨hinv, hpass, hleft, -, hkept, hrows⟩ :=
    undisturbed_run (hinit.inv_of_steps h₀) hplace h
  refine ⟨?_, exists_undisturbed hpass, fun hrecv => ⟨hkept, fun r hr => ?_, hrows⟩⟩
  · rw [hplace] at hleft
    have hbound := left_selectForceChk_le s.table
    omega
  · rw [hrecv] at hpass
    obtain ⟨hflag, hnodup⟩ := settled_iff.1 hpass
    exact ⟨hflag r hr, fun r' hr' htree => List.inj_on_of_nodup_map hnodup hr' hr htree⟩

theorem comes_to_rest_fresh : ∃ a t', Undisturbed
    ⟨[lateRow], [], 1, 0, .selectMultiRow (forceChkTrees [lateRow])⟩ a t' :=
  (comes_to_rest fresh_initial (.step fresh_run (.success .listen)) rfl
    (.step .refl ⟨.success (.selectForceChk (.refl _)), Or.inl rfl⟩)).2.1 (by simp)

end Candyland.NftIngester.Backfill
