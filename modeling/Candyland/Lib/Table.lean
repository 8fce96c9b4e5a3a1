import Mathlib.Data.List.Induction
import Mathlib.Data.List.Sort

/-!
# Tables as lists of rows

A table with a primary key is a list of rows with different keys, of which only the rows matter
and not their order.  `upsert` inserts a row or merges it into the one that has its key.
-/

namespace Table

variable {κ ρ σ : Type*} [DecidableEq κ] (key : ρ → κ) (merge : ρ → ρ → ρ)

/-- `INSERT .. ON CONFLICT (key) DO UPDATE ..`: a row that has the key is merged with the new
one. -/
def upsert : List ρ → ρ → List ρ
  | [], row => [row]
  | old :: rows, row =>
    if key old = key row then merge old row :: rows else old :: upsert rows row

/-- The row with a key. -/
def lookup (rows : List ρ) (k : κ) : Option ρ := rows.find? fun row => key row = k

/-- `GROUP BY group`: of every group the first row with the largest value. -/
def groupMax [LinearOrder σ] (value : ρ → σ) (rows : List ρ) : List ρ :=
  rows.foldl (upsert key fun old row => if value old < value row then row else old) []

/-- `ORDER BY value`. -/
def orderBy [LinearOrder σ] (value : ρ → σ) (rows : List ρ) : List ρ :=
  rows.insertionSort fun a b => value a ≤ value b

variable {key merge} {rows rows' : List ρ} {k : κ}

/-! ### Keys -/

@[simp] theorem lookup_nil : lookup key ([] : List ρ) k = none := rfl

@[simp] theorem lookup_cons (row : ρ) :
    lookup key (row :: rows) k = if key row = k then some row else lookup key rows k := by
  rw [lookup, List.find?_cons]
  split_ifs with h
  · simp [h]
  · simp [h, lookup]

theorem lookup_eq_none_iff : lookup key rows k = none ↔ ∀ row ∈ rows, key row ≠ k := by
  simp [lookup]

theorem key_of_lookup {row : ρ} (h : lookup key rows k = some row) : key row = k := by
  simpa using List.find?_some h

theorem mem_of_lookup {row : ρ} (h : lookup key rows k = some row) : row ∈ rows :=
  List.mem_of_find?_eq_some h

/-- Under a primary key the rows are those that are looked up. -/
theorem lookup_eq_some_iff (h : (rows.map key).Nodup) {row : ρ} :
    lookup key rows k = some row ↔ row ∈ rows ∧ key row = k := by
  constructor
  · intro hrow
    exact ⟨mem_of_lookup hrow, key_of_lookup hrow⟩
  · rintro ⟨hrow, rfl⟩
    obtain ⟨row', hrow'⟩ : ∃ row', lookup key rows (key row) = some row' := by
      refine Option.ne_none_iff_exists'.1 fun hnone => ?_
      exact lookup_eq_none_iff.1 hnone row hrow rfl
    rw [hrow', List.inj_on_of_nodup_map h (mem_of_lookup hrow') hrow (key_of_lookup hrow')]

/-- Tables with the same rows differ at most in their order. -/
theorem perm_of_lookup (h : (rows.map key).Nodup) (h' : (rows'.map key).Nodup)
    (hlookup : ∀ k, lookup key rows k = lookup key rows' k) : rows.Perm rows' := by
  refine (List.perm_ext_iff_of_nodup (.of_map key h) (.of_map key h')).2 ?_
  intro row
  have hiff : lookup key rows (key row) = some row ↔ _ := lookup_eq_some_iff h
  have hiff' : lookup key rows' (key row) = some row ↔ _ := lookup_eq_some_iff h'
  rw [hlookup] at hiff
  simpa using hiff.symm.trans hiff'

/-! ### Upserts -/

section Upsert

variable (hkey : ∀ old row, key old = key row → key (merge old row) = key row)

include hkey

theorem lookup_upsert (row : ρ) : lookup key (upsert key merge rows row) k =
    if key row = k then some (((lookup key rows k).map (merge · row)).getD row)
    else lookup key rows k := by
  induction rows with
  | nil => simp [upsert]
  | cons old rows ih =>
    rw [upsert]
    split_ifs with hrow hk hk
    · simp [hrow, hk, hkey old row hrow]
    · simp [hrow, hk, hkey old row hrow]
    · have hne : key old ≠ k := fun heq => hrow (heq.trans hk.symm)
      rw [lookup_cons, lookup_cons, ih, if_neg hne, if_neg hne, if_pos hk]
    · rw [lookup_cons, lookup_cons, ih, if_neg hk]

theorem map_key_upsert (row : ρ) : (upsert key merge rows row).map key =
    if key row ∈ rows.map key then rows.map key else rows.map key ++ [key row] := by
  induction rows with
  | nil => simp [upsert]
  | cons old rows ih =>
    rw [upsert]
    split_ifs with hrow hmem hmem
    · simp [hkey old row hrow, hrow]
    · exact absurd (by simp [hrow]) hmem
    · have hmem' : key row ∈ rows.map key := by
        simpa [Ne.symm hrow, eq_comm] using hmem
      rw [List.map_cons, ih, if_pos hmem', List.map_cons]
    · have hmem' : key row ∉ rows.map key := fun h => hmem (by simpa using .inr (by simpa using h))
      rw [List.map_cons, ih, if_neg hmem', List.map_cons, List.cons_append]

/-- An upsert keeps the keys different. -/
theorem nodup_upsert (h : (rows.map key).Nodup) (row : ρ) :
    ((upsert key merge rows row).map key).Nodup := by
  rw [map_key_upsert hkey]
  split_ifs with hmem
  · exact h
  · rw [List.nodup_append]
    refine ⟨h, by simp, ?_⟩
    rintro a ha b hb rfl
    obtain rfl := List.mem_singleton.1 hb
    exact hmem ha

theorem nodup_foldl_upsert (new : List ρ) :
    ((new.foldl (upsert key merge) []).map key).Nodup := by
  induction new using List.reverseRecOn with
  | nil => exact List.nodup_nil
  | append_singleton new row ih =>
    rw [List.foldl_append]
    exact nodup_upsert hkey ih row

theorem mem_map_key_foldl_upsert {new : List ρ} :
    k ∈ (new.foldl (upsert key merge) []).map key ↔ k ∈ new.map key := by
  induction new using List.reverseRecOn generalizing k with
  | nil => rfl
  | append_singleton new row ih =>
    rw [List.foldl_append, List.foldl_cons, List.foldl_nil, map_key_upsert hkey]
    split_ifs with hmem
    · rw [ih] at hmem
      rw [ih, List.map_append, List.mem_append, List.map_singleton, List.mem_singleton]
      constructor
      · exact .inl
      · rintro (hk | rfl)
        · exact hk
        · exact hmem
    · rw [List.mem_append, ih, List.map_append, List.mem_append, List.map_singleton]

/-- When a new row replaces the old one, the last row of a key stays. -/
theorem lookup_foldl_upsert_last
    (hmerge : ∀ old row, key old = key row → merge old row = row) (new : List ρ) :
    lookup key (new.foldl (upsert key merge) rows) k =
      (new.filter fun row => key row = k).getLast?.or (lookup key rows k) := by
  induction new using List.reverseRecOn with
  | nil => simp
  | append_singleton new row ih =>
    rw [List.foldl_append, List.foldl_cons, List.foldl_nil, lookup_upsert hkey, ih]
    split_ifs with hk
    · have hlast : (([row] : List ρ).filter fun row => key row = k) = [row] := by simp [hk]
      rw [List.filter_append, hlast, List.getLast?_concat, Option.some_or]
      cases hold : (new.filter fun row => key row = k).getLast?.or (lookup key rows k) with
      | none => rfl
      | some old =>
        have hkold : key old = k := by
          rcases Option.or_eq_some_iff.1 hold with hold | ⟨-, hold⟩
          · simpa using (List.mem_filter.1 (List.mem_of_getLast? hold)).2
          · exact key_of_lookup hold
        simp [hmerge old row (hkold.trans hk.symm)]
    · simp [hk]

/-- When a row is replaced unless it is newer, the newest row of a key stays, as far as the
columns go that are replaced. -/
theorem lookup_foldl_upsert_newest {τ : Type*} [LinearOrder σ] {version : ρ → σ} {view : ρ → τ}
    (hversion : ∀ old row, version (merge old row) = max (version old) (version row))
    (hview : ∀ old row, key old = key row →
      view (merge old row) = if version old ≤ version row then view row else view old)
    (new : List ρ) (k : κ) :
    (lookup key (new.foldl (upsert key merge) []) k = none ∧ ∀ row ∈ new, key row ≠ k) ∨
    ∃ row ∈ new, key row = k ∧ (∀ row' ∈ new, key row' = k → version row' ≤ version row) ∧
      ∃ r, lookup key (new.foldl (upsert key merge) []) k = some r ∧ view r = view row ∧
        version r = version row := by
  induction new using List.reverseRecOn with
  | nil => exact .inl ⟨rfl, by simp⟩
  | append_singleton new row ih =>
    rw [List.foldl_append, List.foldl_cons, List.foldl_nil, lookup_upsert hkey]
    by_cases hk : key row = k
    · right
      rw [if_pos hk]
      rcases ih with ⟨hnone, hno⟩ | ⟨row₁, hmem, hk₁, hmax, r, hr, hviewr, hversionr⟩
      · refine ⟨row, by simp, hk, ?_, row, by simp [hnone], rfl, rfl⟩
        intro row' hrow' hk'
        rcases List.mem_append.1 hrow' with hmem | hmem
        · exact absurd hk' (hno row' hmem)
        · exact (congrArg version (List.mem_singleton.1 hmem)).le
      · have hkr : key r = key row := (key_of_lookup hr).trans hk.symm
        rw [hr, Option.map_some, Option.getD_some]
        by_cases hle : version r ≤ version row
        · refine ⟨row, by simp, hk, ?_, _, rfl, ?_, ?_⟩
          · intro row' hrow' hk'
            rcases List.mem_append.1 hrow' with hmem' | hmem'
            · exact (hmax row' hmem' hk').trans (hversionr ▸ hle)
            · exact (congrArg version (List.mem_singleton.1 hmem')).le
          · rw [hview r row hkr, if_pos hle]
          · rw [hversion, max_eq_right hle]
        · refine ⟨row₁, by simp [hmem], hk₁, ?_, _, rfl, ?_, ?_⟩
          · intro row' hrow' hk'
            rcases List.mem_append.1 hrow' with hmem' | hmem'
            · exact hmax row' hmem' hk'
            · rw [List.mem_singleton.1 hmem', ← hversionr]
              exact (not_le.1 hle).le
          · rw [hview r row hkr, if_neg hle, hviewr]
          · rw [hversion, max_eq_left (not_le.1 hle).le, hversionr]
    · rw [if_neg hk]
      rcases ih with ⟨hnone, hno⟩ | ⟨row₁, hmem, hk₁, hmax, r, hr, hviewr, hversionr⟩
      · refine .inl ⟨hnone, ?_⟩
        intro row' hrow'
        rcases List.mem_append.1 hrow' with hmem | hmem
        · exact hno row' hmem
        · rw [List.mem_singleton.1 hmem]
          exact hk
      · refine .inr ⟨row₁, by simp [hmem], hk₁, ?_, r, hr, hviewr, hversionr⟩
        intro row' hrow' hk'
        rcases List.mem_append.1 hrow' with hmem' | hmem'
        · exact hmax row' hmem' hk'
        · exact absurd hk' (List.mem_singleton.1 hmem' ▸ hk)

/-- When a new row replaces the old one, rows come in batches and all batches with rows of a key
are the same, it is a batch that decides. -/
theorem lookup_foldl_upsert_flatMap {δ : Type*} {batch : δ → List ρ}
    (hmerge : ∀ old row, key old = key row → merge old row = row) {l : List δ} {d : δ}
    (hd : d ∈ l) (hk : k ∈ (batch d).map key)
    (hone : ∀ d' ∈ l, k ∈ (batch d').map key → batch d' = batch d) :
    lookup key ((l.flatMap batch).foldl (upsert key merge) []) k =
      ((batch d).filter fun row => key row = k).getLast? := by
  rw [lookup_foldl_upsert_last hkey hmerge, lookup_nil, Option.or_none]
  induction l using List.reverseRecOn with
  | nil => cases hd
  | append_singleton l d' ih =>
    rw [List.flatMap_append, List.filter_append, List.getLast?_append, List.flatMap_singleton]
    by_cases hk' : k ∈ (batch d').map key
    · rw [hone d' (by simp) hk']
      obtain ⟨row, hrow, hkrow⟩ := List.mem_map.1 hk
      have hmem : row ∈ (batch d).filter fun row => key row = k := by simp [hrow, hkrow]
      rw [List.getLast?_eq_getLast_of_ne_nil (List.ne_nil_of_mem hmem), Option.some_or]
    · have hnil : ((batch d').filter fun row => key row = k) = [] := by
        simpa [List.filter_eq_nil_iff] using hk'
      rw [hnil, List.getLast?_nil, Option.none_or]
      rcases List.mem_append.1 hd with hd | hd
      · exact ih hd fun d' hd' => hone d' (by simp [hd'])
      · rw [List.mem_singleton.1 hd] at hk
        exact absurd hk hk'

/-- When a row is replaced unless it is newer, neither the order nor repetitions matter. -/
theorem lookup_foldl_upsert_newest_congr {τ : Type*} [LinearOrder σ] {version : ρ → σ}
    {view : ρ → τ} (hversion : ∀ old row, version (merge old row) = max (version old) (version row))
    (hview : ∀ old row, key old = key row →
      view (merge old row) = if version old ≤ version row then view row else view old)
    {new new' : List ρ} (hmem : ∀ row, row ∈ new ↔ row ∈ new')
    (hone : ∀ row ∈ new, ∀ row' ∈ new, key row = key row' → version row = version row' →
      row = row') (k : κ) :
    (lookup key (new.foldl (upsert key merge) []) k).map view =
      (lookup key (new'.foldl (upsert key merge) []) k).map view := by
  rcases lookup_foldl_upsert_newest hkey hversion hview new k with
    ⟨hnone, hno⟩ | ⟨row, hrow, hk, hmax, r, hr, hviewr, -⟩ <;>
  rcases lookup_foldl_upsert_newest hkey hversion hview new' k with
    ⟨hnone', hno'⟩ | ⟨row', hrow', hk', hmax', r', hr', hviewr', -⟩
  · rw [hnone, hnone']
  · exact absurd hk' (hno row' ((hmem row').2 hrow'))
  · exact absurd hk (hno' row ((hmem row).1 hrow))
  · have hle := hmax row' ((hmem row').2 hrow') hk'
    have hle' := hmax' row ((hmem row).1 hrow) hk
    have heq : row = row' :=
      hone row hrow row' ((hmem row').2 hrow') (hk.trans hk'.symm) (le_antisymm hle' hle)
    rw [hr, hr', Option.map_some, Option.map_some, hviewr, hviewr', heq]

end Upsert

/-- When one of two rows stays, all rows were inserted. -/
theorem mem_of_mem_foldl_upsert
    (hmerge : ∀ old row, key old = key row → merge old row = old ∨ merge old row = row)
    {row : ρ} {new : List ρ} (h : row ∈ new.foldl (upsert key merge) []) : row ∈ new := by
  have hupsert : ∀ (rows : List ρ) new, row ∈ upsert key merge rows new →
      row ∈ rows ∨ row = new := by
    intro rows new h
    induction rows with
    | nil => exact .inr (List.mem_singleton.1 h)
    | cons old rows ih =>
      rw [upsert] at h
      split_ifs at h with hkey
      · rcases List.mem_cons.1 h with hrow | h
        · rcases hmerge old new hkey with heq | heq
          · rw [hrow, heq]
            exact .inl List.mem_cons_self
          · exact .inr (hrow.trans heq)
        · exact .inl (.tail _ h)
      · rcases List.mem_cons.1 h with rfl | h
        · exact .inl List.mem_cons_self
        · exact (ih h).imp_left (.tail _)
  induction new using List.reverseRecOn with
  | nil => exact h
  | append_singleton new row' ih =>
    rw [List.foldl_append] at h
    rcases hupsert _ row' h with h | rfl
    · exact List.mem_append_left _ (ih h)
    · simp

/-- A table is the list of the rows of its keys. -/
theorem perm_filterMap_lookup (h : (rows.map key).Nodup) {ks : List κ} (hks : ks.Nodup)
    (hmem : ∀ row ∈ rows, key row ∈ ks) : rows.Perm (ks.filterMap (lookup key rows)) := by
  have hnodup : (ks.filterMap (lookup key rows)).Nodup := by
    refine hks.filterMap ?_
    rintro k k' row hk hk'
    rw [← key_of_lookup hk, ← key_of_lookup hk']
  refine (List.perm_ext_iff_of_nodup (.of_map key h) hnodup).2 fun row => ?_
  rw [List.mem_filterMap]
  constructor
  · intro hrow
    exact ⟨key row, hmem row hrow, (lookup_eq_some_iff h).2 ⟨hrow, rfl⟩⟩
  · rintro ⟨k, -, hk⟩
    exact mem_of_lookup hk

/-- Looking up some columns of the rows. -/
theorem lookup_map {view : ρ → ρ} (hview : ∀ row, key (view row) = key row) (rows : List ρ)
    (k : κ) : lookup key (rows.map view) k = (lookup key rows k).map view := by
  induction rows with
  | nil => rfl
  | cons row rows ih =>
    rw [List.map_cons, lookup_cons, lookup_cons, ih, hview]
    split_ifs <;> rfl

/-! ### Groups -/

section Groups

variable [LinearOrder σ] {value : ρ → σ}

omit [DecidableEq κ] in
theorem key_larger (old row : ρ) (h : key old = key row) :
    key (if value old < value row then row else old) = key row := by
  split_ifs
  · rfl
  · exact h

theorem nodup_groupMax (rows : List ρ) : ((groupMax key value rows).map key).Nodup :=
  nodup_foldl_upsert key_larger rows

theorem mem_of_mem_groupMax {row : ρ} (h : row ∈ groupMax key value rows) : row ∈ rows :=
  mem_of_mem_foldl_upsert (fun old row _ => by split_ifs <;> simp) h

variable (key value) in
/-- What is found for a group: nothing, or a row with the largest value. -/
theorem lookup_groupMax (rows : List ρ) (k : κ) :
    (lookup key (groupMax key value rows) k = none ∧ ∀ row ∈ rows, key row ≠ k) ∨
    ∃ row ∈ rows, lookup key (groupMax key value rows) k = some row ∧ key row = k ∧
      ∀ row' ∈ rows, key row' = k → value row' ≤ value row := by
  have hmax : ∀ old row : ρ,
      value (if value old < value row then row else old) = max (value old) (value row) := by
    intro old row
    split_ifs with hlt
    · exact (max_eq_right hlt.le).symm
    · exact (max_eq_left (not_lt.1 hlt)).symm
  have hview : ∀ old row : ρ, key old = key row →
      value (if value old < value row then row else old) =
        if value old ≤ value row then value row else value old := by
    intro old row _
    rw [hmax, max_def]
  rcases lookup_foldl_upsert_newest key_larger hmax hview rows k with hnone | ⟨row, -, -, hle, r, hr, hvalue, -⟩
  · exact .inl hnone
  · have hmem : r ∈ rows := mem_of_mem_groupMax (mem_of_lookup hr)
    refine .inr ⟨r, hmem, hr, key_of_lookup hr, ?_⟩
    intro row' hrow' hk'
    rw [hvalue]
    exact hle row' hrow' hk'

end Groups

/-! ### Orders -/

section Orders

omit [DecidableEq κ]

variable [LinearOrder σ] {value : ρ → σ}

theorem orderBy_perm (value : ρ → σ) (rows : List ρ) : (orderBy value rows).Perm rows :=
  List.perm_insertionSort _ rows

theorem orderBy_pairwise (value : ρ → σ) (rows : List ρ) :
    (orderBy value rows).Pairwise fun a b => value a ≤ value b := by
  have : Std.Total fun a b : ρ => value a ≤ value b := ⟨fun a b => le_total _ _⟩
  have : IsTrans ρ fun a b => value a ≤ value b := ⟨fun a b c hab hbc => hab.trans hbc⟩
  exact List.pairwise_insertionSort _ rows

/-- Rows with different values have one order. -/
theorem orderBy_eq {l : List ρ} (hperm : rows.Perm l)
    (hl : l.Pairwise fun a b => value a < value b) : orderBy value rows = l := by
  have hinj : ∀ a ∈ l, ∀ b ∈ l, value a = value b → a = b := by
    have hnodup : (l.map value).Nodup := List.pairwise_map.2 (hl.imp ne_of_lt)
    exact fun a ha b hb heq => List.inj_on_of_nodup_map hnodup ha hb heq
  refine List.Perm.eq_of_pairwise ?_ (orderBy_pairwise value rows) (hl.imp le_of_lt)
    ((orderBy_perm value rows).trans hperm)
  intro a b ha hb hab hba
  exact hinj a (((orderBy_perm value rows).trans hperm).mem_iff.1 ha) b hb (le_antisymm hab hba)

/-- The first row has the smallest value. -/
theorem head?_orderBy {row : ρ} (hmem : row ∈ rows) (hmin : ∀ row' ∈ rows, value row ≤ value row') :
    (orderBy value rows).head?.map value = some (value row) := by
  have hperm := orderBy_perm value rows
  have hpairwise := orderBy_pairwise value rows
  have hmem' := hperm.mem_iff.2 hmem
  cases h : orderBy value rows with
  | nil =>
    rw [h] at hmem'
    cases hmem'
  | cons first rest =>
    rw [h] at hperm hpairwise hmem'
    have hle : value row ≤ value first := hmin first (hperm.mem_iff.1 List.mem_cons_self)
    have hge : value first ≤ value row := by
      rcases List.mem_cons.1 hmem' with rfl | hrest
      · exact le_rfl
      · exact (List.pairwise_cons.1 hpairwise).1 row hrest
    exact congrArg some (le_antisymm hge hle)

end Orders

end Table
