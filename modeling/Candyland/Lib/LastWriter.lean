import Mathlib

/-!
# Tables where the last writer wins

A table has at most one row for each key.  A row that is delivered is inserted, or it
overwrites the row that is there if its version is greater, so that redelivered and
belated rows do nothing.

When the rows that are delivered for a key differ in their versions, the table ends with
the one of the greatest version, whatever the order and the repetitions of the deliveries.
-/

namespace LastWriter

variable {κ ρ σ : Type*} [DecidableEq κ] [LinearOrder σ] (version : ρ → σ) (overwrite : ρ → ρ → ρ)

/-- Inserts a row, or overwrites an older one. -/
def upsert (table : κ → Option ρ) (key : κ) (row : ρ) : κ → Option ρ :=
  Function.update table key <|
    match table key with
    | none => some row
    | some old => if version old < version row then some (overwrite old row) else some old

/-- Makes deliveries one after the other. -/
def deliver (table : κ → Option ρ) (deliveries : List (κ × ρ)) : κ → Option ρ :=
  deliveries.foldl (fun table d => upsert version overwrite table d.1 d.2) table

/-- A row of the greatest version that is delivered for the key. -/
def Newest (deliveries : List (κ × ρ)) (key : κ) (row : ρ) : Prop :=
  (key, row) ∈ deliveries ∧ ∀ row', (key, row') ∈ deliveries → version row' ≤ version row

/-- Rows for the key overwrite each other completely, and different ones have different
versions. -/
structure Coherent (deliveries : List (κ × ρ)) (key : κ) : Prop where
  overwrite_eq : ∀ old row, (key, old) ∈ deliveries → (key, row) ∈ deliveries →
    overwrite old row = row
  version_inj : ∀ row row', (key, row) ∈ deliveries → (key, row') ∈ deliveries →
    version row = version row' → row = row'

variable {version overwrite} {table : κ → Option ρ} {deliveries : List (κ × ρ)} {key : κ}

theorem upsert_self (row : ρ) : upsert version overwrite table key row key =
    match table key with
    | none => some row
    | some old => if version old < version row then some (overwrite old row) else some old :=
  Function.update_self ..

theorem upsert_of_ne {key' : κ} (h : key ≠ key') (row : ρ) :
    upsert version overwrite table key' row key = table key :=
  Function.update_of_ne h ..

theorem deliver_concat (d : κ × ρ) : deliver version overwrite table (deliveries ++ [d]) =
    upsert version overwrite (deliver version overwrite table deliveries) d.1 d.2 := by
  rw [deliver, List.foldl_append]
  rfl

omit [DecidableEq κ] in
theorem Newest.unique (h : Coherent version overwrite deliveries key) {row row' : ρ}
    (hrow : Newest version deliveries key row) (hrow' : Newest version deliveries key row') :
    row = row' :=
  h.version_inj row row' hrow.1 hrow'.1 (le_antisymm (hrow'.2 row hrow.1) (hrow.2 row' hrow'.1))

omit [DecidableEq κ] [LinearOrder σ] in
theorem Coherent.mono (h : Coherent version overwrite deliveries key)
    {deliveries' : List (κ × ρ)} (hsub : ∀ row, (key, row) ∈ deliveries' → (key, row) ∈ deliveries) :
    Coherent version overwrite deliveries' key where
  overwrite_eq old row hold hrow := h.overwrite_eq old row (hsub old hold) (hsub row hrow)
  version_inj row row' hrow hrow' := h.version_inj row row' (hsub row hrow) (hsub row' hrow')

omit [DecidableEq κ] [LinearOrder σ] in
theorem Coherent.of_concat {d : κ × ρ}
    (h : Coherent version overwrite (deliveries ++ [d]) key) :
    Coherent version overwrite deliveries key :=
  h.mono fun _ hrow => List.mem_append_left _ hrow

/-- What a table without a row for the key holds after the deliveries. -/
theorem deliver_spec (hempty : table key = none)
    (h : Coherent version overwrite deliveries key) :
    (deliver version overwrite table deliveries key = none ∧ ∀ row, (key, row) ∉ deliveries) ∨
      ∃ row, deliver version overwrite table deliveries key = some row ∧
        Newest version deliveries key row := by
  induction deliveries using List.reverseRecOn with
  | nil => exact .inl ⟨hempty, fun row => List.not_mem_nil⟩
  | append_singleton deliveries d ih =>
    obtain ⟨key', new⟩ := d
    have hmem : ∀ row, (key, row) ∈ deliveries ++ [(key', new)] ↔
        (key, row) ∈ deliveries ∨ key = key' ∧ row = new := by
      intro row
      rw [List.mem_append, List.mem_singleton, Prod.mk.injEq]
    rw [deliver_concat]
    by_cases hkey : key = key'
    · subst hkey
      have hnew := (hmem new).2 (.inr ⟨rfl, rfl⟩)
      right
      rw [upsert_self]
      rcases ih h.of_concat with ⟨hnone, hno⟩ | ⟨old, hsome, hold⟩
      · refine ⟨new, by rw [hnone], hnew, fun row hrow => ?_⟩
        rcases (hmem row).1 hrow with hrow | ⟨-, rfl⟩
        · exact absurd hrow (hno row)
        · exact le_rfl
      · rw [hsome]
        dsimp only
        split_ifs with hlt
        · -- the new row is newer than all before
          refine ⟨new, by rw [h.overwrite_eq old new ((hmem old).2 (.inl hold.1)) hnew], hnew,
            fun row hrow => ?_⟩
          rcases (hmem row).1 hrow with hrow | ⟨-, rfl⟩
          · exact (hold.2 row hrow).trans hlt.le
          · exact le_rfl
        · refine ⟨old, rfl, (hmem old).2 (.inl hold.1), fun row hrow => ?_⟩
          rcases (hmem row).1 hrow with hrow | ⟨-, rfl⟩
          · exact hold.2 row hrow
          · exact not_lt.1 hlt
    · rw [upsert_of_ne hkey]
      have hmem' : ∀ row, (key, row) ∈ deliveries ++ [(key', new)] ↔ (key, row) ∈ deliveries :=
        fun row => (hmem row).trans (or_iff_left fun hrow => hkey hrow.1)
      rcases ih h.of_concat with ⟨hnone, hno⟩ | ⟨row, hsome, hrow, hmax⟩
      · exact .inl ⟨hnone, fun row hrow => hno row ((hmem' row).1 hrow)⟩
      · exact .inr ⟨row, hsome, (hmem' row).2 hrow, fun row' hrow' => hmax row' ((hmem' row').1 hrow')⟩

/-- The table holds the row of the greatest version. -/
theorem deliver_eq_some (hempty : table key = none)
    (h : Coherent version overwrite deliveries key) {row : ρ}
    (hrow : Newest version deliveries key row) :
    deliver version overwrite table deliveries key = some row := by
  rcases deliver_spec hempty h with ⟨-, hno⟩ | ⟨row', hsome, hrow'⟩
  · exact absurd hrow.1 (hno row)
  · rw [hsome, hrow'.unique h hrow]

/-- Without a delivery for the key its row stays as it was. -/
theorem deliver_of_not_mem (hno : ∀ row, (key, row) ∉ deliveries) :
    deliver version overwrite table deliveries key = table key := by
  induction deliveries generalizing table with
  | nil => rfl
  | cons d deliveries ih =>
    have hne : key ≠ d.1 := by
      rintro rfl
      exact hno d.2 List.mem_cons_self
    rw [deliver, List.foldl_cons, ← deliver,
      ih fun row hrow => hno row (List.mem_cons_of_mem d hrow), upsert_of_ne hne]

/-- The row of a key depends on the one that was there. -/
theorem deliver_congr {table' : κ → Option ρ} (h : table key = table' key) :
    deliver version overwrite table deliveries key =
      deliver version overwrite table' deliveries key := by
  induction deliveries generalizing table table' with
  | nil => exact h
  | cons d deliveries ih =>
    refine ih ?_
    show upsert version overwrite table d.1 d.2 key = upsert version overwrite table' d.1 d.2 key
    by_cases hkey : key = d.1
    · subst hkey
      rw [upsert_self, upsert_self, h]
    · rw [upsert_of_ne hkey, upsert_of_ne hkey, h]

/-! ### Permutations -/

section Permutations

variable (hversion : ∀ old row, version (overwrite old row) = version row)
  (habsorb : ∀ old row row', overwrite (overwrite old row) row' = overwrite old row')

include hversion habsorb

/-- Two deliveries that are told apart by their versions can be swapped. -/
theorem upsert_comm {d e : κ × ρ} (h : ∀ key, Coherent version overwrite [d, e] key) :
    upsert version overwrite (upsert version overwrite table d.1 d.2) e.1 e.2 =
      upsert version overwrite (upsert version overwrite table e.1 e.2) d.1 d.2 := by
  obtain ⟨k, a⟩ := d
  obtain ⟨k', b⟩ := e
  by_cases hkey : k = k'
  · subst hkey
    have ha : (k, a) ∈ [(k, a), (k, b)] := by simp
    have hb : (k, b) ∈ [(k, a), (k, b)] := by simp
    have hab := (h k).overwrite_eq a b ha hb
    have hba := (h k).overwrite_eq b a hb ha
    ext key : 1
    by_cases hk : key = k
    · subst hk
      simp only [upsert_self]
      rcases lt_trichotomy (version a) (version b) with hlt | heq | hgt
      · cases table key with
        | none => simp [hlt, hlt.le, hab]
        | some old =>
          -- only the order of the versions of the three rows matters
          by_cases hold : version old < version a
          · simp [hold, hold.trans hlt, hversion, habsorb, hlt, hlt.le]
          · by_cases hold' : version old < version b
            · simp [hold, hold', hversion, hlt.le]
            · simp [hold, hold']
      · rw [(h key).version_inj a b ha hb heq]
      · cases table key with
        | none => simp [hgt, hgt.le, hba]
        | some old =>
          by_cases hold : version old < version b
          · simp [hold, hold.trans hgt, hversion, habsorb, hgt, hgt.le]
          · by_cases hold' : version old < version a
            · simp [hold, hold', hversion, hgt.le]
            · simp [hold, hold']
    · simp only [upsert_of_ne hk]
  · ext key : 1
    by_cases hk : key = k
    · subst hk
      simp only [upsert_of_ne hkey, upsert_self]
    · by_cases hk' : key = k'
      · subst hk'
        simp only [upsert_of_ne hk, upsert_self]
      · simp only [upsert_of_ne hk, upsert_of_ne hk']

/-- The order of the deliveries does not matter, whatever the table holds before. -/
theorem deliver_perm {deliveries' : List (κ × ρ)} (hperm : deliveries.Perm deliveries')
    (h : ∀ key, Coherent version overwrite deliveries key) :
    deliver version overwrite table deliveries = deliver version overwrite table deliveries' := by
  refine hperm.foldl_eq' ?_ table
  intro d hd e he table
  refine upsert_comm hversion habsorb fun key => (h key).mono ?_
  intro row hrow
  rcases List.mem_pair.1 hrow with rfl | rfl
  · exact hd
  · exact he

end Permutations

end LastWriter
