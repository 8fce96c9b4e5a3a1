import Mathlib.Data.List.Sort

/-!
# Selecting rows

`SELECT DISTINCT ON (key) .. ORDER BY key DESC` on a table given as a list of rows.  When
the rows have different keys this reads the table at the wanted keys, from the largest to
the smallest.
-/

namespace Select

variable {κ ρ : Type*} [LinearOrder κ]

/-- `ORDER BY key DESC`. -/
def orderByDesc (key : ρ → κ) (rows : List ρ) : List ρ :=
  rows.insertionSort fun a b => key b ≤ key a

/-- `DISTINCT ON (key)`: the first row of every key. -/
def distinctOn (key : ρ → κ) : List ρ → List ρ
  | [] => []
  | row :: rows => row :: (distinctOn key rows).filter fun r => key r ≠ key row

variable {key : ρ → κ} {rows : List ρ}

/-- Nothing is dropped when all keys differ. -/
theorem distinctOn_of_nodup (h : (rows.map key).Nodup) : distinctOn key rows = rows := by
  induction rows with
  | nil => rfl
  | cons row rows ih =>
    obtain ⟨hnot, hnodup⟩ := List.nodup_cons.1 h
    rw [distinctOn, ih hnodup, List.filter_eq_self.2]
    intro r hr
    simpa using fun heq : key r = key row => hnot (heq ▸ List.mem_map_of_mem hr)

theorem orderByDesc_perm (key : ρ → κ) (rows : List ρ) : (orderByDesc key rows).Perm rows :=
  List.perm_insertionSort _ rows

theorem orderByDesc_pairwise (key : ρ → κ) (rows : List ρ) :
    (orderByDesc key rows).Pairwise fun a b => key b ≤ key a := by
  have : Std.Total fun a b : ρ => key b ≤ key a := ⟨fun a b => le_total _ _⟩
  have : IsTrans ρ fun a b => key b ≤ key a := ⟨fun a b c hab hbc => hbc.trans hab⟩
  exact List.pairwise_insertionSort _ rows

/-- The selected rows of a table with one row for a key, listed from the largest wanted key
to the smallest. -/
theorem distinctOn_orderByDesc (lookup : κ → Option ρ) {keys : List κ}
    (hkeys : keys.Pairwise fun a b => b < a) (hnodup : (rows.map key).Nodup)
    (hkey : ∀ k row, lookup k = some row → key row = k)
    (hmem : ∀ row, row ∈ rows ↔ ∃ k ∈ keys, lookup k = some row) :
    distinctOn key (orderByDesc key rows) = keys.filterMap lookup := by
  have hperm := orderByDesc_perm key rows
  rw [distinctOn_of_nodup ((hperm.map key).nodup_iff.2 hnodup)]
  -- both sides are sorted by the key and have the same rows
  have hsorted : (keys.filterMap lookup).Pairwise fun a b => key b < key a := by
    refine List.pairwise_filterMap.2 (hkeys.imp ?_)
    intro a b hab row hrow row' hrow'
    rwa [hkey a row hrow, hkey b row' hrow']
  have hnodup' : (keys.filterMap lookup).Nodup :=
    hsorted.imp fun hlt heq => absurd hlt (by simp [heq])
  refine List.Perm.eq_of_pairwise ?_ (orderByDesc_pairwise key rows) (hsorted.imp le_of_lt) ?_
  · intro a b ha hb hba hab
    exact List.inj_on_of_nodup_map hnodup (hperm.mem_iff.1 ha)
      ((hmem b).2 (by simpa using hb)) (le_antisymm hab hba)
  · refine hperm.trans ((List.perm_ext_iff_of_nodup (List.Nodup.of_map key hnodup) hnodup').2 ?_)
    intro row
    simp [hmem]

end Select
