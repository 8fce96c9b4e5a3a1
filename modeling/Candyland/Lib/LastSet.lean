import Mathlib.Data.List.Basic

/-!
# Columns that are overwritten

An update of a record sets some of its columns.  After a list of updates a column has the value
that was set last, so updates in another order lead to another value when they end differently.
-/

namespace LastSet

variable {υ ρ α : Type*} {set : υ → Option α} {us us' : List υ}

/-- The value that is set last, if one is. -/
def lastSet (set : υ → Option α) (us : List υ) : Option α := us.reverse.findSome? set

theorem lastSet_cons (u : υ) (us : List υ) :
    lastSet set (u :: us) = (lastSet set us).or (set u) := by
  rw [lastSet, lastSet, List.reverse_cons, List.findSome?_append]
  cases hset : set u <;> simp [hset]

theorem lastSet_eq_none_iff : lastSet set us = none ↔ ∀ u ∈ us, set u = none := by
  simp [lastSet]

/-- A value that is set last is set by one of the updates. -/
theorem exists_of_lastSet {a : α} (h : lastSet set us = some a) : ∃ u ∈ us, set u = some a := by
  obtain ⟨u, hu, hset⟩ := List.exists_of_findSome?_eq_some h
  exact ⟨u, List.mem_reverse.1 hu, hset⟩

/-- A column after updates. -/
theorem get_foldl {apply : υ → ρ → ρ} {get : ρ → α}
    (h : ∀ u r, get (apply u r) = (set u).getD (get r)) (us : List υ) (r : ρ) :
    get (us.foldl (fun r u => apply u r) r) = (lastSet set us).getD (get r) := by
  induction us generalizing r with
  | nil => rfl
  | cons u us ih =>
    rw [List.foldl_cons, ih, h, lastSet_cons]
    cases lastSet set us <;> simp

section Permutations

variable (hperm : us.Perm us')

include hperm

theorem lastSet_eq_none_congr (set : υ → Option α) :
    lastSet set us = none ↔ lastSet set us' = none := by
  simp only [lastSet_eq_none_iff, hperm.mem_iff]

/-- Updates in another order lead to the same value exactly if they set the same value last. -/
theorem getD_lastSet_eq_iff (a : α) :
    (lastSet set us).getD a = (lastSet set us').getD a ↔ lastSet set us = lastSet set us' := by
  have hnone := lastSet_eq_none_congr hperm set
  cases hus : lastSet set us with
  | none => simp [hnone.1 hus]
  | some b =>
    cases hus' : lastSet set us' with
    | none => exact absurd (hus.symm.trans (hnone.2 hus')) (by simp)
    | some b' => simp

/-- A column that is only ever set to one value does not depend on the order. -/
theorem lastSet_eq_of_const {a : α} (hconst : ∀ u ∈ us, ∀ b, set u = some b → b = a) :
    lastSet set us = lastSet set us' := by
  have hnone := lastSet_eq_none_congr hperm set
  cases hus : lastSet set us with
  | none => exact (hnone.1 hus).symm
  | some b =>
    cases hus' : lastSet set us' with
    | none => exact absurd (hus.symm.trans (hnone.2 hus')) (by simp)
    | some b' =>
      obtain ⟨u, hu, hset⟩ := exists_of_lastSet hus
      obtain ⟨u', hu', hset'⟩ := exists_of_lastSet hus'
      rw [hconst u hu b hset, hconst u' (hperm.mem_iff.2 hu') b' hset']

end Permutations

end LastSet
