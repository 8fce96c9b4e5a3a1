import Mathlib

/-!
# Records in an area

An area of elements that is read in records of `L` elements each, and a loop that
overwrites a part of it from some place on.
-/

namespace Records

variable {α : Type*}

/-- Record `k`. -/
def record (L : ℕ) (area : List α) (k : ℕ) : List α := (area.drop (k * L)).take L

/-- Overwrites the elements from `start` on, as far as there is data and room. -/
def overwrite (area : List α) (start : ℕ) (data : List α) : List α :=
  area.mapIdx fun i x => if start ≤ i then data.getD (i - start) x else x

variable {L start s n k : ℕ} {area data : List α}

@[simp] theorem length_overwrite : (overwrite area start data).length = area.length := by
  simp [overwrite]

theorem getElem?_overwrite (i : ℕ) : (overwrite area start data)[i]? =
    (area[i]?).map fun x => if start ≤ i then data.getD (i - start) x else x := by
  simp [overwrite]

@[simp] theorem overwrite_nil : overwrite area start [] = area := by
  ext1 i
  rw [getElem?_overwrite]
  simp

/-- Record `k` by its elements. -/
theorem getElem?_record (i : ℕ) :
    (record L area k)[i]? = if i < L then area[k * L + i]? else none := by
  rw [record, List.getElem?_take]
  split_ifs <;> simp

/-- Records beside the overwritten ones stay. -/
theorem record_overwrite_of_not_mem (hdata : data.length = n * L) (hk : k < s ∨ s + n ≤ k) :
    record L (overwrite area (s * L) data) k = record L area k := by
  ext1 i
  rw [getElem?_record, getElem?_record]
  split_ifs with hi
  · rw [getElem?_overwrite]
    rcases hk with hk | hk
    · -- before them
      have hle : (k + 1) * L ≤ s * L := Nat.mul_le_mul_right L hk
      rw [Nat.succ_mul] at hle
      simp [show ¬ s * L ≤ k * L + i by omega]
    · -- after them
      have hle : (s + n) * L ≤ k * L := Nat.mul_le_mul_right L hk
      rw [Nat.add_mul] at hle
      simp [show data.length ≤ k * L + i - s * L by omega]
  · rfl

/-- An overwritten record is that of the data. -/
theorem record_overwrite_of_mem (hdata : data.length = n * L)
    (hroom : (s + n) * L ≤ area.length) (hk : k < n) :
    record L (overwrite area (s * L) data) (s + k) = record L data k := by
  ext1 i
  rw [getElem?_record, getElem?_record]
  split_ifs with hi
  · have hle : (k + 1) * L ≤ n * L := Nat.mul_le_mul_right L hk
    rw [Nat.succ_mul] at hle
    rw [Nat.add_mul] at hroom
    have hplace : (s + k) * L + i = s * L + (k * L + i) := by rw [Nat.add_mul, Nat.add_assoc]
    obtain ⟨x, hx⟩ : ∃ x, area[s * L + (k * L + i)]? = some x :=
      ⟨_, List.getElem?_eq_getElem (by omega)⟩
    rw [getElem?_overwrite, hplace, hx]
    simp [show k * L + i < data.length by omega]
  · rfl

end Records
