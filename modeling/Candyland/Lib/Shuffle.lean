import Mathlib

/-!
# Drawing without replacement

A pool is a list and the length of its prefix of elements that are not drawn yet.  A draw
swaps an element of the prefix to its end and shortens the prefix by one, so that the drawn
elements stand behind it, the last one first.
-/

namespace Shuffle

variable {α : Type*} {xs ys : List α} {i j m r r' : ℕ} {a b : α} {drawn : List α}

/-- The list with two places swapped. -/
theorem swap_perm (hi : xs[i]? = some a) (hj : xs[j]? = some b) :
    ((xs.set i b).set j a).Perm xs := by
  obtain ⟨hi', rfl⟩ := List.getElem?_eq_some_iff.1 hi
  obtain ⟨hj', rfl⟩ := List.getElem?_eq_some_iff.1 hj
  exact List.set_set_perm hi' hj'

/-- Behind the place to which the element is swapped everything stays. -/
theorem drop_swap (hle : i ≤ m) (hm : xs[m]? = some b) :
    ((xs.set i b).set m a).drop m = a :: xs.drop (m + 1) := by
  ext1 k
  rw [List.getElem?_drop]
  cases k with
  | zero =>
    have hlt := (List.getElem?_eq_some_iff.1 hm).1
    simp [hlt]
  | succ k =>
    rw [List.getElem?_set_ne (by omega), List.getElem?_set_ne (by omega), List.getElem?_cons_succ,
      List.getElem?_drop]
    congr 1
    omega

/-- Draws from the prefix of length `r` of `xs` lead to that of length `r'` of `ys`.  The drawn
elements are listed last one first. -/
inductive Draws : List α → ℕ → List α → List α → ℕ → Prop
  /-- No draw. -/
  | nil {xs : List α} {r : ℕ} : Draws xs r [] xs r
  /-- The element at place `i` is drawn, and then others. -/
  | draw {xs ys : List α} {i m r : ℕ} {a b : α} {drawn : List α} (hi : i ≤ m)
      (ha : xs[i]? = some a) (hb : xs[m]? = some b)
      (h : Draws ((xs.set i b).set m a) m drawn ys r) : Draws xs (m + 1) (drawn ++ [a]) ys r

namespace Draws

theorem perm (h : Draws xs r drawn ys r') : ys.Perm xs := by
  induction h with
  | nil => exact .refl _
  | draw _ ha hb _ ih => exact ih.trans (swap_perm ha hb)

theorem count (h : Draws xs r drawn ys r') : r' + drawn.length = r := by
  induction h with
  | nil => rfl
  | draw _ _ _ _ ih =>
    rw [List.length_append, List.length_singleton]
    omega

/-- The drawn elements stand behind the prefix. -/
theorem drop_eq (h : Draws xs r drawn ys r') : ys.drop r' = drawn ++ xs.drop r := by
  induction h with
  | nil => simp
  | draw hi _ hb _ ih =>
    rw [ih, drop_swap hi hb]
    simp

/-- Nothing changes behind the prefix. -/
theorem getElem?_eq (h : Draws xs r drawn ys r') (hi : r ≤ i) : ys[i]? = xs[i]? := by
  have hcount := h.count
  have hplace : ys[r' + (i - r')]? = (drawn ++ xs.drop r)[i - r']? := by
    rw [← List.getElem?_drop, h.drop_eq]
  rw [List.getElem?_append_right (by omega), List.getElem?_drop] at hplace
  rwa [show r' + (i - r') = i by omega, show r + (i - r' - drawn.length) = i by omega] at hplace

theorem drop_eq_of_le (h : Draws xs r drawn ys r') (hle : r ≤ m) : ys.drop m = xs.drop m := by
  ext1 k
  rw [List.getElem?_drop, List.getElem?_drop, h.getElem?_eq (by omega)]

/-- What is drawn and what is left stood in the prefix. -/
theorem take_perm (h : Draws xs r drawn ys r') : (ys.take r' ++ drawn).Perm (xs.take r) := by
  have hall := h.perm
  rw [← List.take_append_drop r' ys, h.drop_eq, ← List.append_assoc] at hall
  nth_rewrite 2 [← List.take_append_drop r xs] at hall
  exact (List.perm_append_right_iff _).1 hall

theorem mem_take (h : Draws xs r drawn ys r') (ha : a ∈ drawn) : a ∈ xs.take r :=
  h.take_perm.subset (List.mem_append_right _ ha)

/-- Nothing joins the prefix. -/
theorem mem_take_of_mem_take (h : Draws xs r drawn ys r') (ha : a ∈ ys.take r') : a ∈ xs.take r :=
  h.take_perm.subset (List.mem_append_left _ ha)

end Draws

end Shuffle
