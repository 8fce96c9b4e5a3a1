import Mathlib

/-!
# Positions and bits

A node of a full binary tree at level `l` above the leaf `i` has position
`i / 2 ^ l`, and its sibling has that position with the lowest bit flipped.
This file collects the arithmetic of such positions: which level separates two
leaves, and how the path of a leaf changes when the leaf moves one to the right.
-/

namespace Bits

theorem div_pow_succ (i l : ℕ) : i / 2 ^ (l + 1) = i / 2 ^ l / 2 := by
  rw [pow_succ, Nat.div_div_eq_div_mul]

theorem testBit_iff (i l : ℕ) : i.testBit l = true ↔ i / 2 ^ l % 2 = 1 := by
  rw [Nat.testBit_eq_decide_div_mod_eq, decide_eq_true_iff]

theorem xor_one_of_odd {p : ℕ} (h : p % 2 = 1) : p ^^^ 1 = p - 1 := by
  rw [Nat.xor_one_of_odd]
  exact Nat.odd_iff.2 h

theorem xor_one_of_even {p : ℕ} (h : p % 2 = 0) : p ^^^ 1 = p + 1 := by
  rw [Nat.xor_one_of_even]
  exact Nat.even_iff.2 h

theorem xor_one_ne (p : ℕ) : p ^^^ 1 ≠ p := by
  rcases Nat.mod_two_eq_zero_or_one p with h | h
  · rw [xor_one_of_even h]; omega
  · rw [xor_one_of_odd h]; omega

theorem xor_one_div_two (p : ℕ) : (p ^^^ 1) / 2 = p / 2 := by
  rcases Nat.mod_two_eq_zero_or_one p with h | h
  · rw [xor_one_of_even h]; omega
  · rw [xor_one_of_odd h]; omega

/-! ### The level that separates two leaves -/

/-- The ancestors of `i` and `j` at level `l` are siblings. -/
def Splits (i j l : ℕ) : Prop := (i / 2 ^ l) ^^^ 1 = j / 2 ^ l

instance (i j l : ℕ) : Decidable (Splits i j l) := inferInstanceAs (Decidable (_ = _))

theorem not_splits_self (i l : ℕ) : ¬ Splits i i l := xor_one_ne _

theorem xor_ne_zero {i j : ℕ} (h : i ≠ j) : i ^^^ j ≠ 0 := by
  simpa [Nat.xor_eq_zero_iff] using h

/-- Exactly one level separates two different leaves: the highest bit in which
they differ. -/
theorem splits_iff {i j : ℕ} (h : i ≠ j) (l : ℕ) : Splits i j l ↔ l = (i ^^^ j).log2 := by
  have hdiv : Splits i j l ↔ (i ^^^ j) / 2 ^ l = 1 := by
    rw [Nat.xor_div_two_pow, Splits]
    constructor
    · intro h'
      rw [← h', ← Nat.xor_assoc, Nat.xor_self, Nat.zero_xor]
    · intro h'
      rw [← h', ← Nat.xor_assoc, Nat.xor_self, Nat.zero_xor]
  have hpos : 0 < 2 ^ l := by positivity
  rw [hdiv, eq_comm (a := l), Nat.log2_eq_iff (xor_ne_zero h), Nat.div_eq_iff hpos, pow_succ]
  generalize 2 ^ l = q at hpos
  omega

/-- The separating level of two leaves below `2 ^ D` is below `D`. -/
theorem log2_xor_lt {i j D : ℕ} (hi : i < 2 ^ D) (hj : j < 2 ^ D) (h : i ≠ j) :
    (i ^^^ j).log2 < D :=
  (Nat.log2_lt (xor_ne_zero h)).2 (Nat.xor_lt_two_pow hi hj)

/-- The leaves under a sibling on the right come later. -/
theorem Splits.lt_iff {i j l : ℕ} (h : Splits i j l) : i < j ↔ i.testBit l = false := by
  have hbit : i.testBit l = false ↔ i / 2 ^ l % 2 = 0 := by
    rw [← Bool.not_eq_true, testBit_iff]
    omega
  rw [hbit]
  rw [Splits] at h
  rcases Nat.mod_two_eq_zero_or_one (i / 2 ^ l) with hmod | hmod
  · rw [xor_one_of_even hmod] at h
    have hlt : i / 2 ^ l < j / 2 ^ l := by omega
    exact iff_of_true (Nat.lt_of_div_lt_div hlt) hmod
  · rw [xor_one_of_odd hmod] at h
    have hlt : j / 2 ^ l < i / 2 ^ l := h ▸ Nat.sub_lt (Nat.pos_of_ne_zero fun hzero => by
      rw [hzero] at hmod
      exact absurd hmod (by simp)) one_pos
    have := Nat.lt_of_div_lt_div hlt
    exact iff_of_false (by omega) (by rw [hmod]; exact one_ne_zero)

/-- The leaves under a sibling of a path below the root are in the tree. -/
theorem lt_of_div_eq_xor_one {q i l D : ℕ} (h : q / 2 ^ l = (i / 2 ^ l) ^^^ 1)
    (hi : i < 2 ^ D) (hl : l < D) : q < 2 ^ D := by
  have hhalf : q / 2 ^ (l + 1) = i / 2 ^ (l + 1) := by
    rw [div_pow_succ, div_pow_succ, h, xor_one_div_two]
  obtain ⟨k, rfl⟩ := Nat.exists_eq_add_of_le (show l + 1 ≤ D from hl)
  rw [pow_add] at hi ⊢
  rw [mul_comm, ← Nat.div_lt_iff_lt_mul (by positivity), hhalf]
  exact Nat.div_lt_of_lt_mul hi

/-! ### The next leaf -/

/-- `n` is an odd multiple of `2 ^ t`. -/
def OddMultiple (n t : ℕ) : Prop := ∃ m, n = 2 ^ t * (2 * m + 1)

theorem OddMultiple.pos {n t : ℕ} (h : OddMultiple n t) : 0 < n := by
  obtain ⟨m, rfl⟩ := h
  positivity

theorem OddMultiple.lt {n t D : ℕ} (h : OddMultiple n t) (hn : n < 2 ^ D) : t < D := by
  obtain ⟨m, rfl⟩ := h
  have hle : 2 ^ t ≤ 2 ^ t * (2 * m + 1) := Nat.le_mul_of_pos_right _ (by omega)
  exact (Nat.pow_lt_pow_iff_right (by norm_num)).1 (hle.trans_lt hn)

theorem OddMultiple.mod_eq {n t : ℕ} (h : OddMultiple n t) : n % 2 ^ t = 0 := by
  obtain ⟨m, rfl⟩ := h
  exact Nat.mul_mod_right _ _

/-- Up to level `t` the path of `n` runs one to the right of the path of `n - 1`. -/
theorem OddMultiple.div_eq {n t l : ℕ} (h : OddMultiple n t) (hl : l ≤ t) :
    n / 2 ^ l = (n - 1) / 2 ^ l + 1 := by
  obtain ⟨m, rfl⟩ := h
  obtain ⟨k, rfl⟩ := Nat.exists_eq_add_of_le hl
  have hpow : 2 ^ (l + k) * (2 * m + 1) = 2 ^ l * (2 ^ k * (2 * m + 1)) := by ring
  have hpos : 0 < 2 ^ k * (2 * m + 1) := by positivity
  have hl0 : 0 < 2 ^ l := by positivity
  rw [hpow]
  generalize 2 ^ k * (2 * m + 1) = x at hpos
  obtain ⟨y, rfl⟩ := Nat.exists_eq_succ_of_ne_zero hpos.ne'
  rw [Nat.mul_div_cancel_left _ hl0, Nat.succ_eq_add_one, mul_add, mul_one,
    show 2 ^ l * y + 2 ^ l - 1 = 2 ^ l * y + (2 ^ l - 1) by omega,
    Nat.mul_add_div hl0, Nat.div_eq_of_lt (by omega)]

/-- Below level `t` the path of `n` consists of left children. -/
theorem OddMultiple.even {n t l : ℕ} (h : OddMultiple n t) (hl : l < t) :
    n / 2 ^ l % 2 = 0 := by
  obtain ⟨m, rfl⟩ := h
  obtain ⟨k, rfl⟩ := Nat.exists_eq_add_of_lt hl
  have hpow : 2 ^ (l + k + 1) * (2 * m + 1) = 2 ^ l * (2 * (2 ^ k * (2 * m + 1))) := by ring
  rw [hpow, Nat.mul_div_cancel_left _ (by positivity)]
  omega

/-- At level `t` the path of `n` is a right child. -/
theorem OddMultiple.odd {n t : ℕ} (h : OddMultiple n t) : n / 2 ^ t % 2 = 1 := by
  obtain ⟨m, rfl⟩ := h
  rw [Nat.mul_div_cancel_left _ (by positivity)]
  omega

/-- Above level `t` the paths of `n` and `n - 1` coincide. -/
theorem OddMultiple.div_pred {n t l : ℕ} (h : OddMultiple n t) (hl : t < l) :
    (n - 1) / 2 ^ l = n / 2 ^ l := by
  obtain ⟨k, rfl⟩ := Nat.exists_eq_add_of_lt hl
  have hdiv := h.div_eq le_rfl
  have hodd := h.odd
  rw [show t + k + 1 = t + 1 + k by omega, pow_add, ← Nat.div_div_eq_div_mul,
    ← Nat.div_div_eq_div_mul, div_pow_succ, div_pow_succ]
  congr 1
  omega

theorem OddMultiple.two_pow {k t : ℕ} (h : OddMultiple (2 ^ k) t) : t = k := by
  have hlt : t < k + 1 := h.lt (Nat.pow_lt_pow_succ (by norm_num))
  by_contra hne
  have hodd := h.odd
  rw [Nat.pow_div (by omega) (by norm_num), show k - t = k - t - 1 + 1 by omega, pow_succ,
    Nat.mul_mod_left] at hodd
  omega

/-! ### Pairs -/

theorem log2_xor_one {n : ℕ} (hn : 2 ≤ n) : (n ^^^ 1).log2 = n.log2 := by
  have hn' : 2 ≤ n ^^^ 1 := by
    rcases Nat.mod_two_eq_zero_or_one n with h | h
    · rw [xor_one_of_even h]; omega
    · rw [xor_one_of_odd h]; omega
  rw [Nat.log2_def, Nat.log2_def n, if_pos hn, if_pos hn', xor_one_div_two]

end Bits
