import Candyland.Lib.MerkleTree

/-!
# Nodes by number

The nodes of a binary tree of depth `D` are numbered from the root `1` downward, the
children of `n` being `2 * n` and `2 * n + 1`.  The leaves have the numbers from `2 ^ D`
on.
-/

namespace MerkleTree

variable {α : Type*} (H : α → α → α)

/-- The number of the node at level `l` above leaf `i`. -/
def number (D i l : ℕ) : ℕ := 2 ^ (D - l) + i / 2 ^ l

/-- The node with number `n`. -/
def numbered (D : ℕ) (T : ℕ → α) (n : ℕ) : α := node H T (D - n.log2) (n - 2 ^ n.log2)

/-- Leaf `q` lies under node `n`. -/
def Under (D n q : ℕ) : Prop := q / 2 ^ (D - n.log2) = n - 2 ^ n.log2

instance (D n q : ℕ) : Decidable (Under D n q) := inferInstanceAs (Decidable (_ = _))

theorem log2_two_pow_add {d p : ℕ} (hp : p < 2 ^ d) : (2 ^ d + p).log2 = d := by
  have hpos : 0 < 2 ^ d := by positivity
  rw [Nat.log2_eq_iff (by omega), pow_succ]
  omega

/-- Every number at depth `d` is `2 ^ d` plus a position. -/
theorem exists_eq_two_pow_add {n : ℕ} (hn : 0 < n) : ∃ p < 2 ^ n.log2, n = 2 ^ n.log2 + p := by
  have hlog := (Nat.log2_eq_iff hn.ne').1 rfl
  rw [pow_succ] at hlog
  exact ⟨n - 2 ^ n.log2, by omega, by omega⟩

theorem div_lt_of_lt {D i l : ℕ} (hi : i < 2 ^ D) (hl : l ≤ D) : i / 2 ^ l < 2 ^ (D - l) := by
  rw [Nat.div_lt_iff_lt_mul (by positivity), ← pow_add, Nat.sub_add_cancel hl]
  exact hi

theorem number_log2 {D i l : ℕ} (hi : i < 2 ^ D) (hl : l ≤ D) : (number D i l).log2 = D - l :=
  log2_two_pow_add (div_lt_of_lt hi hl)

theorem number_lt {D i l : ℕ} (hi : i < 2 ^ D) (hl : l ≤ D) : number D i l < 2 ^ (D + 1) := by
  have hdiv := div_lt_of_lt hi hl
  have hpow : 2 ^ (D - l) ≤ 2 ^ D := Nat.pow_le_pow_right (by norm_num) (Nat.sub_le D l)
  rw [number, pow_succ]
  omega

theorem number_pos (D i l : ℕ) : 0 < number D i l :=
  Nat.add_pos_left (by positivity) _

/-- Every number up to the leaves belongs to a node of some path. -/
theorem exists_number {D n : ℕ} (hn : 0 < n) (hlog : n.log2 ≤ D) :
    ∃ i < 2 ^ D, number D i (D - n.log2) = n := by
  obtain ⟨p, hp, heq⟩ := exists_eq_two_pow_add hn
  refine ⟨p * 2 ^ (D - n.log2), ?_, ?_⟩
  · calc p * 2 ^ (D - n.log2) < 2 ^ n.log2 * 2 ^ (D - n.log2) :=
        Nat.mul_lt_mul_of_pos_right hp (by positivity)
      _ = 2 ^ D := by rw [← pow_add, Nat.add_sub_cancel' hlog]
  · rw [number, Nat.mul_div_cancel _ (by positivity), Nat.sub_sub_self hlog]
    exact heq.symm

theorem number_div_two {D i l : ℕ} (hl : l < D) : number D i l / 2 = number D i (l + 1) := by
  have hpow : 2 ^ (D - l) = 2 ^ (D - (l + 1)) * 2 := by
    rw [← pow_succ]
    congr 1
    omega
  rw [number, number, Bits.div_pow_succ, hpow, Nat.mul_comm, Nat.mul_add_div (by norm_num)]

/-- The sibling of a node has the other number of its pair. -/
theorem number_xor_one {D i l : ℕ} (hl : l < D) :
    number D i l ^^^ 1 = 2 ^ (D - l) + ((i / 2 ^ l) ^^^ 1) := by
  obtain ⟨a, ha⟩ : 2 ∣ 2 ^ (D - l) := dvd_pow_self 2 (by omega)
  rw [number, ha]
  generalize i / 2 ^ l = p
  rcases Nat.mod_two_eq_zero_or_one p with h | h
  · rw [Bits.xor_one_of_even h, Bits.xor_one_of_even (by omega)]
    omega
  · rw [Bits.xor_one_of_odd h, Bits.xor_one_of_odd (by omega)]
    omega

/-! ### The tree by numbers -/

variable {D i l : ℕ} {T : ℕ → α}

theorem numbered_number (hi : i < 2 ^ D) (hl : l ≤ D) :
    numbered H D T (number D i l) = node H T l (i / 2 ^ l) := by
  rw [numbered, number_log2 hi hl, Nat.sub_sub_self hl, number, Nat.add_sub_cancel_left]

theorem under_number (hi : i < 2 ^ D) (hl : l ≤ D) (q : ℕ) :
    Under D (number D i l) q ↔ q / 2 ^ l = i / 2 ^ l := by
  rw [Under, number_log2 hi hl, Nat.sub_sub_self hl, number, Nat.add_sub_cancel_left]

/-- The leaves under a node are those whose path it is on. -/
theorem under_iff {n q : ℕ} (hn : 0 < n) (hlog : n.log2 ≤ D) :
    Under D n q ↔ number D q (D - n.log2) = n := by
  obtain ⟨p, -, heq⟩ := exists_eq_two_pow_add hn
  rw [Under, number, Nat.sub_sub_self hlog]
  omega

theorem numbered_one : numbered H D T 1 = root H D T := by
  rw [numbered, root, show Nat.log2 1 = 0 from rfl, pow_zero, Nat.sub_zero, Nat.sub_self]

/-- The sibling of a path node by its number. -/
theorem numbered_xor_one (hi : i < 2 ^ D) (hl : l < D) :
    numbered H D T (number D i l ^^^ 1) = sibling H T i l := by
  have hp : (i / 2 ^ l) ^^^ 1 < 2 ^ (D - l) := by
    have hlt := div_lt_of_lt hi hl.le
    exact Nat.xor_lt_two_pow hlt (Nat.one_lt_two_pow (by omega))
  rw [number_xor_one hl, numbered, log2_two_pow_add hp, Nat.sub_sub_self hl.le,
    Nat.add_sub_cancel_left, sibling]

/-- A write changes only the nodes of its path. -/
theorem numbered_update_of_ne {n j : ℕ} {w : α} (hn : 0 < n) (hlog : n.log2 ≤ D)
    (hne : n ≠ number D j (D - n.log2)) :
    numbered H D (Function.update T j w) n = numbered H D T n := by
  obtain ⟨i, hi, hnum⟩ := exists_number hn hlog
  have hl : D - n.log2 ≤ D := Nat.sub_le _ _
  generalize D - n.log2 = l at hnum hl hne
  subst hnum
  rw [numbered_number H hi hl, numbered_number H hi hl]
  refine node_update_of_ne H fun heq => hne ?_
  rw [number, number, heq]

end MerkleTree
