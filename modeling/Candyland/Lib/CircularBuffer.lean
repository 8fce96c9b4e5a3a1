import Mathlib

/-!
# Circular buffers

A buffer of `B` slots with a cursor on its newest entry.  Counting back from the
cursor names the entries by their age, and writing behind an advanced cursor ages
every retained entry by one.
-/

namespace CircularBuffer

variable {β : Type*} {B : ℕ}

/-- The slot after `a`, around the end. -/
def next (a : Fin B) : Fin B := ⟨(a + 1) % B, Nat.mod_lt _ a.pos⟩

/-- The slot `k` before `a`, around the start. -/
def back (a : Fin B) (k : ℕ) : Fin B := ⟨(a + (B - k % B)) % B, Nat.mod_lt _ a.pos⟩

@[simp] theorem back_zero (a : Fin B) : back a 0 = a := by
  apply Fin.ext
  simp [back, Nat.mod_eq_of_lt a.isLt]

/-- The slot `k` before `a` is `a - k` modulo the number of slots. -/
theorem back_eq_emod (a : Fin B) (k : ℕ) : ((back a k : ℕ) : ℤ) = ((a : ℕ) - k : ℤ) % B := by
  have hle : k % B ≤ B := (Nat.mod_lt _ a.pos).le
  have hsplit : ((a : ℕ) + (B - k % B : ℕ) : ℤ) = (a : ℕ) - k + B * (k / B + 1 : ℕ) := by
    have hdiv : (k : ℤ) = B * (k / B : ℕ) + (k % B : ℕ) := by exact_mod_cast (Nat.div_add_mod k B).symm
    push_cast [Nat.cast_sub hle] at hdiv ⊢
    linarith
  rw [back, Int.natCast_mod, Nat.cast_add, hsplit, Int.add_mul_emod_self_left]

theorem mod_succ_sub {k : ℕ} (a : Fin B) :
    B - k % B = B - (k + 1) % B + 1 ∨ (k % B + 1 = B ∧ (k + 1) % B = 0) := by
  have hB := a.pos
  have hk : k % B < B := Nat.mod_lt _ hB
  rcases Nat.lt_or_ge (k % B + 1) B with h | h
  · left
    rw [Nat.add_mod, Nat.mod_eq_of_lt (show 1 < B by omega), Nat.mod_eq_of_lt h]
    omega
  · right
    have hk' : k % B + 1 = B := by omega
    refine ⟨hk', ?_⟩
    rw [← Nat.mod_add_mod, hk', Nat.mod_self]

/-- One step forward from `k + 1` back is `k` back. -/
theorem next_back_succ (a : Fin B) (k : ℕ) : next (back a (k + 1)) = back a k := by
  apply Fin.ext
  simp only [next, back, Nat.mod_add_mod]
  rcases mod_succ_sub (k := k) a with h | ⟨h, h0⟩
  · rw [h, Nat.add_assoc]
  · rw [h0, Nat.sub_zero, show B - k % B = 1 by omega, Nat.add_right_comm, Nat.add_mod_right]

/-- Advancing the cursor ages every entry by one. -/
theorem back_next_succ (a : Fin B) (k : ℕ) : back (next a) (k + 1) = back a k := by
  apply Fin.ext
  simp only [next, back, Nat.mod_add_mod]
  rcases mod_succ_sub (k := k) a with h | ⟨h, h0⟩
  · rw [h]
    congr 1
    omega
  · rw [h0, Nat.sub_zero, Nat.add_mod_right, show B - k % B = 1 by omega]

/-- Going once around the buffer comes back to the cursor. -/
@[simp] theorem back_self (a : Fin B) : back a B = a := by
  apply Fin.ext
  simp [back, Nat.mod_eq_of_lt a.isLt]

theorem back_injOn (a : Fin B) {k k' : ℕ} (hk : k < B) (hk' : k' < B)
    (h : back a k = back a k') : k = k' := by
  have hv := congrArg Fin.val h
  simp only [back, Nat.mod_eq_of_lt hk, Nat.mod_eq_of_lt hk'] at hv
  have ha := a.isLt
  have hmod : ∀ m < B, (↑a + (B - m)) % B = if m ≤ a then a - m else a + B - m := by
    intro m hm
    split_ifs with hle
    · rw [show (a : ℕ) + (B - m) = (a - m) + B by omega, Nat.add_mod_right,
        Nat.mod_eq_of_lt (by omega)]
    · rw [Nat.mod_eq_of_lt (by omega)]
      omega
  rw [hmod k hk, hmod k' hk'] at hv
  split_ifs at hv <;> omega

/-- Only the cursor itself is zero entries old. -/
theorem back_eq_self_iff (a : Fin B) {k : ℕ} (hk : k < B) : back a k = a ↔ k = 0 := by
  constructor
  · intro h
    exact back_injOn a hk a.pos (by rw [h, back_zero])
  · rintro rfl
    exact back_zero a

/-- With a power of two of slots, masking a wrapped difference counts back. -/
theorem sub_mod_eq_back {M : ℕ} (a : Fin B) (hM : B ∣ M) {k : ℕ} (hk : k < M) :
    (a + M - k) % M % B = back a k := by
  obtain ⟨c, rfl⟩ := hM
  have hB := a.pos
  have hdiv : k / B < c := Nat.div_lt_of_lt_mul hk
  have hkdm := Nat.div_add_mod k B
  have hlt : k % B < B := Nat.mod_lt _ hB
  obtain ⟨d, rfl⟩ := Nat.exists_eq_add_of_lt hdiv
  have hsplit : B * (k / B + d + 1) = B * (k / B) + B * d + B := by ring
  rw [Nat.mod_mul_right_mod, back, hsplit]
  rw [show (a : ℕ) + (B * (k / B) + B * d + B) - k = ↑a + (B - k % B) + B * d by omega,
    Nat.add_mul_mod_self_left]

/-! ### The retained window -/

/-- The `m` newest entries satisfy `P`, which is told the age of each. -/
def Window (buf : Vector β B) (a : Fin B) (m : ℕ) (P : ℕ → β → Prop) : Prop :=
  ∀ k < m, P k buf[back a k]

/-- A push makes every other entry one older. -/
theorem getElem_push_succ (buf : Vector β B) (a : Fin B) (x : β) {k : ℕ} (hk : k + 1 < B) :
    (buf.set (next a) x)[back (next a) (k + 1)] = buf[back a k] := by
  have hne : (next a : ℕ) ≠ back (next a) (k + 1) := by
    intro heq
    have := (back_eq_self_iff (next a) hk).1 (Fin.ext heq.symm)
    omega
  rw [Fin.getElem_fin, Vector.getElem_set_ne _ _ hne]
  exact congrArg (fun j : Fin B => buf[j]) (back_next_succ a k)

/-- A push makes the new entry the youngest and keeps as many of the others as
there is room for. -/
theorem Window.push {buf : Vector β B} {a : Fin B} {m : ℕ} {P Q : ℕ → β → Prop} {x : β}
    (h : Window buf a m P) (h0 : Q 0 x) (hsucc : ∀ k < m, ∀ y, P k y → Q (k + 1) y) :
    Window (buf.set (next a) x) (next a) (min (m + 1) B) Q := by
  intro k hk
  cases k with
  | zero => simpa using h0
  | succ k =>
    rw [getElem_push_succ buf a x (by omega)]
    exact hsucc k (by omega) _ (h k (by omega))

end CircularBuffer
