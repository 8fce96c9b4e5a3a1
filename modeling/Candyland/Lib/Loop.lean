import Mathlib

/-!
# Loops over a constant range

`Nat.fold n f s` runs `f 0`, …, `f (n - 1)` on `s` in this order.  The rules here prove
what it computes from what one round preserves.
-/

namespace Loop

variable {σ β : Type*} {n : ℕ}

/-- A property that holds before the loop and is kept by each round holds after it. -/
theorem fold_invariant {f : (i : ℕ) → i < n → σ → σ} {s : σ} (P : ℕ → σ → Prop)
    (h0 : P 0 s) (hstep : ∀ i (hi : i < n) t, P i t → P (i + 1) (f i hi t)) :
    P n (Nat.fold n f s) := by
  induction n with
  | zero => simpa using h0
  | succ n ih =>
    rw [Nat.fold_succ]
    exact hstep n (by omega) _ (ih fun i hi t => hstep i (by omega) t)

/-- A loop that writes every slot of a vector leaves the written values. -/
theorem getElem_fold_set (g : (i : ℕ) → i < n → β) (v : Vector β n) {l : ℕ} (hl : l < n) :
    (Nat.fold n (fun i hi v => v.set i (g i hi)) v)[l] = g l hl := by
  have hinv := fold_invariant (n := n) (f := fun i hi (v : Vector β n) => v.set i (g i hi))
    (s := v) (fun i v => ∀ m (hm : m < n), m < i → v[m] = g m hm)
    (fun m _ h => absurd h (by omega)) (fun i hi v ih m hm hlt => by
      rw [Vector.getElem_set]
      split_ifs with heq
      · subst heq; rfl
      · exact ih m hm (by omega))
  exact hinv l hl hl

/-- A search only looks at the values of its body on the range. -/
theorem findSome_congr {l : List σ} {f g : σ → Option β} (h : ∀ a ∈ l, f a = g a) :
    l.findSome? f = l.findSome? g := by
  induction l with
  | nil => rfl
  | cons a l ih =>
    rw [List.findSome?_cons, List.findSome?_cons, h a List.mem_cons_self,
      ih fun b hb => h b (List.mem_cons_of_mem _ hb)]

end Loop
