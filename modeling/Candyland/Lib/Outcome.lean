import Mathlib

/-!
# Results of calls that may abort

A call returns a value, returns an error, or panics.  The last happens on a failed
assertion, an index out of range or a slice of the wrong length; the caller sees no
result at all.
-/

/-- The result of a call. -/
inductive Outcome (ε α : Type) where
  | ok (value : α)
  | err (error : ε)
  | panic
deriving DecidableEq, Repr

namespace Outcome

variable {ε ε' α β : Type}

/-- Continues after a normal return; errors and panics are passed on. -/
def bind (x : Outcome ε α) (f : α → Outcome ε β) : Outcome ε β :=
  match x with
  | ok a => f a
  | err e => err e
  | panic => panic

instance : Monad (Outcome ε) where
  pure := ok
  bind := bind

/-- `assert!(p)`. -/
def assert (p : Prop) [Decidable p] : Outcome ε Unit := if p then ok () else panic

theorem assert_eq_ok {p : Prop} [Decidable p] {u : Unit} :
    (assert p : Outcome ε Unit) = ok u ↔ p := by
  rw [assert]
  split_ifs with h <;> simp [h]

theorem assert_of {p : Prop} [Decidable p] (h : p) : (assert p : Outcome ε Unit) = ok () :=
  if_pos h

/-- A normal return of a sequence comes from normal returns of its parts. -/
theorem bind_eq_ok {x : Outcome ε α} {f : α → Outcome ε β} {b : β} :
    x >>= f = ok b ↔ ∃ a, x = ok a ∧ f a = ok b := by
  cases x <;> simp [Bind.bind, bind]

/-- A sequence does not fail with an error that no part of it fails with. -/
theorem bind_ne_err {x : Outcome ε α} {f : α → Outcome ε β} {e : ε} (hx : x ≠ err e)
    (hf : ∀ a, x = ok a → f a ≠ err e) : x >>= f ≠ err e := by
  cases x with
  | ok a => exact hf a rfl
  | err e' => simpa [Bind.bind, bind] using hx
  | panic => simp [Bind.bind, bind]

theorem assert_ne_err {p : Prop} [Decidable p] {e : ε} : (assert p : Outcome ε Unit) ≠ err e := by
  rw [assert]
  split_ifs <;> simp

instance : LawfulMonad (Outcome ε) := by
  refine LawfulMonad.mk' _ ?_ ?_ ?_
  · rintro α (a | e | _) <;> rfl
  · intro α β a f
    rfl
  · rintro α β γ (a | e | _) f g <;> rfl

@[simp] theorem ok_bind (a : α) (f : α → Outcome ε β) : ok a >>= f = f a := rfl

@[simp] theorem err_bind (e : ε) (f : α → Outcome ε β) : err e >>= f = err e := rfl

@[simp] theorem panic_bind (f : α → Outcome ε β) : (panic : Outcome ε α) >>= f = panic := rfl

/-- The calls return together, and then with related values. -/
def Agree (R : α → β → Prop) : Outcome ε α → Outcome ε' β → Prop
  | ok a, ok b => R a b
  | ok _, _ => False
  | _, ok _ => False
  | _, _ => True

namespace Agree

variable {γ δ : Type} {R : α → β → Prop} {S : γ → δ → Prop}

theorem mono {R' : α → β → Prop} {x : Outcome ε α} {y : Outcome ε' β} (h : Agree R x y)
    (hR : ∀ a b, R a b → R' a b) : Agree R' x y := by
  cases x <;> cases y <;> first | exact h | exact hR _ _ h

theorem exists_left {x : Outcome ε α} {b : β} (h : Agree R x (ok b : Outcome ε' β)) :
    ∃ a, x = ok a ∧ R a b := by
  cases x with
  | ok a => exact ⟨a, rfl, h⟩
  | err e => exact False.elim h
  | panic => exact False.elim h

theorem ne_ok {x : Outcome ε α} {y : Outcome ε' β} (h : Agree R x y) (hy : ∀ b, y ≠ ok b) (a : α) :
    x ≠ ok a := by
  rintro rfl
  cases y with
  | ok b => exact hy b rfl
  | err e => exact h
  | panic => exact h

theorem of_iff {x : Outcome ε α} {y : Outcome ε' β} (h : (∃ a, x = ok a) ↔ ∃ b, y = ok b)
    (hR : ∀ a b, x = ok a → y = ok b → R a b) : Agree R x y := by
  cases x with
  | ok a =>
    obtain ⟨b, rfl⟩ := h.1 ⟨a, rfl⟩
    exact hR a b rfl rfl
  | err e =>
    cases y with
    | ok b => exact absurd (h.2 ⟨b, rfl⟩) (by simp)
    | err e' => trivial
    | panic => trivial
  | panic =>
    cases y with
    | ok b => exact absurd (h.2 ⟨b, rfl⟩) (by simp)
    | err e' => trivial
    | panic => trivial

theorem of_eq {x : Outcome ε α} {y : Outcome ε' β} {a : α} {b : β} (hx : x = ok a) (hy : y = ok b)
    (h : R a b) : Agree R x y := by
  rw [hx, hy]
  exact h

/-- Sequences agree when their first parts do and the rests do on related values. -/
theorem bind {x : Outcome ε α} {y : Outcome ε' β} {f : α → Outcome ε γ} {g : β → Outcome ε' δ}
    (h : Agree R x y) (hfg : ∀ a b, x = ok a → y = ok b → R a b → Agree S (f a) (g b)) :
    Agree S (x >>= f) (y >>= g) := by
  cases x <;> cases y <;> first | exact hfg _ _ rfl rfl h | exact False.elim h | trivial

end Agree

end Outcome
