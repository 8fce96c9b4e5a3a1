import Mathlib
import Candyland.Lib.Steps

/-!
# Double entry

A posting moves an amount from one account to another.  Balances move by postings when every
account ends with what it had, less what it paid, plus what it received.  Such moves compose
along a run, and the accounts that take part in them keep their total.
-/

/-- An amount that moves between two accounts. -/
@[ext]
structure Posting (α : Type*) where
  source : α
  recipient : α
  amount : ℕ

namespace Posting

variable {α σ Λ : Type*} [DecidableEq α] {ps qs : List (Posting α)} {p : Posting α} {a : α}

/-- What an account pays. -/
def paid (ps : List (Posting α)) (a : α) : ℕ :=
  (ps.map fun p => if p.source = a then p.amount else 0).sum

/-- What an account receives. -/
def received (ps : List (Posting α)) (a : α) : ℕ :=
  (ps.map fun p => if p.recipient = a then p.amount else 0).sum

@[simp] theorem paid_nil : paid [] a = 0 := rfl

@[simp] theorem received_nil : received [] a = 0 := rfl

@[simp] theorem paid_cons : paid (p :: ps) a = (if p.source = a then p.amount else 0) + paid ps a :=
  List.sum_cons

@[simp] theorem received_cons :
    received (p :: ps) a = (if p.recipient = a then p.amount else 0) + received ps a :=
  List.sum_cons

@[simp] theorem paid_append : paid (ps ++ qs) a = paid ps a + paid qs a := by
  simp [paid]

@[simp] theorem received_append : received (ps ++ qs) a = received ps a + received qs a := by
  simp [received]

/-- An account that is no source pays nothing. -/
theorem paid_eq_zero (h : ∀ p ∈ ps, p.source ≠ a) : paid ps a = 0 := by
  refine List.sum_eq_zero fun n hn => ?_
  obtain ⟨p, hp, rfl⟩ := List.mem_map.1 hn
  exact if_neg (h p hp)

/-- The sources together pay all amounts. -/
theorem sum_paid {S : Finset α} (h : ∀ p ∈ ps, p.source ∈ S) :
    ∑ a ∈ S, paid ps a = (ps.map amount).sum := by
  induction ps with
  | nil => simp
  | cons p ps ih =>
    have hrest := ih fun q hq => h q (List.mem_cons_of_mem p hq)
    simp [Finset.sum_add_distrib, hrest, h p List.mem_cons_self]

/-- The recipients together receive all amounts. -/
theorem sum_received {S : Finset α} (h : ∀ p ∈ ps, p.recipient ∈ S) :
    ∑ a ∈ S, received ps a = (ps.map amount).sum := by
  induction ps with
  | nil => simp
  | cons p ps ih =>
    have hrest := ih fun q hq => h q (List.mem_cons_of_mem p hq)
    simp [Finset.sum_add_distrib, hrest, h p List.mem_cons_self]

/-! ### Balances -/

/-- The balances after postings. -/
def Moves (before : α → ℕ) (ps : List (Posting α)) (after : α → ℕ) : Prop :=
  ∀ a, after a + paid ps a = before a + received ps a

namespace Moves

variable {x y z : α → ℕ}

theorem refl (x : α → ℕ) : Moves x [] x := fun _ => rfl

theorem trans (h : Moves x ps y) (h' : Moves y qs z) : Moves x (ps ++ qs) z := by
  intro a
  have hy := h a
  have hz := h' a
  rw [paid_append, received_append]
  omega

/-- The order of the postings does not matter. -/
theorem perm (h : Moves x ps y) (hperm : ps.Perm qs) : Moves x qs y := by
  intro a
  have ha := h a
  rwa [paid, received, (hperm.map _).sum_eq, (hperm.map _).sum_eq] at ha

/-- Who pays nothing has no less. -/
theorem le (h : Moves x ps y) (hsource : ∀ p ∈ ps, p.source ≠ a) : x a + received ps a = y a := by
  have ha := h a
  rw [paid_eq_zero hsource] at ha
  exact ha.symm

/-- The accounts that take part keep their total. -/
theorem sum_eq (h : Moves x ps y) {S : Finset α} (hS : ∀ p ∈ ps, p.source ∈ S ∧ p.recipient ∈ S) :
    ∑ a ∈ S, y a = ∑ a ∈ S, x a := by
  have hsum : ∑ a ∈ S, (y a + paid ps a) = ∑ a ∈ S, (x a + received ps a) :=
    Finset.sum_congr rfl fun a _ => h a
  rw [Finset.sum_add_distrib, Finset.sum_add_distrib, sum_paid fun p hp => (hS p hp).1,
    sum_received fun p hp => (hS p hp).2] at hsum
  exact Nat.add_right_cancel hsum

end Moves

/-- The postings of the steps of a run move the balances from its start to its end. -/
theorem moves_of_steps {R : σ → Λ → σ → Prop} (balance : σ → α → ℕ)
    (postings : Λ → List (Posting α)) {s t : σ} {as : List Λ}
    (hstep : ∀ s a t, R s a t → Moves (balance s) (postings a) (balance t)) (h : Steps R s as t) :
    Moves (balance s) (as.flatMap postings) (balance t) := by
  induction h with
  | refl => exact Moves.refl _
  | step _ hR ih => exact (ih.trans (hstep _ _ _ hR)).perm List.perm_append_comm

end Posting
