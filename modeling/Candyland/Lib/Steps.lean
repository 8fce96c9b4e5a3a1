import Mathlib.Order.Basic

/-!
# Labelled runs

Runs of a transition relation with labels.  The labels are listed newest first, so that a
run ends with the head of its list.
-/

variable {σ τ Λ : Type*}

/-- The states that are reached from `s`, with the labels of the steps. -/
inductive Steps (R : σ → Λ → σ → Prop) (s : σ) : List Λ → σ → Prop
  /-- No step. -/
  | refl : Steps R s [] s
  /-- One more step. -/
  | step {labels : List Λ} {t t' : σ} {a : Λ} (h : Steps R s labels t) (hstep : R t a t') :
      Steps R s (a :: labels) t'

namespace Steps

variable {R : σ → Λ → σ → Prop} {s t u : σ} {as bs : List Λ} {a : Λ}

theorem exists_of_cons (h : Steps R s (a :: as) u) : ∃ t, Steps R s as t ∧ R t a u := by
  cases h with
  | step h hstep => exact ⟨_, h, hstep⟩

/-- A run through a list of labels passes a state at every place of the list. -/
theorem exists_of_append (h : Steps R s (bs ++ as) u) : ∃ t, Steps R s as t ∧ Steps R t bs u := by
  induction bs generalizing u with
  | nil => exact ⟨u, h, .refl⟩
  | cons b bs ih =>
    obtain ⟨v, h, hstep⟩ := exists_of_cons h
    obtain ⟨t, hs, ht⟩ := ih h
    exact ⟨t, hs, .step ht hstep⟩

/-- A run goes on from where another ends. -/
theorem trans (h : Steps R s as t) (h' : Steps R t bs u) : Steps R s (bs ++ as) u := by
  induction h' with
  | refl => exact h
  | step _ hstep ih => exact .step ih hstep

/-- A run is one of every relation that allows its steps. -/
theorem mono {Q : σ → Λ → σ → Prop} (hQ : ∀ s a t, R s a t → Q s a t) (h : Steps R s as t) :
    Steps Q s as t := by
  induction h with
  | refl => exact .refl
  | step _ hstep ih => exact .step ih (hQ _ _ _ hstep)

/-- A deterministic system ends where its labels lead. -/
theorem unique (hdet : ∀ s a t t', R s a t → R s a t' → t = t') (h : Steps R s as t)
    (h' : Steps R s as u) : t = u := by
  induction h generalizing u with
  | refl =>
    cases h'
    rfl
  | step _ hstep ih =>
    obtain ⟨v, hv, hstep'⟩ := exists_of_cons h'
    obtain rfl := ih hv
    exact hdet _ _ _ _ hstep hstep'

/-- What holds at the start and is kept by every step of the run holds at its end. -/
theorem invariant {I : List Λ → σ → Prop} (hinit : I [] s)
    (hstep : ∀ as t a t', a :: as <:+ bs → I as t → R t a t' → I (a :: as) t')
    (h : Steps R s bs u) : I bs u := by
  suffices hall : ∀ as t, Steps R s as t → as <:+ bs → I as t from hall bs u h List.suffix_rfl
  intro as t h
  induction h with
  | refl =>
    intro _
    exact hinit
  | step _ hR ih =>
    intro hsuffix
    exact hstep _ _ _ _ hsuffix (ih ((List.suffix_cons _ _).trans hsuffix)) hR

/-- A relation that every step of one system can be followed in is kept by runs. -/
theorem simulate {Q : τ → Λ → τ → Prop} {Rel : σ → τ → Prop} {x : τ}
    (hsim : ∀ s a s' x, Rel s x → R s a s' → ∃ x', Q x a x' ∧ Rel s' x')
    (h : Steps R s as t) (hrel : Rel s x) : ∃ y, Steps Q x as y ∧ Rel t y := by
  induction h with
  | refl => exact ⟨x, .refl, hrel⟩
  | step _ hR ih =>
    obtain ⟨y, hy, hrel⟩ := ih
    obtain ⟨y', hQ, hrel⟩ := hsim _ _ _ _ hrel hR
    exact ⟨y', .step hy hQ, hrel⟩

end Steps

/-! ### The last step of a kind -/

/-- The run has a step from a state where `P` holds of it, and `Q` holds of no step after it. -/
def Since (R : σ → Λ → σ → Prop) (s : σ) (P : σ → Λ → Prop) (Q : Λ → Prop) (labels : List Λ) :
    Prop :=
  ∃ later a earlier t, labels = later ++ a :: earlier ∧ Steps R s earlier t ∧ P t a ∧
    ∀ b ∈ later, ¬ Q b

section Since

variable {R : σ → Λ → σ → Prop} {s t : σ} {as : List Λ} {a : Λ} {P P' : σ → Λ → Prop} {Q : Λ → Prop}

theorem Since.last (h : Steps R s as t) (ha : P t a) : Since R s P Q (a :: as) :=
  ⟨[], a, as, t, rfl, h, ha, fun _ hb => absurd hb List.not_mem_nil⟩

theorem Since.cons (h : Since R s P Q as) (ha : ¬ Q a) : Since R s P Q (a :: as) := by
  obtain ⟨later, b, earlier, t, rfl, hsteps, hb, hlater⟩ := h
  refine ⟨a :: later, b, earlier, t, rfl, hsteps, hb, ?_⟩
  rintro c (_ | ⟨_, hc⟩)
  · exact ha
  · exact hlater c hc

theorem Since.imp (h : Since R s P Q as) (hP : ∀ t a, P t a → P' t a) : Since R s P' Q as := by
  obtain ⟨later, b, earlier, t, rfl, hsteps, hb, hlater⟩ := h
  exact ⟨later, b, earlier, t, rfl, hsteps, hP t b hb, hlater⟩

end Since
