import Mathlib

/-!
# Asynchronous computations

Computations that issue statements and wait for promises, as in JavaScript: a function that is
called runs until it waits for the first time, and what is behind this point runs later, when
nothing else does.  What is issued while a computation runs without waiting is told apart from what
it issues later, under any order in which the promises settle.
-/

/-- A computation that issues statements.  It goes on behind an `await` in one of two ways. -/
inductive Async (S : Type*) where
  /-- It has returned. -/
  | done
  /-- It has thrown. -/
  | fail
  | issue (s : S) (next : Async S)
  | await (resolved rejected : Async S)

namespace Async

variable {S : Type*}

/-- What is issued up to the first `await`. -/
def issued : Async S → List S
  | done => []
  | fail => []
  | issue s next => s :: next.issued
  | await .. => []

/-- How the computation goes on behind its first `await`. -/
def pending : Async S → Option (Async S × Async S)
  | done => none
  | fail => none
  | issue _ next => next.pending
  | await resolved rejected => some (resolved, rejected)

/-- What is issued if every promise is resolved. -/
def full : Async S → List S
  | done => []
  | fail => []
  | issue s next => s :: next.full
  | await resolved _ => resolved.full

/-- Without a promise that is rejected, the computation returns. -/
def Completes : Async S → Prop
  | done => True
  | fail => False
  | issue _ next => next.Completes
  | await resolved _ => resolved.Completes

/-- Nothing is ever issued. -/
def Quiet : Async S → Prop
  | done => True
  | fail => True
  | issue .. => False
  | await resolved rejected => resolved.Quiet ∧ rejected.Quiet

/-- `await f(); k`: the call of an asynchronous function, which starts at once. -/
def andThen : Async S → Async S → Async S
  | done, k => await k k
  | fail, _ => await fail fail
  | issue s next, k => issue s (next.andThen k)
  | await resolved rejected, k => await (resolved.andThen k) (rejected.andThen k)

/-- `await connection.run(s)`. -/
def run (s : S) : Async S := issue s (await done fail)

/-! ### Composition -/

section Composition

variable {f k : Async S}

/-- The second part always comes behind an `await`. -/
@[simp] theorem issued_andThen (f k : Async S) : (f.andThen k).issued = f.issued := by
  induction f with
  | done | fail | await => rfl
  | issue s next ih => exact congrArg (s :: ·) ih

theorem full_andThen (h : f.Completes) (k : Async S) : (f.andThen k).full = f.full ++ k.full := by
  induction f with
  | done => rfl
  | fail => exact h.elim
  | issue s next ih => exact congrArg (s :: ·) (ih h)
  | await resolved rejected ih => exact ih h

theorem Completes.andThen (h : f.Completes) (hk : k.Completes) : (f.andThen k).Completes := by
  induction f with
  | done => exact hk
  | fail => exact h.elim
  | issue s next ih => exact ih h
  | await resolved rejected ih => exact ih h

/-- Without a promise that is rejected, the computation returns and has issued these
statements. -/
structure Issues (f : Async S) (statements : List S) : Prop where
  completes : f.Completes
  full_eq : f.full = statements

theorem Issues.done : (done : Async S).Issues [] := ⟨trivial, rfl⟩

theorem Issues.run (s : S) : (run s).Issues [s] := ⟨trivial, rfl⟩

theorem Issues.andThen {as bs : List S} (h : f.Issues as) (hk : k.Issues bs) :
    (f.andThen k).Issues (as ++ bs) :=
  ⟨h.completes.andThen hk.completes, by rw [full_andThen h.completes, h.full_eq, hk.full_eq]⟩

theorem Quiet.andThen (h : f.Quiet) (hk : k.Quiet) : (f.andThen k).Quiet := by
  induction f with
  | done => exact ⟨hk, hk⟩
  | fail => exact ⟨trivial, trivial⟩
  | issue s next ih => exact h.elim
  | await resolved rejected ih ih' => exact ⟨ih h.1, ih' h.2⟩

theorem Quiet.issued_eq (h : f.Quiet) : f.issued = [] := by
  cases f with
  | done | fail | await => rfl
  | issue s next => exact h.elim

theorem Quiet.of_pending (h : f.Quiet) {p : Async S × Async S} (hp : p ∈ f.pending) :
    p.1.Quiet ∧ p.2.Quiet := by
  cases f with
  | done | fail => cases hp
  | issue s next => exact h.elim
  | await resolved rejected =>
    obtain rfl := Option.some.inj hp
    exact h

/-- What is issued at once, and then what is issued behind the first `await`. -/
theorem full_eq (f : Async S) :
    f.full = f.issued ++ (f.pending.map fun p => p.1.full).getD [] := by
  induction f with
  | done | fail | await => rfl
  | issue s next ih => exact congrArg (s :: ·) ih

end Composition

/-! ### Running -/

/-- The computations that wait, and the statements so far, in the order in which they were
issued. -/
structure Machine (S : Type*) where
  waiting : List (Async S × Async S)
  log : List S

namespace Machine

/-- Computations are started one after the other. -/
def start (computations : List (Async S)) : Machine S where
  waiting := computations.filterMap pending
  log := computations.flatMap issued

/-- A promise settles, and the computation that waits for it runs up to its next `await`. -/
inductive Step : Machine S → Machine S → Prop
  | settle (before after : List (Async S × Async S)) (log : List S) (p : Async S × Async S)
      (next : Async S) (h : next = p.1 ∨ next = p.2) :
      Step ⟨before ++ p :: after, log⟩
        ⟨before ++ next.pending.toList ++ after, log ++ next.issued⟩

/-- Any number of promises settle, in any order. -/
abbrev Reaches : Machine S → Machine S → Prop := Relation.ReflTransGen Step

variable {m m' : Machine S}

/-- As long as only quiet computations wait, nothing is issued. -/
theorem Reaches.log_eq (h : m.Reaches m') (hquiet : ∀ p ∈ m.waiting, p.1.Quiet ∧ p.2.Quiet) :
    m'.log = m.log := by
  suffices hinv : m'.log = m.log ∧ ∀ p ∈ m'.waiting, p.1.Quiet ∧ p.2.Quiet from hinv.1
  induction h with
  | refl => exact ⟨rfl, hquiet⟩
  | tail _ hstep ih =>
    obtain ⟨hlog, hquiet⟩ := ih
    cases hstep with
    | settle before after log p next hnext =>
      obtain ⟨hresolved, hrejected⟩ := hquiet p (by simp)
      have hq : next.Quiet := by
        rcases hnext with rfl | rfl
        · exact hresolved
        · exact hrejected
      refine ⟨by rw [hq.issued_eq, List.append_nil, ← hlog], fun q hmem => ?_⟩
      simp only [List.mem_append, Option.mem_toList] at hmem
      rcases hmem with (hmem | hmem) | hmem
      · exact hquiet q (by simp [hmem])
      · exact hq.of_pending hmem
      · exact hquiet q (by simp [hmem])

/-- A computation can issue all its statements. -/
theorem exists_reaches (before after : List (Async S × Async S)) (log : List S) (f : Async S) :
    ∃ m', Reaches ⟨before ++ f.pending.toList ++ after, log ++ f.issued⟩ m' ∧
      m'.log = log ++ f.full := by
  induction f generalizing log with
  | done | fail => exact ⟨_, .refl, rfl⟩
  | issue s next ih =>
    obtain ⟨m', hreaches, hlog⟩ := ih (log ++ [s])
    rw [List.append_assoc log] at hreaches hlog
    exact ⟨m', hreaches, hlog⟩
  | await resolved rejected ih =>
    obtain ⟨m', hreaches, hlog⟩ := ih log
    refine ⟨m', .head ?_ hreaches, hlog⟩
    have hstep := Step.settle before after log (resolved, rejected) resolved (.inl rfl)
    simpa [pending, issued] using hstep

/-- A promise is resolved. -/
inductive Resolve : Machine S → Machine S → Prop
  | settle (before after : List (Async S × Async S)) (log : List S) (p : Async S × Async S) :
      Resolve ⟨before ++ p :: after, log⟩
        ⟨before ++ p.1.pending.toList ++ after, log ++ p.1.issued⟩

/-- Any number of promises are resolved, in any order. -/
abbrev Resolves : Machine S → Machine S → Prop := Relation.ReflTransGen Resolve

/-- The number of statements that are still to come if every promise is resolved. -/
def toCome (m : Machine S) : ℕ := (m.waiting.map fun p => p.1.full.length).sum

/-- In whatever order the promises are resolved, all statements are issued. -/
theorem Resolves.length_log (h : m.Resolves m') :
    m.log <+: m'.log ∧ m'.log.length + m'.toCome = m.log.length + m.toCome := by
  induction h with
  | refl => exact ⟨List.prefix_rfl, rfl⟩
  | tail _ hstep ih =>
    obtain ⟨hpre, hlength⟩ := ih
    cases hstep with
    | settle before after log p =>
      refine ⟨hpre.trans (List.prefix_append _ _), hlength ▸ ?_⟩
      have hfull : p.1.full.length = p.1.issued.length +
          (p.1.pending.toList.map fun q => q.1.full.length).sum := by
        rw [full_eq, List.length_append]
        cases p.1.pending <;> simp
      simp only [toCome, List.map_append, List.sum_append, List.length_append, List.map_cons,
        List.sum_cons, hfull]
      omega

end Machine

end Async
