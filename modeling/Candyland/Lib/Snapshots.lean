import Candyland.Lib.MerkleTree

/-!
# Histories of trees

An update may do more to a tree than write one leaf, as long as it leaves alone the nodes over the
leaves that earlier updates wrote, unless its own leaf is under them too.  A history of such updates
lists for each its leaf and the tree after it, the newest first.  Replaying the last updates on a
path that is current leaves it current.
-/

namespace MerkleTree

variable {α : Type*} (H : α → α → α)

/-- The tree after the updates `ts` of a tree with leaves `base`. -/
def latest (base : ℕ → α) : List (ℕ × (ℕ → α)) → ℕ → α
  | [] => base
  | (_, T) :: _ => T

@[simp] theorem latest_nil (base : ℕ → α) : latest base [] = base := rfl

@[simp] theorem latest_cons (base T : ℕ → α) (j : ℕ) (ts : List (ℕ × (ℕ → α))) :
    latest base ((j, T) :: ts) = T := rfl

/-- Every update leaves alone the nodes over earlier leaves that its own leaf is not under. -/
def Framed (base : ℕ → α) : List (ℕ × (ℕ → α)) → Prop
  | [] => True
  | (j, T) :: ts => Framed base ts ∧ ∀ u ∈ ts, ∀ l, u.1 / 2 ^ l ≠ j / 2 ^ l →
      node H T l (u.1 / 2 ^ l) = node H (latest base ts) l (u.1 / 2 ^ l)

/-- Applies the patches of the last `k` updates, the oldest first. -/
def replayTrees (ts : List (ℕ × (ℕ → α))) (i : ℕ) : ℕ → (ℕ → α) × α → (ℕ → α) × α
  | 0, st => st
  | k + 1, st =>
    replayTrees ts i k
      (match ts[k]? with
      | some u => patch H u.2 i u.1 st
      | none => st)

/-- The tree that a leaf at `n` makes when it takes the place of everything in the subtree of height
`t` over it. -/
def graft (e : α) (T : ℕ → α) (n t : ℕ) (w : α) (q : ℕ) : α :=
  if q = n then w else if q / 2 ^ t = n / 2 ^ t then e else T q

variable {H} {base : ℕ → α} {ts : List (ℕ × (ℕ → α))}

/-- A node over an updated leaf stays what it was then until a later leaf is under it. -/
theorem Framed.node_eq (h : Framed H base ts) {k l : ℕ} {u : ℕ × (ℕ → α)} (hk : ts[k]? = some u)
    (hnew : ∀ u' ∈ ts.take k, u.1 / 2 ^ l ≠ u'.1 / 2 ^ l) :
    node H (latest base ts) l (u.1 / 2 ^ l) = node H u.2 l (u.1 / 2 ^ l) := by
  induction ts generalizing k with
  | nil => simp at hk
  | cons u' ts ih =>
    cases k with
    | zero =>
      rw [List.getElem?_cons_zero, Option.some.injEq] at hk
      rw [← hk]
      rfl
    | succ k =>
      rw [List.getElem?_cons_succ] at hk
      rw [List.take_succ_cons] at hnew
      have hframe := h.2 u (List.mem_of_getElem? hk) l (hnew u' List.mem_cons_self)
      exact hframe.trans (ih h.1 hk fun v hv => hnew v (List.mem_cons_of_mem u' hv))

/-- After a replay the siblings that a replayed update lies beside are current; the others are
those it started from. -/
theorem Framed.replayTrees_fst (h : Framed H base ts) (i l k : ℕ) (st : (ℕ → α) × α) :
    (replayTrees H ts i k st).1 l =
      if ∃ u ∈ ts.take k, Bits.Splits i u.1 l then sibling H (latest base ts) i l
      else st.1 l := by
  induction k generalizing st with
  | zero => simp [replayTrees]
  | succ k ih =>
    rw [replayTrees, ih]
    by_cases hnew : ∃ u ∈ ts.take k, Bits.Splits i u.1 l
    · obtain ⟨u, hu, hs⟩ := hnew
      rw [if_pos ⟨u, hu, hs⟩, if_pos ⟨u, mem_take_succ.2 (.inl hu), hs⟩]
    · rw [if_neg hnew]
      cases hk : ts[k]? with
      | none =>
        refine (if_neg ?_).symm
        rintro ⟨u, hu, hs⟩
        rcases mem_take_succ.1 hu with hu | hu
        · exact hnew ⟨u, hu, hs⟩
        · exact absurd (hk.symm.trans hu) (by simp)
      | some u =>
        dsimp only
        by_cases hs : Bits.Splits i u.1 l
        · rw [if_pos ⟨u, mem_take_succ.2 (.inr hk), hs⟩, patch,
            if_neg fun hi => Bits.not_splits_self i l (by rwa [← hi] at hs)]
          simp only [if_pos hs]
          rw [sibling, show (i / 2 ^ l) ^^^ 1 = u.1 / 2 ^ l from hs]
          -- no younger update lies under this sibling
          refine (h.node_eq hk fun u' hu' heq => hnew ⟨u', hu', ?_⟩).symm
          exact (show (i / 2 ^ l) ^^^ 1 = u.1 / 2 ^ l from hs).trans heq
        · have hno : ¬ ∃ u' ∈ ts.take (k + 1), Bits.Splits i u'.1 l := by
            rintro ⟨u', hu', hs'⟩
            rcases mem_take_succ.1 hu' with hu' | hu'
            · exact hnew ⟨u', hu', hs'⟩
            · rw [hk, Option.some.injEq] at hu'
              exact hs (by rwa [hu'])
          rw [if_neg hno, patch]
          by_cases hi : i = u.1
          · simp only [if_pos hi]
          · simp only [if_neg hi, if_neg hs]

/-- After a replay the leaf is current when a replayed update wrote it. -/
theorem Framed.replayTrees_snd (h : Framed H base ts) (i k : ℕ) (st : (ℕ → α) × α) :
    (replayTrees H ts i k st).2 =
      if ∃ u ∈ ts.take k, u.1 = i then latest base ts i else st.2 := by
  induction k generalizing st with
  | zero => simp [replayTrees]
  | succ k ih =>
    rw [replayTrees, ih]
    by_cases hnew : ∃ u ∈ ts.take k, u.1 = i
    · obtain ⟨u, hu, hi⟩ := hnew
      rw [if_pos ⟨u, hu, hi⟩, if_pos ⟨u, mem_take_succ.2 (.inl hu), hi⟩]
    · rw [if_neg hnew]
      cases hk : ts[k]? with
      | none =>
        refine (if_neg ?_).symm
        rintro ⟨u, hu, hi⟩
        rcases mem_take_succ.1 hu with hu | hu
        · exact hnew ⟨u, hu, hi⟩
        · exact absurd (hk.symm.trans hu) (by simp)
      | some u =>
        dsimp only
        by_cases hi : i = u.1
        · have hleaf := h.node_eq (l := 0) hk fun u' hu' heq =>
            hnew ⟨u', hu', by simpa [hi] using heq.symm⟩
          rw [pow_zero, Nat.div_one, node_zero, node_zero] at hleaf
          rw [if_pos ⟨u, mem_take_succ.2 (.inr hk), hi.symm⟩, patch, if_pos hi, hi]
          exact hleaf.symm
        · have hno : ¬ ∃ u' ∈ ts.take (k + 1), u'.1 = i := by
            rintro ⟨u', hu', hi'⟩
            rcases mem_take_succ.1 hu' with hu' | hu'
            · exact hnew ⟨u', hu', hi'⟩
            · rw [hk, Option.some.injEq] at hu'
              exact hi (by rw [hu', hi'])
          rw [if_neg hno, patch, if_neg hi]

/-- Replaying on a current path is harmless. -/
theorem Framed.replayTrees_current (h : Framed H base ts) (i l k : ℕ) :
    let st := (sibling H (latest base ts) i, latest base ts i)
    (replayTrees H ts i k st).1 l = st.1 l ∧ (replayTrees H ts i k st).2 = st.2 := by
  intro st
  rw [h.replayTrees_fst, h.replayTrees_snd]
  exact ⟨ite_self _, ite_self _⟩

/-! ### A leaf that takes the place of a subtree -/

section Graft

variable {e w : α} {T : ℕ → α} {n t : ℕ}

theorem graft_self (e w : α) (T : ℕ → α) (n t : ℕ) : graft e T n t w n = w := if_pos rfl

theorem graft_of_div_ne {q : ℕ} (hq : q / 2 ^ t ≠ n / 2 ^ t) : graft e T n t w q = T q := by
  rw [graft, if_neg (by rintro rfl; exact hq rfl), if_neg hq]

/-- With the leaf first in its subtree, the leaves before it stay. -/
theorem graft_of_lt (hn : n % 2 ^ t = 0) {q : ℕ} (hq : q < n) : graft e T n t w q = T q := by
  refine graft_of_div_ne fun hdiv => ?_
  have hdm := Nat.div_add_mod n (2 ^ t)
  have hdm' := Nat.div_add_mod q (2 ^ t)
  rw [hdiv] at hdm'
  omega

/-- So do the nodes over them that the leaf is not under. -/
theorem node_graft_of_lt (hn : n % 2 ^ t = 0) {u l : ℕ} (hu : u < n)
    (hne : u / 2 ^ l ≠ n / 2 ^ l) :
    node H (graft e T n t w) l (u / 2 ^ l) = node H T l (u / 2 ^ l) := by
  refine node_congr H fun q hq => graft_of_lt hn ?_
  by_contra hge
  have hle : n / 2 ^ l ≤ q / 2 ^ l := Nat.div_le_div_right (not_lt.1 hge)
  have hle' : u / 2 ^ l ≤ n / 2 ^ l := Nat.div_le_div_right hu.le
  omega

end Graft

end MerkleTree
