import Candyland.Lib.Bits

/-!
# Full binary hash trees

A tree of depth `D` is given by its leaves, a function on positions of which only
those below `2 ^ D` count, and a two-input hash `H`.  The node at level `l` and
position `p` is the hash of the subtree over the leaves `q` with `q / 2 ^ l = p`.

The file has three parts: nodes, sibling paths and their uniqueness under an
injective hash; what one write changes; and the replay of a window of writes on a
sibling path that was taken before them.
-/

namespace MerkleTree

variable {α : Type*} (H : α → α → α)

/-- The node at level `l` and position `p` of the tree with leaves `T`. -/
def node (T : ℕ → α) : ℕ → ℕ → α
  | 0, p => T p
  | l + 1, p => H (node T l (2 * p)) (node T l (2 * p + 1))

/-- The root of the tree of depth `D`. -/
def root (D : ℕ) (T : ℕ → α) : α := node H T D 0

/-- The sibling at level `l` of the path of leaf `i`. -/
def sibling (T : ℕ → α) (i l : ℕ) : α := node H T l ((i / 2 ^ l) ^^^ 1)

/-- Hashing upward from `x` for `l` levels along the path of `i`, with the
siblings `s`. -/
def climb (x : α) (s : ℕ → α) (i : ℕ) : ℕ → α
  | 0 => x
  | l + 1 => if i.testBit l then H (s l) (climb x s i l) else H (climb x s i l) (s l)

/-- The node at level `l` of a tree all of whose leaves are `e`. -/
def uniform (e : α) : ℕ → α
  | 0 => e
  | l + 1 => H (uniform e l) (uniform e l)

@[simp] theorem node_zero (T : ℕ → α) (p : ℕ) : node H T 0 p = T p := rfl

@[simp] theorem climb_zero (x : α) (s : ℕ → α) (i : ℕ) : climb H x s i 0 = x := rfl

theorem climb_succ (x : α) (s : ℕ → α) (i l : ℕ) :
    climb H x s i (l + 1) =
      if i.testBit l then H (s l) (climb H x s i l) else H (climb H x s i l) (s l) := rfl

/-! ### Nodes and paths -/

theorem node_succ (T : ℕ → α) (i l : ℕ) :
    node H T (l + 1) (i / 2 ^ (l + 1)) =
      if i.testBit l then H (sibling H T i l) (node H T l (i / 2 ^ l))
      else H (node H T l (i / 2 ^ l)) (sibling H T i l) := by
  rw [node, Bits.div_pow_succ, sibling]
  by_cases hbit : i.testBit l
  · have hodd := (Bits.testBit_iff i l).1 hbit
    rw [if_pos hbit, Bits.xor_one_of_odd hodd]
    congr 2 <;> omega
  · have heven : i / 2 ^ l % 2 = 0 := by
      have := (Bits.testBit_iff i l).not.1 hbit
      omega
    rw [if_neg hbit, Bits.xor_one_of_even heven]
    congr 2 <;> omega

/-- Climbing from a leaf along its own siblings gives the nodes of its path. -/
theorem climb_sibling (T : ℕ → α) (i l : ℕ) :
    climb H (T i) (sibling H T i) i l = node H T l (i / 2 ^ l) := by
  induction l with
  | zero => simp
  | succ l ih => rw [climb_succ, ih, node_succ]

theorem climb_sibling_root {D i : ℕ} (T : ℕ → α) (hi : i < 2 ^ D) :
    climb H (T i) (sibling H T i) i D = root H D T := by
  rw [climb_sibling, Nat.div_eq_of_lt hi, root]

theorem climb_congr {x : α} {s s' : ℕ → α} {i l : ℕ} (h : ∀ m < l, s m = s' m) :
    climb H x s i l = climb H x s' i l := by
  induction l with
  | zero => rfl
  | succ l ih =>
    rw [climb_succ, climb_succ, h l (by omega), ih fun m hm => h m (by omega)]

/-- Only the low bits of the position take part in a climb. -/
theorem climb_mod (x : α) (s : ℕ → α) (i : ℕ) {l D : ℕ} (h : l ≤ D) :
    climb H x s (i % 2 ^ D) l = climb H x s i l := by
  induction l with
  | zero => rfl
  | succ l ih =>
    have hbit : (i % 2 ^ D).testBit l = i.testBit l := by
      rw [Nat.testBit_mod_two_pow, decide_eq_true (by omega : l < D), Bool.true_and]
    rw [climb_succ, climb_succ, ih (by omega), hbit]

/-- Nodes only depend on the leaves below them. -/
theorem node_congr {T T' : ℕ → α} {l p : ℕ} (h : ∀ q, q / 2 ^ l = p → T q = T' q) :
    node H T l p = node H T' l p := by
  induction l generalizing p with
  | zero => exact h p (by simp)
  | succ l ih =>
    have hdiv : ∀ q, q / 2 ^ l = 2 * p ∨ q / 2 ^ l = 2 * p + 1 → q / 2 ^ (l + 1) = p := by
      intro q hq
      rw [Bits.div_pow_succ]
      omega
    rw [node, node, ih fun q hq => h q (hdiv q (.inl hq)), ih fun q hq => h q (hdiv q (.inr hq))]

theorem node_const (e : α) (l p : ℕ) : node H (fun _ => e) l p = uniform H e l := by
  induction l generalizing p with
  | zero => rfl
  | succ l ih => rw [node, ih, ih, uniform]

/-- A subtree all of whose leaves are `e` has the uniform node at its top. -/
theorem node_eq_uniform {T : ℕ → α} {e : α} {l p : ℕ} (h : ∀ q, q / 2 ^ l = p → T q = e) :
    node H T l p = uniform H e l := by
  rw [← node_const H e l p]
  exact node_congr H h

/-! ### Uniqueness -/

section Injective

variable {H} (hH : ∀ a b c d, H a b = H c d → a = c ∧ b = d)
include hH

/-- Two climbs along one path that meet had the same start and the same siblings. -/
theorem climb_inj {x y : α} {s s' : ℕ → α} {i l : ℕ}
    (h : climb H x s i l = climb H y s' i l) : x = y ∧ ∀ m < l, s m = s' m := by
  induction l with
  | zero => exact ⟨h, by simp⟩
  | succ l ih =>
    have hpair : climb H x s i l = climb H y s' i l ∧ s l = s' l := by
      rw [climb_succ, climb_succ] at h
      by_cases hbit : i.testBit l
      · rw [if_pos hbit, if_pos hbit] at h
        exact (hH _ _ _ _ h).symm
      · rw [if_neg hbit, if_neg hbit] at h
        exact hH _ _ _ _ h
    obtain ⟨hxy, hs⟩ := ih hpair.1
    refine ⟨hxy, fun m hm => ?_⟩
    rcases Nat.lt_succ_iff_lt_or_eq.1 hm with hm | rfl
    · exact hs m hm
    · exact hpair.2

/-- A climb that reaches the root of a tree started at a leaf of the tree and
used the tree's own siblings, whoever supplied them. -/
theorem climb_eq_root {x : α} {s : ℕ → α} {T : ℕ → α} {i D : ℕ} (hi : i < 2 ^ D)
    (h : climb H x s i D = root H D T) : x = T i ∧ ∀ l < D, s l = sibling H T i l := by
  rw [← climb_sibling_root H T hi] at h
  exact climb_inj hH h

theorem node_inj {T T' : ℕ → α} {l p : ℕ} (h : node H T l p = node H T' l p) :
    ∀ q, q / 2 ^ l = p → T q = T' q := by
  induction l generalizing p with
  | zero => intro q hq; simpa [← hq] using h
  | succ l ih =>
    intro q hq
    obtain ⟨hl, hr⟩ := hH _ _ _ _ h
    rw [Bits.div_pow_succ] at hq
    rcases Nat.mod_two_eq_zero_or_one (q / 2 ^ l) with h2 | h2
    · exact ih hl q (by omega)
    · exact ih hr q (by omega)

/-- The root determines the leaves. -/
theorem root_inj {T T' : ℕ → α} {D : ℕ} (h : root H D T = root H D T') :
    ∀ q < 2 ^ D, T q = T' q :=
  fun q hq => node_inj hH h q (Nat.div_eq_of_lt hq)

/-- A node is not the uniform node of a lower level, if no hash is the leaf of that. -/
theorem node_ne_uniform {e : α} (he : ∀ a b, H a b ≠ e) (T : ℕ → α) {l m : ℕ} (hlt : m < l) (p : ℕ) :
    node H T l p ≠ uniform H e m := by
  induction m generalizing l p with
  | zero =>
    obtain ⟨l, rfl⟩ := Nat.exists_eq_succ_of_ne_zero hlt.ne'
    exact he _ _
  | succ m ih =>
    obtain ⟨l, rfl⟩ := Nat.exists_eq_succ_of_ne_zero (Nat.ne_zero_of_lt hlt)
    intro heq
    rw [node, uniform] at heq
    exact ih (Nat.lt_of_succ_lt_succ hlt) _ (hH _ _ _ _ heq).1

/-- The siblings on the right of a path are uniform if and only if all later leaves are `e`. -/
theorem right_siblings_uniform_iff {T : ℕ → α} {e : α} {i D : ℕ} (hi : i < 2 ^ D) :
    (∀ l < D, i.testBit l = false → sibling H T i l = uniform H e l) ↔
      ∀ q < 2 ^ D, i < q → T q = e := by
  constructor
  · intro h q hq hlt
    have hsplits := (Bits.splits_iff hlt.ne _).2 rfl
    have hl := Bits.log2_xor_lt hi hq hlt.ne
    have hnode := h _ hl (hsplits.lt_iff.1 hlt)
    rw [← node_const H e _ ((i / 2 ^ (i ^^^ q).log2) ^^^ 1)] at hnode
    exact node_inj hH hnode q hsplits.symm
  · intro h l hl hbit
    refine node_eq_uniform H fun q hq => h q (Bits.lt_of_div_eq_xor_one hq hi hl) ?_
    exact Bits.Splits.lt_iff (l := l) hq.symm |>.2 hbit

end Injective

/-- Trees with the same leaves have the same siblings. -/
theorem sibling_congr {T T' : ℕ → α} {i l D : ℕ} (h : ∀ q < 2 ^ D, T q = T' q)
    (hi : i < 2 ^ D) (hl : l < D) : sibling H T i l = sibling H T' i l :=
  node_congr H fun q hq => h q (Bits.lt_of_div_eq_xor_one hq hi hl)

/-! ### One write -/

theorem node_update_of_ne {T : ℕ → α} {j l p : ℕ} {w : α} (h : p ≠ j / 2 ^ l) :
    node H (Function.update T j w) l p = node H T l p := by
  refine node_congr H fun q hq => Function.update_of_ne ?_ _ _
  rintro rfl
  exact h hq.symm

theorem sibling_update {T : ℕ → α} {i j l : ℕ} {w : α} (h : ¬ Bits.Splits i j l) :
    sibling H (Function.update T j w) i l = sibling H T i l :=
  node_update_of_ne H h

theorem sibling_update_self (T : ℕ → α) (j l : ℕ) (w : α) :
    sibling H (Function.update T j w) j l = sibling H T j l :=
  sibling_update H (Bits.not_splits_self j l)

/-- The path of a written leaf is the climb from the new value along the old
siblings. -/
theorem climb_update (T : ℕ → α) (j l : ℕ) (w : α) :
    climb H w (sibling H T j) j l = node H (Function.update T j w) l (j / 2 ^ l) := by
  rw [← climb_sibling, Function.update_self]
  exact climb_congr H fun m _ => (sibling_update_self H T j m w).symm

/-! ### Histories of writes

A history lists the writes of a run, the newest first. -/

/-- The leaves after the writes `ws` on a tree with leaves `base`. -/
def after (base : ℕ → α) : List (ℕ × α) → ℕ → α
  | [] => base
  | (j, w) :: ws => Function.update (after base ws) j w

@[simp] theorem after_nil (base : ℕ → α) : after base [] = base := rfl

@[simp] theorem after_cons (base : ℕ → α) (j : ℕ) (w : α) (ws : List (ℕ × α)) :
    after base ((j, w) :: ws) = Function.update (after base ws) j w := rfl

variable {base : ℕ → α}

theorem after_append (ws ws' : List (ℕ × α)) :
    after base (ws ++ ws') = after (after base ws') ws := by
  induction ws with
  | nil => rfl
  | cons w ws ih => rw [List.cons_append, after, after, ih]

/-- Writes to different leaves commute. -/
theorem after_perm {ws ws' : List (ℕ × α)} (h : ws.Perm ws') (hnodup : (ws.map Prod.fst).Nodup) :
    after base ws = after base ws' := by
  induction h with
  | nil => rfl
  | cons w _ ih =>
    rw [List.map_cons, List.nodup_cons] at hnodup
    rw [after, after, ih hnodup.2]
  | swap v w ws =>
    have hne : w.1 ≠ v.1 := by
      rintro heq
      simp [heq] at hnodup
    rw [after, after, after, after, Function.update_comm hne]
  | trans h₁ _ ih₁ ih₂ =>
    rw [ih₁ hnodup, ih₂ ((h₁.map Prod.fst).nodup_iff.1 hnodup)]

/-- A sibling that none of the last `k` writes lies under is as old as `k` writes. -/
theorem sibling_after_drop {ws : List (ℕ × α)} {i l k : ℕ}
    (h : ∀ w ∈ ws.take k, ¬ Bits.Splits i w.1 l) :
    sibling H (after base ws) i l = sibling H (after base (ws.drop k)) i l := by
  induction ws generalizing k with
  | nil => simp
  | cons w ws ih =>
    cases k with
    | zero => rfl
    | succ k =>
      rw [List.take_succ_cons] at h
      rw [List.drop_succ_cons, after_cons, sibling_update H (h w List.mem_cons_self)]
      exact ih fun w' hw' => h w' (List.mem_cons_of_mem _ hw')

/-- A leaf that none of the last `k` writes hits is as old as `k` writes. -/
theorem after_drop {ws : List (ℕ × α)} {i k : ℕ} (h : ∀ w ∈ ws.take k, w.1 ≠ i) :
    after base ws i = after base (ws.drop k) i := by
  induction ws generalizing k with
  | nil => simp
  | cons w ws ih =>
    cases k with
    | zero => rfl
    | succ k =>
      rw [List.take_succ_cons] at h
      rw [List.drop_succ_cons, after_cons,
        Function.update_of_ne (h w List.mem_cons_self).symm]
      exact ih fun w' hw' => h w' (List.mem_cons_of_mem _ hw')

/-! ### Replaying writes on an old path -/

/-- Brings the siblings and the leaf of `i` up to date with a write at `j` that
produced the tree `T`. -/
def patch (T : ℕ → α) (i j : ℕ) (st : (ℕ → α) × α) : (ℕ → α) × α :=
  if i = j then (st.1, T i)
  else (fun l => if Bits.Splits i j l then node H T l (j / 2 ^ l) else st.1 l, st.2)

/-- A patch brings the path of `i` from one tree to the next. -/
theorem patch_update_fst (T : ℕ → α) (i j l : ℕ) (w : α) :
    (patch H (Function.update T j w) i j (sibling H T i, T i)).1 l =
      sibling H (Function.update T j w) i l := by
  rw [patch]
  split_ifs with hi
  · rw [hi, sibling_update_self]
  · dsimp only
    split_ifs with hs
    · rw [sibling, show (i / 2 ^ l) ^^^ 1 = j / 2 ^ l from hs]
    · rw [sibling_update H hs]

theorem patch_update_snd (T : ℕ → α) (i j : ℕ) (w : α) :
    (patch H (Function.update T j w) i j (sibling H T i, T i)).2 = Function.update T j w i := by
  rw [patch]
  split_ifs with hi
  · rfl
  · rw [Function.update_of_ne hi]

/-- Applies the patches of the last `k` writes of `ws`, the oldest first. -/
def replay (base : ℕ → α) (ws : List (ℕ × α)) (i : ℕ) : ℕ → (ℕ → α) × α → (ℕ → α) × α
  | 0, st => st
  | k + 1, st =>
    replay base ws i k
      (match ws[k]? with
      | some w => patch H (after base (ws.drop k)) i w.1 st
      | none => st)

theorem mem_take_succ {β : Type*} {ws : List β} {k : ℕ} {w : β} :
    w ∈ ws.take (k + 1) ↔ w ∈ ws.take k ∨ ws[k]? = some w := by
  rw [List.take_add_one, List.mem_append, Option.mem_toList]

/-- After a replay the siblings that a replayed write lies beside are current; the
others are those it started from. -/
theorem replay_fst (ws : List (ℕ × α)) (i l k : ℕ) (st : (ℕ → α) × α) :
    (replay H base ws i k st).1 l =
      if ∃ w ∈ ws.take k, Bits.Splits i w.1 l then sibling H (after base ws) i l else st.1 l := by
  induction k generalizing st with
  | zero => simp [replay]
  | succ k ih =>
    rw [replay, ih]
    by_cases hnew : ∃ w ∈ ws.take k, Bits.Splits i w.1 l
    · obtain ⟨w, hw, hs⟩ := hnew
      rw [if_pos ⟨w, hw, hs⟩, if_pos ⟨w, mem_take_succ.2 (.inl hw), hs⟩]
    · rw [if_neg hnew]
      have hnew' : ∀ w ∈ ws.take k, ¬ Bits.Splits i w.1 l := fun w hw hs => hnew ⟨w, hw, hs⟩
      cases hk : ws[k]? with
      | none =>
        refine (if_neg ?_).symm
        rintro ⟨w, hw, hs⟩
        rcases mem_take_succ.1 hw with hw | hw
        · exact hnew' w hw hs
        · exact absurd (hk.symm.trans hw) (by simp)
      | some w =>
        dsimp only
        by_cases hs : Bits.Splits i w.1 l
        · rw [if_pos ⟨w, mem_take_succ.2 (.inr hk), hs⟩, sibling_after_drop H hnew', patch,
            if_neg fun hi => Bits.not_splits_self i l (by rwa [← hi] at hs)]
          simp only [if_pos hs]
          rw [sibling, show (i / 2 ^ l) ^^^ 1 = w.1 / 2 ^ l from hs]
        · have hno : ¬ ∃ w' ∈ ws.take (k + 1), Bits.Splits i w'.1 l := by
            rintro ⟨w', hw', hs'⟩
            rcases mem_take_succ.1 hw' with hw' | hw'
            · exact hnew' w' hw' hs'
            · rw [hk, Option.some.injEq] at hw'
              exact hs (by rwa [hw'])
          rw [if_neg hno, patch]
          by_cases hi : i = w.1
          · simp only [if_pos hi]
          · simp only [if_neg hi, if_neg hs]

/-- After a replay the leaf is current when a replayed write hit it. -/
theorem replay_snd (ws : List (ℕ × α)) (i k : ℕ) (st : (ℕ → α) × α) :
    (replay H base ws i k st).2 = if ∃ w ∈ ws.take k, w.1 = i then after base ws i else st.2 := by
  induction k generalizing st with
  | zero => simp [replay]
  | succ k ih =>
    rw [replay, ih]
    by_cases hnew : ∃ w ∈ ws.take k, w.1 = i
    · obtain ⟨w, hw, hs⟩ := hnew
      rw [if_pos ⟨w, hw, hs⟩, if_pos ⟨w, mem_take_succ.2 (.inl hw), hs⟩]
    · rw [if_neg hnew]
      have hnew' : ∀ w ∈ ws.take k, w.1 ≠ i := fun w hw hs => hnew ⟨w, hw, hs⟩
      cases hk : ws[k]? with
      | none =>
        refine (if_neg ?_).symm
        rintro ⟨w, hw, hs⟩
        rcases mem_take_succ.1 hw with hw | hw
        · exact hnew' w hw hs
        · exact absurd (hk.symm.trans hw) (by simp)
      | some w =>
        dsimp only
        by_cases hi : i = w.1
        · rw [if_pos ⟨w, mem_take_succ.2 (.inr hk), hi.symm⟩, after_drop hnew', patch, if_pos hi]
        · have hno : ¬ ∃ w' ∈ ws.take (k + 1), w'.1 = i := by
            rintro ⟨w', hw', hs'⟩
            rcases mem_take_succ.1 hw' with hw' | hw'
            · exact hnew' w' hw' hs'
            · rw [hk, Option.some.injEq] at hw'
              exact hi (by rw [hw', hs'])
          rw [if_neg hno, patch, if_neg hi]

/-- Replaying `k` writes on the siblings of `k` writes ago gives the current ones. -/
theorem replay_stale (ws : List (ℕ × α)) (i l k : ℕ) (x : α) :
    (replay H base ws i k (sibling H (after base (ws.drop k)) i, x)).1 l =
      sibling H (after base ws) i l := by
  rw [replay_fst]
  split_ifs with h
  · rfl
  · exact (sibling_after_drop H fun w hw hs => h ⟨w, hw, hs⟩).symm

/-- Replaying `k` writes on the leaf of `k` writes ago gives the current leaf. -/
theorem replay_stale_leaf (ws : List (ℕ × α)) (i k : ℕ) (s : ℕ → α) :
    (replay H base ws i k (s, after base (ws.drop k) i)).2 = after base ws i := by
  rw [replay_snd]
  split_ifs with h
  · rfl
  · exact (after_drop fun w hw hi => h ⟨w, hw, hi⟩).symm

/-- A replay that leaves out the oldest write brings the path of `i` up to date exactly
when a later write lies beside it at the same level, unless the oldest write changed
nothing. -/
theorem replay_skip_iff (hH : ∀ a b c d : α, H a b = H c d → a = c ∧ b = d) {ws : List (ℕ × α)}
    {i k D : ℕ} (hk : k < ws.length) (hi : i < 2 ^ D) (hj : ws[k].1 < 2 ^ D) (hne : i ≠ ws[k].1)
    (hroot : root H D (after base (ws.drop k)) ≠ root H D (after base (ws.drop (k + 1))))
    (x : α) :
    (∀ l < D, (replay H base ws i k (sibling H (after base (ws.drop (k + 1))) i, x)).1 l =
        sibling H (after base ws) i l) ↔
      ∃ w ∈ ws.take k, Bits.Splits i w.1 (i ^^^ ws[k].1).log2 := by
  have hsplit := Bits.splits_iff hne
  have hold : after base (ws.drop k) =
      Function.update (after base (ws.drop (k + 1))) ws[k].1 ws[k].2 := by
    rw [List.drop_eq_getElem_cons hk]
    rfl
  constructor
  · intro hcur
    by_contra hnone
    have hlog : (i ^^^ ws[k].1).log2 < D := Bits.log2_xor_lt hi hj hne
    have hlevel := hcur _ hlog
    rw [replay_fst, if_neg hnone,
      sibling_after_drop H fun w hw hs => hnone ⟨w, hw, hs⟩, hold] at hlevel
    dsimp only at hlevel
    -- the sibling is over the oldest write, which therefore wrote the old leaf
    rw [sibling, sibling, (hsplit _).2 rfl] at hlevel
    have hleaf := node_inj hH hlevel ws[k].1 rfl
    rw [Function.update_self] at hleaf
    rw [hold, ← hleaf, Function.update_eq_self] at hroot
    exact hroot rfl
  · intro hlater l _
    rw [replay_fst]
    split_ifs with h
    · rfl
    · have hl : ¬ Bits.Splits i ws[k].1 l := by
        rintro hs
        obtain ⟨w, hw, hs'⟩ := hlater
        rw [← (hsplit l).1 hs] at hs'
        exact h ⟨w, hw, hs'⟩
      rw [sibling_after_drop H fun w hw hs => h ⟨w, hw, hs⟩, hold, sibling_update H hl]

end MerkleTree
