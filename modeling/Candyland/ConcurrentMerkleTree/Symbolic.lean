import Candyland.ConcurrentMerkleTree.Run

/-!
# Symbolic nodes

Nodes as terms: the hash of two nodes is a new term.  This hash is collision-free and
never the zero node, so it satisfies what the results assume of keccak, and runs on it
can be evaluated.
-/

namespace Candyland.ConcurrentMerkleTree

/-- A node is a number, zero for the empty node, or the hash of two nodes. -/
inductive Term where
  | leaf (n : ℕ)
  | node (l r : Term)
deriving DecidableEq

namespace Term

instance : NodeHash Term where
  EMPTY := leaf 0
  hashv := node

instance : CollisionFree Term where
  hashv_inj _ _ _ _ h := Term.node.inj h

instance : NonzeroHash Term where
  hashv_ne_empty _ _ h := Term.noConfusion h

end Term

/-- The smallest buffer of the program. -/
instance : BufferSize 8 := ⟨by decide, by decide⟩

/-! ### Traces

The same runs as a function, with which a state can be computed from its calls. -/

variable {Node : Type} [NodeHash Node] [DecidableEq Node] {D B : ℕ} [hB : BufferSize B]

/-- Makes a call and notes its write.  A panic undoes the call. -/
def Call.step (st : MerkleRoll Node D B × List (ℕ × Node)) (c : Call Node) :
    MerkleRoll Node D B × List (ℕ × Node) :=
  match c.exec st.1 with
  | (.ok _, roll') => (roll', (position D (c.target st.1), c.leaf) :: st.2)
  | (.err _, roll') => (roll', st.2)
  | (.panic, _) => st

/-- The roll and the writes after some calls on a fresh roll. -/
def trace (D B : ℕ) [BufferSize B] (calls : List (Call Node)) :
    MerkleRoll Node D B × List (ℕ × Node) :=
  calls.foldl Call.step ((MerkleRoll.initializeRoll MerkleRoll.new).2, [])

theorem Run.step {P : MerkleRoll Node D B → Call Node → Prop}
    {st : MerkleRoll Node D B × List (ℕ × Node)} {c : Call Node} (h : Run P st.1 st.2)
    (hP : P st.1 c) : Run P (c.step st).1 (c.step st).2 := by
  rw [Call.step]
  rcases hexec : c.exec st.1 with ⟨r | e | _, roll'⟩
  · exact .ok h hP hexec
  · exact .err h hexec
  · exact h

theorem Run.foldl_step {P : MerkleRoll Node D B → Call Node → Prop}
    {st : MerkleRoll Node D B × List (ℕ × Node)} (h : Run P st.1 st.2) {calls : List (Call Node)}
    (hP : ∀ c ∈ calls, ∀ roll, P roll c) :
    Run P (calls.foldl Call.step st).1 (calls.foldl Call.step st).2 := by
  induction calls generalizing st with
  | nil => exact h
  | cons c calls ih =>
    have hc := hP c List.mem_cons_self st.1
    exact ih (h.step hc) fun c' hc' => hP c' (List.mem_cons_of_mem c hc')

/-- The trace of calls that satisfy `P` is a run. -/
theorem run_trace {P : MerkleRoll Node D B → Call Node → Prop} (hcheck : checkBounds D B = true)
    {calls : List (Call Node)} (hP : ∀ c ∈ calls, ∀ roll, P roll c) :
    Run P (trace D B calls).1 (trace D B calls).2 := by
  have hinit : Run P (MerkleRoll.initializeRoll MerkleRoll.new).2 [] := by
    refine .init (r := emptyNode D) ?_
    rw [MerkleRoll.initializeRoll, if_pos hcheck]
  exact Run.foldl_step (by exact hinit) hP

/-- A tree of depth `3` after `n` appends of the leaves `1`, `2`, …. -/
def appended (n : ℕ) : MerkleRoll Term 3 8 × List (ℕ × Term) :=
  trace 3 8 ((List.range n).map fun m => .append (.leaf (m + 1)))

theorem run_appended {P : MerkleRoll Term 3 8 → Call Term → Prop}
    (hP : ∀ node roll, P roll (.append node)) (n : ℕ) : Run P (appended n).1 (appended n).2 := by
  refine run_trace (by decide) fun c hc roll => ?_
  obtain ⟨m, -, rfl⟩ := List.mem_map.1 hc
  exact hP _ roll

end Candyland.ConcurrentMerkleTree
