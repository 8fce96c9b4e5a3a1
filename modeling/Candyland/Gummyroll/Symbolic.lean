import Candyland.Gummyroll.Run
import Candyland.ConcurrentMerkleTree.Symbolic

/-!
# Traces of an account

Runs of an account as a function, on symbolic nodes and with numbers for addresses.
-/

namespace Candyland.Gummyroll

open ConcurrentMerkleTree

/-- The build of the workspace. -/
instance : Build := ⟨false⟩

variable {Node Pubkey : Type} [NodeHash Node] [DecidableEq Node] [DecidableEq Pubkey] {D B c : ℕ}
  [hB : BufferSize B]

theorem AccountRun.step [Build] {P : Account Node Pubkey D B → Instruction Node Pubkey → Prop}
    {st : AccountState Node Pubkey D B} (h : AccountRun P c st.account st.writes st.events)
    (ins : Instruction Node Pubkey) (hP : P st.account ins) :
    AccountRun P c (st.step ins).account (st.step ins).writes (st.step ins).events := by
  rw [AccountState.step]
  rcases hexec : ins.exec st.account with ⟨_ | event, account⟩ | _ | _
  · exact .read h hexec
  · exact .write h hP hexec
  · exact h
  · exact h

theorem AccountRun.foldl_step [Build]
    {P : Account Node Pubkey D B → Instruction Node Pubkey → Prop}
    {st : AccountState Node Pubkey D B} (h : AccountRun P c st.account st.writes st.events)
    {instructions : List (Instruction Node Pubkey)}
    (hP : ∀ ins ∈ instructions, ∀ account, P account ins) :
    let st' := instructions.foldl AccountState.step st
    AccountRun P c st'.account st'.writes st'.events := by
  induction instructions generalizing st with
  | nil => exact h
  | cons ins instructions ih =>
    exact ih (h.step ins (hP ins List.mem_cons_self _))
      fun ins' hins' => hP ins' (List.mem_cons_of_mem ins hins')

/-- An account of zero bytes with room for a canopy of `c` levels. -/
def zeroed (c : ℕ) : Account Term ℕ 3 8 where
  key := 0
  header := ⟨0, 0, 0, 0, 0⟩
  roll := MerkleRoll.new
  canopy := .zeroed (2 ^ (c + 1) - 2)

theorem fresh_zeroed (hc : c ≤ 3) : (zeroed c).Fresh c where
  header := ⟨rfl, rfl⟩
  roll := rfl
  trailing := rfl
  length := by
    have hpow : 2 ^ 1 ≤ 2 ^ (c + 1) := Nat.pow_le_pow_right (by norm_num) (by omega)
    rw [zeroed, Canopy.zeroed, List.length_replicate]
    omega
  cached := hc
  zero _ h := List.eq_of_mem_replicate h

/-- The account after `init_empty_gummyroll`. -/
def opened (c : ℕ) : AccountState Term ℕ 3 8 :=
  match (zeroed c).initEmptyGummyroll 0 0 0 with
  | .ok (event, account) => ⟨account, [], [event]⟩
  | _ => ⟨zeroed c, [], []⟩

theorem opened_ok (hc : c ≤ 3) : ∃ event account,
    (zeroed c).initEmptyGummyroll 0 0 0 = .ok (event, account) ∧
      opened c = ⟨account, [], [event]⟩ := by
  obtain ⟨⟨event, account⟩, hok⟩ :=
    (initEmptyGummyroll_isOk_iff (fresh_zeroed hc) 0 0 0).2 ⟨by decide, by decide⟩
  exact ⟨event, account, hok, by rw [opened, hok]⟩

/-- The account after some instructions. -/
def accountTrace (c : ℕ) (instructions : List (Instruction Term ℕ)) : AccountState Term ℕ 3 8 :=
  instructions.foldl AccountState.step (opened c)

/-- The trace of instructions that satisfy `P` is a run. -/
theorem accountRun_trace {P : Account Term ℕ 3 8 → Instruction Term ℕ → Prop} (hc : c ≤ 3)
    {instructions : List (Instruction Term ℕ)} (hP : ∀ ins ∈ instructions, ∀ account, P account ins) :
    let st := accountTrace c instructions
    AccountRun P c st.account st.writes st.events := by
  have hopened : AccountRun P c (opened c).account (opened c).writes (opened c).events := by
    obtain ⟨event, account, hok, heq⟩ := opened_ok hc
    rw [heq]
    exact .init (fresh_zeroed hc) hok
  exact AccountRun.foldl_step hopened hP

end Candyland.Gummyroll
