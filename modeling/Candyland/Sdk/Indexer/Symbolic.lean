import Candyland.Bubblegum.Symbolic
import Candyland.Sdk.Indexer.ArrivalOrder
import Candyland.Sdk.Indexer.Instruction

/-!
# Symbolic bytes

Layouts of the symbolic nodes and keys, and the instructions of a transaction as they are
compiled, with which the parsers can be run on a trace.
-/

namespace Candyland.Sdk.Indexer

open Borsh (Layout)
open Bubblegum (Event Executed Key)
open ConcurrentMerkleTree (Term NodeHash EMPTY)

variable {Pubkey : Type}

/-! ### Layouts -/

/-- Terms as their parts. -/
def termEquiv : Term ≃ ℕ ⊕ Term × Term where
  toFun
    | .leaf n => .inl n
    | .node l r => .inr (l, r)
  invFun
    | .inl n => .leaf n
    | .inr (l, r) => .node l r
  left_inv t := by cases t <;> rfl
  right_inv s := by rcases s with n | ⟨l, r⟩ <;> rfl

/-- Keys as their parts. -/
def keyEquiv : Key ≃ (ℕ ⊕ Key) ⊕ Key × UInt64 ⊕ Key × UInt64 where
  toFun
    | .user n => .inl (.inl n)
    | .authority slab => .inl (.inr slab)
    | .voucher slab nonce => .inr (.inl (slab, nonce))
    | .asset slab nonce => .inr (.inr (slab, nonce))
  invFun
    | .inl (.inl n) => .user n
    | .inl (.inr slab) => .authority slab
    | .inr (.inl (slab, nonce)) => .voucher slab nonce
    | .inr (.inr (slab, nonce)) => .asset slab nonce
  left_inv k := by cases k <;> rfl
  right_inv s := by rcases s with (n | k) | (⟨k, n⟩ | ⟨k, n⟩) <;> rfl

/-- The layout of the terms up to a height. -/
def termLayout : ℕ → Layout Term
  | 0 => .nothing
  | n + 1 => ((Layout.uint 8).sum ((termLayout n).pair (termLayout n))).comap termEquiv.toPEquiv

/-- The layout of the keys up to a height. -/
def keyLayout : ℕ → Layout Key
  | 0 => .nothing
  | n + 1 => (((Layout.uint 8).sum (keyLayout n)).sum
      (((keyLayout n).pair .u64).sum ((keyLayout n).pair .u64))).comap keyEquiv.toPEquiv

theorem le_length_of_encode_term {n : ℕ} {t : Term} {e : List UInt8}
    (h : (termLayout n).encode t = some e) : 9 ≤ e.length := by
  induction n generalizing t e with
  | zero => cases h
  | succ n ih =>
    rw [termLayout, Layout.encode_equiv] at h
    cases t with
    | leaf k =>
      obtain ⟨bs, hbs, rfl⟩ := Option.map_eq_some_iff.1 h
      obtain ⟨bs', -, hbs⟩ := Layout.encode_comap.1 hbs
      obtain ⟨hlength, hbs⟩ := Option.ite_none_right_eq_some.1 hbs
      obtain rfl := Option.some.inj hbs
      rw [List.length_cons, hlength]
    | node l r =>
      obtain ⟨bs, hbs, rfl⟩ := Option.map_eq_some_iff.1 h
      obtain ⟨e, he, e', -, hlength⟩ := Layout.length_of_encode_pair hbs
      rw [List.length_cons, ← hlength]
      have hle := ih he
      omega

instance : NodeLayout Term where
  node := termLayout 16
  length_le {n e e'} h h' := by
    have hempty : (termLayout 16).encode EMPTY = some (List.replicate 9 0) := by
      decide +kernel
    obtain rfl := Option.some.inj (hempty.symm.trans h)
    exact le_length_of_encode_term h'

instance : KeyLayout Key := ⟨keyLayout 8⟩

instance : ProgramIds Key where
  bubblegum := .user 9
  gummyroll := .user 10
  candyWrapper := .user 11
  gummyroll_ne_candyWrapper := by decide
  system_ne_gummyroll := by decide
  system_ne_candyWrapper := by decide

/-! ### Compiled instructions -/

section Compile

variable [DecidableEq Pubkey]

/-- The keys of a transaction with these calls. -/
def accountKeys (calls : List (Call Pubkey)) : List Pubkey :=
  calls.flatMap fun call => call.programId :: call.accounts

/-- The instruction of a call. -/
def compile (keys : List Pubkey) (call : Call Pubkey) : CompiledInstruction where
  programIdIndex := keys.idxOf call.programId
  accounts := call.accounts.map keys.idxOf
  data := call.data

theorem compiled_compile {calls : List (Call Pubkey)} {call : Call Pubkey} (h : call ∈ calls) :
    Compiled (accountKeys calls) call (compile (accountKeys calls) call) where
  program := List.getElem?_idxOf (List.mem_flatMap.2 ⟨call, h, List.mem_cons_self⟩)
  accounts := by
    rw [compile, List.map_map]
    refine List.map_congr_left fun key hkey => ?_
    exact List.getElem?_idxOf (List.mem_flatMap.2 ⟨call, h, List.mem_cons_of_mem _ hkey⟩)
  data := rfl

/-- All instructions of a list of calls are compiled with the same keys. -/
theorem forall₂_compile {calls calls' : List (Call Pubkey)} (h : calls' ⊆ calls) :
    List.Forall₂ (Compiled (accountKeys calls)) calls'
      (calls'.map (compile (accountKeys calls))) := by
  rw [List.forall₂_map_right_iff, List.forall₂_same]
  exact fun call hcall => compiled_compile (h hcall)

end Compile

end Candyland.Sdk.Indexer
