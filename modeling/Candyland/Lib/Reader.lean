import Candyland.Lib.Bytes

/-!
# Reading bytes

A reader consumes a list of bytes from its beginning and counts them.  A program that reads
is run on the bytes it is meant for with anything behind them: what it then returns, or
that it throws, follows from its parts by the rules below.
-/

namespace Bytes

/-- The bytes that are left, and the number of those that are gone. -/
structure Reader where
  rest : List UInt8
  offset : ℕ
deriving DecidableEq

/-- A program that reads; `none` is an exception. -/
abbrev Read (α : Type) : Type := StateT Reader Option α

/-- The next `len` bytes. -/
def readBuffer (len : ℕ) : Read (List UInt8) := fun reader =>
  if len ≤ reader.rest.length then
    some (reader.rest.take len, ⟨reader.rest.drop len, reader.offset + len⟩)
  else none

/-- A number of four bytes. -/
def readU32 : Read ℕ := do
  let buf ← readBuffer 4
  return ofLe buf

/-- A number of eight bytes. -/
def readU64 : Read ℕ := do
  let buf ← readBuffer 8
  return ofLe buf

/-- Reads `n` times. -/
def readMany {α : Type} (n : ℕ) (p : Read α) : Read (List α) :=
  match n with
  | 0 => return []
  | n + 1 => do
    let a ← p
    let as ← readMany n p
    return a :: as

/-- An exception unless there is a value. -/
def orThrow {α : Type} (x : Option α) : Read α := fun reader => x.map fun a => (a, reader)

/-- On the bytes `bs`, with anything behind them, the program consumes them and returns the value
of `x`, or throws if there is none. -/
def Yields {α : Type} (p : Read α) (bs : List UInt8) (x : Option α) : Prop :=
  ∀ rest offset, p ⟨bs ++ rest, offset⟩ = x.map fun a => (a, ⟨rest, offset + bs.length⟩)

namespace Yields

variable {α β : Type} {p : Read α} {f : α → Read β} {bs cs : List UInt8}

theorem pure (a : α) : Yields (Pure.pure a : Read α) [] (some a) := by
  intro rest offset
  rfl

/-- A sequence consumes the bytes of its parts. -/
theorem bind {a : α} {y : Option β} (hp : Yields p bs (some a)) (hf : Yields (f a) cs y) :
    Yields (p >>= f) (bs ++ cs) y := by
  intro rest offset
  have hrest := hf rest (offset + bs.length)
  have hfirst := hp (cs ++ rest) offset
  rw [Option.map_some] at hfirst
  simp only [List.append_assoc, List.length_append, ← Nat.add_assoc, Bind.bind, StateT.bind]
  rw [hfirst]
  exact hrest

/-- An exception is passed on. -/
theorem bind_none (hp : Yields p bs none) (f : α → Read β) (cs : List UInt8) :
    Yields (p >>= f) (bs ++ cs) none := by
  intro rest offset
  have hfirst := hp (cs ++ rest) offset
  rw [Option.map_none] at hfirst
  simp only [List.append_assoc, Bind.bind, StateT.bind]
  rw [hfirst]
  rfl

/-- The last part may change the value only. -/
theorem map {a : α} (hp : Yields p bs (some a)) (g : α → β) :
    Yields (do let a ← p; return g a) bs (some (g a)) := by
  have h := hp.bind (f := fun a => Pure.pure (g a)) (Yields.pure (g a))
  rwa [List.append_nil] at h

theorem orThrow (x : Option α) : Yields (Bytes.orThrow x) [] x := by
  intro rest offset
  rfl

theorem readBuffer (bs : List UInt8) : Yields (Bytes.readBuffer bs.length) bs (some bs) := by
  intro rest offset
  simp [Bytes.readBuffer]

theorem readU32 (x : UInt32) : Yields Bytes.readU32 (ofU32 x) (some x.toNat) := by
  have hx : x.toNat < 2 ^ 32 := x.toNat_lt
  have h := (Yields.readBuffer (ofU32 x)).map ofLe
  rw [length_ofU32] at h
  rwa [ofU32, ofLe_le, Nat.mod_eq_of_lt (by omega)] at h

theorem readU64 (x : UInt64) : Yields Bytes.readU64 (ofU64 x) (some x.toNat) := by
  have hx : x.toNat < 2 ^ 64 := x.toNat_lt
  have h := (Yields.readBuffer (ofU64 x)).map ofLe
  rw [length_ofU64] at h
  rwa [ofU64, ofLe_le, Nat.mod_eq_of_lt (by omega)] at h

/-- A list of items, one after the other. -/
theorem readMany {items : List β} {bytes : β → List UInt8} {g : β → α}
    (h : ∀ item ∈ items, Yields p (bytes item) (some (g item))) :
    Yields (Bytes.readMany items.length p) (items.flatMap bytes) (some (items.map g)) := by
  induction items with
  | nil => exact Yields.pure []
  | cons item items ih =>
    have hitems := ih fun other hother => h other (List.mem_cons_of_mem item hother)
    exact (h item List.mem_cons_self).bind (hitems.map (g item :: ·))

end Yields

end Bytes
