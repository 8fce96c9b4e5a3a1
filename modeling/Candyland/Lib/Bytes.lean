import Mathlib

/-!
# Little-endian bytes

Numbers as byte lists with the least significant byte first, and arrays of `u32` as the
bytes of their entries one after the other.
-/

namespace Bytes

/-- The `n` low bytes of a number. -/
def le : ℕ → ℕ → List UInt8
  | 0, _ => []
  | n + 1, x => UInt8.ofNat x :: le n (x / 256)

/-- The number with the given bytes. -/
def ofLe : List UInt8 → ℕ
  | [] => 0
  | b :: bs => b.toNat + 256 * ofLe bs

@[simp] theorem length_le (n x : ℕ) : (le n x).length = n := by
  induction n generalizing x with
  | zero => rfl
  | succ n ih => simp [le, ih]

theorem ofLe_le (n x : ℕ) : ofLe (le n x) = x % 256 ^ n := by
  induction n generalizing x with
  | zero => simp [le, ofLe, Nat.mod_one]
  | succ n ih =>
    have hbyte : (UInt8.ofNat x).toNat = x % 256 := by simp
    rw [le, ofLe, ih, hbyte, pow_succ', Nat.mod_mul]

theorem ofLe_lt (bs : List UInt8) : ofLe bs < 256 ^ bs.length := by
  induction bs with
  | nil => simp [ofLe]
  | cons b bs ih =>
    have hb : b.toNat < 256 := b.toNat_lt
    rw [ofLe, List.length_cons, pow_succ]
    omega

/-- Bytes are determined by the number. -/
theorem le_ofLe (bs : List UInt8) : le bs.length (ofLe bs) = bs := by
  induction bs with
  | nil => rfl
  | cons b bs ih =>
    have hb : b.toNat < 256 := b.toNat_lt
    have hlow : UInt8.ofNat (b.toNat + 256 * ofLe bs) = b := by
      rw [← UInt8.toNat_inj]
      simp
    have hhigh : (b.toNat + 256 * ofLe bs) / 256 = ofLe bs := by omega
    rw [List.length_cons, le, ofLe, hlow, hhigh, ih]

/-- Numbers that fit have the same bytes only if they are the same. -/
theorem le_inj {n x y : ℕ} (hx : x < 256 ^ n) (hy : y < 256 ^ n) (h : le n x = le n y) : x = y := by
  have hof := congrArg ofLe h
  rwa [ofLe_le, ofLe_le, Nat.mod_eq_of_lt hx, Nat.mod_eq_of_lt hy] at hof

/-- No byte is more than the number. -/
theorem toNat_le_of_mem_le {n x : ℕ} : ∀ b ∈ le n x, b.toNat ≤ x := by
  induction n generalizing x with
  | zero => simp [le]
  | succ n ih =>
    intro b hb
    rcases List.mem_cons.1 hb with rfl | hb
    · rw [UInt8.toNat_ofNat']
      exact Nat.mod_le _ _
    · exact (ih b hb).trans (Nat.div_le_self x 256)

/-! ### Machine integers -/

/-- `u32::to_le_bytes`. -/
def ofU32 (x : UInt32) : List UInt8 := le 4 x.toNat

/-- `u32::from_le_bytes`. -/
def toU32 (bs : List UInt8) : UInt32 := UInt32.ofNat (ofLe bs)

/-- `u64::to_le_bytes`. -/
def ofU64 (x : UInt64) : List UInt8 := le 8 x.toNat

/-- `u64::from_le_bytes`. -/
def toU64 (bs : List UInt8) : UInt64 := UInt64.ofNat (ofLe bs)

@[simp] theorem length_ofU32 (x : UInt32) : (ofU32 x).length = 4 := length_le 4 _

@[simp] theorem length_ofU64 (x : UInt64) : (ofU64 x).length = 8 := length_le 8 _

@[simp] theorem toU32_ofU32 (x : UInt32) : toU32 (ofU32 x) = x := by
  have hx : x.toNat < 2 ^ 32 := x.toNat_lt
  rw [toU32, ofU32, ofLe_le, Nat.mod_eq_of_lt (by omega), UInt32.ofNat_toNat]

@[simp] theorem toU64_ofU64 (x : UInt64) : toU64 (ofU64 x) = x := by
  have hx : x.toNat < 2 ^ 64 := x.toNat_lt
  rw [toU64, ofU64, ofLe_le, Nat.mod_eq_of_lt (by omega), UInt64.ofNat_toNat]

/-! ### Arrays -/

/-- `cast_slice` from `u32` to bytes. -/
def ofArray (xs : List UInt32) : List UInt8 := xs.flatMap ofU32

/-- `cast_slice` from bytes to `u32`. -/
def toArray : List UInt8 → List UInt32
  | a :: b :: c :: d :: bs => toU32 [a, b, c, d] :: toArray bs
  | _ => []

theorem length_ofArray (xs : List UInt32) : (ofArray xs).length = 4 * xs.length := by
  induction xs with
  | nil => rfl
  | cons x xs ih =>
    rw [ofArray, List.flatMap_cons, List.length_append, ← ofArray, ih]
    simp
    omega

theorem toArray_ofArray (xs : List UInt32) : toArray (ofArray xs) = xs := by
  induction xs with
  | nil => rfl
  | cons x xs ih =>
    have hx := toU32_ofU32 x
    rw [ofArray, List.flatMap_cons, ← ofArray]
    rw [ofU32, le, le, le, le, le] at hx ⊢
    rw [List.cons_append, List.cons_append, List.cons_append, List.cons_append, List.nil_append,
      toArray, hx, ih]

theorem length_toArray (bs : List UInt8) : (toArray bs).length = bs.length / 4 := by
  fun_induction toArray bs with
  | case1 a b c d bs ih => simp [ih]; omega
  | case2 bs h =>
    match bs, h with
    | [], _ => simp
    | [_], _ => simp
    | [_, _], _ => simp
    | [_, _, _], _ => simp
    | a :: b :: c :: d :: bs, h => exact (h a b c d bs rfl).elim

/-! ### Text -/

/-- Bytes below 128 are the text of the characters with these numbers. -/
theorem isValidUTF8_of_lt {bytes : List UInt8} (h : ∀ b ∈ bytes, b.toNat < 128) :
    (⟨bytes.toArray⟩ : ByteArray).IsValidUTF8 := by
  refine ⟨bytes.map fun b => Char.ofNat b.toNat, ?_⟩
  have hencode : (bytes.map fun b => Char.ofNat b.toNat).flatMap String.utf8EncodeChar = bytes := by
    induction bytes with
    | nil => rfl
    | cons b bytes ih =>
      have hb := h b List.mem_cons_self
      have hval : (Char.ofNat b.toNat).val = UInt32.ofNat b.toNat := by
        have hchar : (Char.ofNat b.toNat).toNat = b.toNat := by
          rw [Char.toNat_ofNat, if_pos (.inl (by omega))]
        rw [← UInt32.toNat_inj, UInt32.toNat_ofNat', Nat.mod_eq_of_lt (by omega)]
        exact hchar
      have hsize : (Char.ofNat b.toNat).utf8Size = 1 := by
        rw [Char.utf8Size_eq_one_iff, hval, UInt32.le_iff_toNat_le, UInt32.toNat_ofNat']
        simp
        omega
      have hbyte : (UInt32.ofNat b.toNat).toUInt8 = b := by
        rw [← UInt8.toNat_inj]
        simp
      rw [List.map_cons, List.flatMap_cons, ih fun c hc => h c (List.mem_cons_of_mem _ hc),
        String.utf8EncodeChar_eq_singleton hsize, hval, hbyte]
      rfl
  rw [List.utf8Encode, hencode]
  exact ByteArray.ext (List.data_toByteArray).symm

/-- A text does not begin with a byte that continues a character. -/
theorem not_isValidUTF8_cons {b : UInt8} (hb : ¬ b.IsUTF8FirstByte) (bytes : List UInt8) :
    ¬ (⟨(b :: bytes).toArray⟩ : ByteArray).IsValidUTF8 := by
  intro h
  exact hb (h.isUTF8FirstByte_getElem_zero (by simp [ByteArray.size]))

end Bytes
