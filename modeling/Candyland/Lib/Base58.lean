import Mathlib

/-!
# Base 58

A list of digits, most significant first, is converted to another base as a number, except
that each zero it begins with stays one.  Base 58 is the conversion of bytes to letters.
-/

namespace Base58

/-- The number of zeros that a list begins with. -/
def leadingZeros (ds : List ℕ) : ℕ := (ds.takeWhile (· == 0)).length

/-- The digits in base `b` of digits in base `a`. -/
def convert (a b : ℕ) (ds : List ℕ) : List ℕ :=
  List.replicate (leadingZeros ds) 0 ++ (Nat.digits b (Nat.ofDigits a ds.reverse)).reverse

section Convert

variable {a b : ℕ}

@[simp] theorem convert_nil : convert a b [] = [] := by
  simp [convert, leadingZeros]

/-- A leading zero stays. -/
@[simp] theorem convert_zero_cons (ds : List ℕ) : convert a b (0 :: ds) = 0 :: convert a b ds := by
  have hvalue : Nat.ofDigits a (ds.reverse ++ [0]) = Nat.ofDigits a ds.reverse :=
    Nat.ofDigits_append_replicate_zero (k := 1) ds.reverse
  simp [convert, leadingZeros, hvalue, List.replicate_succ]

/-- Without leading zeros the digits are those of the number. -/
theorem convert_of_head {ds : List ℕ} (h : ∀ d ∈ ds.head?, d ≠ 0) :
    convert a b ds = (Nat.digits b (Nat.ofDigits a ds.reverse)).reverse := by
  cases ds with
  | nil => simp
  | cons d ds =>
    have hd : d ≠ 0 := h d (by simp)
    simp [convert, leadingZeros, hd]

/-- The digits are digits. -/
theorem lt_of_mem_convert (hb : 1 < b) {ds : List ℕ} : ∀ d ∈ convert a b ds, d < b := by
  intro d hd
  rw [convert, List.mem_append, List.mem_reverse] at hd
  rcases hd with hd | hd
  · rw [List.eq_of_mem_replicate hd]
    omega
  · exact Nat.digits_lt_base hb hd

/-- Converting back. -/
theorem convert_convert (ha : 1 < a) {ds : List ℕ} (h : ∀ d ∈ ds, d < a) :
    convert b a (convert a b ds) = ds := by
  induction ds with
  | nil => simp
  | cons d ds ih =>
    rcases eq_or_ne d 0 with rfl | hd
    · rw [convert_zero_cons, convert_zero_cons, ih fun e he => h e (List.mem_cons_of_mem 0 he)]
    · -- the number is not zero, so that its digits do not begin with zeros either
      have hlast : ∀ hne : (d :: ds).reverse ≠ [], (d :: ds).reverse.getLast hne ≠ 0 := by
        intro hne
        simpa using hd
      have hdigits : Nat.digits a (Nat.ofDigits a (d :: ds).reverse) = (d :: ds).reverse :=
        Nat.digits_ofDigits a ha _ (fun e he => h e (List.mem_reverse.1 he)) hlast
      have hvalue : Nat.ofDigits a (d :: ds).reverse ≠ 0 := by
        intro hzero
        rw [hzero] at hdigits
        simp at hdigits
      rw [convert_of_head (a := a) (b := b) (by simpa using hd)]
      rw [convert_of_head, List.reverse_reverse, Nat.ofDigits_digits, hdigits, List.reverse_reverse]
      intro e he
      rw [List.head?_reverse, List.getLast?_eq_some_getLast
        (Nat.digits_ne_nil_iff_ne_zero.2 hvalue)] at he
      rw [← Option.mem_some.1 he]
      exact Nat.getLast_digit_ne_zero b hvalue

end Convert

/-- The letters of base 58. -/
def alphabet : List Char :=
  ['1', '2', '3', '4', '5', '6', '7', '8', '9', 'A', 'B', 'C', 'D', 'E', 'F',
    'G', 'H', 'J', 'K', 'L', 'M', 'N', 'P', 'Q', 'R', 'S', 'T', 'U', 'V', 'W',
    'X', 'Y', 'Z', 'a', 'b', 'c', 'd', 'e', 'f', 'g', 'h', 'i', 'j', 'k', 'm',
    'n', 'o', 'p', 'q', 'r', 's', 't', 'u', 'v', 'w', 'x', 'y', 'z']

/-- The letter of a digit. -/
def letter (d : ℕ) : Char := alphabet.getD d '1'

/-- The digit of a letter. -/
def digit (c : Char) : Option ℕ := alphabet.idxOf? c

theorem digit_letter {d : ℕ} (h : d < 58) : digit (letter d) = some d := by
  revert d
  decide

theorem letter_mem (d : ℕ) : letter d ∈ alphabet := by
  rcases Nat.lt_or_ge d alphabet.length with h | h
  · rw [letter, List.getD_eq_getElem _ _ h]
    exact List.getElem_mem h
  · rw [letter, List.getD_eq_default _ _ h]
    decide

theorem mapM_digit_letter {ds : List ℕ} (h : ∀ d ∈ ds, d < 58) :
    (ds.map letter).mapM digit = some ds := by
  induction ds with
  | nil => rfl
  | cons d ds ih =>
    have hd := digit_letter (h d List.mem_cons_self)
    have hds := ih fun e he => h e (List.mem_cons_of_mem d he)
    simp [hd, hds]

/-- The text of some bytes. -/
def encode (bytes : List UInt8) : List Char := (convert 256 58 (bytes.map UInt8.toNat)).map letter

/-- The bytes of a text, unless it has other letters. -/
def decode (text : List Char) : Option (List UInt8) :=
  (text.mapM digit).map fun ds => (convert 58 256 ds).map UInt8.ofNat

theorem mem_encode {bytes : List UInt8} : ∀ c ∈ encode bytes, c ∈ alphabet := by
  intro c hc
  obtain ⟨d, -, rfl⟩ := List.mem_map.1 hc
  exact letter_mem d

@[simp] theorem decode_encode (bytes : List UInt8) : decode (encode bytes) = some bytes := by
  have hbytes : ∀ d ∈ bytes.map UInt8.toNat, d < 256 := by
    intro d hd
    obtain ⟨byte, -, rfl⟩ := List.mem_map.1 hd
    exact byte.toNat_lt
  rw [decode, encode, mapM_digit_letter (lt_of_mem_convert (by norm_num)), Option.map_some,
    convert_convert (by norm_num) hbytes, List.map_map]
  have hid : UInt8.ofNat ∘ UInt8.toNat = id := by
    ext byte
    simp
  rw [hid, List.map_id]

example : decode (encode [0, 0, 255, 1]) = some [0, 0, 255, 1] := by decide

end Base58
