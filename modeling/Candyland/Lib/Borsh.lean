import Candyland.Lib.Bytes

/-!
# Layouts

How values are written as bytes, one after the other, and read back.  A layout says both, and
its law says that they belong together: what is read is what was written, and bytes that are
accepted are those of a value.  Writing fails when a value does not fit.
-/

namespace Borsh

/-- A layout of a type. -/
structure Layout (α : Type) where
  encode : α → Option (List UInt8)
  decode : List UInt8 → Option (α × List UInt8)
  decode_eq_some_iff {bs rest : List UInt8} {a : α} :
    decode bs = some (a, rest) ↔ ∃ e, encode a = some e ∧ bs = e ++ rest

variable {α β : Type}

namespace Layout

/-! ### Reading and writing -/

section Laws

variable {l : Layout α} {a b : α} {bs e rest : List UInt8}

theorem decode_encode (h : l.encode a = some e) (rest : List UInt8) :
    l.decode (e ++ rest) = some (a, rest) :=
  l.decode_eq_some_iff.2 ⟨e, h, rfl⟩

theorem decode_self (h : l.encode a = some e) : l.decode e = some (a, []) := by
  simpa using decode_encode h []

end Laws

/-! ### Bytes and numbers -/

/-- `n` bytes. -/
def blob (n : ℕ) : Layout (List UInt8) where
  encode bs := if bs.length = n then some bs else none
  decode bs := if n ≤ bs.length then some (bs.take n, bs.drop n) else none
  decode_eq_some_iff {bs rest a} := by
    constructor
    · intro h
      split_ifs at h with hn
      obtain ⟨rfl, rfl⟩ := Prod.mk.inj (Option.some.inj h)
      exact ⟨_, if_pos (by simp [hn]), (List.take_append_drop n bs).symm⟩
    · rintro ⟨e, he, rfl⟩
      split_ifs at he with hn
      obtain rfl := Option.some.inj he
      simp [← hn]

/-- Values that stand for those of another layout. -/
def comap (l : Layout β) (f : α ≃. β) : Layout α where
  encode a := (f a).bind l.encode
  decode bs := do
    let (b, rest) ← l.decode bs
    let a ← f.symm b
    some (a, rest)
  decode_eq_some_iff {bs rest a} := by
    simp only [Option.bind_eq_bind, Option.bind_eq_some_iff, Prod.exists, Option.some.injEq,
      Prod.mk.injEq, l.decode_eq_some_iff]
    constructor
    · rintro ⟨b, rest, ⟨e, he, rfl⟩, a, hb, rfl, rfl⟩
      exact ⟨e, ⟨b, f.eq_some_iff.1 hb, he⟩, rfl⟩
    · rintro ⟨e, ⟨b, ha, he⟩, rfl⟩
      exact ⟨b, rest, ⟨e, he, rfl⟩, a, f.eq_some_iff.2 ha, rfl, rfl⟩

theorem encode_comap {l : Layout β} {f : α ≃. β} {a : α} {e : List UInt8} :
    (l.comap f).encode a = some e ↔ ∃ b, f a = some b ∧ l.encode b = some e :=
  Option.bind_eq_some_iff

@[simp] theorem encode_equiv (l : Layout β) (f : α ≃ β) (a : α) :
    (l.comap f.toPEquiv).encode a = l.encode (f a) := rfl

/-- A number of `n` bytes, the least significant byte first. -/
def uint (n : ℕ) : Layout ℕ :=
  (blob n).comap {
    toFun x := if x < 256 ^ n then some (Bytes.le n x) else none
    invFun bs := if bs.length = n then some (Bytes.ofLe bs) else none
    inv x bs := by
      simp only [Option.ite_none_right_eq_some, Option.some.injEq]
      constructor
      · rintro ⟨hn, rfl⟩
        exact ⟨hn ▸ Bytes.ofLe_lt bs, hn ▸ Bytes.le_ofLe bs⟩
      · rintro ⟨hx, rfl⟩
        rw [Bytes.ofLe_le, Nat.mod_eq_of_lt hx]
        exact ⟨Bytes.length_le n x, rfl⟩ }

/-- A machine integer of `n` bytes. -/
def word (n : ℕ) (toNat : α → ℕ) (ofNat : ℕ → α) (toNat_lt : ∀ x, toNat x < 256 ^ n)
    (ofNat_toNat : ∀ x, ofNat (toNat x) = x)
    (toNat_ofNat : ∀ k < 256 ^ n, toNat (ofNat k) = k) : Layout α :=
  (uint n).comap {
    toFun x := some (toNat x)
    invFun k := if k < 256 ^ n then some (ofNat k) else none
    inv x k := by
      simp only [Option.ite_none_right_eq_some, Option.some.injEq]
      constructor
      · rintro ⟨hk, rfl⟩
        exact toNat_ofNat k hk
      · rintro rfl
        exact ⟨toNat_lt x, ofNat_toNat x⟩ }

/-- `u8`. -/
def u8 : Layout UInt8 :=
  word 1 UInt8.toNat UInt8.ofNat (fun x => x.toNat_lt) (fun _ => UInt8.ofNat_toNat)
    (fun _ hk => UInt8.toNat_ofNat'.trans (Nat.mod_eq_of_lt hk))

/-- `u16`. -/
def u16 : Layout UInt16 :=
  word 2 UInt16.toNat UInt16.ofNat (fun x => x.toNat_lt) (fun _ => UInt16.ofNat_toNat)
    (fun _ hk => UInt16.toNat_ofNat'.trans (Nat.mod_eq_of_lt hk))

/-- `u32`. -/
def u32 : Layout UInt32 :=
  word 4 UInt32.toNat UInt32.ofNat (fun x => x.toNat_lt) (fun _ => UInt32.ofNat_toNat)
    (fun _ hk => UInt32.toNat_ofNat'.trans (Nat.mod_eq_of_lt hk))

/-- `u64`. -/
def u64 : Layout UInt64 :=
  word 8 UInt64.toNat UInt64.ofNat (fun x => x.toNat_lt) (fun _ => UInt64.ofNat_toNat)
    (fun _ hk => UInt64.toNat_ofNat'.trans (Nat.mod_eq_of_lt hk))

/-- An enumeration without data: the number of a value among all values. -/
def enum [DecidableEq α] (values : List α) (hnodup : values.Nodup) : Layout α :=
  (uint 1).comap {
    toFun a := if a ∈ values then some (values.idxOf a) else none
    invFun n := values[n]?
    inv a n := by
      simp only [Option.ite_none_right_eq_some, Option.some.injEq]
      constructor
      · intro h
        obtain ⟨hn, rfl⟩ := List.getElem?_eq_some_iff.1 h
        exact ⟨List.getElem_mem hn, hnodup.idxOf_getElem n hn⟩
      · rintro ⟨ha, rfl⟩
        rw [List.getElem?_eq_getElem (List.idxOf_lt_length_of_mem ha), List.getElem_idxOf] }

/-! ### Structures and choices -/

/-- One value after the other. -/
def pair (l : Layout α) (l' : Layout β) : Layout (α × β) where
  encode ab := do
    let e ← l.encode ab.1
    let e' ← l'.encode ab.2
    some (e ++ e')
  decode bs := do
    let (a, rest) ← l.decode bs
    let (b, rest) ← l'.decode rest
    some ((a, b), rest)
  decode_eq_some_iff {bs rest ab} := by
    simp only [Option.bind_eq_bind, Option.bind_eq_some_iff, Prod.exists, Option.some.injEq,
      Prod.mk.injEq, l.decode_eq_some_iff, l'.decode_eq_some_iff]
    constructor
    · rintro ⟨a, _, ⟨e, he, rfl⟩, b, _, ⟨e', he', rfl⟩, rfl, rfl⟩
      exact ⟨e ++ e', ⟨e, he, e', he', rfl⟩, (List.append_assoc ..).symm⟩
    · rintro ⟨_, ⟨e, he, e', he', rfl⟩, rfl⟩
      exact ⟨ab.1, e' ++ rest, ⟨e, he, List.append_assoc ..⟩, ab.2, rest, ⟨e', he', rfl⟩, rfl, rfl⟩

theorem encode_pair {l : Layout α} {l' : Layout β} {a : α} {b : β} {bs : List UInt8} :
    (l.pair l').encode (a, b) = some bs ↔
      ∃ e, l.encode a = some e ∧ ∃ e', l'.encode b = some e' ∧ e ++ e' = bs := by
  simp [pair, Option.bind_eq_some_iff]

/-- The lengths of the parts. -/
theorem length_of_encode_pair {l : Layout α} {l' : Layout β} {a : α} {b : β} {bs : List UInt8}
    (h : (l.pair l').encode (a, b) = some bs) :
    ∃ e, l.encode a = some e ∧ ∃ e', l'.encode b = some e' ∧ e.length + e'.length = bs.length := by
  obtain ⟨e, he, e', he', rfl⟩ := encode_pair.1 h
  exact ⟨e, he, e', he', List.length_append.symm⟩

/-- A value of one of two types, behind the number of the type. -/
def sum (l : Layout α) (l' : Layout β) : Layout (α ⊕ β) where
  encode
    | .inl a => (l.encode a).map (0 :: ·)
    | .inr b => (l'.encode b).map (1 :: ·)
  decode
    | 0 :: rest => (l.decode rest).map fun (a, rest) => (.inl a, rest)
    | 1 :: rest => (l'.decode rest).map fun (b, rest) => (.inr b, rest)
    | _ => none
  decode_eq_some_iff {bs rest ab} := by
    constructor
    · intro h
      split at h
      · obtain ⟨⟨a, rest⟩, ha, heq⟩ := Option.map_eq_some_iff.1 h
        obtain ⟨rfl, rfl⟩ := Prod.mk.inj heq
        obtain ⟨e, he, rfl⟩ := l.decode_eq_some_iff.1 ha
        exact ⟨0 :: e, by simp [he], rfl⟩
      · obtain ⟨⟨b, rest⟩, hb, heq⟩ := Option.map_eq_some_iff.1 h
        obtain ⟨rfl, rfl⟩ := Prod.mk.inj heq
        obtain ⟨e, he, rfl⟩ := l'.decode_eq_some_iff.1 hb
        exact ⟨1 :: e, by simp [he], rfl⟩
      · cases h
    · rintro ⟨e, he, rfl⟩
      cases ab with
      | inl a =>
        obtain ⟨e', he', rfl⟩ := Option.map_eq_some_iff.1 he
        exact Option.map_eq_some_iff.2 ⟨(a, rest), decode_encode he' rest, rfl⟩
      | inr b =>
        obtain ⟨e', he', rfl⟩ := Option.map_eq_some_iff.1 he
        exact Option.map_eq_some_iff.2 ⟨(b, rest), decode_encode he' rest, rfl⟩

/-- `Option`. -/
def option (l : Layout α) : Layout (Option α) :=
  ((blob 0).sum l).comap {
    toFun
      | none => some (.inl [])
      | some a => some (.inr a)
    invFun
      | .inl bs => if bs.isEmpty then some none else none
      | .inr a => some (some a)
    inv o s := by
      cases o <;> rcases s with (_ | ⟨b, bs⟩) | a <;> simp [eq_comm] }

/-- A type without values that could be written. -/
def nothing : Layout α where
  encode _ := none
  decode _ := none
  decode_eq_some_iff := by simp

/-! ### Lists -/

/-- `n` values one after the other. -/
def many (l : Layout α) : ℕ → Layout (List α)
  | 0 => (blob 0).comap {
      toFun as := if as.isEmpty then some [] else none
      invFun bs := if bs.isEmpty then some [] else none
      inv as bs := by cases as <;> cases bs <;> simp }
  | n + 1 => (l.pair (many l n)).comap {
      toFun
        | [] => none
        | a :: as => some (a, as)
      invFun p := some (p.1 :: p.2)
      inv as p := by
        cases as <;> simp [Prod.ext_iff, eq_comm] }

/-- A value behind its length. -/
def prefixed (length : α → ℕ) (l : ℕ → Layout α)
    (length_eq : ∀ n a e, (l n).encode a = some e → length a = n) : Layout α where
  encode a := do
    let e ← (uint 4).encode (length a)
    let e' ← (l (length a)).encode a
    some (e ++ e')
  decode bs := do
    let (n, rest) ← (uint 4).decode bs
    (l n).decode rest
  decode_eq_some_iff {bs rest a} := by
    simp only [Option.bind_eq_bind, Option.bind_eq_some_iff, Prod.exists, Option.some.injEq,
      decode_eq_some_iff]
    constructor
    · rintro ⟨n, _, ⟨e, he, rfl⟩, e', he', rfl⟩
      obtain rfl := length_eq n a e' he'
      exact ⟨e ++ e', ⟨e, he, e', he', rfl⟩, (List.append_assoc ..).symm⟩
    · rintro ⟨_, ⟨e, he, e', he', rfl⟩, rfl⟩
      exact ⟨length a, e' ++ rest, ⟨e, he, List.append_assoc ..⟩, e', he', rfl⟩

theorem length_of_encode_many {l : Layout α} {n : ℕ} {as : List α} {e : List UInt8}
    (h : (l.many n).encode as = some e) : as.length = n := by
  induction n generalizing as e with
  | zero =>
    cases as with
    | nil => rfl
    | cons a as => cases h
  | succ n ih =>
    cases as with
    | nil => cases h
    | cons a as =>
      obtain ⟨e₁, -, e₂, he₂, -⟩ := encode_pair.1 h
      rw [List.length_cons, ih he₂]

/-- `Vec`. -/
def vec (l : Layout α) : Layout (List α) :=
  prefixed List.length l.many fun _ _ _ h => length_of_encode_many h

/-- The bytes of a string. -/
def utf8 (s : String) : List UInt8 := s.toUTF8.data.toList

/-- The bytes are those of one string. -/
def utf8Bytes : String ≃. List UInt8 where
  toFun s := some (utf8 s)
  invFun bs := String.fromUTF8? ⟨bs.toArray⟩
  inv s bs := by
    simp only [String.fromUTF8?, Option.dite_none_right_eq_some, Option.some.injEq]
    constructor
    · rintro ⟨hvalid, rfl⟩
      rfl
    · rintro rfl
      exact ⟨s.isValidUTF8, rfl⟩

/-- `String`. -/
def string : Layout String :=
  prefixed (fun s => (utf8 s).length) (fun n => (blob n).comap utf8Bytes) fun n s e h => by
    obtain ⟨bs, hbs, he⟩ := encode_comap.1 h
    obtain rfl := Option.some.inj hbs
    exact (Option.ite_none_right_eq_some.1 he).1

end Layout

end Borsh
