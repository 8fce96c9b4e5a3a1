import Candyland.GumballMachine.Program
import Candyland.Lib.Shuffle

/-!
# What the instructions of the gumball machine do

One description of each instruction that succeeds: the fields it sets and the parts of the
account that it leaves as they are.
-/

namespace Candyland.GumballMachine

open Gummyroll (Build)
open Records (overwrite)
open Shuffle (Draws)

variable {Pubkey ε : Type}

/-- An instruction with its arguments and signer. -/
inductive Instruction (Pubkey ε : Type) where
  | initializeIndicesChunk (authority : Pubkey)
  | addConfigLines (authority : Pubkey) (newConfigLinesData : List UInt8)
  | updateConfigLines (authority : Pubkey) (startingLine : UInt64)
      (newConfigLinesData : List UInt8)
  | updateHeaderMetadata (authority : Pubkey) (update : HeaderUpdate Pubkey)
  | dispense (validTransaction : Bool) (unixTimestamp : Int64) (entropy : UInt32 → UInt32)
      (mint : GumballMachineHeader Pubkey → ℕ → List UInt8 → Outcome ε Unit) (numItems : UInt32)

namespace Instruction

/-- The data of the instruction; a `Vec` has at most `isize::MAX` bytes. -/
def data : Instruction Pubkey ε → List UInt8
  | addConfigLines _ data => data
  | updateConfigLines _ _ data => data
  | _ => []

variable [DecidableEq Pubkey] [Build]

/-- Executes the instruction. -/
def exec (ins : Instruction Pubkey ε) (machine : Machine Pubkey) : Outcome ε (Machine Pubkey) :=
  match ins with
  | initializeIndicesChunk authority => machine.initializeIndicesChunk authority
  | addConfigLines authority data => machine.addConfigLines authority data
  | updateConfigLines authority startingLine data =>
    machine.updateConfigLines authority startingLine data
  | updateHeaderMetadata authority update => machine.updateHeaderMetadata authority update
  | dispense validTransaction unixTimestamp entropy mint numItems => do
    let (machine, _) ← machine.findAndMintCompressedNfts validTransaction unixTimestamp entropy mint
      numItems
    .ok machine

end Instruction

variable [DecidableEq Pubkey] [Build]

omit [Build] in
/-- A product with a large factor, beyond the multiples of the modulus. -/
theorem mul_eq_of_wrap {M s L : ℕ} (hs : s ≤ M) (hL : 0 < L) (hle : (M - s) * L ≤ M) :
    s * L = (M - (M - s) * L) + M * (L - 1) := by
  obtain ⟨a, rfl⟩ := Nat.exists_eq_add_of_le hs
  obtain ⟨k, rfl⟩ : ∃ k, L = k + 1 := ⟨L - 1, by omega⟩
  have hsL : s * (k + 1) = s * k + s := Nat.mul_succ s k
  have haL : a * (k + 1) = a * k + a := Nat.mul_succ a k
  rw [Nat.add_sub_cancel_left] at hle ⊢
  rw [Nat.add_sub_cancel, Nat.add_mul]
  omega

namespace Machine

variable {machine machine' : Machine Pubkey}

omit [DecidableEq Pubkey] [Build] in
theorem configData_eq (machine : Machine Pubkey) :
    machine.indicesData ++ machine.configLinesData = machine.configData :=
  List.take_append_drop _ _

omit [DecidableEq Pubkey] [Build] in
theorem length_indices (hroom : 4 * machine.header.maxItems.toNat ≤ machine.configData.length) :
    machine.indices.length = machine.header.maxItems.toNat := by
  rw [Machine.indices, Bytes.length_toArray, indicesData, List.length_take]
  omega

/-- The parts of an account that was put together from an index array and lines. -/
structure Made (machine : Machine Pubkey) (header : GumballMachineHeader Pubkey)
    (lines : List UInt8) (machine' : Machine Pubkey) : Prop where
  header_eq : machine'.header = header
  lines_eq : machine'.configLinesData = lines
  length_eq : machine'.configData.length = machine.configData.length

omit [DecidableEq Pubkey] [Build] in
/-- A new index array of the same size leaves the lines as they are. -/
theorem made_of_indices (hroom : 4 * machine.header.maxItems.toNat ≤ machine.configData.length)
    {header : GumballMachineHeader Pubkey} (hmax : header.maxItems = machine.header.maxItems)
    {indices : List UInt32} (hindices : indices.length = machine.indices.length) :
    Made machine header machine.configLinesData
      ⟨header, Bytes.ofArray indices ++ machine.configLinesData⟩ := by
  have hlen : (Bytes.ofArray indices).length = 4 * machine.header.maxItems.toNat := by
    rw [Bytes.length_ofArray, hindices, length_indices hroom]
  refine ⟨rfl, ?_, ?_⟩
  · rw [configLinesData]
    simp only [hmax]
    rw [← hlen, List.drop_left]
  · simp only [List.length_append, hlen, configLinesData, List.length_drop]
    omega

omit [DecidableEq Pubkey] [Build] in
/-- A new index array of the same size is read back. -/
theorem indices_of_made (hroom : 4 * machine.header.maxItems.toNat ≤ machine.configData.length)
    {header : GumballMachineHeader Pubkey} (hmax : header.maxItems = machine.header.maxItems)
    {indices : List UInt32} (hindices : indices.length = machine.indices.length) :
    (Machine.mk header (Bytes.ofArray indices ++ machine.configLinesData)).indices = indices := by
  have hlen : (Bytes.ofArray indices).length = 4 * machine.header.maxItems.toNat := by
    rw [Bytes.length_ofArray, hindices, length_indices hroom]
  rw [Machine.indices, indicesData]
  simp only [hmax]
  rw [← hlen, List.take_left, Bytes.toArray_ofArray]

omit [DecidableEq Pubkey] [Build] in
/-- New lines of the same size leave the index array as it is. -/
theorem made_of_lines (hroom : 4 * machine.header.maxItems.toNat ≤ machine.configData.length)
    (header : GumballMachineHeader Pubkey) (hmax : header.maxItems = machine.header.maxItems)
    (lines : List UInt8) (hlines : lines.length = machine.configLinesData.length) :
    Made machine header lines ⟨header, machine.indicesData ++ lines⟩ ∧
      (Machine.mk header (machine.indicesData ++ lines)).indicesData = machine.indicesData := by
  have hlen : machine.indicesData.length = 4 * machine.header.maxItems.toNat := by
    rw [indicesData, List.length_take, min_eq_left hroom]
  refine ⟨⟨rfl, ?_, ?_⟩, ?_⟩
  · rw [configLinesData]
    simp only [hmax]
    rw [← hlen, List.drop_left]
  · rw [← machine.configData_eq, List.length_append, List.length_append, hlines]
  · rw [indicesData]
    simp only [hmax]
    rw [← hlen, List.take_left]

/-- The header with `n` more items. -/
def addedHeader (machine : Machine Pubkey) (n : ℕ) : GumballMachineHeader Pubkey :=
  { machine.header with
    totalItemsAdded := machine.header.totalItemsAdded + UInt32.ofNat n
    remaining := machine.header.remaining + UInt32.ofNat n }

/-- What a successful `add_config_lines` does. -/
structure Added (machine : Machine Pubkey) (data : List UInt8) (machine' : Machine Pubkey) :
    Prop where
  lineSize : machine.header.extensionLen.toNat ≠ 0
  whole : data.length =
    data.length / machine.header.extensionLen.toNat * machine.header.extensionLen.toNat
  fits : machine.header.totalItemsAdded.toNat +
    data.length / machine.header.extensionLen.toNat ≤ machine.header.maxItems.toNat
  made : Made machine (machine.addedHeader (data.length / machine.header.extensionLen.toNat))
    (overwrite machine.configLinesData machine.header.totalItemsAdded.toNat data) machine'
  indices_eq : machine'.indicesData = machine.indicesData

theorem addConfigLines_ok {authority : Pubkey} {data : List UInt8} (hdata : data.length < 2 ^ 63)
    (h : machine.addConfigLines authority data = (.ok machine' : Outcome ε _)) :
    Added machine data machine' := by
  rw [addConfigLines] at h
  obtain ⟨indexArraySize, hsize, h⟩ := Outcome.bind_eq_ok.1 h
  obtain ⟨⟨⟩, hlineSize, h⟩ := Outcome.bind_eq_ok.1 h
  obtain ⟨⟨⟩, -, h⟩ := Outcome.bind_eq_ok.1 h
  obtain ⟨⟨⟩, hwhole, h⟩ := Outcome.bind_eq_ok.1 h
  obtain ⟨endIndex, hend, h⟩ := Outcome.bind_eq_ok.1 h
  obtain ⟨⟨⟩, hfits, h⟩ := Outcome.bind_eq_ok.1 h
  obtain ⟨⟨⟩, hroom, h⟩ := Outcome.bind_eq_ok.1 h
  obtain ⟨⟨⟩, -, h⟩ := Outcome.bind_eq_ok.1 h
  obtain ⟨totalItemsAdded, htotal, h⟩ := Outcome.bind_eq_ok.1 h
  obtain ⟨remaining, hremaining, h⟩ := Outcome.bind_eq_ok.1 h
  obtain rfl := Outcome.ok.inj h
  have hmax := machine.header.maxItems.toNat_lt
  have hstart := machine.header.totalItemsAdded.toNat_lt
  have hlines := Nat.div_le_self data.length machine.header.extensionLen.toNat
  rw [usize_of_lt (by omega)] at hsize hend
  obtain rfl := Outcome.ok.inj hsize
  obtain rfl := Outcome.ok.inj hend
  obtain rfl := addU32_eq_ok htotal
  obtain rfl := addU32_eq_ok hremaining
  obtain ⟨hmade, hindices⟩ := made_of_lines (Outcome.assert_eq_ok.1 hroom)
    (machine.addedHeader (data.length / machine.header.extensionLen.toNat)) rfl
    (overwrite machine.configLinesData machine.header.totalItemsAdded.toNat data)
    Records.length_overwrite
  refine ⟨Outcome.assert_eq_ok.1 hlineSize, ?_, Outcome.assert_eq_ok.1 hfits, hmade, hindices⟩
  exact (Nat.div_mul_cancel (Nat.dvd_of_mod_eq_zero (Outcome.assert_eq_ok.1 hwhole))).symm

/-- What a successful `update_config_lines` does. -/
structure Updated (machine : Machine Pubkey) (startingLine : UInt64) (data : List UInt8)
    (machine' : Machine Pubkey) : Prop where
  lineSize : machine.header.extensionLen.toNat ≠ 0
  whole : data.length =
    data.length / machine.header.extensionLen.toNat * machine.header.extensionLen.toNat
  added : startingLine.toNat + data.length / machine.header.extensionLen.toNat ≤
    machine.header.totalItemsAdded.toNat
  made : Made machine machine.header (overwrite machine.configLinesData
    (startingLine.toNat * machine.header.extensionLen.toNat) data) machine'
  indices_eq : machine'.indicesData = machine.indicesData

theorem updateConfigLines_ok (hlen : machine.configData.length < 2 ^ 63)
    (hstored : machine.header.totalItemsAdded.toNat * machine.header.extensionLen.toNat ≤
      machine.configLinesData.length) {authority : Pubkey} {startingLine : UInt64}
    {data : List UInt8} (hdata : data.length < 2 ^ 63)
    (h : machine.updateConfigLines authority startingLine data = (.ok machine' : Outcome ε _)) :
    Updated machine startingLine data machine' := by
  rw [updateConfigLines] at h
  obtain ⟨indexArraySize, hsize, h⟩ := Outcome.bind_eq_ok.1 h
  obtain ⟨configSize, -, h⟩ := Outcome.bind_eq_ok.1 h
  obtain ⟨⟨⟩, hlineSize, h⟩ := Outcome.bind_eq_ok.1 h
  obtain ⟨⟨⟩, -, h⟩ := Outcome.bind_eq_ok.1 h
  obtain ⟨⟨⟩, hwhole, h⟩ := Outcome.bind_eq_ok.1 h
  obtain ⟨dataSize, -, h⟩ := Outcome.bind_eq_ok.1 h
  obtain ⟨⟨⟩, -, h⟩ := Outcome.bind_eq_ok.1 h
  obtain ⟨newSize, -, h⟩ := Outcome.bind_eq_ok.1 h
  obtain ⟨⟨⟩, -, h⟩ := Outcome.bind_eq_ok.1 h
  obtain ⟨endLine, hend, h⟩ := Outcome.bind_eq_ok.1 h
  obtain ⟨⟨⟩, hadded, h⟩ := Outcome.bind_eq_ok.1 h
  obtain ⟨⟨⟩, hroom, h⟩ := Outcome.bind_eq_ok.1 h
  obtain ⟨start, hstart, h⟩ := Outcome.bind_eq_ok.1 h
  obtain ⟨⟨⟩, hslice, h⟩ := Outcome.bind_eq_ok.1 h
  obtain rfl := Outcome.ok.inj h
  have hmax := machine.header.maxItems.toNat_lt
  rw [usize_of_lt (by omega)] at hsize
  obtain rfl := Outcome.ok.inj hsize
  have hwhole := Nat.div_mul_cancel (Nat.dvd_of_mod_eq_zero (Outcome.assert_eq_ok.1 hwhole))
  have hadded := Outcome.assert_eq_ok.1 hadded
  have hslice := Outcome.assert_eq_ok.1 hslice
  have hlineSize := Outcome.assert_eq_ok.1 hlineSize
  rw [usize_eq_ok hend] at hadded
  rw [usize_eq_ok hstart] at hslice
  have harea : machine.configLinesData.length < 2 ^ 63 := by
    rw [configLinesData, List.length_drop]
    omega
  have hs := startingLine.toNat_lt
  generalize hn : data.length / machine.header.extensionLen.toNat = n at hwhole hadded
  -- otherwise the slice would begin beyond the area
  have hlt : startingLine.toNat + n < 2 ^ 64 := by
    by_contra hge
    have hle : (2 ^ 64 - startingLine.toNat) * machine.header.extensionLen.toNat ≤
        n * machine.header.extensionLen.toNat := Nat.mul_le_mul_right _ (by omega)
    have hpos : 0 < (2 ^ 64 - startingLine.toNat) * machine.header.extensionLen.toNat :=
      Nat.mul_pos (by omega) (by omega)
    have hmul : startingLine.toNat * machine.header.extensionLen.toNat =
        (2 ^ 64 - (2 ^ 64 - startingLine.toNat) * machine.header.extensionLen.toNat) +
          2 ^ 64 * (machine.header.extensionLen.toNat - 1) :=
      mul_eq_of_wrap hs.le (by omega) (by omega)
    rw [hmul, Nat.add_mul_mod_self_left, Nat.mod_eq_of_lt (by omega)] at hslice
    omega
  rw [Nat.mod_eq_of_lt hlt] at hadded
  have hle := Nat.mul_le_mul_right machine.header.extensionLen.toNat
    ((Nat.le_add_right startingLine.toNat n).trans hadded)
  rw [usize_of_lt (by omega)] at hstart
  obtain rfl := Outcome.ok.inj hstart
  obtain ⟨hmade, hindices⟩ := made_of_lines (Outcome.assert_eq_ok.1 hroom) machine.header rfl
    (overwrite machine.configLinesData
      (startingLine.toNat * machine.header.extensionLen.toNat) data) Records.length_overwrite
  exact ⟨hlineSize, by rw [hn, hwhole], by rw [hn]; exact hadded, hmade, hindices⟩

/-- An update writes lines only. -/
theorem updateConfigLines_frame {authority : Pubkey} {startingLine : UInt64} {data : List UInt8}
    (h : machine.updateConfigLines authority startingLine data = (.ok machine' : Outcome ε _)) :
    machine'.header = machine.header ∧ machine'.indicesData = machine.indicesData ∧
      machine'.configData.length = machine.configData.length := by
  rw [updateConfigLines] at h
  obtain ⟨indexArraySize, hsize, h⟩ := Outcome.bind_eq_ok.1 h
  obtain ⟨configSize, -, h⟩ := Outcome.bind_eq_ok.1 h
  obtain ⟨⟨⟩, -, h⟩ := Outcome.bind_eq_ok.1 h
  obtain ⟨⟨⟩, -, h⟩ := Outcome.bind_eq_ok.1 h
  obtain ⟨⟨⟩, -, h⟩ := Outcome.bind_eq_ok.1 h
  obtain ⟨dataSize, -, h⟩ := Outcome.bind_eq_ok.1 h
  obtain ⟨⟨⟩, -, h⟩ := Outcome.bind_eq_ok.1 h
  obtain ⟨newSize, -, h⟩ := Outcome.bind_eq_ok.1 h
  obtain ⟨⟨⟩, -, h⟩ := Outcome.bind_eq_ok.1 h
  obtain ⟨endLine, -, h⟩ := Outcome.bind_eq_ok.1 h
  obtain ⟨⟨⟩, -, h⟩ := Outcome.bind_eq_ok.1 h
  obtain ⟨⟨⟩, hroom, h⟩ := Outcome.bind_eq_ok.1 h
  obtain ⟨start, -, h⟩ := Outcome.bind_eq_ok.1 h
  obtain ⟨⟨⟩, -, h⟩ := Outcome.bind_eq_ok.1 h
  obtain rfl := Outcome.ok.inj h
  have hmax := machine.header.maxItems.toNat_lt
  rw [usize_of_lt (by omega)] at hsize
  obtain rfl := Outcome.ok.inj hsize
  obtain ⟨hmade, hindices⟩ := made_of_lines (Outcome.assert_eq_ok.1 hroom) machine.header rfl
    (overwrite machine.configLinesData start data) Records.length_overwrite
  exact ⟨rfl, hindices, hmade.length_eq⟩

/-- What a successful `initialize_indices_chunk` does. -/
structure Chunked (machine machine' : Machine Pubkey) : Prop where
  room : 4 * machine.header.maxItems.toNat ≤ machine.configData.length
  first_le : machine.header.smallestUninitializedIndex ≤ machine'.header.smallestUninitializedIndex
  next_le : machine'.header.smallestUninitializedIndex ≤ machine.header.maxItems
  header_eq : machine'.header = { machine.header with
    smallestUninitializedIndex := machine'.header.smallestUninitializedIndex
    remaining := if machine.header.extensionLen = 0 then machine.header.maxItems
      else machine.header.remaining }
  lines_eq : machine'.configLinesData = machine.configLinesData
  length_eq : machine'.configData.length = machine.configData.length
  indices_eq : machine'.indices = machine.indices.mapIdx fun i idx =>
    if machine.header.smallestUninitializedIndex.toNat ≤ i ∧
        i < machine'.header.smallestUninitializedIndex.toNat then UInt32.ofNat i
    else idx

theorem initializeIndicesChunk_ok {authority : Pubkey}
    (h : machine.initializeIndicesChunk authority = (.ok machine' : Outcome ε _)) :
    Chunked machine machine' := by
  obtain ⟨⟨⟩, -, h⟩ := Outcome.bind_eq_ok.1 h
  obtain ⟨⟨⟩, hroom, h⟩ := Outcome.bind_eq_ok.1 h
  obtain ⟨sum, -, h⟩ := Outcome.bind_eq_ok.1 h
  obtain ⟨⟨⟩, hrange, h⟩ := Outcome.bind_eq_ok.1 h
  obtain rfl := Outcome.ok.inj h
  have hroom := Outcome.assert_eq_ok.1 hroom
  obtain ⟨hfirst, hnext⟩ := Outcome.assert_eq_ok.1 hrange
  refine ⟨hroom, ?_, ?_, rfl, (made_of_indices hroom rfl List.length_mapIdx).lines_eq,
    (made_of_indices hroom rfl List.length_mapIdx).length_eq,
    (indices_of_made hroom rfl List.length_mapIdx).trans ?_⟩
  · simpa [UInt32.le_iff_toNat_le] using hfirst
  · simpa [UInt32.le_iff_toNat_le] using hnext
  · simp

/-- The entries of the index array. -/
def order (machine : Machine Pubkey) : List ℕ := machine.indices.map UInt32.toNat

/-- The indices that the loop hands out, the last one first; the metadata gets the 1-index. -/
def drawnItems (ε : Type) (entropy : UInt32 → UInt32) (lineSize : ℕ)
    (configLinesData : List UInt8) : ℕ → GumballMachineHeader Pubkey × List UInt32 → List ℕ
  | 0, _ => []
  | n + 1, (header, indices) =>
    match (fisherYatesShuffle entropy header indices lineSize configLinesData : Outcome ε _) with
    | .ok (header, indices, nftIndex, _) =>
      drawnItems ε entropy lineSize configLinesData n (header, indices) ++ [nftIndex - 1]
    | _ => []

omit [DecidableEq Pubkey] in
/-- Drawing an item changes `remaining` and swaps two indices. -/
theorem fisherYatesShuffle_ok {entropy : UInt32 → UInt32}
    {header header' : GumballMachineHeader Pubkey} {indices indices' : List UInt32}
    {lineSize nftIndex : ℕ} {configLinesData configLine : List UInt8}
    (h : fisherYatesShuffle entropy header indices lineSize configLinesData =
      (.ok (header', indices', nftIndex, configLine) : Outcome ε _)) :
    header' = { header with remaining := header'.remaining } ∧
      header.remaining.toNat = header'.remaining.toNat + 1 ∧
      ∃ i a b, i ≤ header'.remaining.toNat ∧ indices[i]? = some a ∧
        indices[header'.remaining.toNat]? = some b ∧
        indices' = (indices.set i b).set header'.remaining.toNat a ∧ nftIndex = a.toNat + 1 := by
  rw [fisherYatesShuffle] at h
  obtain ⟨⟨⟩, hne, h⟩ := Outcome.bind_eq_ok.1 h
  obtain ⟨remaining, hsub, h⟩ := Outcome.bind_eq_ok.1 h
  have hpos : 0 < header.remaining.toNat := by
    have hne := Outcome.assert_eq_ok.1 hne
    rw [Ne, ← UInt32.toNat_inj] at hne
    exact Nat.pos_of_ne_zero hne
  have hremaining : header.remaining.toNat = remaining.toNat + 1 := by
    have hone : (1 : UInt32) ≤ header.remaining := UInt32.le_iff_toNat_le.2 (by
      rw [UInt32.toNat_one]
      exact hpos)
    rw [subU32_eq_ok hsub, UInt32.toNat_sub_of_le _ _ hone]
    simp only [UInt32.toNat_one]
    omega
  have hselected : (entropy header.remaining % header.remaining).toNat ≤ remaining.toNat := by
    have hlt := Nat.mod_lt (entropy header.remaining).toNat hpos
    rw [UInt32.toNat_mod]
    omega
  split at h
  case h_1 a b ha hb =>
    obtain ⟨nftIndex₁, hindex, h⟩ := Outcome.bind_eq_ok.1 h
    obtain ⟨randomConfigIndex, -, h⟩ := Outcome.bind_eq_ok.1 h
    have hlt := a.toNat_lt
    rw [usize_of_lt (by omega)] at hindex
    obtain rfl := Outcome.ok.inj hindex
    dsimp only at h
    split_ifs at h
    · obtain ⟨lineEnd, -, h⟩ := Outcome.bind_eq_ok.1 h
      obtain ⟨⟨⟩, -, h⟩ := Outcome.bind_eq_ok.1 h
      obtain ⟨rfl, hrest⟩ := Prod.mk.inj (Outcome.ok.inj h)
      obtain ⟨hswap, hrest⟩ := Prod.mk.inj hrest
      obtain ⟨rfl, -⟩ := Prod.mk.inj hrest
      exact ⟨rfl, hremaining, _, a, b, hselected, ha, hb, hswap.symm, rfl⟩
    · obtain ⟨rfl, hrest⟩ := Prod.mk.inj (Outcome.ok.inj h)
      obtain ⟨hswap, hrest⟩ := Prod.mk.inj hrest
      obtain ⟨rfl, -⟩ := Prod.mk.inj hrest
      exact ⟨rfl, hremaining, _, a, b, hselected, ha, hb, hswap.symm, rfl⟩
  case h_2 => exact absurd h (by simp)

omit [DecidableEq Pubkey] in
/-- The loop draws from the indices in front of `remaining`. -/
theorem mintItems_ok {entropy : UInt32 → UInt32}
    {mint : GumballMachineHeader Pubkey → ℕ → List UInt8 → Outcome ε Unit} {lineSize : ℕ}
    {configLinesData : List UInt8} {n : ℕ} {header header' : GumballMachineHeader Pubkey}
    {indices indices' : List UInt32}
    (h : mintItems entropy mint lineSize configLinesData n (header, indices) =
      .ok (header', indices')) :
    header' = { header with remaining := header'.remaining } ∧
      Draws (indices.map UInt32.toNat) header.remaining.toNat
        (drawnItems ε entropy lineSize configLinesData n (header, indices))
        (indices'.map UInt32.toNat) header'.remaining.toNat := by
  induction n generalizing header indices with
  | zero =>
    obtain ⟨rfl, rfl⟩ := Prod.mk.inj (Outcome.ok.inj h)
    exact ⟨rfl, .nil⟩
  | succ n ih =>
    obtain ⟨⟨header₁, indices₁, nftIndex, configLine⟩, hdraw, h⟩ := Outcome.bind_eq_ok.1 h
    obtain ⟨⟨⟩, -, hitems⟩ := Outcome.bind_eq_ok.1 h
    obtain ⟨hheader, hremaining, i, a, b, hi, ha, hb, rfl, rfl⟩ := fisherYatesShuffle_ok hdraw
    obtain ⟨hheader', hdraws⟩ := ih hitems
    refine ⟨by rw [hheader', hheader], ?_⟩
    rw [drawnItems, hdraw, hremaining]
    rw [List.map_set, List.map_set] at hdraws
    have ha' : (indices.map UInt32.toNat)[i]? = some a.toNat := by simp [ha]
    have hb' : (indices.map UInt32.toNat)[header₁.remaining.toNat]? = some b.toNat := by simp [hb]
    exact .draw hi ha' hb' hdraws

/-- What a successful call of `find_and_mint_compressed_nfts` does, that hands out `drawn`. -/
structure Dispensed (machine : Machine Pubkey) (drawn : List ℕ) (machine' : Machine Pubkey) :
    Prop where
  initialized : machine.header.maxItems = machine.header.smallestUninitializedIndex
  header_eq : machine'.header =
    { machine.header with remaining := machine'.header.remaining }
  lines_eq : machine'.configLinesData = machine.configLinesData
  length_eq : machine'.configData.length = machine.configData.length
  draws : Draws machine.order machine.header.remaining.toNat drawn machine'.order
    machine'.header.remaining.toNat

omit [DecidableEq Pubkey] in
theorem findAndMintCompressedNfts_ok {validTransaction : Bool} {unixTimestamp : Int64}
    {entropy : UInt32 → UInt32}
    {mint : GumballMachineHeader Pubkey → ℕ → List UInt8 → Outcome ε Unit}
    {numItems minted : UInt32}
    (h : machine.findAndMintCompressedNfts validTransaction unixTimestamp entropy mint numItems =
      .ok (machine', minted)) :
    Dispensed machine (drawnItems ε entropy machine.header.extensionLen.toNat
      machine.configLinesData (min (max numItems 1) machine.header.remaining).toNat
      (machine.header, machine.indices)) machine' := by
  obtain ⟨⟨⟩, -, h⟩ := Outcome.bind_eq_ok.1 h
  obtain ⟨⟨⟩, hinitialized, h⟩ := Outcome.bind_eq_ok.1 h
  obtain ⟨⟨⟩, -, h⟩ := Outcome.bind_eq_ok.1 h
  obtain ⟨⟨⟩, -, h⟩ := Outcome.bind_eq_ok.1 h
  obtain ⟨indexArraySize, hsize, h⟩ := Outcome.bind_eq_ok.1 h
  obtain ⟨configSize, -, h⟩ := Outcome.bind_eq_ok.1 h
  obtain ⟨dataSize, -, h⟩ := Outcome.bind_eq_ok.1 h
  obtain ⟨⟨⟩, -, h⟩ := Outcome.bind_eq_ok.1 h
  obtain ⟨⟨⟩, hroom, h⟩ := Outcome.bind_eq_ok.1 h
  obtain ⟨⟨⟩, -, h⟩ := Outcome.bind_eq_ok.1 h
  obtain ⟨⟨header, indices⟩, hitems, h⟩ := Outcome.bind_eq_ok.1 h
  obtain ⟨rfl, -⟩ := Prod.mk.inj (Outcome.ok.inj h)
  have hmax := machine.header.maxItems.toNat_lt
  rw [usize_of_lt (by omega)] at hsize
  obtain rfl := Outcome.ok.inj hsize
  have hroom := Outcome.assert_eq_ok.1 hroom
  obtain ⟨hheader, hdraws⟩ := mintItems_ok hitems
  have hlen : indices.length = machine.indices.length := by
    simpa using hdraws.perm.length_eq
  have hmaxItems : header.maxItems = machine.header.maxItems := by rw [hheader]
  have hmade := made_of_indices hroom hmaxItems hlen
  refine ⟨Outcome.assert_eq_ok.1 hinitialized, hheader, hmade.lines_eq, hmade.length_eq, ?_⟩
  rw [order, order, indices_of_made hroom hmaxItems hlen]
  exact hdraws

/-- What the other instructions keep. -/
structure Kept (machine machine' : Machine Pubkey) : Prop where
  maxItems : machine'.header.maxItems = machine.header.maxItems
  extensionLen : machine'.header.extensionLen = machine.header.extensionLen
  totalItemsAdded : machine'.header.totalItemsAdded = machine.header.totalItemsAdded
  lines_eq : machine'.configLinesData = machine.configLinesData
  length_eq : machine'.configData.length = machine.configData.length

end Machine

open Machine

namespace Instruction

/-- The indices that the instruction hands out, the last one first. -/
def drawn (machine : Machine Pubkey) : Instruction Pubkey ε → List ℕ
  | dispense _ _ entropy _ numItems => drawnItems ε entropy machine.header.extensionLen.toNat
      machine.configLinesData (min (max numItems 1) machine.header.remaining).toNat
      (machine.header, machine.indices)
  | _ => []

variable {machine machine' : Machine Pubkey}

theorem exec_dispense {validTransaction : Bool} {unixTimestamp : Int64}
    {entropy : UInt32 → UInt32}
    {mint : GumballMachineHeader Pubkey → ℕ → List UInt8 → Outcome ε Unit} {numItems : UInt32}
    (h : (dispense validTransaction unixTimestamp entropy mint numItems).exec machine =
      .ok machine') :
    Dispensed machine
      ((dispense validTransaction unixTimestamp entropy mint numItems).drawn machine) machine' := by
  obtain ⟨⟨machine₁, minted⟩, hmint, h⟩ := Outcome.bind_eq_ok.1 h
  obtain rfl := Outcome.ok.inj h
  exact findAndMintCompressedNfts_ok hmint

/-- A successful instruction other than the addition and the update keeps the lines. -/
theorem exec_kept {ins : Instruction Pubkey ε}
    (hadd : ∀ authority data, ins ≠ .addConfigLines authority data)
    (hupdate : ∀ authority start data, ins ≠ .updateConfigLines authority start data)
    (h : ins.exec machine = .ok machine') : Kept machine machine' := by
  cases ins with
  | addConfigLines authority data => exact absurd rfl (hadd authority data)
  | updateConfigLines authority start data => exact absurd rfl (hupdate authority start data)
  | initializeIndicesChunk authority =>
    obtain ⟨-, -, -, hheader, hlines, hlength, -⟩ := initializeIndicesChunk_ok h
    constructor
    · rw [hheader]
    · rw [hheader]
    · rw [hheader]
    · exact hlines
    · exact hlength
  | updateHeaderMetadata authority update =>
    obtain ⟨⟨⟩, -, h⟩ := Outcome.bind_eq_ok.1 h
    obtain rfl := Outcome.ok.inj h
    exact ⟨rfl, rfl, rfl, rfl, rfl⟩
  | dispense validTransaction unixTimestamp entropy mint numItems =>
    obtain ⟨-, hheader, hlines, hlength, -⟩ := exec_dispense h
    constructor
    · rw [hheader]
    · rw [hheader]
    · rw [hheader]
    · exact hlines
    · exact hlength

end Instruction

end Candyland.GumballMachine
