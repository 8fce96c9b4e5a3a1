import Candyland.GumballMachine.Sale

/-!
# Calls of a live machine

A call that passes the checks at its beginning stops only where the mint of an item does.  The
sizes of the account were checked at its initialisation, so that every line of an added item
lies in the config area, and every index in front of `remaining` is one of an added item.
-/

namespace Candyland.GumballMachine

open Gummyroll (Build)
open Shuffle (Draws)
open Machine

variable {Pubkey ε : Type}

theorem toNat_pos {x : UInt32} (h : x ≠ 0) : 0 < x.toNat := by
  refine Nat.pos_of_ne_zero fun hzero => h ?_
  exact UInt32.toNat_inj.1 (hzero.trans UInt32.toNat_zero.symm)

section Sizes

variable [DecidableEq Pubkey] [Build] {machine machine' : Machine Pubkey} {handed : List ℕ}

/-! ### Sizes -/

/-- The sizes that no instruction changes. -/
structure Machine.SameSizes (machine machine' : Machine Pubkey) : Prop where
  maxItems : machine'.header.maxItems = machine.header.maxItems
  extensionLen : machine'.header.extensionLen = machine.header.extensionLen
  length_eq : machine'.configData.length = machine.configData.length

theorem Instruction.exec_sizes {ins : Instruction Pubkey ε} (hdata : ins.data.length < 2 ^ 63)
    (h : ins.exec machine = .ok machine') : SameSizes machine machine' := by
  cases ins with
  | addConfigLines authority data =>
    obtain ⟨-, -, -, ⟨hheader, -, hlen⟩, -⟩ := addConfigLines_ok hdata h
    exact ⟨by rw [hheader, addedHeader], by rw [hheader, addedHeader], hlen⟩
  | updateConfigLines authority startingLine data =>
    obtain ⟨hheader, -, hlen⟩ := updateConfigLines_frame h
    exact ⟨by rw [hheader], by rw [hheader], hlen⟩
  | initializeIndicesChunk authority =>
    have hkept := Instruction.exec_kept (by simp) (by simp) h
    exact ⟨hkept.maxItems, hkept.extensionLen, hkept.length_eq⟩
  | updateHeaderMetadata authority update =>
    have hkept := Instruction.exec_kept (by simp) (by simp) h
    exact ⟨hkept.maxItems, hkept.extensionLen, hkept.length_eq⟩
  | dispense validTransaction unixTimestamp entropy mint numItems =>
    have hkept := Instruction.exec_kept (by simp) (by simp) h
    exact ⟨hkept.maxItems, hkept.extensionLen, hkept.length_eq⟩

/-- What the checks of the sizes leave.  The data of an instruction is a `Vec` whose length is
read as a `u32`, so that longer lines are never added. -/
structure SizeInv (ε : Type) (machine : Machine Pubkey) : Prop where
  size : machine.configData.length < 2 ^ 63
  checked : ∃ configSize,
    (usize (machine.header.extensionLen.toNat * machine.header.maxItems.toNat) : Outcome ε ℕ) =
        .ok configSize ∧
      (usize (4 * machine.header.maxItems.toNat + configSize) : Outcome ε ℕ) =
        .ok machine.configData.length
  room : machine.header.smallestUninitializedIndex ≠ 0 →
    4 * machine.header.maxItems.toNat ≤ machine.configData.length
  narrow : machine.header.totalItemsAdded ≠ 0 → machine.header.extensionLen.toNat < 2 ^ 32

namespace SizeInv

omit [DecidableEq Pubkey] in
theorem init {header : GumballMachineHeader Pubkey} {configData : List UInt8}
    (hlen : configData.length < 2 ^ 63)
    (h : Machine.initializeGumballMachine header configData =
      (.ok machine : Outcome ε (Machine Pubkey))) : SizeInv ε machine := by
  obtain ⟨configSize, hconfig, h⟩ := Outcome.bind_eq_ok.1 h
  obtain ⟨dataSize, hdata, h⟩ := Outcome.bind_eq_ok.1 h
  obtain ⟨⟨⟩, hsize, h⟩ := Outcome.bind_eq_ok.1 h
  obtain rfl := Outcome.ok.inj h
  have hsize := Outcome.assert_eq_ok.1 hsize
  refine ⟨hlen, ⟨configSize, hconfig, ?_⟩, fun hne => absurd rfl hne, fun hne => absurd rfl hne⟩
  show usize (4 * header.maxItems.toNat + configSize) = .ok configData.length
  rw [hsize]
  exact hdata

omit [DecidableEq Pubkey] in
/-- An instruction has to keep the bounds on the index and the lines. -/
theorem same (h : SizeInv ε machine) (hsame : SameSizes machine machine')
    (hroom : machine'.header.smallestUninitializedIndex ≠ 0 →
      4 * machine.header.maxItems.toNat ≤ machine.configData.length)
    (hnarrow : machine'.header.totalItemsAdded ≠ 0 →
      machine.header.extensionLen.toNat < 2 ^ 32) : SizeInv ε machine' := by
  obtain ⟨hmax, hext, hlen⟩ := hsame
  constructor
  case size => rw [hlen]; exact h.size
  case checked => rw [hmax, hext, hlen]; exact h.checked
  case room => rw [hmax, hlen]; exact hroom
  case narrow => rw [hext]; exact hnarrow

/-- What one instruction preserves. -/
theorem exec (h : SizeInv ε machine) {ins : Instruction Pubkey ε}
    (hdata : ins.data.length < 2 ^ 32) (hexec : ins.exec machine = .ok machine') :
    SizeInv ε machine' := by
  have hlong : ins.data.length < 2 ^ 63 := hdata.trans (by decide)
  refine h.same (Instruction.exec_sizes hlong hexec) ?_ ?_
  · cases ins with
    | initializeIndicesChunk authority => exact fun _ => (initializeIndicesChunk_ok hexec).room
    | addConfigLines authority data =>
      rw [(addConfigLines_ok hlong hexec).made.header_eq]
      exact h.room
    | updateConfigLines authority startingLine data =>
      rw [(updateConfigLines_frame hexec).1]
      exact h.room
    | updateHeaderMetadata authority update =>
      obtain ⟨⟨⟩, -, hexec⟩ := Outcome.bind_eq_ok.1 hexec
      obtain rfl := Outcome.ok.inj hexec
      exact h.room
    | dispense validTransaction unixTimestamp entropy mint numItems =>
      rw [(Instruction.exec_dispense hexec).header_eq]
      exact h.room
  · cases ins with
    | addConfigLines authority data =>
      -- there are no lines in data that are shorter than one
      intro hne
      rw [Instruction.data] at hdata hlong
      by_contra hwide
      have hzero : data.length / machine.header.extensionLen.toNat = 0 :=
        Nat.div_eq_of_lt (hdata.trans_le (not_lt.1 hwide))
      rw [(addConfigLines_ok hlong hexec).made.header_eq, hzero] at hne
      exact hwide (h.narrow (by simpa [addedHeader] using hne))
    | updateConfigLines authority startingLine data =>
      rw [(updateConfigLines_frame hexec).1]
      exact h.narrow
    | initializeIndicesChunk authority =>
      rw [(Instruction.exec_kept (by simp) (by simp) hexec).totalItemsAdded]
      exact h.narrow
    | updateHeaderMetadata authority update =>
      rw [(Instruction.exec_kept (by simp) (by simp) hexec).totalItemsAdded]
      exact h.narrow
    | dispense validTransaction unixTimestamp entropy mint numItems =>
      rw [(Instruction.exec_kept (by simp) (by simp) hexec).totalItemsAdded]
      exact h.narrow

omit [DecidableEq Pubkey] in
/-- The config area has a line for every item of the supply. -/
theorem lines_room (h : SizeInv ε machine) (hpool : PoolInv machine handed)
    (hinit : machine.header.smallestUninitializedIndex = machine.header.maxItems) :
    machine.supply * machine.header.extensionLen.toNat ≤ machine.configLinesData.length := by
  rw [supply]
  split_ifs with hext
  · simp [hext]
  by_cases htotal : machine.header.totalItemsAdded = 0
  · simp [htotal]
  have hnarrow := h.narrow htotal
  have hle := hpool.total_le
  have hpos := toNat_pos htotal
  have hroom : 4 * machine.header.maxItems.toNat ≤ machine.configData.length := by
    refine h.room fun hzero => ?_
    rw [hzero] at hinit
    rw [← hinit, UInt32.toNat_zero] at hle
    omega
  have hmax := machine.header.maxItems.toNat_lt
  obtain ⟨configSize, hconfig, hdata⟩ := h.checked
  have hproduct : machine.header.extensionLen.toNat * machine.header.maxItems.toNat < 2 ^ 64 :=
    (Nat.mul_lt_mul'' hnarrow hmax).trans_eq (by norm_num)
  have hlines := Nat.mul_le_mul_right machine.header.extensionLen.toNat hle
  rw [Nat.mul_comm machine.header.maxItems.toNat] at hlines
  rw [usize_of_lt hproduct] at hconfig
  obtain rfl := Outcome.ok.inj hconfig
  -- a sum that wraps around would be smaller than the array
  have hlen := usize_eq_ok hdata
  rw [configLinesData, List.length_drop]
  omega

end SizeInv

/-- The sizes along every run. -/
theorem SaleRun.sizes {P : Machine Pubkey → List ℕ → Instruction Pubkey ε → Prop}
    (hP : ∀ machine handed ins, P machine handed ins → ins.data.length < 2 ^ 32)
    (h : SaleRun P machine handed) : SizeInv ε machine := by
  induction h with
  | init hlen h => exact .init hlen h
  | step _ _ hcond h ih => exact ih.exec (hP _ _ _ hcond) h

end Sizes

/-! ### Draws and calls -/

section Calls

variable [Build] {entropy : UInt32 → UInt32} {header : GumballMachineHeader Pubkey}
  {indices : List UInt32} {lineSize : ℕ} {configLinesData : List UInt8}
  {mint : GumballMachineHeader Pubkey → ℕ → List UInt8 → Outcome ε Unit}

/-- The lines of the indices in front of `remaining` lie in the config area. -/
structure LinesFit (header : GumballMachineHeader Pubkey) (indices : List UInt32) (lineSize : ℕ)
    (configLinesData : List UInt8) : Prop where
  size : configLinesData.length < 2 ^ 63
  le_length : header.remaining.toNat ≤ indices.length
  room : ∀ a ∈ indices.take header.remaining.toNat,
    (a.toNat + 1) * lineSize ≤ configLinesData.length

/-- No draw divides by zero or goes out of range. -/
theorem fisherYatesShuffle_total (h : LinesFit header indices lineSize configLinesData)
    (hremaining : header.remaining ≠ 0) :
    ∃ r, fisherYatesShuffle entropy header indices lineSize configLinesData =
      (.ok r : Outcome ε _) := by
  have hpos := toNat_pos hremaining
  have hone : (1 : UInt32) ≤ header.remaining := UInt32.le_iff_toNat_le.2 hpos
  have hsub : (subU32 header.remaining 1 : Outcome ε UInt32) = .ok (header.remaining - 1) := by
    rw [subU32, if_neg]
    simp [UInt32.not_lt.2 hone]
  have hminus : (header.remaining - 1).toNat = header.remaining.toNat - 1 :=
    UInt32.toNat_sub_of_le _ _ hone
  have hselected : (entropy header.remaining % header.remaining).toNat < header.remaining.toNat := by
    rw [UInt32.toNat_mod]
    exact Nat.mod_lt _ hpos
  have hlen := h.le_length
  have ha := List.getElem?_eq_getElem (hselected.trans_le hlen)
  have hb : indices[(header.remaining - 1).toNat]? = _ :=
    List.getElem?_eq_getElem (by rw [hminus]; omega)
  have hroom := h.room _ (List.mem_take_iff_getElem.2
    ⟨_, lt_min hselected (hselected.trans_le hlen), rfl⟩)
  generalize indices[(entropy header.remaining % header.remaining).toNat] = a at ha hroom
  have hlt := a.toNat_lt
  have hsize := h.size
  rw [Nat.add_mul, Nat.one_mul] at hroom
  rw [fisherYatesShuffle, Outcome.assert_of hremaining, Outcome.ok_bind, hsub, Outcome.ok_bind]
  simp only [ha, hb]
  rw [usize_of_lt (by omega), Outcome.ok_bind, usize_of_lt (by omega), Outcome.ok_bind]
  split_ifs with hlines
  · rw [usize_of_lt (by omega), Outcome.ok_bind,
      Outcome.assert_of ⟨Nat.le_add_right _ _, hroom⟩, Outcome.ok_bind]
    exact ⟨_, rfl⟩
  · exact ⟨_, rfl⟩

/-- A draw leaves the other indices in front of `remaining`. -/
theorem LinesFit.draw (h : LinesFit header indices lineSize configLinesData)
    {header' : GumballMachineHeader Pubkey} {indices' : List UInt32} {nftIndex : ℕ}
    {configLine : List UInt8}
    (hdraw : fisherYatesShuffle entropy header indices lineSize configLinesData =
      (.ok (header', indices', nftIndex, configLine) : Outcome ε _)) :
    LinesFit header' indices' lineSize configLinesData := by
  obtain ⟨-, hremaining, i, a, b, hi, ha, hb, rfl, -⟩ := fisherYatesShuffle_ok hdraw
  refine ⟨h.size, ?_, fun k hk => h.room k ?_⟩
  · have hlen := h.le_length
    simp only [List.length_set]
    omega
  · rw [hremaining]
    exact (Draws.draw hi ha hb .nil).mem_take_of_mem_take hk

/-- The call succeeds, or it stops where a mint does. -/
def StopsAtMint {α : Type} (mint : GumballMachineHeader Pubkey → ℕ → List UInt8 → Outcome ε Unit)
    (call : Outcome ε α) : Prop :=
  (∃ r, call = .ok r) ∨ ∃ header nftIndex configLine, mint header nftIndex configLine ≠ .ok () ∧
    (call = .panic → mint header nftIndex configLine = .panic)

omit [Build] in
theorem StopsAtMint.bind {α β : Type} {x : Outcome ε α} {f : α → Outcome ε β}
    (h : StopsAtMint mint x) (hf : ∀ a, StopsAtMint mint (f a)) : StopsAtMint mint (x >>= f) := by
  cases x with
  | ok a => exact hf a
  | err e =>
    rcases h with ⟨r, hr⟩ | ⟨header, nftIndex, configLine, hne, -⟩
    · exact absurd hr nofun
    · exact .inr ⟨header, nftIndex, configLine, hne, nofun⟩
  | panic =>
    rcases h with ⟨r, hr⟩ | ⟨header, nftIndex, configLine, hne, hpanic⟩
    · exact absurd hr nofun
    · exact .inr ⟨header, nftIndex, configLine, hne, fun _ => hpanic rfl⟩

omit [Build] in
theorem stopsAtMint_mint (nftIndex : ℕ) (configLine : List UInt8) :
    StopsAtMint mint (mint header nftIndex configLine) := by
  rcases hmint : mint header nftIndex configLine with u | e | _
  · exact .inl ⟨u, rfl⟩
  · exact .inr ⟨header, nftIndex, configLine, by rw [hmint]; exact nofun, nofun⟩
  · exact .inr ⟨header, nftIndex, configLine, by rw [hmint]; exact nofun, fun _ => hmint⟩

/-- The loop stops only where a mint does. -/
theorem mintItems_stops {n : ℕ} (h : LinesFit header indices lineSize configLinesData)
    (hn : n ≤ header.remaining.toNat) :
    StopsAtMint mint (mintItems entropy mint lineSize configLinesData n (header, indices)) := by
  induction n generalizing header indices with
  | zero => exact .inl ⟨_, rfl⟩
  | succ n ih =>
    have hne : header.remaining ≠ 0 := by
      intro hzero
      rw [hzero, UInt32.toNat_zero] at hn
      omega
    obtain ⟨⟨header', indices', nftIndex, configLine⟩, hdraw⟩ : ∃ r,
        fisherYatesShuffle entropy header indices lineSize configLinesData =
          (.ok r : Outcome ε _) := fisherYatesShuffle_total h hne
    have hremaining := (fisherYatesShuffle_ok hdraw).2.1
    rw [mintItems, hdraw, Outcome.ok_bind]
    exact (stopsAtMint_mint nftIndex configLine).bind fun _ => ih (h.draw hdraw) (by omega)

theorem length_drawnItems {n : ℕ} {header' : GumballMachineHeader Pubkey} {indices' : List UInt32}
    (h : mintItems entropy mint lineSize configLinesData n (header, indices) =
      .ok (header', indices')) :
    (drawnItems ε entropy lineSize configLinesData n (header, indices)).length = n := by
  induction n generalizing header indices with
  | zero => rfl
  | succ n ih =>
    obtain ⟨⟨header₁, indices₁, nftIndex, configLine⟩, hdraw, h⟩ := Outcome.bind_eq_ok.1 h
    obtain ⟨⟨⟩, -, hitems⟩ := Outcome.bind_eq_ok.1 h
    rw [drawnItems, hdraw, List.length_append, ih hitems, List.length_singleton]

end Calls

section Live

variable [DecidableEq Pubkey] [Build] {machine machine' : Machine Pubkey} {handed : List ℕ}
  {entropy : UInt32 → UInt32}
  {mint : GumballMachineHeader Pubkey → ℕ → List UInt8 → Outcome ε Unit}
  {unixTimestamp : Int64} {numItems minted : UInt32} {validTransaction : Bool}

/-- The checks at the beginning of a call. -/
structure Live (machine : Machine Pubkey) (unixTimestamp : Int64) (numItems : UInt32) : Prop where
  initialized : machine.header.maxItems = machine.header.smallestUninitializedIndex
  size : numItems ≤ machine.header.maxMintSize
  time : unixTimestamp > machine.header.goLiveDate
  left : machine.header.remaining ≠ 0

omit [DecidableEq Pubkey] [Build] in
/-- The number of items of a call. -/
theorem toNat_min_max (numItems remaining : UInt32) :
    (min (max numItems 1) remaining).toNat = min (max numItems.toNat 1) remaining.toNat := by
  simp only [UInt32.toNat_min, UInt32.toNat_max, UInt32.toNat_one]

omit [DecidableEq Pubkey] in
/-- A successful call passed the checks, and draws as many items as it counts. -/
theorem findAndMintCompressedNfts_live
    (h : machine.findAndMintCompressedNfts validTransaction unixTimestamp entropy mint numItems =
      .ok (machine', minted)) :
    Live machine unixTimestamp numItems ∧
      minted = min (max numItems 1) machine.header.remaining ∧
      (drawnItems ε entropy machine.header.extensionLen.toNat machine.configLinesData minted.toNat
        (machine.header, machine.indices)).length = minted.toNat := by
  obtain ⟨⟨⟩, -, h⟩ := Outcome.bind_eq_ok.1 h
  obtain ⟨⟨⟩, hinit, h⟩ := Outcome.bind_eq_ok.1 h
  obtain ⟨⟨⟩, hsize, h⟩ := Outcome.bind_eq_ok.1 h
  obtain ⟨⟨⟩, htime, h⟩ := Outcome.bind_eq_ok.1 h
  obtain ⟨indexArraySize, -, h⟩ := Outcome.bind_eq_ok.1 h
  obtain ⟨configSize, -, h⟩ := Outcome.bind_eq_ok.1 h
  obtain ⟨dataSize, -, h⟩ := Outcome.bind_eq_ok.1 h
  obtain ⟨⟨⟩, -, h⟩ := Outcome.bind_eq_ok.1 h
  obtain ⟨⟨⟩, -, h⟩ := Outcome.bind_eq_ok.1 h
  obtain ⟨⟨⟩, hpos, h⟩ := Outcome.bind_eq_ok.1 h
  obtain ⟨⟨header, indices⟩, hitems, h⟩ := Outcome.bind_eq_ok.1 h
  obtain ⟨-, rfl⟩ := Prod.mk.inj (Outcome.ok.inj h)
  refine ⟨⟨Outcome.assert_eq_ok.1 hinit, Outcome.assert_eq_ok.1 hsize, Outcome.assert_eq_ok.1 htime,
    fun hzero => ?_⟩, rfl, length_drawnItems hitems⟩
  have hpos := Outcome.assert_eq_ok.1 hpos
  rw [UInt32.lt_iff_toNat_lt, toNat_min_max, hzero] at hpos
  simp at hpos

omit [DecidableEq Pubkey] in
/-- The lines of what is left. -/
theorem linesFit (hpool : PoolInv machine handed) (hsizes : SizeInv ε machine)
    (hinit : machine.header.smallestUninitializedIndex = machine.header.maxItems) :
    LinesFit machine.header machine.indices machine.header.extensionLen.toNat
      machine.configLinesData := by
  have hlen := (hpool.perm hinit).length_eq
  rw [order, List.length_map, List.length_range] at hlen
  have hsize := hsizes.size
  have hsupply : machine.supply ≤ machine.header.maxItems.toNat := by
    rw [supply]
    split_ifs
    · exact le_rfl
    · exact hpool.total_le
  refine ⟨?_, ?_, fun a ha => ?_⟩
  · rw [configLinesData, List.length_drop]
    omega
  · have hle := hpool.remaining_le
    omega
  · have hmem : a.toNat ∈ machine.order.take machine.header.remaining.toNat := by
      rw [order, ← List.map_take]
      exact List.mem_map_of_mem ha
    have hlt := hpool.lt_of_mem_take hinit hmem
    exact (Nat.mul_le_mul_right _ hlt).trans (hsizes.lines_room hpool hinit)

omit [DecidableEq Pubkey] in
/-- A call that passes the checks stops only where a mint does. -/
theorem findAndMintCompressedNfts_stops (hpool : PoolInv machine handed)
    (hsizes : SizeInv ε machine) (hlive : Live machine unixTimestamp numItems) :
    StopsAtMint mint
      (machine.findAndMintCompressedNfts true unixTimestamp entropy mint numItems) := by
  obtain ⟨hinit, hsize, htime, hleft⟩ := hlive
  obtain ⟨configSize, hconfig, hdata⟩ := hsizes.checked
  have hmax := machine.header.maxItems.toNat_lt
  have hleftNat := toNat_pos hleft
  have hcount := toNat_min_max numItems machine.header.remaining
  have hpos : 0 < min (max numItems 1) machine.header.remaining := by
    rw [UInt32.lt_iff_toNat_lt, hcount, UInt32.toNat_zero]
    omega
  have hfit := linesFit hpool hsizes hinit.symm
  have hroom : 4 * machine.header.maxItems.toNat ≤ machine.configData.length := by
    have hlen := (hpool.perm hinit.symm).length_eq
    refine hsizes.room fun hzero => ?_
    have hzero' : machine.header.maxItems.toNat = 0 := by rw [hinit, hzero]; rfl
    have hle := hfit.le_length
    rw [order, List.length_map, List.length_range] at hlen
    omega
  rw [findAndMintCompressedNfts, Outcome.assert_of rfl, Outcome.ok_bind, Outcome.assert_of hinit,
    Outcome.ok_bind, Outcome.assert_of hsize, Outcome.ok_bind, Outcome.assert_of htime,
    Outcome.ok_bind]
  simp only [usize_of_lt (ε := ε) (show 4 * machine.header.maxItems.toNat < 2 ^ 64 by omega),
    hconfig, hdata, Outcome.ok_bind, Outcome.assert_of hroom, Outcome.assert_of hpos,
    Outcome.assert_of]
  have hstop : StopsAtMint mint (mintItems entropy mint _ _
      (min (max numItems 1) machine.header.remaining).toNat _) :=
    mintItems_stops hfit (by rw [hcount]; omega)
  exact hstop.bind fun st => .inl ⟨_, rfl⟩

end Live

end Candyland.GumballMachine
