import Candyland.GumballMachine.Effects
import Candyland.Gummyroll.Symbolic

/-!
# Config lines

What the instructions do to the config lines, over whole runs of a machine.  A run carries
the lines as they should be: an addition appends its lines and an update replaces some.
`add_config_lines` puts them there as long as byte `start_index` is where line
`start_index` begins.
-/

namespace Candyland.GumballMachine

open Gummyroll (Build)
open Records (record overwrite)
open Machine

variable {Pubkey ε : Type}

namespace Instruction

/-- The lines after the instruction, when they were `lines` before. -/
def linesAfter (L : ℕ) (lines : List (List UInt8)) : Instruction Pubkey ε → List (List UInt8)
  | addConfigLines _ data => lines ++ (List.range (data.length / L)).map (record L data)
  | updateConfigLines _ startingLine data => lines.mapIdx fun k line =>
      if startingLine.toNat ≤ k ∧ k < startingLine.toNat + data.length / L then
        record L data (k - startingLine.toNat)
      else line
  | _ => lines

/-- The instruction adds or updates lines. -/
def EditsLines : Instruction Pubkey ε → Prop
  | addConfigLines .. => True
  | updateConfigLines .. => True
  | _ => False

/-- The lines that the instruction may write. -/
def Writes (machine : Machine Pubkey) (k : ℕ) : Instruction Pubkey ε → Prop
  | addConfigLines _ data => machine.header.totalItemsAdded.toNat ≤ k ∧
      k < machine.header.totalItemsAdded.toNat + data.length / machine.header.extensionLen.toNat
  | updateConfigLines _ startingLine data => startingLine.toNat ≤ k ∧
      k < startingLine.toNat + data.length / machine.header.extensionLen.toNat
  | _ => False

/-- Lines are added to an empty list or have length one, so that they begin at the byte with
the number of the line, and they fit into the config area. -/
def InPlace (machine : Machine Pubkey) : Instruction Pubkey ε → Prop
  | addConfigLines _ data => data = [] ∨
      (machine.header.totalItemsAdded = 0 ∨ machine.header.extensionLen = 1) ∧
        machine.header.totalItemsAdded.toNat * machine.header.extensionLen.toNat + data.length ≤
          machine.configLinesData.length
  | _ => True

end Instruction

section Run

variable [DecidableEq Pubkey] [Build]

/-- The machines that are reached by instructions that satisfy `P`, with the lines that were
written to them.  The account has at most `isize::MAX` bytes. -/
inductive MachineRun (P : Machine Pubkey → Instruction Pubkey ε → Prop) :
    Machine Pubkey → List (List UInt8) → Prop
  /-- The start. -/
  | init {header : GumballMachineHeader Pubkey} {configData : List UInt8}
      {machine : Machine Pubkey} (hlen : configData.length < 2 ^ 63)
      (h : Machine.initializeGumballMachine header configData =
        (.ok machine : Outcome ε (Machine Pubkey))) : MachineRun P machine []
  /-- A successful instruction. -/
  | step {machine machine' : Machine Pubkey} {lines : List (List UInt8)}
      {ins : Instruction Pubkey ε} (hrun : MachineRun P machine lines)
      (hdata : ins.data.length < 2 ^ 63) (hP : P machine ins)
      (h : ins.exec machine = .ok machine') :
      MachineRun P machine' (ins.linesAfter machine.header.extensionLen.toNat lines)

/-! ### The invariant -/

/-- The added lines are stored in the config area. -/
structure LinesInv (machine : Machine Pubkey) (lines : List (List UInt8)) : Prop where
  size : machine.configData.length < 2 ^ 63
  total : machine.header.totalItemsAdded.toNat = lines.length
  room : lines.length * machine.header.extensionLen.toNat ≤ machine.configLinesData.length
  stored : ∀ k (hk : k < lines.length),
    record machine.header.extensionLen.toNat machine.configLinesData k = lines[k]

namespace LinesInv

variable {machine machine' : Machine Pubkey} {lines : List (List UInt8)} {data : List UInt8}

omit [DecidableEq Pubkey] [Build] in
theorem kept (h : LinesInv machine lines) (hkept : Kept machine machine') :
    LinesInv machine' lines where
  size := hkept.length_eq.trans_lt h.size
  total := by rw [hkept.totalItemsAdded, h.total]
  room := by rw [hkept.extensionLen, hkept.lines_eq]; exact h.room
  stored k hk := by rw [hkept.extensionLen, hkept.lines_eq]; exact h.stored k hk

omit [DecidableEq Pubkey] [Build] in
/-- In place, byte `start_index` is where line `start_index` begins. -/
theorem overwrite_eq (h : LinesInv machine lines) {authority : Pubkey}
    (hplace : (Instruction.addConfigLines authority data : Instruction Pubkey ε).InPlace machine) :
    overwrite machine.configLinesData machine.header.totalItemsAdded.toNat data =
        overwrite machine.configLinesData
          (machine.header.totalItemsAdded.toNat * machine.header.extensionLen.toNat) data ∧
      machine.header.totalItemsAdded.toNat * machine.header.extensionLen.toNat + data.length ≤
        machine.configLinesData.length := by
  rcases hplace with rfl | ⟨hzero | hone, hroom⟩
  · refine ⟨by simp, ?_⟩
    rw [h.total]
    exact h.room
  · exact ⟨by simp [hzero], hroom⟩
  · exact ⟨by simp [hone], hroom⟩

omit [DecidableEq Pubkey] [Build] in
/-- Adding lines in place. -/
theorem added (h : LinesInv machine lines) {authority : Pubkey}
    (hplace : (Instruction.addConfigLines authority data : Instruction Pubkey ε).InPlace machine)
    (hadded : Added machine data machine') :
    LinesInv machine' (lines ++ (List.range (data.length / machine.header.extensionLen.toNat)).map
      (record machine.header.extensionLen.toNat data)) := by
  obtain ⟨hstart, hroom⟩ := h.overwrite_eq hplace
  obtain ⟨-, hwhole, hfits, ⟨hheader, hlines, hlen⟩, -⟩ := hadded
  rw [hstart] at hlines
  have hline : machine'.header.extensionLen = machine.header.extensionLen := by
    rw [hheader, addedHeader]
  generalize data.length / machine.header.extensionLen.toNat = n at hwhole hfits hheader ⊢
  have htotal := h.total
  refine ⟨hlen.trans_lt h.size, ?_, ?_, ?_⟩
  · -- the count does not wrap around
    have hmax := machine.header.maxItems.toNat_lt
    rw [hheader, addedHeader]
    simp only [UInt32.toNat_add, UInt32.toNat_ofNat', List.length_append, List.length_map,
      List.length_range]
    rw [Nat.mod_eq_of_lt (by omega : n < 2 ^ 32), Nat.mod_eq_of_lt (by omega), htotal]
  · rw [hline, hlines, Records.length_overwrite, List.length_append, List.length_map,
      List.length_range, Nat.add_mul, ← htotal, ← hwhole]
    exact hroom
  · intro k hk
    rw [hline, hlines]
    rw [List.length_append, List.length_map, List.length_range] at hk
    rcases Nat.lt_or_ge k lines.length with hlt | hge
    · rw [List.getElem_append_left hlt,
        Records.record_overwrite_of_not_mem hwhole (.inl (by omega))]
      exact h.stored k hlt
    · obtain ⟨j, rfl⟩ := Nat.exists_eq_add_of_le hge
      rw [List.getElem_append_right hge]
      simp only [Nat.add_sub_cancel_left, List.getElem_map, List.getElem_range]
      rw [← htotal, Records.record_overwrite_of_mem hwhole]
      · rw [Nat.add_mul, ← hwhole]
        exact hroom
      · omega

omit [DecidableEq Pubkey] [Build] in
/-- Updating lines. -/
theorem updated (h : LinesInv machine lines) {authority : Pubkey} {startingLine : UInt64}
    (hupdated : Updated machine startingLine data machine') :
    LinesInv machine' ((Instruction.updateConfigLines authority startingLine data :
      Instruction Pubkey ε).linesAfter machine.header.extensionLen.toNat lines) := by
  obtain ⟨-, hwhole, hfits, ⟨hheader, hlines, hlen⟩, -⟩ := hupdated
  have htotal := h.total
  rw [Instruction.linesAfter]
  refine ⟨hlen.trans_lt h.size, ?_, ?_, ?_⟩
  · rw [hheader, htotal, List.length_mapIdx]
  · rw [hheader, hlines, Records.length_overwrite, List.length_mapIdx]
    exact h.room
  · intro k hk
    rw [List.length_mapIdx] at hk
    rw [hheader, hlines, List.getElem_mapIdx]
    split_ifs with hmem
    · obtain ⟨j, rfl⟩ := Nat.exists_eq_add_of_le hmem.1
      rw [Records.record_overwrite_of_mem hwhole, Nat.add_sub_cancel_left]
      · refine le_trans (Nat.mul_le_mul_right _ ?_) h.room
        omega
      · omega
    · rw [Records.record_overwrite_of_not_mem hwhole (by omega)]
      exact h.stored k hk

/-- What one instruction preserves. -/
theorem exec (h : LinesInv machine lines) {ins : Instruction Pubkey ε}
    (hdata : ins.data.length < 2 ^ 63) (hplace : ins.InPlace machine)
    (hexec : ins.exec machine = .ok machine') :
    LinesInv machine' (ins.linesAfter machine.header.extensionLen.toNat lines) := by
  cases ins with
  | addConfigLines authority data => exact h.added hplace (addConfigLines_ok hdata hexec)
  | updateConfigLines authority startingLine data =>
    refine h.updated (updateConfigLines_ok h.size ?_ hdata hexec)
    rw [h.total]
    exact h.room
  | initializeIndicesChunk authority =>
    exact h.kept (Instruction.exec_kept (by simp) (by simp) hexec)
  | updateHeaderMetadata authority update =>
    exact h.kept (Instruction.exec_kept (by simp) (by simp) hexec)
  | dispense validTransaction unixTimestamp entropy mint numItems =>
    exact h.kept (Instruction.exec_kept (by simp) (by simp) hexec)

end LinesInv

/-- The invariant holds along every run in place. -/
theorem MachineRun.inv {machine : Machine Pubkey} {lines : List (List UInt8)}
    (h : MachineRun (fun machine (ins : Instruction Pubkey ε) => ins.InPlace machine) machine
      lines) : LinesInv machine lines := by
  induction h with
  | init hlen h =>
    obtain ⟨configSize, -, h⟩ := Outcome.bind_eq_ok.1 h
    obtain ⟨dataSize, -, h⟩ := Outcome.bind_eq_ok.1 h
    obtain ⟨⟨⟩, -, h⟩ := Outcome.bind_eq_ok.1 h
    obtain rfl := Outcome.ok.inj h
    exact ⟨hlen, rfl, by simp, by simp⟩
  | step _ hdata hP h ih => exact ih.exec hdata hP h

/-- An edit leaves everything else as it is. -/
theorem LinesInv.frame {machine machine' : Machine Pubkey} {lines : List (List UInt8)}
    (h : LinesInv machine lines) {ins : Instruction Pubkey ε} (hdata : ins.data.length < 2 ^ 63)
    (hplace : ins.InPlace machine) (hedits : ins.EditsLines)
    (hexec : ins.exec machine = .ok machine') :
    (∃ totalItemsAdded remaining, machine'.header = { machine.header with
        totalItemsAdded := totalItemsAdded, remaining := remaining }) ∧
      machine'.indicesData = machine.indicesData ∧ ∀ k, ¬ ins.Writes machine k →
        record machine.header.extensionLen.toNat machine'.configLinesData k =
          record machine.header.extensionLen.toNat machine.configLinesData k := by
  cases ins with
  | addConfigLines authority data =>
    rw [Instruction.data] at hdata
    obtain ⟨-, hwhole, -, ⟨hheader, hlines, -⟩, hindices⟩ := addConfigLines_ok hdata hexec
    refine ⟨⟨_, _, hheader⟩, hindices, fun k hk => ?_⟩
    rw [hlines, (h.overwrite_eq hplace).1]
    exact Records.record_overwrite_of_not_mem hwhole (by simp only [Instruction.Writes] at hk; omega)
  | updateConfigLines authority startingLine data =>
    rw [Instruction.data] at hdata
    have hroom := h.room
    rw [← h.total] at hroom
    obtain ⟨-, hwhole, -, ⟨hheader, hlines, -⟩, hindices⟩ :=
      updateConfigLines_ok h.size hroom hdata hexec
    refine ⟨⟨_, _, hheader⟩, hindices, fun k hk => ?_⟩
    rw [hlines]
    exact Records.record_overwrite_of_not_mem hwhole (by simp only [Instruction.Writes] at hk; omega)
  | initializeIndicesChunk => exact hedits.elim
  | updateHeaderMetadata => exact hedits.elim
  | dispense => exact hedits.elim

/-- In a run in place every added line holds the bytes that were last written to it, and no
edit changes anything but its lines and the two counts. -/
theorem config_lines_stored {machine : Machine Pubkey} {lines : List (List UInt8)}
    (hrun : MachineRun (fun machine (ins : Instruction Pubkey ε) => ins.InPlace machine) machine
      lines) :
    machine.header.totalItemsAdded.toNat = lines.length ∧
      (∀ k (hk : k < lines.length),
        record machine.header.extensionLen.toNat machine.configLinesData k = lines[k]) ∧
      ∀ (ins : Instruction Pubkey ε) (machine' : Machine Pubkey), ins.data.length < 2 ^ 63 →
        ins.InPlace machine → ins.EditsLines → ins.exec machine = .ok machine' →
          (∃ totalItemsAdded remaining, machine'.header = { machine.header with
              totalItemsAdded := totalItemsAdded, remaining := remaining }) ∧
            machine'.indicesData = machine.indicesData ∧ ∀ k, ¬ ins.Writes machine k →
              record machine.header.extensionLen.toNat machine'.configLinesData k =
                record machine.header.extensionLen.toNat machine.configLinesData k :=
  ⟨hrun.inv.total, hrun.inv.stored, fun _ _ hdata hplace hedits hexec =>
    hrun.inv.frame hdata hplace hedits hexec⟩

end Run

/-! ### Two batches -/

/-- A header for three lines of two bytes. -/
def threeLines : GumballMachineHeader ℕ where
  urlBase := Vector.replicate 64 0
  nameBase := Vector.replicate 32 0
  symbol := Vector.replicate 8 0
  sellerFeeBasisPoints := 0
  isMutable := 0
  retainAuthority := 0
  configLineEncodeMethod := 0
  creators := Vector.replicate 5 ⟨0, 0, 0⟩
  price := 0
  goLiveDate := 0
  mint := 0
  botWallet := 0
  receiver := 0
  authority := 1
  collectionKey := 0
  extensionLen := 2
  maxMintSize := 1
  remaining := 0
  maxItems := 3
  totalItemsAdded := 0
  smallestUninitializedIndex := 0

/-- A machine with its lines. -/
abbrev MachineState := Machine ℕ × List (List UInt8)

/-- Executes an instruction; one that fails is undone. -/
def MachineState.step [Build] (st : MachineState) (ins : Instruction ℕ Unit) : MachineState :=
  match ins.exec st.1 with
  | .ok machine => (machine, ins.linesAfter st.1.header.extensionLen.toNat st.2)
  | _ => st

theorem MachineRun.step_state [Build] {P : Machine ℕ → Instruction ℕ Unit → Prop}
    {st : MachineState} (h : MachineRun P st.1 st.2) (ins : Instruction ℕ Unit)
    (hdata : ins.data.length < 2 ^ 63) (hP : P st.1 ins) :
    MachineRun P (st.step ins).1 (st.step ins).2 := by
  rw [MachineState.step]
  rcases hexec : ins.exec st.1 with machine | _ | _
  · exact h.step hdata hP hexec
  · exact h
  · exact h

/-- The machine after its initialisation. -/
def emptyMachine : MachineState := (⟨threeLines, List.replicate 18 0⟩, [])

theorem machineRun_empty (P : Machine ℕ → Instruction ℕ Unit → Prop) :
    MachineRun P emptyMachine.1 emptyMachine.2 := by
  have hinit : Machine.initializeGumballMachine threeLines (List.replicate 18 0) =
      (.ok emptyMachine.1 : Outcome Unit (Machine ℕ)) := by decide
  exact .init (by simp) hinit

/-- Two lines in one batch, of which the second is updated. -/
theorem config_lines_stored_updated :
    let st := (emptyMachine.step (.addConfigLines 1 [1, 2, 3, 4])).step
      (.updateConfigLines 1 1 [7, 8])
    st.2 = [[1, 2], [7, 8]] ∧ record 2 st.1.configLinesData 1 = [7, 8] := by
  intro st
  have hrun : MachineRun (fun machine ins => ins.InPlace machine) st.1 st.2 :=
    ((machineRun_empty _).step_state _ (by decide) (.inr ⟨.inl rfl, by decide⟩)).step_state _
      (by decide) trivial
  exact ⟨by decide, (config_lines_stored hrun).2.1 1 (by decide)⟩

/-- Two lines in two batches: the second one is written over the end of the first. -/
theorem config_lines_shifted :
    let st := (emptyMachine.step (.addConfigLines 1 [1, 2])).step (.addConfigLines 1 [3, 4])
    MachineRun (fun _ (_ : Instruction ℕ Unit) => True) st.1 st.2 ∧ st.2 = [[1, 2], [3, 4]] ∧
      record 2 st.1.configLinesData 0 = [1, 3] ∧ record 2 st.1.configLinesData 1 = [4, 0] := by
  intro st
  refine ⟨((machineRun_empty _).step_state _ (by decide) trivial).step_state _ (by decide) trivial,
    by decide, by decide, by decide⟩

end Candyland.GumballMachine
