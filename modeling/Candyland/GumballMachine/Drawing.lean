import Candyland.GumballMachine.LiveCalls

/-!
# Drawing without replacement

What a machine sells from the point on at which its indices are initialised, when nothing is
added any more.  Then `remaining` and what was handed out add up to what `remaining` was at that
point, and a live call always succeeds, so that exactly that many items are sold.
-/

namespace Candyland.GumballMachine

open Gummyroll (Build)
open Shuffle (Draws)
open Machine

variable {Pubkey ε : Type}

section Sales

variable [DecidableEq Pubkey] [Build] {P : Machine Pubkey → List ℕ → Instruction Pubkey ε → Prop}
  {base machine machine' : Machine Pubkey} {handed : List ℕ}

/-! ### Before the sales -/

/-- Nothing has been sold, so nothing was added after a sale. -/
theorem SaleRun.beforeSale (h : SaleRun P machine []) :
    SaleRun (fun machine handed (ins : Instruction Pubkey ε) => ins.BeforeSale machine handed)
      machine [] := by
  generalize hnone : ([] : List ℕ) = handed at h
  induction h with
  | init hlen h => exact .init hlen h
  | @step machine machine' handed ins _ hdata _ h ih =>
    obtain ⟨hdrawn, rfl⟩ := List.append_eq_nil_iff.1 hnone.symm
    refine (ih rfl).step hdata ?_ h
    cases ins with
    | initializeIndicesChunk authority => exact fun hne => absurd rfl hne
    | addConfigLines authority data => exact fun hne => absurd rfl hne
    | updateConfigLines authority startingLine data => exact trivial
    | updateHeaderMetadata authority update => exact trivial
    | dispense validTransaction unixTimestamp entropy mint numItems => exact trivial

/-- The indices are initialised and nothing has been sold. -/
structure Ready (ε : Type) (base : Machine Pubkey) : Prop where
  run : SaleRun (fun _ _ (ins : Instruction Pubkey ε) => ins.data.length < 2 ^ 32) base []
  initialized : base.header.smallestUninitializedIndex = base.header.maxItems

/-! ### The sales -/

/-- The instruction neither adds lines nor initialises indices. -/
def Instruction.LeavesPool : Instruction Pubkey ε → Prop
  | addConfigLines _ _ => False
  | initializeIndicesChunk _ => False
  | _ => True

/-- The machines that are reached from `base`, with what was handed out, the last one first. -/
inductive Sales (ε : Type) (base : Machine Pubkey) : Machine Pubkey → List ℕ → Prop
  | start : Sales ε base base []
  | step {machine machine' : Machine Pubkey} {handed : List ℕ} {ins : Instruction Pubkey ε}
      (h : Sales ε base machine handed) (hdata : ins.data.length < 2 ^ 32)
      (hleaves : ins.LeavesPool) (hexec : ins.exec machine = .ok machine') :
      Sales ε base machine' (ins.drawn machine ++ handed)

omit [DecidableEq Pubkey] [Build] in
theorem Instruction.LeavesPool.beforeSale {ins : Instruction Pubkey ε} (h : ins.LeavesPool) :
    ins.BeforeSale machine handed := by
  cases ins with
  | initializeIndicesChunk authority => exact h.elim
  | addConfigLines authority data => exact h.elim
  | updateConfigLines authority startingLine data => exact trivial
  | updateHeaderMetadata authority update => exact trivial
  | dispense validTransaction unixTimestamp entropy mint numItems => exact trivial

/-- The counts of the header that stay. -/
theorem Instruction.LeavesPool.header_eq {ins : Instruction Pubkey ε} (h : ins.LeavesPool)
    (hexec : ins.exec machine = .ok machine') :
    machine'.header.maxItems = machine.header.maxItems ∧
      machine'.header.smallestUninitializedIndex = machine.header.smallestUninitializedIndex ∧
      machine'.supply = machine.supply := by
  cases ins with
  | initializeIndicesChunk authority => exact h.elim
  | addConfigLines authority data => exact h.elim
  | updateConfigLines authority startingLine data =>
    have hheader := (updateConfigLines_frame hexec).1
    exact ⟨by rw [hheader], by rw [hheader], by rw [supply, supply, hheader]⟩
  | updateHeaderMetadata authority update =>
    obtain ⟨⟨⟩, -, hexec⟩ := Outcome.bind_eq_ok.1 hexec
    obtain rfl := Outcome.ok.inj hexec
    exact ⟨rfl, rfl, rfl⟩
  | dispense validTransaction unixTimestamp entropy mint numItems =>
    have hheader := (Instruction.exec_dispense hexec).header_eq
    exact ⟨by rw [hheader], by rw [hheader], by rw [supply, supply, hheader]⟩

namespace Sales

/-- The whole run. -/
theorem run (h : Sales ε base machine handed) (hready : Ready ε base) :
    SaleRun (fun machine handed (ins : Instruction Pubkey ε) => ins.BeforeSale machine handed)
      machine handed := by
  induction h with
  | start => exact hready.run.beforeSale
  | step _ hdata hleaves hexec ih =>
    exact ih.step (hdata.trans (by decide)) hleaves.beforeSale hexec

theorem sizes (h : Sales ε base machine handed) (hready : Ready ε base) : SizeInv ε machine := by
  induction h with
  | start => exact hready.run.sizes fun _ _ _ hdata => hdata
  | step _ hdata _ hexec ih => exact ih.exec hdata hexec

theorem header_eq (h : Sales ε base machine handed) :
    machine.header.maxItems = base.header.maxItems ∧
      machine.header.smallestUninitializedIndex = base.header.smallestUninitializedIndex ∧
      machine.supply = base.supply := by
  induction h with
  | start => exact ⟨rfl, rfl, rfl⟩
  | step _ _ hleaves hexec ih =>
    obtain ⟨hmax, hfirst, hsupply⟩ := hleaves.header_eq hexec
    exact ⟨hmax.trans ih.1, hfirst.trans ih.2.1, hsupply.trans ih.2.2⟩

theorem initialized (h : Sales ε base machine handed) (hready : Ready ε base) :
    machine.header.smallestUninitializedIndex = machine.header.maxItems := by
  rw [h.header_eq.2.1, h.header_eq.1]
  exact hready.initialized

/-- What is handed out is below the supply. -/
theorem lt_supply (h : Sales ε base machine handed) (hready : Ready ε base) :
    ∀ i ∈ handed, i < base.supply := by
  induction h with
  | start => exact fun i hi => absurd hi List.not_mem_nil
  | @step machine machine' handed ins hsales _ hleaves hexec ih =>
    intro i hi
    rcases List.mem_append.1 hi with hdrawn | hhanded
    · cases ins with
      | dispense validTransaction unixTimestamp entropy mint numItems =>
        rw [← hsales.header_eq.2.2]
        exact (hsales.run hready).inv.lt_supply (Instruction.exec_dispense hexec) hdrawn
      | initializeIndicesChunk authority => exact hleaves.elim
      | addConfigLines authority data => exact hleaves.elim
      | updateConfigLines authority startingLine data => simp [Instruction.drawn] at hdrawn
      | updateHeaderMetadata authority update => simp [Instruction.drawn] at hdrawn
    · exact ih i hhanded

end Sales

/-- At the beginning everything is for sale. -/
theorem Ready.supply_eq (h : Ready ε base) : base.header.remaining.toNat = base.supply := by
  have hcount := ((Sales.start (ε := ε)).run h).aligned (fun _ _ _ h => h) |>.count h.initialized
  simpa using hcount

/-! ### Without replacement -/

/-- What was handed out since the machine was `base`, the last one first. -/
structure WithoutReplacement (base machine : Machine Pubkey) (handed : List ℕ) : Prop where
  distinct : handed.Nodup
  below : ∀ i ∈ handed, i < base.header.remaining.toNat
  perm : machine.order.Perm (List.range base.header.maxItems.toNat)
  /-- The places from `remaining` to what it was hold the handed out indices. -/
  behind : (machine.order.drop machine.header.remaining.toNat).take
    (base.header.remaining.toNat - machine.header.remaining.toNat) = handed
  count : machine.header.remaining.toNat + handed.length = base.header.remaining.toNat

theorem Sales.withoutReplacement (h : Sales ε base machine handed) (hready : Ready ε base) :
    WithoutReplacement base machine handed := by
  have hrun := h.run hready
  have hinit := h.initialized hready
  have halign := hrun.aligned fun _ _ _ hcond => hcond
  have hcount := halign.count hinit
  rw [h.header_eq.2.2, ← hready.supply_eq] at hcount
  refine ⟨hrun.nodup fun _ _ _ hcond => hcond, ?_, ?_, ?_, hcount⟩
  · rw [hready.supply_eq]
    exact h.lt_supply hready
  · rw [← h.header_eq.1]
    exact hrun.inv.perm hinit
  · rw [halign.drop_eq hinit]
    exact List.take_left' (by omega)

/-- What the calls on a machine do. -/
structure SellsWhatIsLeft (ε : Type) (machine : Machine Pubkey) : Prop where
  minted {validTransaction : Bool} {unixTimestamp : Int64} {entropy : UInt32 → UInt32}
    {mint : GumballMachineHeader Pubkey → ℕ → List UInt8 → Outcome ε Unit}
    {numItems minted : UInt32} {machine' : Machine Pubkey}
    (h : machine.findAndMintCompressedNfts validTransaction unixTimestamp entropy mint numItems =
      .ok (machine', minted)) :
    minted.toNat = min (max numItems.toNat 1) machine.header.remaining.toNat ∧
      ((Instruction.dispense validTransaction unixTimestamp entropy mint numItems).drawn
        machine).length = minted.toNat
  empty (hempty : machine.header.remaining = 0) (validTransaction : Bool) (unixTimestamp : Int64)
    (entropy : UInt32 → UInt32)
    (mint : GumballMachineHeader Pubkey → ℕ → List UInt8 → Outcome ε Unit) (numItems : UInt32)
    (r : Machine Pubkey × UInt32) :
    machine.findAndMintCompressedNfts validTransaction unixTimestamp entropy mint numItems ≠ .ok r
  /-- No draw aborts. -/
  total {unixTimestamp : Int64} {numItems : UInt32} (hlive : Live machine unixTimestamp numItems)
    (entropy : UInt32 → UInt32)
    {mint : GumballMachineHeader Pubkey → ℕ → List UInt8 → Outcome ε Unit}
    (hmint : ∀ header nftIndex configLine, mint header nftIndex configLine ≠ .panic) :
    machine.findAndMintCompressedNfts true unixTimestamp entropy mint numItems ≠ .panic
  succeeds {unixTimestamp : Int64} {numItems : UInt32}
    (hlive : Live machine unixTimestamp numItems) (entropy : UInt32 → UInt32)
    {mint : GumballMachineHeader Pubkey → ℕ → List UInt8 → Outcome ε Unit}
    (hmint : ∀ header nftIndex configLine, mint header nftIndex configLine = .ok ()) :
    ∃ r, machine.findAndMintCompressedNfts true unixTimestamp entropy mint numItems = .ok r

theorem Sales.sellsWhatIsLeft (h : Sales ε base machine handed) (hready : Ready ε base) :
    SellsWhatIsLeft ε machine := by
  have hstops := fun {unixTimestamp numItems} (hlive : Live machine unixTimestamp numItems)
    (entropy : UInt32 → UInt32)
    (mint : GumballMachineHeader Pubkey → ℕ → List UInt8 → Outcome ε Unit) =>
      (findAndMintCompressedNfts_stops (h.run hready).inv (h.sizes hready) hlive :
        StopsAtMint mint
          (machine.findAndMintCompressedNfts true unixTimestamp entropy mint numItems))
  constructor
  case minted =>
    intro validTransaction unixTimestamp entropy mint numItems minted machine' hcall
    obtain ⟨-, rfl, hlength⟩ := findAndMintCompressedNfts_live hcall
    exact ⟨toNat_min_max _ _, hlength⟩
  case empty =>
    intro hempty validTransaction unixTimestamp entropy mint numItems ⟨machine', minted⟩ hcall
    exact (findAndMintCompressedNfts_live hcall).1.left hempty
  case total =>
    intro unixTimestamp numItems hlive entropy mint hmint hpanic
    rcases hstops hlive entropy mint with ⟨r, hr⟩ | ⟨header, nftIndex, configLine, -, hstop⟩
    · rw [hr] at hpanic
      exact absurd hpanic nofun
    · exact hmint _ _ _ (hstop hpanic)
  case succeeds =>
    intro unixTimestamp numItems hlive entropy mint hmint
    rcases hstops hlive entropy mint with hr | ⟨header, nftIndex, configLine, hne, -⟩
    · exact hr
    · exact absurd (hmint _ _ _) hne

/-- The authority lets the sale begin. -/
theorem exec_goLive (machine : Machine Pubkey) :
    ∃ (ins : Instruction Pubkey ε) (machine' : Machine Pubkey), ins.data.length < 2 ^ 32 ∧
      ins.LeavesPool ∧ ins.drawn machine = [] ∧ ins.exec machine = .ok machine' ∧
      machine'.header.goLiveDate = 0 ∧ machine'.header.remaining = machine.header.remaining := by
  let update : HeaderUpdate Pubkey :=
    ⟨none, none, none, none, none, none, none, none, some 0, none, none, none⟩
  refine ⟨.updateHeaderMetadata machine.header.authority update,
    { machine with header := { machine.header with goLiveDate := 0 } }, Nat.two_pow_pos 32, trivial,
    rfl, ?_, rfl, rfl⟩
  rw [Instruction.exec, updateHeaderMetadata, Outcome.assert_of rfl, Outcome.ok_bind]
  rfl

/-- As long as something is left, one more item can be sold. -/
theorem Sales.one_more (h : Sales ε base machine handed) (hready : Ready ε base)
    (hleft : machine.header.remaining ≠ 0) :
    ∃ machine' k, Sales ε base machine' (k :: handed) := by
  obtain ⟨update, machine₁, hdata, hleaves, hdrawn, hexec, hlive, hremaining⟩ :=
    exec_goLive (ε := ε) machine
  have h₁ := h.step hdata hleaves hexec
  rw [hdrawn, List.nil_append] at h₁
  rw [← hremaining] at hleft
  have hlive₁ : Live machine₁ 1 0 :=
    ⟨(h₁.initialized hready).symm, UInt32.zero_le, by rw [hlive]; decide, hleft⟩
  obtain ⟨⟨machine₂, minted⟩, hcall⟩ : ∃ r,
      machine₁.findAndMintCompressedNfts true 1 (fun _ => 0)
        (fun _ _ _ => (.ok () : Outcome ε Unit)) 0 = .ok r :=
    (h₁.sellsWhatIsLeft hready).succeeds hlive₁ _ fun _ _ _ => rfl
  obtain ⟨hminted, hlength⟩ := (h₁.sellsWhatIsLeft hready).minted hcall
  have hpos := toNat_pos hleft
  have hone : minted.toNat = 1 := by
    rw [hminted, UInt32.toNat_zero]
    omega
  rw [hone] at hlength
  obtain ⟨k, hk⟩ := List.length_eq_one_iff.1 hlength
  refine ⟨machine₂, k, ?_⟩
  rw [← List.singleton_append, ← hk]
  refine h₁.step (Nat.two_pow_pos 32) trivial ?_
  rw [Instruction.exec, hcall]
  rfl

/-- Whatever was sold, everything can be. -/
theorem Sales.sold_out (h : Sales ε base machine handed) (hready : Ready ε base) :
    ∃ machine' drawn, Sales ε base machine' (drawn ++ handed) ∧
      (drawn ++ handed).length = base.header.remaining.toNat := by
  have hcount := (h.withoutReplacement hready).count
  generalize hn : machine.header.remaining.toNat = n at hcount
  induction n generalizing machine handed with
  | zero => exact ⟨machine, [], h, by simpa using hcount⟩
  | succ n ih =>
    have hleft : machine.header.remaining ≠ 0 := by
      intro hzero
      rw [hzero, UInt32.toNat_zero] at hn
      omega
    obtain ⟨machine', k, h'⟩ := h.one_more hready hleft
    have hcount' := (h'.withoutReplacement hready).count
    rw [List.length_cons] at hcount'
    obtain ⟨machine'', drawn, hsales, hlength⟩ := ih h' (by omega) (by rw [List.length_cons]; omega)
    refine ⟨machine'', drawn ++ [k], ?_, ?_⟩
    · rwa [List.append_assoc, List.singleton_append]
    · rwa [List.append_assoc, List.singleton_append]

/-- From a machine that is ready every sequence of instructions that adds nothing draws without
replacement, down to the last of the items that were left. -/
theorem draws_without_replacement (hready : Ready ε base) (h : Sales ε base machine handed) :
    WithoutReplacement base machine handed ∧ SellsWhatIsLeft ε machine ∧
      ∃ machine' drawn, Sales ε base machine' (drawn ++ handed) ∧
        (drawn ++ handed).length = base.header.remaining.toNat :=
  ⟨h.withoutReplacement hready, h.sellsWhatIsLeft hready, h.sold_out hready⟩

end Sales

/-! ### Two items -/

theorem Sales.step_state [Build] {base : Machine ℕ} {st : SaleState}
    (h : Sales Unit base st.1 st.2) (ins : Instruction ℕ Unit) (hdata : ins.data.length < 2 ^ 32)
    (hleaves : ins.LeavesPool) : Sales Unit base (st.step ins).1 (st.step ins).2 := by
  rw [SaleState.step]
  rcases hexec : ins.exec st.1 with machine | _ | _
  · exact h.step hdata hleaves hexec
  · exact h
  · exact h

/-- Two items without lines, of which one is sold. -/
theorem draws_without_replacement_two :
    let base := (twoItems 0).step (.initializeIndicesChunk 1)
    let st := base.step dispenseOne
    base.1.header.remaining = 2 ∧ st.2 = [0] ∧ WithoutReplacement base.1 st.1 st.2 := by
  intro base st
  have hready : Ready Unit base.1 :=
    ⟨(saleRun_twoItems _ (.inl rfl)).step_state _ (by decide) (by decide), by decide⟩
  have hsales : Sales Unit base.1 st.1 st.2 :=
    Sales.start.step_state dispenseOne (by decide) trivial
  exact ⟨by decide, by decide, (draws_without_replacement hready hsales).1⟩

end Candyland.GumballMachine
