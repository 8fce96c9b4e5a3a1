import Candyland.GumballMachine.ConfigLines
import Candyland.GumballMachine.Metadata

/-!
# Machines without config lines

With an `extension_len` of zero a machine stores no config lines, and the bytes of the 1-index
serve as the line.  In base 58 they are always a text.  As UTF-8 they are one up to index 127; the
byte 128, with which the next index begins, is none.
-/

namespace Candyland.GumballMachine

open Gummyroll (Build)
open Bubblegum (MetadataArgs)
open Machine

variable {Pubkey ε : Type} [DecidableEq Pubkey] [ZeroKey Pubkey]

/-! ### The metadata of an item -/

section Fetch

variable [Build]

/-- `fisher_yates_shuffle_and_fetch_nft_metadata(..)`: the header and the indices that it leaves,
and the metadata. -/
def fisherYatesShuffleAndFetchNftMetadata (entropy : UInt32 → UInt32)
    (header : GumballMachineHeader Pubkey) (indices : List UInt32) (lineSize : ℕ)
    (configLinesData : List UInt8) :
    Outcome ε (GumballMachineHeader Pubkey × List UInt32 × MetadataArgs Pubkey) := do
  let (header, indices, nftIndex, configLine) ←
    fisherYatesShuffle entropy header indices lineSize configLinesData
  let message ← metadataOf header nftIndex configLine
  .ok (header, indices, message)

omit [DecidableEq Pubkey] [ZeroKey Pubkey] [Build] in
/-- `config_line` for index `i`. -/
def Machine.configLine (machine : Machine Pubkey) (i : ℕ) : List UInt8 :=
  let lineSize := machine.header.extensionLen.toNat
  if machine.configLinesData.length > 0 then
    (machine.configLinesData.drop (i * lineSize)).take lineSize
  else Bytes.le 8 (i + 1)

/-- The metadata of the item at index `i`. -/
def Machine.itemMetadata (machine : Machine Pubkey) (i : ℕ) : Outcome ε (MetadataArgs Pubkey) :=
  metadataOf machine.header (i + 1) (machine.configLine i)

omit [DecidableEq Pubkey] [ZeroKey Pubkey] [Build] in
/-- With lines of no bytes the 1-index is the line. -/
theorem Machine.configLine_eq {machine : Machine Pubkey} (hext : machine.header.extensionLen = 0)
    (hsize : machine.configData.length = 4 * machine.header.maxItems.toNat +
      machine.header.extensionLen.toNat * machine.header.maxItems.toNat) :
    machine.configLinesData = [] ∧ ∀ i, machine.configLine i = Bytes.le 8 (i + 1) := by
  have hempty : machine.configLinesData = [] := by
    rw [hext, UInt64.toNat_zero, Nat.zero_mul] at hsize
    exact List.drop_eq_nil_of_le hsize.le
  exact ⟨hempty, fun i => by rw [configLine, if_neg (by simp [hempty])]⟩

/-- A draw from a machine without config lines takes one of the indices and builds the metadata of
its item. -/
theorem fetch_eq_itemMetadata {machine : Machine Pubkey} (hempty : machine.configLinesData = [])
    {entropy : UInt32 → UInt32} {indices indices' : List UInt32} {lineSize nftIndex : ℕ}
    {header' : GumballMachineHeader Pubkey} {configLine : List UInt8}
    (h : fisherYatesShuffle entropy machine.header indices lineSize machine.configLinesData =
      (.ok (header', indices', nftIndex, configLine) : Outcome ε _)) :
    ∃ a ∈ indices, nftIndex = a.toNat + 1 ∧
      fisherYatesShuffleAndFetchNftMetadata entropy machine.header indices lineSize
          machine.configLinesData =
        (machine.itemMetadata a.toNat >>= fun message => .ok (header', indices', message) :
          Outcome ε _) := by
  obtain ⟨hheader, -, i, a, b, -, ha, -, -, hindex⟩ := fisherYatesShuffle_ok h
  have hline : configLine = Bytes.le 8 nftIndex := by
    rw [fisherYatesShuffle] at h
    obtain ⟨⟨⟩, -, h⟩ := Outcome.bind_eq_ok.1 h
    obtain ⟨remaining, -, h⟩ := Outcome.bind_eq_ok.1 h
    split at h
    · obtain ⟨nft, -, h⟩ := Outcome.bind_eq_ok.1 h
      obtain ⟨start, -, h⟩ := Outcome.bind_eq_ok.1 h
      rw [if_neg (by simp [hempty])] at h
      obtain ⟨-, -, rfl, rfl⟩ := by simpa using Outcome.ok.inj h
      rfl
    · cases h
  refine ⟨a, List.mem_of_getElem? ha, hindex, ?_⟩
  rw [fisherYatesShuffleAndFetchNftMetadata, h, Outcome.ok_bind, hline, hindex, itemMetadata,
    Machine.configLine, if_neg (by simp [hempty]), hheader]
  rfl

end Fetch

/-! ### Its text -/

/-- The bytes of a number are a text if they are all below 128. -/
theorem configText_utf8_of_le {n : ℕ} (h : n ≤ 127) :
    ∃ s, configText .UTF8 (Bytes.le 8 n) = (.ok s : Outcome ε String) := by
  have hvalid : (⟨(Bytes.le 8 n).toArray⟩ : ByteArray).IsValidUTF8 :=
    Bytes.isValidUTF8_of_lt fun b hb => (Bytes.toNat_le_of_mem_le b hb).trans_lt (by omega)
  rw [configText, fromUtf8, String.fromUTF8?, dif_pos hvalid]
  exact ⟨_, rfl⟩

/-- Those of 128 are not. -/
theorem configText_utf8_panic :
    configText .UTF8 (Bytes.le 8 128) = (.panic : Outcome ε String) := by
  have hinvalid : ¬ (⟨(Bytes.le 8 128).toArray⟩ : ByteArray).IsValidUTF8 :=
    Bytes.not_isValidUTF8_cons (by decide) _
  rw [configText, fromUtf8, String.fromUTF8?, dif_neg hinvalid]

/-- The text determines the bytes. -/
theorem configText_inj {encodeMethod : EncodeMethod} {line line' : List UInt8} {s : String}
    (h : configText encodeMethod line = (.ok s : Outcome ε String))
    (h' : configText encodeMethod line' = (.ok s : Outcome ε String)) : line = line' := by
  cases encodeMethod with
  | Base58Encode =>
    have hs := Outcome.ok.inj (h.trans h'.symm)
    have hencode := congrArg (fun s => Base58.decode s.toList) hs
    simpa using hencode
  | UTF8 =>
    have hbytes : ∀ {l : List UInt8}, fromUtf8 l = (.ok s : Outcome ε String) →
        s.toByteArray = ⟨l.toArray⟩ := by
      intro l hl
      rw [fromUtf8, String.fromUTF8?] at hl
      split_ifs at hl with hvalid
      rw [← Outcome.ok.inj hl]
      rfl
    have heq := (hbytes h).symm.trans (hbytes h')
    simpa using heq

/-! ### All items -/

/-- The texts of the header are UTF-8. -/
structure GumballMachineHeader.ValidTexts (header : GumballMachineHeader Pubkey) : Prop where
  urlBase : (⟨header.urlBase.toList.toArray⟩ : ByteArray).IsValidUTF8
  nameBase : (⟨header.nameBase.toList.toArray⟩ : ByteArray).IsValidUTF8
  symbol : (⟨header.symbol.toList.toArray⟩ : ByteArray).IsValidUTF8

theorem fromUtf8_of_valid {bytes : List UInt8}
    (h : (⟨bytes.toArray⟩ : ByteArray).IsValidUTF8) :
    ∃ s, fromUtf8 bytes = (.ok s : Outcome ε String) := by
  rw [fromUtf8, String.fromUTF8?, dif_pos h]
  exact ⟨_, rfl⟩

/-- What the metadata has of the index and the line. -/
theorem metadataOf_ok {header : GumballMachineHeader Pubkey} {nftIndex : ℕ}
    {configLine : List UInt8} {message : MetadataArgs Pubkey}
    (h : metadataOf header nftIndex configLine = (.ok message : Outcome ε _)) :
    ∃ encodeMethod nameBase uriBase config,
      EncodeMethod.ofU8 header.configLineEncodeMethod = (.ok encodeMethod : Outcome ε _) ∧
      fromUtf8 header.nameBase.toList = (.ok nameBase : Outcome ε _) ∧
      fromUtf8 header.urlBase.toList = (.ok uriBase : Outcome ε _) ∧
      configText encodeMethod configLine = (.ok config : Outcome ε _) ∧
      message.name = trimMatches (Char.ofNat 0) nameBase ++ " #" ++ toString nftIndex ∧
      message.uri = trimMatches (Char.ofNat 0) uriBase ++ "/" ++ config := by
  obtain ⟨encodeMethod, hmethod, h⟩ := Outcome.bind_eq_ok.1 h
  obtain ⟨nameBase, hname, h⟩ := Outcome.bind_eq_ok.1 h
  obtain ⟨symbol, -, h⟩ := Outcome.bind_eq_ok.1 h
  obtain ⟨uriBase, huri, h⟩ := Outcome.bind_eq_ok.1 h
  obtain ⟨config, hconfig, h⟩ := Outcome.bind_eq_ok.1 h
  obtain rfl := Outcome.ok.inj h
  exact ⟨encodeMethod, nameBase, uriBase, config, hmethod, hname, huri, hconfig, rfl, rfl⟩

/-- With valid texts only the line can stop it. -/
theorem metadataOf_eq {header : GumballMachineHeader Pubkey} (htexts : header.ValidTexts)
    {encodeMethod : EncodeMethod}
    (hmethod : EncodeMethod.ofU8 header.configLineEncodeMethod = (.ok encodeMethod : Outcome ε _))
    (nftIndex : ℕ) (configLine : List UInt8) : ∃ message : String → MetadataArgs Pubkey,
      metadataOf header nftIndex configLine =
        (configText encodeMethod configLine >>= fun config => .ok (message config) :
          Outcome ε _) := by
  obtain ⟨nameBase, hname⟩ := fromUtf8_of_valid (ε := ε) htexts.nameBase
  obtain ⟨symbol, hsymbol⟩ := fromUtf8_of_valid (ε := ε) htexts.symbol
  obtain ⟨uriBase, huri⟩ := fromUtf8_of_valid (ε := ε) htexts.urlBase
  rw [metadataOf, hmethod, Outcome.ok_bind, getMetadataArgs, hname, Outcome.ok_bind, hsymbol,
    Outcome.ok_bind, huri, Outcome.ok_bind]
  exact ⟨_, rfl⟩

/-- In UTF-8 the item at index 127 has no metadata. -/
theorem Machine.itemMetadata_panic {machine : Machine Pubkey}
    (hline : ∀ i, machine.configLine i = Bytes.le 8 (i + 1)) (htexts : machine.header.ValidTexts)
    (hutf8 : machine.header.configLineEncodeMethod = 0) :
    machine.itemMetadata 127 = (.panic : Outcome ε _) := by
  have hmethod : EncodeMethod.ofU8 machine.header.configLineEncodeMethod =
      (.ok .UTF8 : Outcome ε _) := by
    rw [hutf8]
    rfl
  obtain ⟨build, hbuild⟩ := metadataOf_eq htexts hmethod 128 (Bytes.le 8 128)
  rw [itemMetadata, hline, hbuild, configText_utf8_panic, Outcome.panic_bind]

/-- The metadata of every index can be built, and different indices have different names and
uris. -/
structure Machine.ItemsMintable (ε : Type) (machine : Machine Pubkey) : Prop where
  builds : ∀ i < machine.header.maxItems.toNat,
    ∃ message, machine.itemMetadata i = (.ok message : Outcome ε _)
  distinct : ∀ i < machine.header.maxItems.toNat, ∀ j < machine.header.maxItems.toNat, i ≠ j →
    ∀ message message', machine.itemMetadata i = (.ok message : Outcome ε _) →
      machine.itemMetadata j = (.ok message' : Outcome ε _) →
        message.name ≠ message'.name ∧ message.uri ≠ message'.uri

/-- Metadata of different indices has different names and uris as soon as it exists. -/
theorem Machine.itemMetadata_inj {machine : Machine Pubkey}
    (hline : ∀ i, machine.configLine i = Bytes.le 8 (i + 1)) {i j : ℕ} (hij : i ≠ j)
    (hi : i < machine.header.maxItems.toNat) (hj : j < machine.header.maxItems.toNat)
    {message message' : MetadataArgs Pubkey}
    (h : machine.itemMetadata i = (.ok message : Outcome ε _))
    (h' : machine.itemMetadata j = (.ok message' : Outcome ε _)) :
    message.name ≠ message'.name ∧ message.uri ≠ message'.uri := by
  have hmax := machine.header.maxItems.toNat_lt
  obtain ⟨encodeMethod, nameBase, uriBase, config, hmethod, hname, huri, hconfig, hn, hu⟩ :=
    metadataOf_ok h
  obtain ⟨encodeMethod', nameBase', uriBase', config', hmethod', hname', huri', hconfig', hn', hu'⟩ :=
    metadataOf_ok h'
  obtain rfl := Outcome.ok.inj (hmethod.symm.trans hmethod')
  obtain rfl := Outcome.ok.inj (hname.symm.trans hname')
  obtain rfl := Outcome.ok.inj (huri.symm.trans huri')
  rw [hline] at hconfig hconfig'
  constructor
  · rw [hn, hn', ne_eq, String.append_right_inj]
    intro heq
    exact hij (Nat.succ_injective (Nat.repr_injective heq))
  · rw [hu, hu', ne_eq, String.append_right_inj]
    rintro rfl
    have hbytes := Bytes.le_inj (by omega) (by omega) (configText_inj hconfig hconfig')
    exact hij (Nat.succ_injective hbytes)

/-- All items of a machine without config lines can be minted if and only if it encodes in base 58
or has at most 127 items. -/
theorem itemsMintable_iff {machine : Machine Pubkey} (hext : machine.header.extensionLen = 0)
    (hsize : machine.configData.length = 4 * machine.header.maxItems.toNat +
      machine.header.extensionLen.toNat * machine.header.maxItems.toNat)
    (htexts : machine.header.ValidTexts)
    (hmethod : machine.header.configLineEncodeMethod = 0 ∨
      machine.header.configLineEncodeMethod = 1) :
    machine.ItemsMintable ε ↔
      machine.header.configLineEncodeMethod = 1 ∨ machine.header.maxItems.toNat ≤ 127 := by
  obtain ⟨-, hline⟩ := configLine_eq hext hsize
  constructor
  · intro h
    by_contra hcond
    rw [not_or, not_le] at hcond
    obtain ⟨hne, hmax⟩ := hcond
    obtain ⟨message, hmessage⟩ := h.builds 127 hmax
    rw [itemMetadata_panic hline htexts (hmethod.resolve_right hne)] at hmessage
    exact absurd hmessage nofun
  · intro hcond
    refine ⟨fun i hi => ?_, fun i hi j hj hij message message' => itemMetadata_inj hline hij hi hj⟩
    obtain ⟨encodeMethod, hencode, config, hconfig⟩ : ∃ encodeMethod,
        EncodeMethod.ofU8 machine.header.configLineEncodeMethod =
          (.ok encodeMethod : Outcome ε _) ∧
        ∃ config, configText encodeMethod (Bytes.le 8 (i + 1)) = (.ok config : Outcome ε _) := by
      rcases hmethod with hzero | hone
      · have hmax := hcond.resolve_left (by rw [hzero]; decide)
        exact ⟨.UTF8, by rw [hzero]; rfl, configText_utf8_of_le (by omega)⟩
      · exact ⟨.Base58Encode, by rw [hone]; rfl, _, rfl⟩
    obtain ⟨build, hbuild⟩ := metadataOf_eq htexts hencode (i + 1) (Bytes.le 8 (i + 1))
    rw [itemMetadata, hline, hbuild, hconfig]
    exact ⟨_, rfl⟩

section Unlisted

instance : ZeroKey ℕ := ⟨0⟩

/-- A machine without config lines. -/
def unlisted (maxItems : UInt32) (configLineEncodeMethod : UInt8) : Machine ℕ where
  header := { threeLines with
    extensionLen := 0
    maxItems := maxItems
    configLineEncodeMethod := configLineEncodeMethod }
  configData := List.replicate (4 * maxItems.toNat) 0

theorem unlisted_size (maxItems : UInt32) (method : UInt8) :
    (unlisted maxItems method).configData.length =
      4 * (unlisted maxItems method).header.maxItems.toNat +
        (unlisted maxItems method).header.extensionLen.toNat *
          (unlisted maxItems method).header.maxItems.toNat := by
  simp [unlisted]

theorem unlisted_validTexts (maxItems : UInt32) (method : UInt8) :
    (unlisted maxItems method).header.ValidTexts := by
  have hzeros : ∀ n, ∀ b ∈ (Vector.replicate n (0 : UInt8)).toList, b.toNat < 128 := by
    intro n b hb
    rw [Vector.toList_replicate] at hb
    rw [List.eq_of_mem_replicate hb]
    decide
  exact ⟨Bytes.isValidUTF8_of_lt (hzeros 64), Bytes.isValidUTF8_of_lt (hzeros 32),
    Bytes.isValidUTF8_of_lt (hzeros 8)⟩

/-- Ten thousand items in base 58. -/
theorem itemsMintable_base58 : (unlisted 10000 1).ItemsMintable Unit :=
  (itemsMintable_iff rfl (unlisted_size _ _) (unlisted_validTexts _ _) (.inr rfl)).2 (.inl rfl)

/-- The last of 128 items as UTF-8. -/
theorem utf8_item_panics :
    (unlisted 128 0).header.extensionLen = 0 ∧ (unlisted 128 0).header.ValidTexts ∧
      (127 : ℕ) < (unlisted 128 0).header.maxItems.toNat ∧
      (unlisted 128 0).itemMetadata 127 = (.panic : Outcome Unit _) ∧
      ¬ (unlisted 128 0).ItemsMintable Unit := by
  have hline := (configLine_eq rfl (unlisted_size 128 0)).2
  have hpanic : (unlisted 128 0).itemMetadata 127 = (.panic : Outcome Unit _) :=
    itemMetadata_panic hline (unlisted_validTexts 128 0) rfl
  refine ⟨rfl, unlisted_validTexts 128 0, by decide, hpanic, fun h => ?_⟩
  obtain ⟨message, hmessage⟩ := h.builds 127 (by decide)
  rw [hpanic] at hmessage
  exact absurd hmessage nofun

end Unlisted

end Candyland.GumballMachine
