import Candyland.NftIngester.Replica
import Candyland.Lib.Select

/-!
# Stored tables

The rows of `cl_items` as a query sees them, a list in the order of storage, and the rows of
`asset`.
-/

namespace Candyland.DigitalAssetTypes

open NftIngester

variable {Node Pubkey : Type} {D : ℕ}

/-- A row of `cl_items`: its tree and `node_idx`, and the other columns. -/
abbrev ClRow (Node Pubkey : Type) := (Pubkey × ℤ) × ClItem Node

/-- The columns of `asset` that the handlers set or the queries read, apart from the primary
key `id`. -/
structure Asset (Node Pubkey : Type) where
  owner : Pubkey
  delegate : Option Pubkey
  frozen : Bool
  supply : ℤ
  supplyMint : Option Pubkey
  compressed : Bool
  compressible : Bool
  treeId : Option Pubkey
  leaf : Option Node
  nonce : ℤ
  burnt : Bool
deriving DecidableEq

/-- The stored rows of a tree are those of `clItems`.  The index of the table is unique. -/
structure Stores (rows : List (ClRow Node Pubkey)) (tree : Pubkey)
    (clItems : Pubkey × ℤ → Option (ClItem Node)) : Prop where
  nodup : (rows.map Prod.fst).Nodup
  mem_iff : ∀ x item, ((tree, x), item) ∈ rows ↔ clItems (tree, x) = some item

namespace Stores

variable {rows : List (ClRow Node Pubkey)} {tree : Pubkey}
  {clItems : Pubkey × ℤ → Option (ClItem Node)}

/-- Within a tree, the rows differ in `node_idx`. -/
theorem nodup_nodeIdx (h : Stores rows tree clItems) {p : ClRow Node Pubkey → Bool}
    (hp : ∀ row ∈ rows, p row = true → row.1.1 = tree) :
    ((rows.filter p).map fun row => row.1.2).Nodup := by
  have hnodup : ((rows.filter p).map Prod.fst).Nodup := h.nodup.sublist (List.filter_sublist.map _)
  refine (List.nodup_map_iff_inj_on (List.Nodup.of_map _ hnodup)).2 ?_
  intro row hrow row' hrow' heq
  refine List.inj_on_of_nodup_map hnodup hrow hrow' (Prod.ext ?_ heq)
  obtain ⟨hmem, hpass⟩ := List.mem_filter.1 hrow
  obtain ⟨hmem', hpass'⟩ := List.mem_filter.1 hrow'
  rw [hp row hmem hpass, hp row' hmem' hpass']

end Stores

end Candyland.DigitalAssetTypes
