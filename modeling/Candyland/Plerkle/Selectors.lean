import Candyland.NftIngester.Logs

/-!
# What the plugin forwards

The selectors of the plugin of a validator, which its configuration makes, and the record of a
transaction that it sends to the ingester.
-/

namespace Candyland.Plerkle

open NftIngester (Line Key TransactionInfo CompiledInstruction InnerInstructions)

/-- `bs58::decode(key).into_vec().unwrap()`. -/
def decodeKey (key : Line) : Outcome Unit (List UInt8) :=
  match Base58.decode key with
  | some bytes => .ok bytes
  | none => .panic

/-! ### The selectors -/

/-- `TransactionSelector`. -/
structure TransactionSelector where
  mentionedAddresses : List (List UInt8)
  selectAllTransactions : Bool
  selectAllVoteTransactions : Bool
deriving DecidableEq

/-- `TransactionSelector::default()`. -/
def TransactionSelector.default : TransactionSelector := ⟨[], false, false⟩

/-- `"*"`. -/
def starText : Line := ['*']

/-- `"all"`. -/
def allText : Line := ['a', 'l', 'l']

/-- `"all_votes"`. -/
def allVotesText : Line := ['a', 'l', 'l', '_', 'v', 'o', 't', 'e', 's']

/-- `TransactionSelector::new(mentioned_addresses)`. -/
def TransactionSelector.new (mentionedAddresses : List Line) : Outcome Unit TransactionSelector :=
  let selectAllTransactions := mentionedAddresses.any fun key => key = starText || key = allText
  if selectAllTransactions then .ok ⟨[], selectAllTransactions, true⟩
  else
    let selectAllVoteTransactions := mentionedAddresses.any fun key => key = allVotesText
    if selectAllVoteTransactions then .ok ⟨[], selectAllTransactions, true⟩
    else do
      let mentionedAddresses ← mentionedAddresses.mapM decodeKey
      .ok ⟨mentionedAddresses, false, false⟩

/-- `create_transaction_selector_from_config(config)`, for the list `mentions` of the section of
the selector if there is such a section, and such a list in it. -/
def createTransactionSelectorFromConfig (transactionSelector : Option (Option (List Line))) :
    Outcome Unit TransactionSelector :=
  match transactionSelector with
  | none => .ok TransactionSelector.default
  | some mentions => TransactionSelector.new (mentions.getD [])

/-- `self.is_enabled()`. -/
def TransactionSelector.isEnabled (self : TransactionSelector) : Bool :=
  self.selectAllTransactions || self.selectAllVoteTransactions || !self.mentionedAddresses.isEmpty

/-- `self.is_transaction_selected(is_vote, mentioned_addresses)`. -/
def TransactionSelector.isTransactionSelected (self : TransactionSelector) (isVote : Bool)
    (mentionedAddresses : List Key) : Bool :=
  if !self.isEnabled then false
  else if self.selectAllTransactions || (self.selectAllVoteTransactions && isVote) then true
  else mentionedAddresses.any fun address => self.mentionedAddresses.contains address.toList

/-- `AccountsSelector`. -/
structure AccountsSelector where
  accounts : List (List UInt8)
  owners : List (List UInt8)
  selectAllAccounts : Bool

/-- `AccountsSelector::new(accounts, owners)`. -/
def AccountsSelector.new (accounts owners : List Line) : Outcome Unit AccountsSelector :=
  let selectAllAccounts := accounts.any fun key => key = starText
  if selectAllAccounts then .ok ⟨[], [], selectAllAccounts⟩
  else do
    let accounts ← accounts.mapM decodeKey
    let owners ← owners.mapM decodeKey
    .ok ⟨accounts, owners, selectAllAccounts⟩

/-- `self.is_account_selected(account, owner)`. -/
def AccountsSelector.isAccountSelected (self : AccountsSelector) (account owner : List UInt8) :
    Bool :=
  self.selectAllAccounts || self.accounts.contains account || self.owners.contains owner

/-! ### Transactions -/

/-- `ReplicaTransactionInfo`, with the parts of its message and of its status that are used. -/
structure ReplicaTransactionInfo where
  isVote : Bool
  statusIsErr : Bool
  accountKeys : List Key
  instructions : List CompiledInstruction
  innerInstructions : Option (List InnerInstructions)
  logMessages : Option (List Line)

/-- `serialize_transaction(transaction_info, slot)`, before it is put into bytes.  An empty list of
keys or instructions is left out. -/
def serializeTransaction (transactionInfo : ReplicaTransactionInfo) (slot : UInt64) :
    TransactionInfo where
  accountKeys :=
    if transactionInfo.accountKeys.length > 0 then some transactionInfo.accountKeys else none
  logMessages := transactionInfo.logMessages
  innerInstructions := transactionInfo.innerInstructions
  outerInstructions :=
    if transactionInfo.instructions.length > 0 then some transactionInfo.instructions else none
  slot := slot

/-- `notify_transaction(transaction_info, slot)`, the record for which a task is spawned. -/
def notifyTransaction (transactionSelector : TransactionSelector)
    (transactionInfo : ReplicaTransactionInfo) (slot : UInt64) : Option TransactionInfo :=
  if transactionInfo.isVote || transactionInfo.statusIsErr then none
  else if !transactionSelector.isTransactionSelected transactionInfo.isVote
      transactionInfo.accountKeys then none
  else some (serializeTransaction transactionInfo slot)

/-! ### What is selected -/

/-- A transaction that the configuration asks for: all are, or it mentions an address of the
list. -/
def Mentioned (mentions : List Line) (keys : List Key) : Prop :=
  starText ∈ mentions ∨ allText ∈ mentions ∨
    allVotesText ∉ mentions ∧
      ∃ key ∈ keys, ∃ mention ∈ mentions, Base58.decode mention = some key.toList

theorem mapM_decodeKey {keys : List Line} {addresses : List (List UInt8)}
    (h : keys.mapM decodeKey = .ok addresses) :
    keys.map Base58.decode = addresses.map some := by
  induction keys generalizing addresses with
  | nil =>
    obtain rfl : [] = addresses := by simpa [Pure.pure] using h
    rfl
  | cons key keys ih =>
    rw [List.mapM_cons, Outcome.bind_eq_ok] at h
    obtain ⟨bytes, hkey, h⟩ := h
    rw [Outcome.bind_eq_ok] at h
    obtain ⟨rest, hrest, h⟩ := h
    obtain rfl : bytes :: rest = addresses := by simpa [Pure.pure] using h
    rw [decodeKey] at hkey
    cases hdecode : Base58.decode key with
    | none =>
      rw [hdecode] at hkey
      cases hkey
    | some bytes' =>
      rw [hdecode] at hkey
      cases hkey
      rw [List.map_cons, List.map_cons, hdecode, ih hrest]

/-- A transaction that is no vote is selected when the configuration asks for it. -/
theorem isTransactionSelected_iff {mentions : List Line} {selector : TransactionSelector}
    (h : TransactionSelector.new mentions = .ok selector) {keys : List Key} :
    selector.isTransactionSelected false keys = true ↔ Mentioned mentions keys := by
  have hall : (mentions.any fun key => key = starText || key = allText) = true ↔
      starText ∈ mentions ∨ allText ∈ mentions := by
    simp [List.any_eq_true, and_or_left, exists_or]
  have hvotes : (mentions.any fun key => key = allVotesText) = true ↔ allVotesText ∈ mentions := by
    simp [List.any_eq_true]
  rw [TransactionSelector.new] at h
  dsimp only at h
  rw [Mentioned, ← or_assoc, ← hall, ← hvotes]
  split_ifs at h with hstar hvote
  · cases h
    simp [TransactionSelector.isTransactionSelected, TransactionSelector.isEnabled, hstar]
  · cases h
    simp [TransactionSelector.isTransactionSelected, TransactionSelector.isEnabled, hstar, hvote]
  · rw [Outcome.bind_eq_ok] at h
    obtain ⟨addresses, haddresses, h⟩ := h
    cases h
    have hmem : ∀ address, address ∈ addresses ↔
        ∃ mention ∈ mentions, Base58.decode mention = some address := by
      intro address
      have hmap := mapM_decodeKey haddresses
      rw [← List.mem_map (f := Base58.decode), hmap,
        List.mem_map_of_injective (Option.some_injective _)]
    simp only [hstar, hvote]
    simp only [TransactionSelector.isTransactionSelected, TransactionSelector.isEnabled,
      Bool.false_or, Bool.false_and, ← hmem]
    cases addresses with
    | nil => simp
    | cons address addresses => simp [List.contains_eq_mem]

/-- The plugin forwards the transactions that are no votes, did not fail, and that the
configuration asks for. -/
theorem notifyTransaction_eq_some_iff {mentions : List Line} {selector : TransactionSelector}
    (h : TransactionSelector.new mentions = .ok selector) {info : ReplicaTransactionInfo}
    {slot : UInt64} {record : TransactionInfo} :
    notifyTransaction selector info slot = some record ↔
      info.isVote = false ∧ info.statusIsErr = false ∧ Mentioned mentions info.accountKeys ∧
        record = serializeTransaction info slot := by
  rw [notifyTransaction]
  cases hvote : info.isVote with
  | true => simp
  | false =>
    cases herr : info.statusIsErr with
    | true => simp
    | false =>
      rw [← isTransactionSelected_iff h]
      cases selector.isTransactionSelected false info.accountKeys with
      | true => simp [eq_comm]
      | false => simp

end Candyland.Plerkle
