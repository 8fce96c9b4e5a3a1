import Candyland.Messenger.RedisMessenger
import Candyland.Plerkle.Selectors

/-!
# The plugin

What the plugin of the validator makes of a notification, and the messenger that its receiver
uses.
-/

namespace Candyland.Plerkle

open Messenger
open NftIngester (TransactionInfo)

/-- What the validator tells the plugin.  Records other than those of transactions are given as
the bytes that are sent. -/
inductive Notification (α : Type) where
  /-- `update_account(account, slot, is_startup)`. -/
  | account (pubkey owner : List UInt8) (data : α)
  /-- `update_slot_status(slot, parent, status)`. -/
  | slotStatus (data : α)
  /-- `notify_transaction(transaction_info, slot)`. -/
  | transaction (info : ReplicaTransactionInfo) (slot : UInt64)
  /-- `notify_block_metadata(blockinfo)`. -/
  | blockMetadata (data : α)

/-- `SerializedData`, with the stream it goes to. -/
abbrev SerializedData (α : Type) := StreamKey × α

/-- `Plerkle` once it is loaded, and how a record is put into bytes. -/
structure Plugin (α : Type) where
  accountsSelector : AccountsSelector
  transactionSelector : TransactionSelector
  encode : TransactionInfo → α

variable {α : Type}

/-- What the task that is spawned for a notification sends, if one is spawned. -/
def Plugin.task (plugin : Plugin α) : Notification α → Option (SerializedData α)
  | .account pubkey owner data =>
    if plugin.accountsSelector.isAccountSelected pubkey owner then some (.account, data) else none
  | .slotStatus data => some (.slot, data)
  | .transaction info slot =>
    (notifyTransaction plugin.transactionSelector info slot).map fun record =>
      (.transaction, plugin.encode record)
  | .blockMetadata data => some (.block, data)

/-- The messenger after the calls that `on_load` makes on it. -/
def loadedMessenger : RedisMessenger :=
  let messenger := RedisMessenger.new
  let messenger := messenger.addStream .account
  let messenger := messenger.addStream .slot
  let messenger := messenger.addStream .transaction
  let messenger := messenger.addStream .block
  let messenger := messenger.setBufferSize .account 5000
  let messenger := messenger.setBufferSize .slot 5000
  let messenger := messenger.setBufferSize .transaction 5000
  messenger.setBufferSize .block 5000

/-- Every stream has its buffer size. -/
theorem sendMaxlen_loadedMessenger (streamKey : StreamKey) :
    loadedMessenger.sendMaxlen streamKey = some 5000 := by
  cases streamKey <;> rfl

/-- The task that empties the channel. -/
inductive Receiver where
  /-- It connects to Redis. -/
  | connecting
  /-- It sends what it receives. -/
  | sending
  /-- It could not connect and has dropped its end of the channel. -/
  | dropped
deriving DecidableEq

end Candyland.Plerkle
