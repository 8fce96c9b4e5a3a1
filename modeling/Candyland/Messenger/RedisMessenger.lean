import Candyland.Lib.MessageStream
import Candyland.Lib.Outcome

/-!
# The messenger

The streams of Redis between the plugin of a validator and the ingester, and the calls of
`RedisMessenger` on them.  A key of an entry is the time in milliseconds with a counter.
-/

namespace Candyland.Messenger

/-- The keys of the streams: `ACCOUNT_STREAM`, `SLOT_STREAM`, `TRANSACTION_STREAM` and
`BLOCK_STREAM`. -/
inductive StreamKey where
  | account
  | slot
  | transaction
  | block
deriving DecidableEq

/-- The key of an entry. -/
abbrev EntryId := ℕ ×ₗ ℕ

/-- The server, with one group of consumers for each stream. -/
abbrev Redis (α : Type) := StreamKey → MessageStream EntryId α

/-- A server without streams. -/
def Redis.empty (α : Type) : Redis α := fun _ => ⟨[], toLex (0, 0), none⟩

variable {α : Type}

theorem Redis.inv_empty (streamKey : StreamKey) : (Redis.empty α streamKey).Inv := by
  refine ⟨List.Pairwise.nil, fun _ h => absurd h List.not_mem_nil, fun last hlast => ?_⟩
  cases hlast

/-! ### Sending -/

/-- `RedisMessenger`: the streams that were added, each with its buffer size. -/
structure RedisMessenger where
  streams : StreamKey → Option (Option ℕ)

/-- `RedisMessenger::new(config)`, when the connection is made. -/
def RedisMessenger.new : RedisMessenger := ⟨fun _ => none⟩

/-- The entry of the map that `add_stream(stream_key)` makes. -/
def RedisMessenger.addStream (self : RedisMessenger) (streamKey : StreamKey) : RedisMessenger :=
  ⟨Function.update self.streams streamKey (some none)⟩

/-- `set_buffer_size(stream_key, max_buffer_size)`. -/
def RedisMessenger.setBufferSize (self : RedisMessenger) (streamKey : StreamKey)
    (maxBufferSize : ℕ) : RedisMessenger :=
  match self.streams streamKey with
  | some _ => ⟨Function.update self.streams streamKey (some (some maxBufferSize))⟩
  | none => self

/-- The command of `add_stream(stream_key)`: the group is created, at the end of the stream, or
it was there. -/
def Redis.xgroupCreateMkstream (redis : Redis α) (streamKey : StreamKey) : Redis α :=
  Function.update redis streamKey (redis streamKey).createGroup

/-- The command of `send(stream_key, bytes)`, for which the server picks a key and what to
trim. -/
def Redis.xaddMaxlen (redis : Redis α) (streamKey : StreamKey) (entry : EntryId × α) (trim : ℕ) :
    Redis α :=
  Function.update redis streamKey ((redis streamKey).add entry trim)

/-- The buffer size with which `send(stream_key, bytes)` sends.  Nothing is sent to a stream that
was not added or has no size. -/
def RedisMessenger.sendMaxlen (self : RedisMessenger) (streamKey : StreamKey) : Option ℕ :=
  (self.streams streamKey).join

/-! ### Receiving -/

/-- `parse::<i64>()` of a text of digits. -/
def parseI64 (text : List Char) : Option ℤ :=
  let n := Nat.ofDigits 10 (text.reverse.map fun c => c.toNat - 48)
  if n < 2 ^ 63 then some n else none

/-- `id.replace("-", "").parse::<i64>()`. -/
def messageId (id : EntryId) : Option ℤ :=
  let text := Nat.toDigits 10 (ofLex id).1 ++ '-' :: Nat.toDigits 10 (ofLex id).2
  parseI64 (text.filter (· ≠ '-'))

/-- The number of an entry with its data.  A number that does not fit is a panic. -/
def parseEntry (entry : EntryId × α) : Outcome Unit (ℤ × α) :=
  match messageId entry.1 with
  | some pid => .ok (pid, entry.2)
  | none => .panic

/-- `recv(stream_key)`, when the server answers: what is returned, the entry that is delivered, and
the streams after it. -/
def recv (redis : Redis α) (streamKey : StreamKey) :
    Option (Outcome Unit (ℤ × α) × (EntryId × α) × Redis α) :=
  (redis streamKey).read.map fun read =>
    (parseEntry read.1, read.1, Function.update redis streamKey read.2)

end Candyland.Messenger
