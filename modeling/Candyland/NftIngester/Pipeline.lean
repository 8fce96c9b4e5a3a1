import Candyland.Plerkle.GeyserPluginNft

/-!
# From the validator to the ingester

The plugin of the validator spawns a task for every notification.  The tasks write to one
channel, from which one task sends to the streams of Redis.  The ingester reads the stream of
transactions, one entry at a time, and goes on when the entry is handled.  Connections fail,
commands fail before or after they take effect, and both processes are started again at any
time.
-/

namespace Candyland.NftIngester

open Messenger Plerkle

variable {α σ : Type}

/-! ### The service -/

/-- The tasks that wait to send, the channel, the streams, and the ingester with its database. -/
structure Pipeline (α σ : Type) where
  tasks : List (SerializedData α)
  channel : List (SerializedData α)
  receiver : Receiver
  redis : Redis α
  ingesting : Bool
  db : σ

/-- The loaded plugin and the ingester before any message. -/
def Pipeline.start (db : σ) : Pipeline α σ := ⟨[], [], .connecting, Redis.empty α, true, db⟩

/-- What happens in a step. -/
inductive PipelineEvent (α : Type) where
  | notified (notification : Notification α)
  /-- A task puts its data into the channel. -/
  | queued (data : SerializedData α)
  /-- A task finds the channel closed. -/
  | refused (data : SerializedData α)
  /-- The receiver is connected, and has created the groups of some streams. -/
  | connected (grouped : StreamKey → Bool)
  | notConnected
  /-- The command that sends the data takes effect. -/
  | sent (streamKey : StreamKey) (entry : EntryId × α)
  /-- The command fails. -/
  | notSent (data : SerializedData α)
  | validatorRestarted
  /-- The ingester receives an entry. -/
  | received (entry : EntryId × α)
  /-- An entry is delivered, but the reply does not reach the ingester. -/
  | missed (entry : EntryId × α)
  | ingesterRestarted

/-- What the ingester does with a received message: `handle` is `handle_transaction`, which gives
the database and whether it came to its end. -/
def Pipeline.receive (handle : ℤ → α → σ → σ × Bool) (s : Pipeline α σ) (redis : Redis α)
    (message : Outcome Unit (ℤ × α)) : Pipeline α σ :=
  match message with
  | .ok (pid, data) =>
    { s with redis := redis, db := (handle pid data s.db).1, ingesting := (handle pid data s.db).2 }
  | _ => { s with redis := redis, ingesting := false }

/-- A step of the service. -/
inductive PipelineStep (plugin : Plugin α) (handle : ℤ → α → σ → σ × Bool) :
    Pipeline α σ → PipelineEvent α → Pipeline α σ → Prop
  | notified {s n} :
      PipelineStep plugin handle s (.notified n)
        { s with tasks := s.tasks ++ (plugin.task n).toList }
  -- the tasks run on several threads, so that any of them may be next
  | queued {s before after data} (htasks : s.tasks = before ++ data :: after)
      (hroom : s.channel.length < 32) (hopen : s.receiver ≠ .dropped) :
      PipelineStep plugin handle s (.queued data)
        { s with tasks := before ++ after, channel := s.channel ++ [data] }
  | refused {s before after data} (htasks : s.tasks = before ++ data :: after)
      (hopen : s.receiver = .dropped) :
      PipelineStep plugin handle s (.refused data) { s with tasks := before ++ after }
  | connected {s grouped} (h : s.receiver = .connecting) :
      PipelineStep plugin handle s (.connected grouped)
        { s with
          receiver := .sending
          redis := fun streamKey =>
            if grouped streamKey then s.redis.xgroupCreateMkstream streamKey streamKey
            else s.redis streamKey }
  | notConnected {s} (h : s.receiver = .connecting) :
      PipelineStep plugin handle s .notConnected { s with receiver := .dropped, channel := [] }
  | sent {s streamKey entry rest maxLen trim} (h : s.receiver = .sending)
      (hchannel : s.channel = (streamKey, entry.2) :: rest)
      (hmaxLen : loadedMessenger.sendMaxlen streamKey = some maxLen)
      (hadd : (s.redis streamKey).CanAdd maxLen entry trim) :
      PipelineStep plugin handle s (.sent streamKey entry)
        { s with channel := rest, redis := s.redis.xaddMaxlen streamKey entry trim }
  | notSent {s data rest} (h : s.receiver = .sending) (hchannel : s.channel = data :: rest) :
      PipelineStep plugin handle s (.notSent data) { s with channel := rest }
  | validatorRestarted {s} :
      PipelineStep plugin handle s .validatorRestarted
        { s with tasks := [], channel := [], receiver := .connecting }
  | received {s message entry redis} (hrun : s.ingesting = true)
      (hrecv : recv s.redis .transaction = some (message, entry, redis)) :
      PipelineStep plugin handle s (.received entry) (s.receive handle redis message)
  | missed {s message entry redis} (hrun : s.ingesting = true)
      (hrecv : recv s.redis .transaction = some (message, entry, redis)) :
      PipelineStep plugin handle s (.missed entry) { s with redis := redis }
  | ingesterRestarted {s} :
      PipelineStep plugin handle s .ingesterRestarted { s with ingesting := true }

end Candyland.NftIngester
