import Candyland.NftIngester.Pipeline

/-!
# What reaches the ingester

Every transaction that the plugin forwards reaches the ingester at most once, whatever fails on
the way.  Nothing is lost while the connections hold and fewer entries wait than a stream
keeps; but the order of the transactions may be any.
-/

namespace Candyland.NftIngester

open Messenger Plerkle

variable {α σ : Type} {plugin : Plugin α} {handle : ℤ → α → σ → σ × Bool}
  {s s' : Pipeline α σ} {a : PipelineEvent α} {as : List (PipelineEvent α)} {db : σ}

/-! ### The history of a run -/

/-- The data for one stream. -/
def forStream (streamKey : StreamKey) (data : List (SerializedData α)) : List α :=
  (data.filter fun d => d.1 = streamKey).map Prod.snd

/-- The transactions for which tasks were spawned, the oldest first. -/
def forwarded (plugin : Plugin α) : List (PipelineEvent α) → List α
  | [] => []
  | .notified n :: as => forwarded plugin as ++ forStream .transaction (plugin.task n).toList
  | _ :: as => forwarded plugin as

/-- The entries that were added to the stream of transactions. -/
def sentEntries : List (PipelineEvent α) → List (EntryId × α)
  | [] => []
  | .sent .transaction entry :: as => sentEntries as ++ [entry]
  | _ :: as => sentEntries as

/-- The entries that were delivered to the ingester. -/
def delivered : List (PipelineEvent α) → List (EntryId × α)
  | [] => []
  | .received entry :: as => delivered as ++ [entry]
  | .missed entry :: as => delivered as ++ [entry]
  | _ :: as => delivered as

/-- The entries that the ingester received. -/
def received : List (PipelineEvent α) → List (EntryId × α)
  | [] => []
  | .received entry :: as => received as ++ [entry]
  | _ :: as => received as

theorem sentEntries_sent (streamKey : StreamKey) (entry : EntryId × α)
    (as : List (PipelineEvent α)) : sentEntries (.sent streamKey entry :: as) =
      sentEntries as ++ if streamKey = .transaction then [entry] else [] := by
  cases streamKey <;> simp [sentEntries]

@[simp] theorem forStream_append (streamKey : StreamKey) (data data' : List (SerializedData α)) :
    forStream streamKey (data ++ data') =
      forStream streamKey data ++ forStream streamKey data' := by
  rw [forStream, List.filter_append, List.map_append, forStream, forStream]

theorem forStream_cons (streamKey : StreamKey) (d : SerializedData α)
    (data : List (SerializedData α)) :
    forStream streamKey (d :: data) = forStream streamKey [d] ++ forStream streamKey data :=
  forStream_append streamKey [d] data

theorem received_sublist (as : List (PipelineEvent α)) : (received as).Sublist (delivered as) := by
  induction as with
  | nil => exact List.Sublist.refl _
  | cons a as ih =>
    cases a with
    | received entry => exact ih.append (List.Sublist.refl _)
    | missed entry => exact ih.trans (List.sublist_append_left _ _)
    | _ => exact ih

/-! ### What is on the way -/

/-- The transactions that were sent, and those in the channel and in the tasks. -/
def onTheWay (as : List (PipelineEvent α)) (s : Pipeline α σ) : Multiset α :=
  ((sentEntries as).map Prod.snd : List α) + (forStream .transaction s.channel : Multiset α) +
    (forStream .transaction s.tasks : Multiset α)

/-- The transaction that a step forwards, if it forwards one. -/
def newlyForwarded (plugin : Plugin α) : PipelineEvent α → List α
  | .notified n => forStream .transaction (plugin.task n).toList
  | _ => []

/-- The step drops what is on the way. -/
def Drops : PipelineEvent α → Prop
  | .refused _ => True
  | .notConnected => True
  | .notSent _ => True
  | .validatorRestarted => True
  | _ => False

theorem forwarded_cons :
    forwarded plugin (a :: as) = forwarded plugin as ++ newlyForwarded plugin a := by
  cases a with
  | notified n => rfl
  | _ => exact (List.append_nil _).symm

/-- A step that drops nothing only moves what is on the way, and adds what it forwards. -/
theorem onTheWay_eq (h : PipelineStep plugin handle s a s') (hdrops : ¬ Drops a) :
    onTheWay (a :: as) s' = onTheWay as s + newlyForwarded plugin a := by
  cases h with
  | @notified n =>
    show onTheWay as { s with tasks := s.tasks ++ (plugin.task n).toList } =
      onTheWay as s + (forStream .transaction (plugin.task n).toList : Multiset α)
    rw [onTheWay, onTheWay, forStream_append, ← Multiset.coe_add, ← add_assoc]
  | @queued before after data htasks =>
    show onTheWay as { s with tasks := before ++ after, channel := s.channel ++ [data] } =
      onTheWay as s + 0
    rw [onTheWay, onTheWay, htasks]
    simp only [forStream_append, forStream_cons _ data after, ← Multiset.coe_add]
    abel
  | @sent streamKey entry rest maxLen trim _ hchannel =>
    have hdata : forStream .transaction [(streamKey, entry.2)] =
        (if streamKey = .transaction then [entry] else []).map Prod.snd := by
      rw [forStream]
      by_cases hkey : streamKey = .transaction <;> simp [hkey]
    show onTheWay (.sent streamKey entry :: as) { s with channel := rest, redis := _ } =
      onTheWay as s + 0
    rw [onTheWay, onTheWay, sentEntries_sent, List.map_append, hchannel, forStream_cons, hdata]
    simp only [← Multiset.coe_add]
    abel
  | @received message entry redis hrun hrecv =>
    have hreceive : onTheWay as (s.receive handle redis message) = onTheWay as s := by
      cases message <;> rfl
    exact hreceive.trans (add_zero _).symm
  | refused => exact absurd trivial hdrops
  | notConnected => exact absurd trivial hdrops
  | notSent => exact absurd trivial hdrops
  | validatorRestarted => exact absurd trivial hdrops
  | _ => exact (add_zero (onTheWay as s)).symm

/-- Whatever happens, nothing comes to what is on the way but what is forwarded. -/
theorem onTheWay_le (h : PipelineStep plugin handle s a s') :
    onTheWay (a :: as) s' ≤ onTheWay as s + newlyForwarded plugin a := by
  by_cases hdrops : Drops a
  · cases h with
    | @refused before after data htasks =>
      refine le_trans (add_le_add_right ?_ _) (Multiset.le_add_right _ _)
      rw [htasks, forStream_append, forStream_append, forStream_cons _ data after, Multiset.coe_le]
      exact ((List.sublist_append_right _ _).append_left _).subperm
    | notConnected =>
      refine le_trans (add_le_add_left (add_le_add_right ?_ _) _) (Multiset.le_add_right _ _)
      exact Multiset.zero_le _
    | @notSent data rest _ hchannel =>
      refine le_trans (add_le_add_left (add_le_add_right ?_ _) _) (Multiset.le_add_right _ _)
      rw [hchannel, forStream_cons, Multiset.coe_le]
      exact (List.sublist_append_right _ _).subperm
    | validatorRestarted =>
      refine le_trans (add_le_add (add_le_add_right ?_ _) ?_) (Multiset.le_add_right _ _)
      · exact Multiset.zero_le _
      · exact Multiset.zero_le _
    | _ => exact hdrops.elim
  · exact (onTheWay_eq h hdrops).le

/-! ### At most once -/

/-- What was delivered or waits was sent, in this order, and what was sent or is on its way was
forwarded. -/
structure Pipeline.Inv (plugin : Plugin α) (as : List (PipelineEvent α)) (s : Pipeline α σ) :
    Prop where
  streams : ∀ streamKey, (s.redis streamKey).Inv
  read : (delivered as ++ (s.redis .transaction).unread).Sublist (sentEntries as)
  sent : onTheWay as s ≤ (forwarded plugin as : List α)

theorem Pipeline.Inv.start : (Pipeline.start db : Pipeline α σ).Inv plugin [] :=
  ⟨Redis.inv_empty, List.Sublist.refl _, le_rfl⟩

/-- The stream after an entry was delivered. -/
theorem recv_eq_some {redis redis' : Redis α} {streamKey : StreamKey}
    {message : Outcome Unit (ℤ × α)} {entry : EntryId × α} (hinv : (redis streamKey).Inv)
    (h : recv redis streamKey = some (message, entry, redis')) :
    (redis streamKey).unread = entry :: (redis' streamKey).unread ∧ (redis' streamKey).Inv ∧
      (redis' streamKey).group = some entry.1 ∧
        (∀ other, other ≠ streamKey → redis' other = redis other) ∧ message = parseEntry entry := by
  rw [recv, Option.map_eq_some_iff] at h
  obtain ⟨read, hread, heq⟩ := h
  obtain ⟨hmessage, heq⟩ := Prod.mk.inj heq
  obtain ⟨rfl, rfl⟩ := Prod.mk.inj heq
  obtain ⟨hunread, hinv'⟩ := MessageStream.read_eq_some hinv hread
  rw [Function.update_self]
  exact ⟨hunread, hinv', MessageStream.group_read hread,
    fun other hother => Function.update_of_ne hother _ _, hmessage.symm⟩

/-- The streams after the groups of some of them were created. -/
theorem connected_stream (redis : Redis α) (grouped : StreamKey → Bool) (streamKey : StreamKey)
    (hinv : (redis streamKey).Inv) :
    let redis' : Redis α := fun streamKey =>
      if grouped streamKey then redis.xgroupCreateMkstream streamKey streamKey
      else redis streamKey
    (redis' streamKey).Inv ∧ (redis' streamKey).unread = (redis streamKey).unread := by
  intro redis'
  show (if grouped streamKey then _ else _ : MessageStream EntryId α).Inv ∧
    (if grouped streamKey then _ else _ : MessageStream EntryId α).unread = _
  split_ifs
  · rw [Redis.xgroupCreateMkstream, Function.update_self]
    exact ⟨hinv.createGroup, MessageStream.unread_createGroup hinv⟩
  · exact ⟨hinv, rfl⟩

theorem Pipeline.Inv.streams_step (hinv : s.Inv plugin as)
    (h : PipelineStep plugin handle s a s') (streamKey : StreamKey) :
    (s'.redis streamKey).Inv := by
  have hstreams := hinv.streams
  have hdeliver : ∀ {message : Outcome Unit (ℤ × α)} {entry : EntryId × α} {redis : Redis α},
      recv s.redis .transaction = some (message, entry, redis) → (redis streamKey).Inv := by
    intro message entry redis hrecv
    obtain ⟨-, hstream, -, hother, -⟩ := recv_eq_some (hstreams .transaction) hrecv
    by_cases hkey : streamKey = .transaction
    · rw [hkey]
      exact hstream
    · rw [hother streamKey hkey]
      exact hstreams streamKey
  cases h with
  | connected => exact (connected_stream s.redis _ streamKey (hstreams streamKey)).1
  | @sent key entry rest maxLen trim _ _ _ hadd =>
    show (Function.update s.redis key _ streamKey).Inv
    by_cases hkey : streamKey = key
    · rw [hkey, Function.update_self]
      exact (hstreams key).add hadd
    · rw [Function.update_of_ne hkey]
      exact hstreams streamKey
  | @received message entry redis hrun hrecv =>
    cases message <;> exact hdeliver hrecv
  | missed hrun hrecv => exact hdeliver hrecv
  | _ => exact hstreams streamKey

theorem Pipeline.Inv.read_step (hinv : s.Inv plugin as) (h : PipelineStep plugin handle s a s') :
    (delivered (a :: as) ++ (s'.redis .transaction).unread).Sublist (sentEntries (a :: as)) := by
  obtain ⟨hstreams, hread, -⟩ := hinv
  have hdeliver : ∀ {message : Outcome Unit (ℤ × α)} {entry : EntryId × α} {redis : Redis α},
      recv s.redis .transaction = some (message, entry, redis) →
        (delivered as ++ [entry] ++ (redis .transaction).unread).Sublist (sentEntries as) := by
    intro message entry redis hrecv
    rw [List.append_assoc, List.singleton_append,
      ← (recv_eq_some (hstreams .transaction) hrecv).1]
    exact hread
  cases h with
  | @connected grouped =>
    show (_ ++ (if grouped .transaction then _ else _ : MessageStream EntryId α).unread).Sublist _
    rw [(connected_stream s.redis grouped .transaction (hstreams .transaction)).2]
    exact hread
  | @sent streamKey entry rest maxLen trim _ _ _ hadd =>
    show (_ ++ (Function.update s.redis streamKey _ .transaction).unread).Sublist _
    rw [sentEntries_sent]
    by_cases hkey : streamKey = .transaction
    · subst hkey
      rw [if_pos rfl, Function.update_self]
      refine ((List.Sublist.refl _).append
        (MessageStream.unread_add_sublist (hstreams .transaction) hadd.1)).trans ?_
      rw [← List.append_assoc]
      exact hread.append_right _
    · rw [if_neg hkey, Function.update_of_ne (Ne.symm hkey), List.append_nil]
      exact hread
  | @received message entry redis hrun hrecv =>
    cases message <;> exact hdeliver hrecv
  | missed hrun hrecv => exact hdeliver hrecv
  | _ => exact hread

theorem Pipeline.Inv.step (hinv : s.Inv plugin as) (h : PipelineStep plugin handle s a s') :
    s'.Inv plugin (a :: as) := by
  refine ⟨hinv.streams_step h, hinv.read_step h, (onTheWay_le h).trans ?_⟩
  rw [forwarded_cons, ← Multiset.coe_add]
  exact add_le_add_left hinv.sent _

theorem inv_of_pipelineSteps (h : Steps (PipelineStep plugin handle) (.start db) as s) :
    s.Inv plugin as :=
  h.invariant (I := fun as s => s.Inv plugin as) .start fun _ _ _ _ _ hinv hstep => hinv.step hstep

/-- Whatever is forwarded comes from a notification. -/
theorem mem_forwarded {data : α} (h : data ∈ forwarded plugin as) :
    ∃ info slot, .notified (.transaction info slot) ∈ as ∧
      ∃ record, notifyTransaction plugin.transactionSelector info slot = some record ∧
        data = plugin.encode record := by
  induction as with
  | nil => exact absurd h List.not_mem_nil
  | cons a as ih =>
    have hold : data ∈ forwarded plugin as → ∃ info slot,
        .notified (.transaction info slot) ∈ a :: as ∧ ∃ record,
          notifyTransaction plugin.transactionSelector info slot = some record ∧
            data = plugin.encode record := by
      intro h
      obtain ⟨info, slot, hinfo, hrecord⟩ := ih h
      exact ⟨info, slot, List.mem_cons_of_mem _ hinfo, hrecord⟩
    cases a with
    | notified n =>
      obtain h | h := List.mem_append.1 h
      · exact hold h
      · obtain ⟨d, hd, rfl⟩ := List.mem_map.1 h
        obtain ⟨hd, hkey⟩ := List.mem_filter.1 hd
        have htask := Option.mem_toList.1 hd
        cases n with
        | transaction info slot =>
          obtain ⟨record, hrecord, rfl⟩ := Option.map_eq_some_iff.1 htask
          exact ⟨info, slot, List.mem_cons_self, record, hrecord, rfl⟩
        | account pubkey owner data =>
          rw [Plugin.task] at htask
          split_ifs at htask
          cases htask
          exact absurd hkey (by simp)
        | slotStatus data =>
          cases htask
          exact absurd hkey (by simp)
        | blockMetadata data =>
          cases htask
          exact absurd hkey (by simp)
    | _ => exact hold h

/-- A plugin for all transactions, which sends their slots. -/
def sendsSlots : Plugin ℕ := ⟨⟨[], [], true⟩, ⟨[], true, true⟩, fun record => record.slot.toNat⟩

/-- The notification of a transaction without instructions. -/
def blankIn (slot : UInt64) : PipelineEvent ℕ :=
  .notified (.transaction ⟨false, false, [], [], none, none⟩ slot)

/-- Nothing fails, and the stream of transactions keeps what waits. -/
def Careful (s : Pipeline α σ) (a : PipelineEvent α) : Prop :=
  ¬ Drops a ∧ (∀ entry, a ≠ .missed entry) ∧
    (∀ grouped, a = .connected grouped → grouped .transaction = true) ∧
      ∀ entry, a = .sent .transaction entry → (s.redis .transaction).unread.length < 5000

/-- What was received or waits is what was sent, and what was sent or is on its way is what was
forwarded. -/
structure Pipeline.Exact (plugin : Plugin α) (as : List (PipelineEvent α)) (s : Pipeline α σ) :
    Prop where
  group : s.receiver = .sending → ∃ last, (s.redis .transaction).group = some last
  read : received as ++ (s.redis .transaction).unread = sentEntries as
  sent : onTheWay as s = (forwarded plugin as : List α)

theorem Pipeline.Exact.step (hexact : s.Exact plugin as) (hinv : s.Inv plugin as)
    (h : PipelineStep plugin handle s a s') (hcareful : Careful s a) :
    s'.Exact plugin (a :: as) := by
  obtain ⟨hgroup, hread, hsent⟩ := hexact
  obtain ⟨hdrops, hmissed, hgrouped, hkeeps⟩ := hcareful
  have hway : onTheWay (a :: as) s' = (forwarded plugin (a :: as) : List α) := by
    rw [onTheWay_eq h hdrops, forwarded_cons, ← Multiset.coe_add, hsent]
  cases h with
  | @connected grouped =>
    have hstream : (if grouped .transaction = true then
        s.redis.xgroupCreateMkstream .transaction .transaction else s.redis .transaction) =
          (s.redis .transaction).createGroup := by
      rw [if_pos (hgrouped grouped rfl), Redis.xgroupCreateMkstream, Function.update_self]
    refine ⟨fun _ => ?_, ?_, hway⟩
    · show ∃ last,
        (if grouped .transaction = true then _ else _ : MessageStream EntryId α).group = _
      rw [hstream, MessageStream.createGroup]
      cases (s.redis .transaction).group with
      | none => exact ⟨_, rfl⟩
      | some last => exact ⟨last, rfl⟩
    · show _ ++ (if grouped .transaction = true then _ else _ : MessageStream EntryId α).unread = _
      rw [hstream, MessageStream.unread_createGroup (hinv.streams .transaction)]
      exact hread
  | @sent streamKey entry rest maxLen trim hsending hchannel hmaxLen hadd =>
    obtain ⟨last, hlast⟩ := hgroup hsending
    by_cases hkey : streamKey = .transaction
    · subst hkey
      rw [sendMaxlen_loadedMessenger] at hmaxLen
      obtain rfl := Option.some.inj hmaxLen
      refine ⟨fun _ => ⟨last, ?_⟩, ?_, hway⟩
      · show (Function.update s.redis StreamKey.transaction _ _).group = some last
        rw [Function.update_self]
        exact hlast
      · show received as ++ (Function.update s.redis StreamKey.transaction _ _).unread = _
        rw [Function.update_self, MessageStream.unread_add (hinv.streams .transaction) hadd hlast
          (hkeeps entry rfl), sentEntries_sent, if_pos rfl, ← hread, List.append_assoc]
    · have hother : s.redis.xaddMaxlen streamKey entry trim .transaction = s.redis .transaction :=
        Function.update_of_ne (Ne.symm hkey) _ _
      refine ⟨fun _ => ⟨last, ?_⟩, ?_, hway⟩
      · show (s.redis.xaddMaxlen streamKey entry trim .transaction).group = some last
        rw [hother]
        exact hlast
      · show received as ++ (s.redis.xaddMaxlen streamKey entry trim .transaction).unread = _
        rw [hother, sentEntries_sent, if_neg hkey, List.append_nil]
        exact hread
  | @received message entry redis hrun hrecv =>
    obtain ⟨hunread, -, hlast, -⟩ := recv_eq_some (hinv.streams .transaction) hrecv
    have hredis : (s.receive handle redis message).redis = redis := by cases message <;> rfl
    refine ⟨fun _ => ⟨entry.1, ?_⟩, ?_, hway⟩
    · rw [hredis]
      exact hlast
    · show received as ++ [entry] ++ _ = sentEntries as
      rw [hredis, List.append_assoc, List.singleton_append, ← hunread]
      exact hread
  | missed => exact absurd rfl (hmissed _)
  | refused => exact absurd trivial hdrops
  | notConnected => exact absurd trivial hdrops
  | notSent => exact absurd trivial hdrops
  | validatorRestarted => exact absurd trivial hdrops
  | _ => exact ⟨hgroup, hread, hway⟩

theorem Pipeline.Exact.start : (Pipeline.start db : Pipeline α σ).Exact plugin [] := by
  refine ⟨fun h => ?_, rfl, rfl⟩
  cases h

theorem exact_of_pipelineSteps
    (h : Steps (fun s a s' => PipelineStep plugin handle s a s' ∧ Careful s a) (.start db) as s) :
    s.Exact plugin as :=
  (h.invariant (I := fun as s => s.Inv plugin as ∧ s.Exact plugin as) ⟨.start, .start⟩
    fun _ _ _ _ _ hinv hstep =>
      ⟨hinv.1.step hstep.1, hinv.2.step hinv.1 hstep.1 hstep.2⟩).2

/-- The next task to run may send to an empty stream that the ingester reads. -/
structure Pipeline.Ready (s : Pipeline α σ) : Prop where
  receiver : s.receiver = .sending
  channel : s.channel = []
  ingesting : s.ingesting = true
  stream : (s.redis .transaction).Inv
  group : ∃ last, (s.redis .transaction).group = some last
  unread : (s.redis .transaction).unread = []

/-- Any of the tasks may be the one whose transaction is received next. -/
theorem Pipeline.Ready.deliver (plugin : Plugin α) (handle : ℤ → α → σ → σ × Bool)
    (hready : s.Ready) {before after : List (SerializedData α)} {data : α}
    (htasks : s.tasks = before ++ (.transaction, data) :: after) :
    ∃ entry s', Steps (fun s a s' => PipelineStep plugin handle s a s' ∧ Careful s a) s
        [.ingesterRestarted, .received entry, .sent .transaction entry,
          .queued (.transaction, data)] s' ∧
      entry.2 = data ∧ s'.Ready ∧ s'.tasks = before ++ after := by
  obtain ⟨hreceiver, hchannel, hingesting, hstream, ⟨last, hlast⟩, hunread⟩ := hready
  let stream := s.redis .transaction
  let entry : EntryId × α := (toLex ((ofLex stream.lastId).1, (ofLex stream.lastId).2 + 1), data)
  have hadd : stream.CanAdd 5000 entry 0 := by
    refine ⟨?_, Or.inl rfl⟩
    rw [Prod.Lex.lt_iff]
    exact Or.inr ⟨rfl, Nat.lt_succ_self _⟩
  have hwaits : (stream.add entry 0).unread = [entry] := by
    rw [MessageStream.unread_add hstream hadd hlast (by rw [hunread]; norm_num), hunread]
    rfl
  obtain ⟨stream', hread⟩ : ∃ stream', (stream.add entry 0).read = some (entry, stream') := by
    rw [MessageStream.read, hwaits]
    exact ⟨_, rfl⟩
  obtain ⟨hrest, hstream'⟩ := MessageStream.read_eq_some (hstream.add hadd) hread
  let queued : Pipeline α σ :=
    { s with tasks := before ++ after, channel := s.channel ++ [(.transaction, data)] }
  let sent : Pipeline α σ :=
    { queued with channel := [], redis := s.redis.xaddMaxlen .transaction entry 0 }
  have hsent : sent.redis .transaction = stream.add entry 0 := by
    show s.redis.xaddMaxlen .transaction entry 0 .transaction = _
    rw [Redis.xaddMaxlen, Function.update_self]
  let redis := Function.update sent.redis .transaction stream'
  obtain ⟨message, hrecv⟩ : ∃ message,
      recv sent.redis .transaction = some (message, entry, redis) := by
    rw [recv, hsent, hread]
    exact ⟨_, rfl⟩
  have hredis : (sent.receive handle redis message).redis .transaction = stream' := by
    have hreceive : (sent.receive handle redis message).redis = redis := by cases message <;> rfl
    rw [hreceive]
    show Function.update sent.redis StreamKey.transaction _ _ = _
    rw [Function.update_self]
  have hqueued : PipelineStep plugin handle s (.queued (.transaction, data)) queued := by
    refine .queued htasks ?_ ?_
    · rw [hchannel]
      norm_num
    · rw [hreceiver]
      exact Receiver.noConfusion
  refine ⟨entry, { sent.receive handle redis message with ingesting := true },
    .step (.step (.step (.step .refl ⟨hqueued, ?_⟩) ⟨.sent hreceiver ?_
      (sendMaxlen_loadedMessenger _) hadd, ?_⟩) ⟨.received hingesting hrecv, ?_⟩)
        ⟨.ingesterRestarted, ?_⟩, rfl, ?_, ?_⟩
  · simp [Careful, Drops]
  · show s.channel ++ [(.transaction, data)] = [(.transaction, data)]
    rw [hchannel, List.nil_append]
  · simp [Careful, Drops, queued, hunread]
  · simp [Careful, Drops]
  · simp [Careful, Drops]
  · refine ⟨?_, ?_, rfl, ?_, ⟨entry.1, ?_⟩, ?_⟩
    · cases message <;> exact hreceiver
    · cases message <;> rfl
    · exact hredis ▸ hstream'
    · exact (congrArg MessageStream.group hredis).trans (MessageStream.group_read hread)
    · refine (congrArg MessageStream.unread hredis).trans ?_
      rw [hwaits] at hrest
      exact (List.cons.inj hrest).2.symm
  · cases message <;> rfl

theorem received_append (as bs : List (PipelineEvent α)) :
    received (bs ++ as) = received as ++ received bs := by
  induction bs with
  | nil => exact (List.append_nil _).symm
  | cons b bs ih =>
    cases b with
    | received entry => exact (congrArg (· ++ [entry]) ih).trans (List.append_assoc _ _ _)
    | _ => exact ih

/-- The transactions of the tasks may be received in any order. -/
theorem Pipeline.Ready.deliver_all (plugin : Plugin α) (handle : ℤ → α → σ → σ × Bool)
    {data : List α} (hready : s.Ready) (hdata : data.Perm (forStream .transaction s.tasks)) :
    ∃ handled s', Steps (fun s a s' => PipelineStep plugin handle s a s' ∧ Careful s a) s
        handled s' ∧ (received handled).map Prod.snd = data ∧ (∀ n, .notified n ∉ handled) := by
  induction data generalizing s with
  | nil => exact ⟨[], s, .refl, rfl, fun _ => List.not_mem_nil⟩
  | cons d data ih =>
    have hmem : (.transaction, d) ∈ s.tasks := by
      obtain ⟨task, htask, rfl⟩ := List.mem_map.1 (hdata.mem_iff.1 List.mem_cons_self)
      obtain ⟨htask, hkey⟩ := List.mem_filter.1 htask
      rwa [← of_decide_eq_true hkey]
    obtain ⟨before, after, htasks⟩ := List.append_of_mem hmem
    obtain ⟨entry, t, hsteps, rfl, hready, htasks'⟩ := hready.deliver plugin handle htasks
    have hrest : data.Perm (forStream .transaction t.tasks) := by
      rw [htasks, forStream_append, forStream_cons] at hdata
      rw [htasks', forStream_append]
      exact (hdata.trans List.perm_middle).cons_inv
    obtain ⟨handled, u, hsteps', hreceived, hnone⟩ := ih hready hrest
    refine ⟨handled ++ [_, _, _, _], u, hsteps.trans hsteps', ?_, fun n hn => ?_⟩
    · rw [received_append, List.map_append, hreceived]
      rfl
    · obtain hn | hn := List.mem_append.1 hn
      · exact hnone n hn
      · simp at hn

/-- Notifications only spawn tasks. -/
theorem exists_notified (plugin : Plugin α) (handle : ℤ → α → σ → σ × Bool) (db : σ)
    (notifications : List (Notification α)) :
    ∃ tasks, Steps (fun s a s' => PipelineStep plugin handle s a s' ∧ Careful s a) (.start db)
        (notifications.map .notified) { Pipeline.start db with tasks := tasks } ∧
      forStream .transaction tasks = forwarded plugin (notifications.map .notified) := by
  induction notifications with
  | nil => exact ⟨[], .refl, rfl⟩
  | cons n notifications ih =>
    obtain ⟨tasks, hsteps, htasks⟩ := ih
    refine ⟨_, .step hsteps ⟨.notified, by simp [Careful, Drops]⟩, ?_⟩
    show forStream .transaction (tasks ++ (plugin.task n).toList) = _
    rw [forStream_append, htasks]
    rfl

/-- Whatever notifications come, in a run where nothing fails the forwarded transactions may be
received in any order. -/
theorem received_in_any_order (plugin : Plugin α) (handle : ℤ → α → σ → σ × Bool) (db : σ)
    (notifications : List (Notification α)) {data : List α}
    (hdata : data.Perm (forwarded plugin (notifications.map .notified))) :
    ∃ handled s, Steps (fun s a s' => PipelineStep plugin handle s a s' ∧ Careful s a) (.start db)
        (handled ++ notifications.map .notified) s ∧ (∀ n, .notified n ∉ handled) ∧
      (received (handled ++ notifications.map .notified)).map Prod.snd = data := by
  obtain ⟨tasks, hsteps, htasks⟩ := exists_notified plugin handle db notifications
  let loaded : Pipeline α σ := { Pipeline.start db with tasks := tasks }
  let connected : Pipeline α σ :=
    { loaded with
      receiver := .sending
      redis := fun streamKey =>
        if true then loaded.redis.xgroupCreateMkstream streamKey streamKey
        else loaded.redis streamKey }
  have hconnected : PipelineStep plugin handle loaded (.connected fun _ => true) connected :=
    .connected rfl
  have hready : connected.Ready := by
    obtain ⟨hinv, hunread⟩ := connected_stream (Redis.empty α) (fun _ => true) .transaction
      (Redis.inv_empty .transaction)
    exact ⟨rfl, rfl, rfl, hinv, ⟨toLex (0, 0), rfl⟩, hunread⟩
  obtain ⟨handled, s, hsteps', hreceived, hnone⟩ :=
    hready.deliver_all plugin handle (hdata.trans (List.Perm.of_eq htasks.symm))
  have hnothing : received (notifications.map PipelineEvent.notified) = [] := by
    clear hdata hsteps htasks
    induction notifications with
    | nil => rfl
    | cons n notifications ih => exact ih
  refine ⟨handled ++ [.connected fun _ => true], s, ?_, fun n hn => ?_, ?_⟩
  · rw [List.append_assoc]
    exact (Steps.step hsteps ⟨hconnected, by simp [Careful, Drops]⟩).trans hsteps'
  · obtain hn | hn := List.mem_append.1 hn
    · exact hnone n hn
    · simp at hn
  · rw [received_append, hnothing, List.nil_append, received_append]
    exact hreceived

theorem received_in_any_order_blank :
    ∃ handled s, Steps (fun s a s' => PipelineStep sendsSlots (fun _ _ db => (db, true)) s a s' ∧
        Careful s a) (.start ()) (handled ++ [blankIn 8, blankIn 7]) s ∧
      (∀ n, .notified n ∉ handled) ∧
        (received (handled ++ [blankIn 8, blankIn 7])).map Prod.snd = [8, 7] :=
  received_in_any_order sendsSlots (fun _ _ db => (db, true)) ()
    [.transaction ⟨false, false, [], [], none, none⟩ 8,
      .transaction ⟨false, false, [], [], none, none⟩ 7] (List.Perm.swap 7 8 [])

end Candyland.NftIngester
