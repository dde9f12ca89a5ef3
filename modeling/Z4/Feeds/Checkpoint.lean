import Z4.Feeds.Undelivered
import Z4.Foundations.Runs
import Z4.Storage.KeySpace

/-!
# The checkpoint and the clients

A feed reads tasks into a channel of 100,000 slots and moves its checkpoint as a task enters the
channel. The brokers of `Pull` take tasks out again and pass them to their client's stream. A feed
is opened by the first lease, which may be one of `GetQueue` or `UpdateQueue` and have no client
behind it, and closed after the last; what is then in the channel is lost. Its settings are saved
every second and once more on closing.

So a saved checkpoint can be past tasks that no client will be sent. `Consumed` says which steps do
not lead there. Along such steps, `Covered` holds for every config that is or may become the saved
one: a stored task below its checkpoint has been sent, or the feed is running and has the task in
its channel with a broker to take it, or a broker has it in hand.

## Records

A redelivery changes a task's retry time, so copies of one task differ. A task is known by the key
of its record: indexes arrive in increasing order, and no two arrivals share one.
-/

namespace Z4.Checkpoint

open KeyValue

/-! ## A feed -/

/-- `TaskBroker.startTaskSender`: at the `select`, between receiving a task and `stream.Send`, or
returned with the lease not released yet. -/
inductive Broker where
  | waiting
  | holding (task : Task)
  | done
deriving DecidableEq

/-- The broker still takes tasks for its client. -/
def Broker.Live (b : Broker) : Prop := b ≠ .done

instance (b : Broker) : Decidable b.Live := inferInstanceAs (Decidable (_ ≠ _))

/-- The task a broker has in hand. -/
def Broker.task? : Broker → Option Task
  | holding task => some task
  | _ => none

inductive Phase where
  /-- In `load`, saving the default settings. -/
  | loading
  | running
  /-- `Feed.Close` has been called. -/
  | closing
  /-- In the save that `SyncedSettings.Close` waits for. -/
  | flushing
deriving DecidableEq

structure Feed where
  reader : UndeliveredReader
  phase : Phase
  lastSaved : Option QueueConfig := none
  /-- The snapshot that `trySave` has given to Raft. -/
  saving : Option QueueConfig := none
  channel : List Task := []
  brokers : List Broker := []
  /-- Calls of `GetQueue` and `UpdateQueue` that hold a lease. -/
  calls : ℕ := 0

/-- The capacity of the channel. -/
def feedSize : ℕ := 100000

/-- `trySave`, up to where it waits for Raft. -/
def Feed.trySave (f : Feed) : Feed :=
  if some f.reader.settings = f.lastSaved then f else { f with saving := some f.reader.settings }

/-- `SyncedSettings.load`: the stored settings, or the defaults, which are saved first. -/
def load (db : DB) (queue : GoString) : Feed :=
  match settingStoreGet db queue with
  | some settings => { reader := { settings }, phase := .running }
  | none => Feed.trySave { reader := { settings := defaultConfig queue }, phase := .loading }

/-- The steps of a feed that concern nothing else. -/
inductive FeedEvent where
  | tick
  /-- `Manager.Close`. -/
  | shutdown
  /-- `undeliveredReader.Read` is called. -/
  | query
  /-- A round of its loop whose push goes into the channel. -/
  | visit
  /-- A round whose push returns `io.EOF`. -/
  | cancel
  /-- Another reader pushes a task; the one for undelivered scheduled tasks moves its checkpoint. -/
  | push (task : Task) (checkpoint : Bool)
  /-- A broker gets a lease. -/
  | pull
  | receive (i : ℕ)
  /-- The context of a broker's stream is done. -/
  | stop (i : ℕ)
  | release (i : ℕ)
  /-- `GetQueue` or `UpdateQueue` gets a lease. -/
  | call
  | update (ackDeadlineSeconds : Int32)
  /-- The call gives its lease back. -/
  | returns

def Feed.step (db : DB) (f : Feed) : FeedEvent → Option Feed
  | .tick => if (f.phase = .running ∨ f.phase = .closing) ∧ f.saving = none then some f.trySave
      else none
  | .shutdown => if f.phase = .running then some { f with phase := .closing } else none
  | .query => if f.phase = .loading then none
      else (f.reader.query db).map fun reader ↦ { f with reader }
  | .visit =>
    match f.reader.visit with
    | none => none
    | some (reader, none) => some { f with reader }
    | some (reader, some t) =>
      if f.channel.length < feedSize then some { f with reader, channel := f.channel ++ [t] }
      else none
  | .cancel => if f.phase = .closing ∨ f.phase = .flushing then
      some { f with reader := { f.reader with reading := none } } else none
  | .push t checkpoint =>
    if f.channel.length < feedSize then
      let f := { f with channel := f.channel ++ [t] }
      some (if checkpoint then
        { f with reader := { f.reader with settings := schedCheckpointerSet f.reader.settings t } }
        else f)
    else none
  | .pull => if f.phase = .running then some { f with brokers := f.brokers ++ [.waiting] } else none
  | .receive i =>
    match f.brokers[i]?, f.channel with
    | some .waiting, t :: channel =>
      some { f with channel, brokers := f.brokers.set i (.holding t) }
    | _, _ => none
  | .stop i =>
    match f.brokers[i]? with
    | some .waiting => some { f with brokers := f.brokers.set i .done }
    | _ => none
  | .release i =>
    match f.brokers[i]? with
    | some .done => some { f with brokers := f.brokers.eraseIdx i }
    | _ => none
  | .call => if f.phase = .running then some { f with calls := f.calls + 1 } else none
  | .update secs => if 0 < f.calls then
      some { f with reader := { f.reader with settings := updateQueue f.reader.settings secs } }
      else none
  | .returns => if 0 < f.calls then some { f with calls := f.calls - 1 } else none

/-! ## The peer -/

structure State where
  db : DB := ∅
  /-- The indexes of the tasks that have arrived. -/
  arrived : List ℕ := []
  feed : Option Feed := none
  /-- The tasks that were passed to `stream.Send` of some client. -/
  sent : List Task := []

inductive Event where
  /-- Tasks are saved through the Raft log. -/
  | arrive (tasks : List Task) (saveIndex : Bool)
  /-- Acknowledged tasks are deleted. -/
  | delete (acks : List Ack)
  /-- A redelivery run, of this feed or an earlier one, saves what it pushed. -/
  | writeBack (tasks : List Task)
  /-- `Manager.Lease` finds no feed. -/
  | openFeed
  /-- Raft is done with a config; whether the peer has saved it, and whether `trySave` sees no
  error. -/
  | saved (stored acked : Bool)
  /-- `stream.Send` of a broker. -/
  | send (i : ℕ) (ok : Bool)
  /-- `cleanUpLeases` finds no lease. -/
  | close
  /-- The sync loop takes the close request. -/
  | flush
  | feed (e : FeedEvent)

/-- The feed once Raft is done with its config. -/
def Feed.saved (f : Feed) (c : QueueConfig) (acked : Bool) : Option Feed :=
  let f := { f with saving := none, lastSaved := if acked then some c else f.lastSaved }
  match f.phase with
  | .loading => if acked then some { f with phase := .running } else none
  | .running | .closing => some f
  | .flushing => none

def step (q : GoString) (s : State) : Event → Option State
  | .arrive tasks saveIndex =>
    if (∀ t ∈ tasks, t.queue = q) ∧ (s.arrived ++ tasks.map taskIndex).Pairwise (· < ·) then
      (saveAll tasks saveIndex s.db).map fun db ↦
        { s with db, arrived := s.arrived ++ tasks.map taskIndex }
    else none
  | .delete acks => some { s with db := deleteAll acks s.db }
  | .writeBack tasks =>
    if ∀ t ∈ tasks, t.queue = q then (saveAll tasks false s.db).map fun db ↦ { s with db }
    else none
  | .openFeed =>
    match s.feed with
    | none => some { s with feed := some (load s.db q) }
    | some _ => none
  | .saved stored acked =>
    match s.feed with
    | none => none
    | some f => f.saving.map fun c ↦
      { s with db := if stored then saveSettings c s.db else s.db, feed := f.saved c acked }
  | .send i ok =>
    match s.feed with
    | none => none
    | some f =>
      match f.brokers[i]? with
      | some (.holding t) =>
        some { s with
          sent := s.sent ++ [t]
          feed := some { f with brokers := f.brokers.set i (if ok then .waiting else .done) } }
      | _ => none
  | .close =>
    match s.feed with
    | none => none
    | some f =>
      if f.phase = .running ∧ f.brokers = [] ∧ f.calls = 0 then
        some { s with feed := some { f with phase := .closing } }
      else none
  | .flush =>
    match s.feed with
    | none => none
    | some f =>
      if f.phase = .closing ∧ f.saving = none then
        let f := f.trySave
        some { s with feed := if f.saving = none then none else some { f with phase := .flushing } }
      else none
  | .feed e =>
    match s.feed with
    | none => none
    | some f => (f.step s.db e).map fun f ↦ { s with feed := some f }

/-! ## What a checkpoint may pass -/

/-- Some client was sent the task of a record. -/
def State.Sent (s : State) (r : Option Key) : Prop := ∃ v ∈ s.sent, recordKey v = r

def Feed.InChannel (f : Feed) (r : Option Key) : Prop := ∃ v ∈ f.channel, recordKey v = r

def Feed.InHand (f : Feed) (r : Option Key) : Prop :=
  ∃ b ∈ f.brokers, ∃ v ∈ b.task?, recordKey v = r

def HasLive (brokers : List Broker) : Prop := ∃ b ∈ brokers, b.Live

instance (s : State) (r : Option Key) : Decidable (s.Sent r) :=
  inferInstanceAs (Decidable (∃ v ∈ _, _))

instance (f : Feed) (r : Option Key) : Decidable (f.InChannel r) :=
  inferInstanceAs (Decidable (∃ v ∈ _, _))

instance (brokers : List Broker) : Decidable (HasLive brokers) :=
  inferInstanceAs (Decidable (∃ b ∈ _, _))

/-- Every stored unscheduled task up to the checkpoint of `c` has been sent, or waits in the channel
of the running feed, which has a consumer. -/
def Accounted (q : GoString) (s : State) (f : Feed) (c : QueueConfig) : Prop :=
  ∀ u, Stored s.db u → IsFifo q u →
    (∃ last, mustParseString c.lastDeliveredQueuedTask = some last ∧
      taskIndex u ≤ last.index.toNat) →
    s.Sent (recordKey u) ∨ (f.InChannel (recordKey u) ∧ f.phase = .running ∧ HasLive f.brokers)

/-! ## Runs in which tasks are read for a consumer -/

/-- The task's record is gone, or a client was sent the task. -/
def State.Settled (s : State) (v : Task) : Prop :=
  (∃ k ∈ recordKey v, s.db[k]? ≠ none) → s.Sent (recordKey v)

instance (s : State) (v : Task) : Decidable (s.Settled v) :=
  inferInstanceAs (Decidable ((∃ k ∈ _, _) → _))

/-- The checkpoint is the one of a new queue. -/
def AtDefault (c : QueueConfig) : Prop :=
  (mustParseString c.lastDeliveredQueuedTask).map (·.index) = some maxUint64

instance (c : QueueConfig) : Decidable (AtDefault c) := inferInstanceAs (Decidable (_ = _))

/-- Tasks are pushed only while the feed runs and has a consumer; a broker leaves only when another
is there or what is in the channel is settled; the manager shuts the feed down only when all is
settled. -/
def FeedConsumed (s : State) (f : Feed) : FeedEvent → Prop
  | .visit => f.reader.ahead ≠ [] → f.phase = .running ∧ HasLive f.brokers
  | .push _ _ => f.phase = .running ∧ HasLive f.brokers
  | .stop i => HasLive (f.brokers.eraseIdx i) ∨ ∀ v ∈ f.channel, s.Settled v
  | .shutdown => (∀ v ∈ f.channel, s.Settled v) ∧ ∀ b ∈ f.brokers, ∀ v ∈ b.task?, s.Settled v
  | _ => True

/-- The feed's steps are such, and a stream fails only where the broker could leave. A config is
saved only while no broker has a task in hand, and with the checkpoint of a new queue only while no
unscheduled task is stored. Redelivery writes back what is still stored. Indexes stay below the
largest one. -/
def Consumed (q : GoString) (s : State) : Event → Prop
  | .arrive tasks _ => ∀ t ∈ tasks, taskIndex t + 1 < 2 ^ 64
  | .writeBack tasks => ∀ t ∈ tasks, ∃ k ∈ recordKey t, s.db[k]? ≠ none
  | .saved stored _ => stored = true → ∀ f ∈ s.feed, (∀ b ∈ f.brokers, b.task? = none) ∧
      ∀ c ∈ f.saving, AtDefault c → handedOut s.db (.fifo q 0 maxUint64) = []
  | .send i ok => ok = false → ∀ f ∈ s.feed,
      HasLive (f.brokers.eraseIdx i) ∨ ∀ v ∈ f.channel, s.Settled v
  | .feed e => ∀ f ∈ s.feed, FeedConsumed s f e
  | _ => True

instance (s : State) (f : Feed) : (e : FeedEvent) → Decidable (FeedConsumed s f e)
  | .visit => inferInstanceAs (Decidable (_ → _))
  | .push _ _ => inferInstanceAs (Decidable (_ ∧ _))
  | .stop _ => inferInstanceAs (Decidable (_ ∨ ∀ v ∈ _, _))
  | .shutdown => inferInstanceAs (Decidable ((∀ v ∈ _, _) ∧ ∀ b ∈ _, ∀ v ∈ _, _))
  | .tick | .query | .cancel | .pull | .receive _ | .release _ | .call | .update _ | .returns =>
    .isTrue trivial

instance (q : GoString) (s : State) : (e : Event) → Decidable (Consumed q s e)
  | .arrive _ _ => inferInstanceAs (Decidable (∀ t ∈ _, _))
  | .writeBack _ => inferInstanceAs (Decidable (∀ t ∈ _, ∃ k ∈ _, _))
  | .saved _ _ => inferInstanceAs (Decidable (_ → ∀ f ∈ _, (∀ b ∈ _, _) ∧ ∀ c ∈ _, _ → _))
  | .send _ _ => inferInstanceAs (Decidable (_ → ∀ f ∈ _, _ ∨ ∀ v ∈ _, _))
  | .feed _ => inferInstanceAs (Decidable (∀ f ∈ _, _))
  | .delete _ | .openFeed | .close | .flush => .isTrue trivial

/-! ## Where a passed task is -/

/-- The feed has the task of a record, for a consumer. -/
def Feed.Keeps (f : Feed) (r : Option Key) : Prop :=
  f.phase = .running ∧ (f.InChannel r ∧ HasLive f.brokers ∨ f.InHand r)

/-- A client was sent the task of a record, or the feed has it. -/
def State.Passed (s : State) (r : Option Key) : Prop := s.Sent r ∨ ∃ f ∈ s.feed, f.Keeps r

/-- The record is in the store. -/
def Has (db : DB) (r : Option Key) : Prop := ∃ k ∈ r, db[k]? ≠ none

section

variable {s : State} {f f' : Feed} {r : Option Key} {i : ℕ} {b : Broker}

theorem Broker.live_of_task {v : Task} (h : v ∈ b.task?) : b.Live := by
  rintro rfl
  simp [Broker.task?] at h

theorem Feed.Keeps.mono (h : f.Keeps r) (hphase : f'.phase = f.phase)
    (hchannel : ∀ v ∈ f.channel, v ∈ f'.channel)
    (hbrokers : ∀ b ∈ f.brokers, b.Live → b ∈ f'.brokers) : f'.Keeps r := by
  refine ⟨hphase.trans h.1, h.2.imp ?_ ?_⟩
  · rintro ⟨⟨v, hv, hr⟩, b, hb, hlive⟩
    exact ⟨⟨v, hchannel v hv, hr⟩, b, hbrokers b hb hlive, hlive⟩
  · rintro ⟨b, hb, v, hv, hr⟩
    exact ⟨b, hbrokers b hb (Broker.live_of_task hv), v, hv, hr⟩

theorem mem_set_of_ne {brokers : List Broker} {b' x : Broker} (hi : brokers[i]? = some b)
    (hx : x ∈ brokers) (hne : x ≠ b) : x ∈ brokers.set i b' := by
  obtain ⟨j, hj⟩ := List.mem_iff_getElem?.mp hx
  refine List.mem_iff_getElem?.mpr ⟨j, ?_⟩
  rw [List.getElem?_set_ne, hj]
  rintro rfl
  exact hne (Option.some.inj (hj.symm.trans hi))

theorem mem_set_self {brokers : List Broker} {b' : Broker} (hi : brokers[i]? = some b) :
    b' ∈ brokers.set i b' :=
  List.mem_iff_getElem?.mpr ⟨i, List.getElem?_set_self (List.getElem?_eq_some_iff.mp hi).1⟩

theorem HasLive.set {brokers : List Broker} (h : HasLive (brokers.eraseIdx i)) (b' : Broker) :
    HasLive (brokers.set i b') := by
  obtain ⟨b, hb, hlive⟩ := h
  obtain ⟨j, hj, hget⟩ := List.mem_eraseIdx_iff_getElem?.mp hb
  exact ⟨b, List.mem_iff_getElem?.mpr ⟨j, by rw [List.getElem?_set_ne (Ne.symm hj), hget]⟩, hlive⟩

/-- A broker that is done with its task takes nothing else with it, if someone is left for the
channel. -/
theorem Feed.Keeps.replace (h : f.Keeps r) (hr : Has s.db r) (hi : f.brokers[i]? = some b)
    (hb : ∀ v ∈ b.task?, s.Sent (recordKey v)) {b' : Broker}
    (hok : HasLive (f.brokers.set i b') ∨ ∀ v ∈ f.channel, s.Settled v) :
    s.Sent r ∨ Feed.Keeps { f with brokers := f.brokers.set i b' } r := by
  obtain ⟨hphase, ⟨⟨v, hv, rfl⟩, -⟩ | ⟨x, hx, v, hv, rfl⟩⟩ := h
  · rcases hok with hlive | hsettled
    · exact .inr ⟨hphase, .inl ⟨⟨v, hv, rfl⟩, hlive⟩⟩
    · exact .inl (hsettled v hv hr)
  · by_cases hxb : x = b
    · exact .inl (hb v (hxb ▸ hv))
    · exact .inr ⟨hphase, .inr ⟨x, mem_set_of_ne hi hx hxb, v, hv, rfl⟩⟩

@[simp] theorem Feed.trySave_phase (f : Feed) : f.trySave.phase = f.phase := by
  rw [Feed.trySave]; split <;> rfl

@[simp] theorem Feed.trySave_reader (f : Feed) : f.trySave.reader = f.reader := by
  rw [Feed.trySave]; split <;> rfl

@[simp] theorem Feed.trySave_channel (f : Feed) : f.trySave.channel = f.channel := by
  rw [Feed.trySave]; split <;> rfl

@[simp] theorem Feed.trySave_brokers (f : Feed) : f.trySave.brokers = f.brokers := by
  rw [Feed.trySave]; split <;> rfl

/-- Until it is sent, a task whose record is there stays in the feed. -/
theorem Feed.Keeps.step {e : FeedEvent} (h : f.Keeps r) (hr : Has s.db r)
    (hok : FeedConsumed s f e) (hs : f.step s.db e = some f') : s.Sent r ∨ f'.Keeps r := by
  cases e with
  | tick =>
    obtain ⟨-, rfl⟩ := by simpa [Feed.step] using hs
    exact .inr (h.mono (by simp) (by simp) (by simp +contextual))
  | shutdown =>
    obtain ⟨-, ⟨v, hv, rfl⟩, -⟩ | ⟨-, b, hb, v, hv, rfl⟩ : f.phase = .running ∧ _ ∨ _ ∧ _ := by
      simpa only [Feed.Keeps, and_or_left] using h
    · exact .inl (hok.1 v hv hr)
    · exact .inl (hok.2 b hb v hv hr)
  | query =>
    obtain ⟨-, reader, -, rfl⟩ := by simpa [Feed.step] using hs
    exact .inr (h.mono rfl (by simp) (by simp +contextual))
  | visit =>
    simp only [Feed.step] at hs
    split at hs
    · simp at hs
    · obtain rfl := Option.some.inj hs
      exact .inr (h.mono rfl (by simp) (by simp +contextual))
    · obtain ⟨-, rfl⟩ := by simpa using hs
      exact .inr (h.mono rfl (by simp +contextual) (by simp +contextual))
  | push t checkpoint =>
    obtain ⟨-, rfl⟩ := by simpa [Feed.step] using hs
    refine .inr (h.mono ?_ ?_ ?_) <;> cases checkpoint <;> simp +contextual
  | receive j =>
    simp only [Feed.step] at hs
    split at hs
    · rename_i t channel hj hchannel
      obtain rfl := Option.some.inj hs
      have hset : .holding t ∈ f.brokers.set j (.holding t) := mem_set_self hj
      refine .inr ⟨h.1, ?_⟩
      rcases h.2 with ⟨⟨v, hv, rfl⟩, -⟩ | ⟨b, hb, v, hv, rfl⟩
      · -- the first task goes into the hand of the broker, the others stay for it
        rw [hchannel, List.mem_cons] at hv
        rcases hv with rfl | hv
        · exact .inr ⟨_, hset, v, rfl, rfl⟩
        · exact .inl ⟨⟨v, hv, rfl⟩, _, hset, by simp [Broker.Live]⟩
      · refine .inr ⟨b, mem_set_of_ne hj hb ?_, v, hv, rfl⟩
        rintro rfl
        simp [Broker.task?] at hv
    · simp at hs
  | stop j =>
    simp only [Feed.step] at hs
    split at hs
    · rename_i hj
      obtain rfl := Option.some.inj hs
      exact h.replace hr hj (by simp [Broker.task?]) (hok.imp_left fun hlive ↦ hlive.set .done)
    · simp at hs
  | release j =>
    simp only [Feed.step] at hs
    split at hs
    · rename_i hj
      obtain rfl := Option.some.inj hs
      refine .inr (h.mono rfl (by simp) fun b hb hlive ↦ ?_)
      obtain ⟨k, hk⟩ := List.mem_iff_getElem?.mp hb
      refine List.mem_eraseIdx_iff_getElem?.mpr ⟨k, ?_, hk⟩
      rintro rfl
      exact hlive (Option.some.inj (hk.symm.trans hj))
    · simp at hs
  | cancel | pull | call | update secs | returns =>
    obtain ⟨-, rfl⟩ := by simpa [Feed.step] using hs
    exact .inr (h.mono rfl (by simp) (by simp +contextual))

end

/-! ## The invariant -/

/-- The config goes on from zero, or from behind an index that has arrived. -/
def Reached (s : State) (n : ℕ) : Prop := n = 0 ∨ ∃ a ∈ s.arrived, n = a + 1

/-- Every stored unscheduled task below `n` was sent, or the feed has it. -/
def Covered (q : GoString) (s : State) (n : ℕ) : Prop :=
  ∀ u, Stored s.db u → IsFifo q u → taskIndex u < n → s.Passed (recordKey u)

/-- A config that may be saved: what it has passed is covered. -/
structure Vouched (q : GoString) (s : State) (c : QueueConfig) (n : ℕ) : Prop where
  id_eq : c.id = q
  next_eq : (nextIndex c).map UInt64.toNat = some n
  reached : Reached s n
  covered : Covered q s n

structure FeedInv (q : GoString) (s : State) (f : Feed) : Prop where
  saving : ∀ c ∈ f.saving, ∃ n, Vouched q s c n
  reading : ∃ n, Reads q s.db f.reader n ∧ Vouched q s f.reader.settings n
  ahead : ∀ t ∈ f.reader.ahead, taskIndex t ∈ s.arrived

structure Inv (q : GoString) (s : State) : Prop where
  only : OnlyQueue q s.db
  arrived : ∀ u, Stored s.db u → IsFifo q u → taskIndex u ∈ s.arrived
  small : ∀ a ∈ s.arrived, a + 1 < 2 ^ 64
  config : ∀ c ∈ settingStoreGet s.db q, ∃ n, Vouched q s c n
  feed : ∀ f ∈ s.feed, FeedInv q s f

/-- What was covered before stays covered. -/
structure Carries (q : GoString) (s s' : State) : Prop where
  arrived : ∀ a ∈ s.arrived, a ∈ s'.arrived
  covered : ∀ n, Reached s n → Covered q s n → Covered q s' n

section

variable {q : GoString} {s s' : State} {f f' : Feed} {n : ℕ}

theorem Vouched.mono {c : QueueConfig} (h : Vouched q s c n) (hs : Carries q s s') :
    Vouched q s' c n :=
  ⟨h.id_eq, h.next_eq, h.reached.imp_right fun ⟨a, ha, hn⟩ ↦ ⟨a, hs.arrived a ha, hn⟩,
    hs.covered n h.reached h.covered⟩

/-- The store has no new record below an index that has arrived, and records in the store stay
passed. -/
theorem Carries.of (harrived : ∀ a ∈ s.arrived, a ∈ s'.arrived)
    (hstored : ∀ n u, Reached s n → Stored s'.db u → IsFifo q u → taskIndex u < n →
      ∃ v, Stored s.db v ∧ IsFifo q v ∧ recordKey v = recordKey u)
    (hpassed : ∀ r, Has s.db r → s.Passed r → s'.Passed r) : Carries q s s' := by
  refine ⟨harrived, fun n hn h u hu hfifo hlt ↦ ?_⟩
  obtain ⟨v, hv, hvfifo, heq⟩ := hstored n u hn hu hfifo hlt
  have hidx := (hvfifo.recordKey_eq_iff hfifo).mp heq
  rw [← heq]
  refine hpassed _ ?_ (h v hv hvfifo (hidx ▸ hlt))
  obtain ⟨k, hk, hget⟩ := hv
  exact ⟨k, hk, by simp [hget]⟩

theorem Carries.of_frame (harrived : s'.arrived = s.arrived)
    (hdb : ∀ k, IsTaskKey k → s'.db[k]? = s.db[k]?)
    (hpassed : ∀ r, Has s.db r → s.Passed r → s'.Passed r) : Carries q s s' :=
  .of (harrived ▸ fun _ ha ↦ ha)
    (fun _ u _ hu hfifo _ ↦ ⟨u, (stored_congr hdb).mp hu, hfifo, rfl⟩) hpassed

theorem FeedInv.store (h : FeedInv q s f) (hs : Carries q s s')
    (hdb : ∀ t, Stored s'.db t → IsFifo q t →
      (∃ u, Stored s.db u ∧ IsFifo q u ∧ taskIndex u = taskIndex t) ∨
        ∀ a ∈ s.arrived, a < taskIndex t) : FeedInv q s' f := by
  obtain ⟨n, hreads, hvouched⟩ := h.reading
  refine ⟨fun c hc ↦ (h.saving c hc).imp fun n hn ↦ hn.mono hs,
    ⟨n, hreads.store fun t ht hfifo _ ↦ ?_, hvouched.mono hs⟩,
    fun t ht ↦ hs.arrived _ (h.ahead t ht)⟩
  exact (hdb t ht hfifo).imp_right fun hlt u hu ↦ hlt _ (h.ahead u hu)

theorem inv_init (q : GoString) : Inv q {} where
  only := onlyQueue_empty q
  arrived := by simp [Stored]
  small := by simp
  config := by simp [settingStoreGet]
  feed := by simp

/-! ### Tasks come and go -/

theorem settingStoreGet_congr {db db' : DB} (h : db'[getConfigKey q]? = db[getConfigKey q]?) :
    settingStoreGet db' q = settingStoreGet db q := by
  rw [settingStoreGet, settingStoreGet, h]

theorem Inv.arrive (h : Inv q s) {tasks : List Task} {si : Bool} {db : DB}
    (hq : ∀ t ∈ tasks, t.queue = q)
    (hsorted : (s.arrived ++ tasks.map taskIndex).Pairwise (· < ·))
    (hok : ∀ t ∈ tasks, taskIndex t + 1 < 2 ^ 64) (hs : saveAll tasks si s.db = some db) :
    Inv q { s with db, arrived := s.arrived ++ tasks.map taskIndex } := by
  have hnew : ∀ t ∈ tasks, ∀ a ∈ s.arrived, a < taskIndex t := fun t ht a ha ↦
    (List.pairwise_append.mp hsorted).2.2 a ha _ (List.mem_map_of_mem ht)
  have hcarries : Carries q s { s with db, arrived := s.arrived ++ tasks.map taskIndex } := by
    refine .of (fun a ha ↦ List.mem_append_left _ ha) (fun n u hn hu hfifo hlt ↦ ?_) fun _ _ hp ↦ hp
    rcases mem_or_stored_of_saveAll hs hu with ht | hold
    · -- a new task lies behind every index that has arrived
      rcases hn with rfl | ⟨a, ha, rfl⟩
      · omega
      · have := hnew u ht a ha
        omega
    · exact ⟨u, hold, hfifo, rfl⟩
  refine ⟨h.only.saveAll hq hs, fun u hu hfifo ↦ ?_, fun a ha ↦ ?_, fun c hc ↦ ?_, fun f hf ↦ ?_⟩
  · rcases mem_or_stored_of_saveAll hs hu with ht | hold
    · exact List.mem_append_right _ (List.mem_map_of_mem ht)
    · exact List.mem_append_left _ (h.arrived u hold hfifo)
  · rcases List.mem_append.mp ha with ha | ha
    · exact h.small a ha
    · obtain ⟨t, ht, rfl⟩ := List.mem_map.mp ha
      exact hok t ht
  · rw [settingStoreGet_congr (getElem?_saveAll_config hs q)] at hc
    exact (h.config c hc).imp fun n hn ↦ hn.mono hcarries
  · refine (h.feed f hf).store hcarries fun t ht hfifo ↦ ?_
    rcases mem_or_stored_of_saveAll hs ht with hmem | hold
    · exact .inr (hnew t hmem)
    · exact .inl ⟨t, hold, hfifo, rfl⟩

theorem Inv.rewrite (h : Inv q s) {db : DB} (honly : OnlyQueue q db)
    (hstored : ∀ u, Stored db u → IsFifo q u →
      ∃ v, Stored s.db v ∧ IsFifo q v ∧ recordKey v = recordKey u)
    (hconfig : db[getConfigKey q]? = s.db[getConfigKey q]?) : Inv q { s with db } := by
  have hcarries : Carries q s { s with db } :=
    .of (fun _ ha ↦ ha) (fun _ u _ hu hfifo _ ↦ hstored u hu hfifo) fun _ _ hp ↦ hp
  have hindex : ∀ u, Stored db u → IsFifo q u →
      ∃ v, Stored s.db v ∧ IsFifo q v ∧ taskIndex v = taskIndex u := by
    intro u hu hfifo
    obtain ⟨v, hv, hvfifo, heq⟩ := hstored u hu hfifo
    exact ⟨v, hv, hvfifo, (hvfifo.recordKey_eq_iff hfifo).mp heq⟩
  refine ⟨honly, fun u hu hfifo ↦ ?_, h.small, fun c hc ↦ ?_, fun f hf ↦ ?_⟩
  · obtain ⟨v, hv, hvfifo, heq⟩ := hindex u hu hfifo
    exact heq ▸ h.arrived v hv hvfifo
  · rw [settingStoreGet_congr hconfig] at hc
    exact (h.config c hc).imp fun n hn ↦ hn.mono hcarries
  · exact (h.feed f hf).store hcarries fun t ht hfifo ↦ .inl (hindex t ht hfifo)

theorem Inv.delete (h : Inv q s) (acks : List Ack) :
    Inv q { s with db := deleteAll acks s.db } := by
  refine h.rewrite ?_ (fun u hu hfifo ↦ ⟨u, stored_of_deleteAll hu, hfifo, rfl⟩) ?_
  · intro k v hk hv
    rw [getElem?_deleteAll] at hv
    split at hv
    · simp at hv
    · exact h.only k v hk hv
  · rw [getElem?_deleteAll, if_neg]
    rintro ⟨a, -, ha⟩
    exact not_isTaskKey_config q (isTaskKey_ackKey ha)

theorem Inv.writeBack (h : Inv q s) {tasks : List Task} {db : DB} (hq : ∀ t ∈ tasks, t.queue = q)
    (hok : ∀ t ∈ tasks, ∃ k ∈ recordKey t, s.db[k]? ≠ none)
    (hs : saveAll tasks false s.db = some db) : Inv q { s with db } := by
  refine h.rewrite (h.only.saveAll hq hs) (fun u hu hfifo ↦ ?_) (getElem?_saveAll_config hs q)
  rcases mem_or_stored_of_saveAll hs hu with ht | hold
  · obtain ⟨k, hk, hne⟩ := hok u ht
    exact h.only.exists_stored hfifo hk hne
  · exact ⟨u, hold, hfifo, rfl⟩

/-! ### Steps of the feed -/

theorem Inv.setFeed (h : Inv q s) {feed : Option Feed} {sent : List Task}
    (hcarries : Carries q s { s with feed, sent })
    (hfeed : ∀ f ∈ feed, FeedInv q { s with feed, sent } f) : Inv q { s with feed, sent } :=
  ⟨h.only, h.arrived, h.small, fun c hc ↦ (h.config c hc).imp fun _ hn ↦ hn.mono hcarries, hfeed⟩

theorem FeedInv.sameReader (h : FeedInv q s f) (hs : Carries q s s')
    (hdb : ∀ t, Stored s'.db t → Stored s.db t) (hreader : f'.reader = f.reader)
    (hsaving : ∀ c ∈ f'.saving, c ∈ f.saving) : FeedInv q s' f' := by
  obtain ⟨n, hreads, hvouched⟩ := h.reading
  refine ⟨fun c hc ↦ (h.saving c (hsaving c hc)).imp fun _ hn ↦ hn.mono hs, ⟨n, ?_, ?_⟩,
    fun t ht ↦ ?_⟩
  · rw [hreader]
    exact hreads.store fun t ht hfifo _ ↦ .inl ⟨t, hdb t ht, hfifo, rfl⟩
  · rw [hreader]
    exact hvouched.mono hs
  · rw [hreader] at ht
    exact hs.arrived _ (h.ahead t ht)

theorem FeedInv.withSettings (h : FeedInv q s f) (hs : Carries q s s') (hdb : s'.db = s.db)
    (settings : QueueConfig) (hid : settings.id = f.reader.settings.id)
    (hnext : nextIndex settings = nextIndex f.reader.settings)
    (hreader : f'.reader = { f.reader with settings }) (hsaving : f'.saving = f.saving) :
    FeedInv q s' f' := by
  obtain ⟨n, hreads, hvouched⟩ := h.reading
  have hvouched' : Vouched q s settings n :=
    ⟨hid.trans hvouched.id_eq, hnext ▸ hvouched.next_eq, hvouched.reached, hvouched.covered⟩
  refine ⟨fun c hc ↦ (h.saving c (hsaving ▸ hc)).imp fun _ hn ↦ hn.mono hs, ⟨n, ?_, ?_⟩,
    fun t ht ↦ ?_⟩
  · rw [hreader, hdb]
    exact hreads.withSettings (hid.trans hvouched.id_eq) hnext
  · rw [hreader]
    exact hvouched'.mono hs
  · rw [hreader] at ht
    exact hs.arrived _ (h.ahead t ht)

theorem FeedInv.trySave (h : FeedInv q s f) : FeedInv q s f.trySave := by
  obtain ⟨n, hreads, hvouched⟩ := h.reading
  refine ⟨fun c hc ↦ ?_, ⟨n, ?_, ?_⟩, ?_⟩
  · rw [Feed.trySave] at hc
    split at hc
    · exact h.saving c hc
    · obtain rfl : f.reader.settings = c := by simpa using hc
      exact ⟨n, hvouched⟩
  · rwa [Feed.trySave_reader]
  · rwa [Feed.trySave_reader]
  · rw [Feed.trySave_reader]
    exact h.ahead

theorem Carries.feedStep {e : FeedEvent} (hf : s.feed = some f) (hok : FeedConsumed s f e)
    (hs : f.step s.db e = some f') : Carries q s { s with feed := some f' } := by
  refine .of_frame rfl (fun _ _ ↦ rfl) fun r hr hp ↦ ?_
  rcases hp with hsent | ⟨g, hg, hkeeps⟩
  · exact .inl hsent
  · obtain rfl : f = g := Option.some.inj (hf.symm.trans hg)
    exact (hkeeps.step hr hok hs).imp_right fun h ↦ ⟨f', rfl, h⟩

/-- A task that is pushed is in the channel of a running feed with a consumer, so the checkpoint may
move to it. -/
theorem FeedInv.visit (h : FeedInv q s f) {reader : UndeliveredReader} {t : Task}
    (hr : f.reader.visit = some (reader, some t))
    (hok : f.reader.ahead ≠ [] → f.phase = .running ∧ HasLive f.brokers)
    (hcarries : Carries q s
      { s with feed := some { f with reader, channel := f.channel ++ [t] } }) :
    FeedInv q { s with feed := some { f with reader, channel := f.channel ++ [t] } }
      { f with reader, channel := f.channel ++ [t] } := by
  obtain ⟨n, hreads, hvouched⟩ := h.reading
  obtain ⟨hcons, hreads'⟩ := hreads.visit hr
  have hhead : t ∈ f.reader.ahead := hcons ▸ List.mem_cons_self
  obtain ⟨hphase, hlive⟩ := hok (List.ne_nil_of_mem hhead)
  refine ⟨fun c hc ↦ (h.saving c hc).imp fun _ hn ↦ hn.mono hcarries, ⟨taskIndex t + 1, hreads',
    ⟨hreads'.id_eq, hreads'.next_eq, .inr ⟨_, h.ahead t hhead, rfl⟩, ?_⟩⟩, fun u hu ↦ ?_⟩
  · intro u hu hfifo hlt
    by_cases hn : taskIndex u < n
    · exact (hvouched.mono hcarries).covered u hu hfifo hn
    · have heq : taskIndex u = taskIndex t := by
        rcases hreads.le_or_eq hr hu hfifo (by omega) with heq | hlt'
        · exact heq
        · omega
      refine .inr ⟨_, rfl, hphase, .inl ⟨⟨t, by simp, ?_⟩, hlive⟩⟩
      exact ((hreads.fifo t hhead).recordKey_eq_iff hfifo).mpr heq.symm
  · exact h.ahead u (hcons ▸ List.mem_cons_of_mem t hu)

theorem FeedInv.step {e : FeedEvent} (hinv : Inv q s) (hf : s.feed = some f)
    (hok : FeedConsumed s f e) (hs : f.step s.db e = some f') :
    FeedInv q { s with feed := some f' } f' := by
  have hcarries : Carries q s { s with feed := some f' } := .feedStep hf hok hs
  have h := hinv.feed f hf
  obtain ⟨n, hreads, hvouched⟩ := h.reading
  cases e with
  | tick =>
    obtain ⟨-, rfl⟩ := by simpa [Feed.step] using hs
    exact h.trySave.sameReader hcarries (fun _ ht ↦ ht) rfl fun _ hc ↦ hc
  | query =>
    obtain ⟨-, reader, hr, rfl⟩ := by simpa [Feed.step] using hs
    obtain ⟨hreads', hmem⟩ := hreads.query hinv.only
      (fun t ht hfifo ↦ hinv.small _ (hinv.arrived t ht hfifo)) hr
    have hsettings : reader.settings = f.reader.settings := UndeliveredReader.settings_query hr
    refine ⟨fun c hc ↦ (h.saving c hc).imp fun _ hn ↦ hn.mono hcarries,
      ⟨n, hreads', hsettings ▸ hvouched.mono hcarries⟩, fun t ht ↦ ?_⟩
    obtain ⟨hstored, hfifo, -⟩ := (hmem t).mp ht
    exact hinv.arrived t hstored hfifo
  | visit =>
    simp only [Feed.step] at hs
    split at hs
    · simp at hs
    · rename_i reader hr
      obtain rfl := Option.some.inj hs
      obtain ⟨-, hidle, hreads'⟩ := hreads.visit_none hr
      refine ⟨fun c hc ↦ (h.saving c hc).imp fun _ hn ↦ hn.mono hcarries,
        ⟨n, hreads', ⟨hreads'.id_eq, hreads'.next_eq, hvouched.reached,
          (hvouched.mono hcarries).covered⟩⟩, fun t ht ↦ ?_⟩
      simp [UndeliveredReader.ahead, hidle] at ht
    · rename_i reader t hr
      obtain ⟨-, rfl⟩ := by simpa using hs
      exact h.visit hr hok hcarries
  | cancel =>
    obtain ⟨-, rfl⟩ := by simpa [Feed.step] using hs
    exact ⟨fun c hc ↦ (h.saving c hc).imp fun _ hn ↦ hn.mono hcarries,
      ⟨n, .idle hreads.id_eq hreads.next_eq, hvouched.mono hcarries⟩,
      by simp [UndeliveredReader.ahead]⟩
  | push t checkpoint =>
    obtain ⟨-, rfl⟩ := by simpa [Feed.step] using hs
    cases checkpoint with
    | false => exact h.sameReader hcarries (fun _ ht ↦ ht) rfl fun _ hc ↦ hc
    | true =>
      exact h.withSettings hcarries rfl (schedCheckpointerSet f.reader.settings t) rfl rfl rfl rfl
  | update secs =>
    obtain ⟨-, rfl⟩ := by simpa [Feed.step] using hs
    refine h.withSettings hcarries rfl (updateQueue f.reader.settings secs) ?_ ?_ rfl rfl
    all_goals rw [updateQueue]; split <;> rfl
  | receive i | stop i | release i =>
    simp only [Feed.step] at hs
    split at hs
    · obtain rfl := Option.some.inj hs
      exact h.sameReader hcarries (fun _ ht ↦ ht) rfl fun _ hc ↦ hc
    · simp at hs
  | shutdown | pull | call | returns =>
    obtain ⟨-, rfl⟩ := by simpa [Feed.step] using hs
    exact h.sameReader hcarries (fun _ ht ↦ ht) rfl fun _ hc ↦ hc

/-! ### Opening, saving and closing -/

/-- The feed starts from the saved config, or from the default one, which has passed nothing. -/
theorem Inv.feedInv_load (h : Inv q s) (hs : Carries q s s') : FeedInv q s' (load s.db q) := by
  have hidle : ∀ (c : QueueConfig) (phase : Phase) (n : ℕ), Vouched q s c n →
      FeedInv q s' { reader := { settings := c }, phase } := fun c phase n hn ↦
    ⟨by simp, ⟨n, .idle hn.id_eq hn.next_eq, hn.mono hs⟩, by simp [UndeliveredReader.ahead]⟩
  rw [load]
  split
  · rename_i c hc
    obtain ⟨n, hn⟩ := h.config c hc
    exact hidle c .running n hn
  · refine (hidle (defaultConfig q) .loading 0 ⟨rfl, ?_, .inl rfl, ?_⟩).trySave
    · rw [nextIndex_default]
      rfl
    · exact fun _ _ _ hlt ↦ absurd hlt (Nat.not_lt_zero _)

theorem Inv.openFeed (h : Inv q s) (hf : s.feed = none) :
    Inv q { s with feed := some (load s.db q) } := by
  have hcarries : Carries q s { s with feed := some (load s.db q) } := by
    refine .of_frame rfl (fun _ _ ↦ rfl) fun r _ hp ↦ .inl ?_
    rcases hp with hsent | ⟨f, hmem, -⟩
    · exact hsent
    · simp [hf] at hmem
  refine h.setFeed hcarries fun f hmem ↦ ?_
  exact Option.some.inj hmem ▸ h.feedInv_load hcarries

theorem Feed.Keeps.saved {r : Option Key} (h : f.Keeps r) (c : QueueConfig) (acked : Bool) :
    ∃ f' ∈ f.saved c acked, f'.Keeps r := by
  refine ⟨{ f with saving := none, lastSaved := if acked then some c else f.lastSaved }, ?_,
    h.mono rfl (fun _ hv ↦ hv) fun _ hb _ ↦ hb⟩
  simp [Feed.saved, h.1]

theorem Feed.saved_reader {c : QueueConfig} {acked : Bool} (h : f' ∈ f.saved c acked) :
    f'.reader = f.reader ∧ f'.saving = none := by
  rw [Feed.saved] at h
  split at h
  · split at h
    · obtain rfl := Option.some.inj h
      exact ⟨rfl, rfl⟩
    · simp at h
  · obtain rfl := Option.some.inj h
    exact ⟨rfl, rfl⟩
  · obtain rfl := Option.some.inj h
    exact ⟨rfl, rfl⟩
  · simp at h

theorem Inv.saved (h : Inv q s) (hf : s.feed = some f) {c : QueueConfig} (hc : f.saving = some c)
    (stored acked : Bool) :
    Inv q { s with
      db := if stored then saveSettings c s.db else s.db
      feed := f.saved c acked } := by
  obtain ⟨n, hn⟩ := (h.feed f hf).saving c hc
  have hlookup : ∀ k, (if stored then saveSettings c s.db else s.db)[k]?
      = if stored = true ∧ getConfigKey q = k then some (.config c) else s.db[k]? := by
    intro k
    cases stored with
    | false => simp
    | true => simp [getElem?_saveSettings, hn.id_eq]
  have hframe : ∀ k, IsTaskKey k →
      (if stored then saveSettings c s.db else s.db)[k]? = s.db[k]? := by
    intro k hk
    rw [hlookup, if_neg]
    rintro ⟨-, rfl⟩
    exact not_isTaskKey_config q hk
  have hcarries : Carries q s
      { s with db := if stored then saveSettings c s.db else s.db, feed := f.saved c acked } := by
    refine .of_frame rfl hframe fun r _ hp ↦ ?_
    rcases hp with hsent | ⟨g, hg, hkeeps⟩
    · exact .inl hsent
    · obtain rfl : f = g := Option.some.inj (hf.symm.trans hg)
      exact .inr (hkeeps.saved c acked)
  have hstored := fun t ↦ (stored_congr (t := t) hframe).mp
  refine ⟨h.only.congr hframe, fun u hu hfifo ↦ h.arrived u (hstored u hu) hfifo, h.small,
    fun d hd ↦ ?_, fun f' hf' ↦ ?_⟩
  · -- the stored config is the one that Raft is done with, or what it was
    rw [settingStoreGet, hlookup] at hd
    by_cases hst : stored = true
    · rw [if_pos ⟨hst, rfl⟩] at hd
      obtain rfl : c = d := by simpa using hd
      exact ⟨n, hn.mono hcarries⟩
    · rw [if_neg (fun hc ↦ hst hc.1), ← settingStoreGet] at hd
      exact (h.config d hd).imp fun _ hn ↦ hn.mono hcarries
  · obtain ⟨hreader, hsaving⟩ := Feed.saved_reader hf'
    exact (h.feed f hf).sameReader hcarries hstored hreader (by simp [hsaving])

theorem Inv.send (h : Inv q s) (hf : s.feed = some f) {i : ℕ} {t : Task} {ok : Bool}
    (hi : f.brokers[i]? = some (.holding t))
    (hok : ok = false → HasLive (f.brokers.eraseIdx i) ∨ ∀ v ∈ f.channel, s.Settled v) :
    Inv q { s with
      sent := s.sent ++ [t]
      feed := some { f with brokers := f.brokers.set i (if ok then .waiting else .done) } } := by
  have hsent : ∀ r, s.Sent r → State.Sent { s with sent := s.sent ++ [t] } r :=
    fun r ⟨v, hv, hr⟩ ↦ ⟨v, List.mem_append_left _ hv, hr⟩
  have hrest : HasLive (f.brokers.set i (if ok then .waiting else .done)) ∨
      ∀ v ∈ f.channel, State.Settled { s with sent := s.sent ++ [t] } v := by
    cases ok with
    | true => exact .inl ⟨.waiting, mem_set_self hi, by simp [Broker.Live]⟩
    | false =>
      exact (hok rfl).imp (fun hlive ↦ hlive.set .done)
        fun hsettled v hv hhas ↦ hsent _ (hsettled v hv hhas)
  have htask : ∀ v ∈ (Broker.holding t).task?,
      State.Sent { s with sent := s.sent ++ [t] } (recordKey v) := by
    intro v hv
    obtain rfl : t = v := by simpa [Broker.task?] using hv
    exact ⟨t, by simp, rfl⟩
  have hcarries : Carries q s { s with
      sent := s.sent ++ [t]
      feed := some { f with brokers := f.brokers.set i (if ok then .waiting else .done) } } := by
    refine .of_frame rfl (fun _ _ ↦ rfl) fun r hr hp ↦ ?_
    rcases hp with hold | ⟨g, hg, hkeeps⟩
    · exact .inl (hsent r hold)
    · obtain rfl : f = g := Option.some.inj (hf.symm.trans hg)
      exact (hkeeps.replace (s := { s with sent := s.sent ++ [t] }) hr hi htask hrest).imp_right
        fun hk ↦ ⟨_, rfl, hk⟩
  refine h.setFeed hcarries fun f' hf' ↦ ?_
  obtain rfl := Option.some.inj hf'
  exact (h.feed f hf).sameReader hcarries (fun _ ht ↦ ht) rfl fun _ hc ↦ hc

theorem Inv.endFeed (h : Inv q s) (hf : s.feed = some f) (hkeeps : ∀ r, ¬f.Keeps r)
    {g : Feed} (hg : FeedInv q s g) {feed : Option Feed}
    (hfeed : ∀ f' ∈ feed, f'.reader = g.reader ∧ f'.saving = g.saving) : Inv q { s with feed } := by
  have hcarries : Carries q s { s with feed } := by
    refine .of_frame rfl (fun _ _ ↦ rfl) fun r _ hp ↦ .inl ?_
    rcases hp with hsent | ⟨g, hg, hk⟩
    · exact hsent
    · obtain rfl : f = g := Option.some.inj (hf.symm.trans hg)
      exact absurd hk (hkeeps r)
  refine h.setFeed hcarries fun f' hf' ↦ ?_
  obtain ⟨hreader, hsaving⟩ := hfeed f' hf'
  exact hg.sameReader hcarries (fun _ ht ↦ ht) hreader (hsaving ▸ fun _ hc ↦ hc)

theorem Inv.step {e : Event} (h : Inv q s) (hok : Consumed q s e)
    (hs : Checkpoint.step q s e = some s') : Inv q s' := by
  cases e with
  | arrive tasks si =>
    simp only [Checkpoint.step] at hs
    split at hs
    · rename_i hcond
      obtain ⟨db, hdb, rfl⟩ := Option.map_eq_some_iff.mp hs
      exact h.arrive hcond.1 hcond.2 hok hdb
    · simp at hs
  | delete acks => exact Option.some.inj hs ▸ h.delete acks
  | writeBack tasks =>
    simp only [Checkpoint.step] at hs
    split at hs
    · rename_i hq
      obtain ⟨db, hdb, rfl⟩ := Option.map_eq_some_iff.mp hs
      exact h.writeBack hq hok hdb
    · simp at hs
  | openFeed =>
    simp only [Checkpoint.step] at hs
    split at hs
    · rename_i hf
      exact Option.some.inj hs ▸ h.openFeed hf
    · simp at hs
  | saved stored acked =>
    simp only [Checkpoint.step] at hs
    split at hs
    · simp at hs
    · rename_i f hf
      obtain ⟨c, hc, rfl⟩ := Option.map_eq_some_iff.mp hs
      exact h.saved hf hc stored acked
  | send i ok =>
    simp only [Checkpoint.step] at hs
    split at hs
    · simp at hs
    · rename_i f hf
      split at hs
      · rename_i t ht
        exact Option.some.inj hs ▸ h.send hf ht fun hfail ↦ hok hfail f hf
      · simp at hs
  | close =>
    simp only [Checkpoint.step] at hs
    split at hs
    · simp at hs
    · rename_i f hf
      split at hs
      · rename_i hcond
        obtain rfl := Option.some.inj hs
        refine h.endFeed hf ?_ (h.feed f hf) (by simp)
        -- without a broker there is neither a consumer nor a task in hand
        rintro r ⟨-, ⟨-, b, hb, -⟩ | ⟨b, hb, -⟩⟩ <;> simp [hcond.2.1] at hb
      · simp at hs
  | flush =>
    simp only [Checkpoint.step] at hs
    split at hs
    · simp at hs
    · rename_i f hf
      split at hs
      · rename_i hcond
        obtain rfl := Option.some.inj hs
        refine h.endFeed hf (fun r hk ↦ ?_) (h.feed f hf).trySave fun f' hf' ↦ ?_
        · exact absurd (hcond.1.symm.trans hk.1) (by decide)
        · split at hf'
          · simp at hf'
          · obtain rfl := Option.some.inj hf'
            exact ⟨rfl, rfl⟩
      · simp at hs
  | feed e =>
    simp only [Checkpoint.step] at hs
    split at hs
    · simp at hs
    · rename_i f hf
      obtain ⟨f', hf', rfl⟩ := Option.map_eq_some_iff.mp hs
      refine h.setFeed (.feedStep hf (hok f hf) hf') fun g hg ↦ ?_
      exact Option.some.inj hg ▸ FeedInv.step h hf (hok f hf) hf'

/-- A checkpoint other than that of a new queue ends below the next index. -/
theorem Vouched.lt {c : QueueConfig} (h : Vouched q s c n) (hc : ¬AtDefault c) {last : TaskID}
    (hlast : mustParseString c.lastDeliveredQueuedTask = some last) : n = last.index.toNat + 1 := by
  have hnext := h.next_eq
  rw [nextIndex, hlast, Option.map_some, Option.map_some, Option.some.injEq, UInt64.toNat_add,
    UInt64.toNat_one] at hnext
  rw [AtDefault, hlast, Option.map_some, Option.some.injEq, ← UInt64.toNat_inj,
    show maxUint64.toNat = 2 ^ 64 - 1 by decide] at hc
  have hlt := last.index.toNat_lt
  rw [← hnext, Nat.mod_eq_of_lt (by omega)]

end

/-- **A saved checkpoint passes nothing that no client will be sent**, when tasks are read for a
consumer. Whenever Raft is done with a config of the feed and the peer saves it, every stored
unscheduled task up to its checkpoint has been sent, or waits in the channel of the running feed,
which has a consumer. -/
theorem accounted_of_consumed {q : GoString} {es : List Event} {s : State} {f : Feed}
    {c : QueueConfig} {acked : Bool}
    (hok : Runs.Meets (step q) (Consumed q) {} (es ++ [.saved true acked]))
    (hrun : Runs.run (step q) {} es = some s) (hf : s.feed = some f) (hc : f.saving = some c) :
    Accounted q s f c := by
  obtain ⟨hbefore, hsave⟩ := (Runs.meets_append hrun).mp hok
  have hinv : Inv q s := Runs.Meets.invariant (P := Inv q) (fun _ _ _ h hok hs ↦ h.step hok hs)
    (inv_init q) hbefore hrun
  obtain ⟨hhands, hdefault⟩ := hsave.head rfl f hf
  obtain ⟨n, hn⟩ := (hinv.feed f hf).saving c hc
  rintro u hu hfifo ⟨last, hlast, hle⟩
  by_cases hmax : AtDefault c
  · -- the checkpoint of a new queue is past every task, but there is none
    have hmem : u ∈ handedOut s.db (.fifo q 0 maxUint64) :=
      hinv.only.mem_handedOut.mpr ⟨hu, hfifo, Nat.zero_le _⟩
    rw [hdefault c hc hmax] at hmem
    simp at hmem
  · have hlt : taskIndex u < n := by
      rw [hn.lt hmax hlast]
      omega
    rcases hn.covered u hu hfifo hlt with hsent | ⟨g, hg, hphase, hchannel | ⟨b, hb, v, hv, -⟩⟩
    · exact .inl hsent
    · obtain rfl : f = g := Option.some.inj (hf.symm.trans hg)
      exact .inr ⟨hchannel.1, hphase, hchannel.2⟩
    · obtain rfl : f = g := Option.some.inj (hf.symm.trans hg)
      rw [hhands b hb] at hv
      simp at hv

/-- A new queue is pulled from before its first task arrives, and the client is sent the task. -/
def pulled : List Event :=
  [.openFeed, .saved true true, .feed .pull, .arrive [firstTask] false, .feed .query, .feed .visit,
    .feed (.receive 0), .send 0 true, .feed .tick]

theorem accounted_of_consumed_pulled : ∃ s f c,
    Runs.run (step (lit "q")) {} pulled = some s ∧ s.feed = some f ∧ f.saving = some c ∧
      c.lastDeliveredQueuedTask = firstTask.id ∧ Accounted (lit "q") s f c := by
  have hok : Runs.Meets (step (lit "q")) (Consumed (lit "q")) {}
      (pulled ++ [.saved true true]) := by decide +kernel
  have hrun : ((Runs.run (step (lit "q")) {} pulled).bind fun s ↦ s.feed.bind (·.saving)).map
      (·.lastDeliveredQueuedTask) = some firstTask.id := by decide +kernel
  obtain ⟨c, hrun, hid⟩ := Option.map_eq_some_iff.mp hrun
  obtain ⟨s, hrun, hsaving⟩ := Option.bind_eq_some_iff.mp hrun
  obtain ⟨f, hf, hc⟩ := Option.bind_eq_some_iff.mp hsaving
  exact ⟨s, f, c, hrun, hf, hc, hid, accounted_of_consumed hok hrun hf hc⟩

/-- A new queue is looked at by `GetQueue`, and its first task arrives meanwhile. -/
def lookedAt : List Event :=
  [.openFeed, .saved true true, .feed .call, .arrive [firstTask] false, .feed .query, .feed .visit,
    .feed .returns, .close, .flush]

/-- The feed that was opened for `GetQueue` has read the task into its channel. On closing it saves
a checkpoint past the task, which no client was sent, and the channel is lost. -/
theorem not_accounted_lookedAt : ∃ s f c s',
    Runs.run (step (lit "q")) {} lookedAt = some s ∧ s.feed = some f ∧ f.saving = some c ∧
      ¬Accounted (lit "q") s f c ∧ step (lit "q") s (.saved true true) = some s' ∧
      settingStoreGet s'.db (lit "q") = some c ∧ s'.feed = none ∧ s'.sent = [] := by
  have hrun : ((Runs.run (step (lit "q")) {} lookedAt).bind fun s ↦ s.feed.bind fun f ↦
      f.saving.map fun c ↦ decide (f.phase = .flushing ∧ c.id = lit "q" ∧
        c.lastDeliveredQueuedTask = firstTask.id ∧ s.sent = [] ∧ Stored s.db firstTask))
      = some true := by decide +kernel
  obtain ⟨s, hrun, hs⟩ := Option.bind_eq_some_iff.mp hrun
  obtain ⟨f, hf, hs⟩ := Option.bind_eq_some_iff.mp hs
  obtain ⟨c, hc, hs⟩ := Option.map_eq_some_iff.mp hs
  obtain ⟨hphase, hid, hlast, hsent, hstored⟩ := of_decide_eq_true hs
  refine ⟨s, f, c, { s with db := saveSettings c s.db, feed := none }, hrun, hf, hc, ?_, ?_, ?_,
    rfl, hsent⟩
  · intro hacc
    have hlast' : ∃ last, mustParseString c.lastDeliveredQueuedTask = some last ∧
        taskIndex firstTask ≤ last.index.toNat := by
      rw [hlast]
      exact ⟨_, rfl, le_rfl⟩
    rcases hacc firstTask hstored (by decide +kernel) hlast' with ⟨v, hv, -⟩ | ⟨-, hrunning, -⟩
    · simp [hsent] at hv
    · exact absurd (hrunning.symm.trans hphase) (by decide)
  · simp [step, hf, hc, Feed.saved, hphase]
  · rw [settingStoreGet, getElem?_saveSettings, hid, if_pos rfl]

end Z4.Checkpoint
