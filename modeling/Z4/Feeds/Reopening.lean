import Z4.Feeds.Checkpoint

/-!
# Opening a feed again

A feed is closed when its last lease is given back, and another one is opened for the next lease.
All that is left of the first is the config that was saved last, which lags behind what the feed has
read: a save may fail, the last one included, and a crash does not wait for any. So tasks are read
again. What is not read again is what a saved checkpoint has passed, as long as that checkpoint does
not move back: along such runs, crashes included, the config in the store, the one that Raft has,
and the reader of the feed are in this order (`FeedOrdered`).

## Other configs

The feed's own saves keep the order. A config that is applied for another reason need not: one that
another leader has saved, or one of an earlier save that Raft reported as failed and has committed
all the same. Such a config may come in between as long as its checkpoint is in order too, that is
not before the saved one, and not past the reader of the feed or the config that Raft has from it
(`InOrder`). With no feed open only the first matters.

## Crashes

What was written to the store survives a crash. A config that Raft has when the peer crashes is in
the log or not, and the log is applied before a feed is opened again.
-/

namespace Z4.Checkpoint

open KeyValue

/-! ## The life of a peer -/

inductive Life where
  | event (e : Event)
  /-- A config is applied that is not the one the feed waits for. -/
  | other (c : QueueConfig)
  /-- The peer crashes; whether the config that Raft had is saved. -/
  | crash (stored : Bool)

/-- The store once the log has been applied. -/
def State.recovered (s : State) (stored : Bool) : DB :=
  match s.feed.bind (·.saving) with
  | some c => if stored then saveSettings c s.db else s.db
  | none => s.db

def live (q : GoString) (s : State) : Life → Option State
  | .event e => step q s e
  | .other c => some { s with db := saveSettings c s.db }
  | .crash stored => some { s with db := s.recovered stored, feed := none }

/-! ## The order of the checkpoints -/

/-- The config is the queue's, and its reader goes on from the index `n`. -/
def GoesOn (q : GoString) (c : QueueConfig) (n : ℕ) : Prop :=
  c.id = q ∧ (nextIndex c).map UInt64.toNat = some n

/-- The index the saved config goes on from, if there is one. -/
def savedNext (q : GoString) (db : DB) : ℕ :=
  (((settingStoreGet db q).bind nextIndex).map UInt64.toNat).getD 0

/-- The saved config is behind the one that Raft has, and that one behind the reader. -/
def FeedOrdered (q : GoString) (db : DB) (f : Feed) : Prop :=
  ∃ n, Reads q ∅ f.reader n ∧ savedNext q db ≤ n ∧
    ∀ c ∈ f.saving, ∃ m, GoesOn q c m ∧ savedNext q db ≤ m ∧ m ≤ n

structure Ordered (q : GoString) (s : State) : Prop where
  only : OnlyQueue q s.db
  small : ∀ t, Stored s.db t → taskIndex t + 1 < 2 ^ 64
  config : ∀ c ∈ settingStoreGet s.db q, GoesOn q c (savedNext q s.db)
  feed : ∀ f ∈ s.feed, FeedOrdered q s.db f

/-- The checkpoint of the config is not before the saved one, and not past the reader of the feed
or the config that Raft has from it. -/
def InOrder (q : GoString) (s : State) (c : QueueConfig) : Prop :=
  c.id = q ∧ ∃ m ∈ (nextIndex c).map UInt64.toNat, savedNext q s.db ≤ m ∧
    ∀ f ∈ s.feed, ∀ c' ∈ f.reader.settings :: f.saving.toList,
      ∀ m' ∈ (nextIndex c').map UInt64.toNat, m ≤ m'

instance (q : GoString) (s : State) (c : QueueConfig) : Decidable (InOrder q s c) :=
  inferInstanceAs (Decidable (_ ∧ ∃ m ∈ _, _ ∧ ∀ f ∈ _, ∀ c' ∈ _, ∀ m' ∈ _, _))

/-- No task is saved with the largest index, and other configs are in order. -/
def Orderly (q : GoString) (s : State) : Life → Prop
  | .event (.arrive tasks _) => ∀ t ∈ tasks, taskIndex t + 1 < 2 ^ 64
  | .event (.writeBack tasks) => ∀ t ∈ tasks, taskIndex t + 1 < 2 ^ 64
  | .other c => InOrder q s c
  | _ => True

instance (q : GoString) (s : State) : (e : Life) → Decidable (Orderly q s e)
  | .event (.arrive tasks _) => inferInstanceAs (Decidable (∀ t ∈ tasks, _))
  | .event (.writeBack tasks) => inferInstanceAs (Decidable (∀ t ∈ tasks, _))
  | .other c => inferInstanceAs (Decidable (InOrder q s c))
  | .event (.delete _) | .event .openFeed | .event (.saved _ _) | .event (.send _ _)
  | .event .close | .event .flush | .event (.feed _) | .crash _ => .isTrue trivial

section

variable {q : GoString} {s s' : State} {db db' : DB} {f f' : Feed} {c : QueueConfig} {m n : ℕ}

theorem ordered_init (q : GoString) : Ordered q {} where
  only := onlyQueue_empty q
  small := by simp [Stored]
  config := by simp [settingStoreGet]
  feed := by simp

theorem savedNext_congr (h : settingStoreGet db' q = settingStoreGet db q) :
    savedNext q db' = savedNext q db := by
  rw [savedNext, savedNext, h]

theorem savedNext_saveSettings (db : DB) (hc : GoesOn q c m) :
    settingStoreGet (saveSettings c db) q = some c ∧ savedNext q (saveSettings c db) = m := by
  have hget : settingStoreGet (saveSettings c db) q = some c := by
    rw [settingStoreGet, getElem?_saveSettings, hc.1, if_pos rfl]
  exact ⟨hget, by rw [savedNext, hget, Option.bind_some, hc.2, Option.getD_some]⟩

/-! ### Steps of the feed -/

theorem FeedOrdered.congr (h : FeedOrdered q db f) (hsaved : savedNext q db' = savedNext q db)
    (hreader : f'.reader = f.reader) (hsaving : ∀ c ∈ f'.saving, c ∈ f.saving) :
    FeedOrdered q db' f' := by
  obtain ⟨n, hreads, hle, hraft⟩ := h
  rw [FeedOrdered, hsaved, hreader]
  exact ⟨n, hreads, hle, fun c hc ↦ hraft c (hsaving c hc)⟩

theorem FeedOrdered.withReader (h : FeedOrdered q db f) (reader : UndeliveredReader)
    (hreads : ∀ n, Reads q ∅ f.reader n → ∃ n', n ≤ n' ∧ Reads q ∅ reader n')
    (hreader : f'.reader = reader) (hsaving : f'.saving = f.saving) : FeedOrdered q db f' := by
  obtain ⟨n, hn, hle, hraft⟩ := h
  obtain ⟨n', hnn', hn'⟩ := hreads n hn
  rw [FeedOrdered, hreader, hsaving]
  refine ⟨n', hn', hle.trans hnn', fun c hc ↦ ?_⟩
  obtain ⟨m, hm, hlem, hmn⟩ := hraft c hc
  exact ⟨m, hm, hlem, hmn.trans hnn'⟩

theorem FeedOrdered.trySave (h : FeedOrdered q db f) : FeedOrdered q db f.trySave := by
  obtain ⟨n, hreads, hle, hraft⟩ := h
  rw [FeedOrdered, Feed.trySave_reader]
  refine ⟨n, hreads, hle, fun c hc ↦ ?_⟩
  rw [Feed.trySave] at hc
  split at hc
  · exact hraft c hc
  · obtain rfl : f.reader.settings = c := by simpa using hc
    exact ⟨n, ⟨hreads.id_eq, hreads.next_eq⟩, hle, le_rfl⟩

theorem FeedOrdered.step {e : FeedEvent} (h : FeedOrdered q db f) (honly : OnlyQueue q db)
    (hsmall : ∀ t, Stored db t → taskIndex t + 1 < 2 ^ 64) (hs : f.step db e = some f') :
    FeedOrdered q db f' := by
  cases e with
  | tick =>
    obtain ⟨-, rfl⟩ := by simpa [Feed.step] using hs
    exact h.trySave
  | query =>
    obtain ⟨-, reader, hr, rfl⟩ := by simpa [Feed.step] using hs
    refine h.withReader reader (fun n hn ↦ ⟨n, le_rfl, ?_⟩) rfl rfl
    exact ((hn.of_query hr).query honly (fun t ht _ ↦ hsmall t ht) hr).1.forget
  | visit =>
    simp only [Feed.step] at hs
    split at hs
    · simp at hs
    · rename_i reader hr
      obtain rfl := Option.some.inj hs
      exact h.withReader reader (fun n hn ↦ ⟨n, le_rfl, (hn.visit_none hr).2.2⟩) rfl rfl
    · rename_i reader t hr
      obtain ⟨-, rfl⟩ := by simpa using hs
      refine h.withReader reader (fun n hn ↦ ⟨taskIndex t + 1, ?_, (hn.visit hr).2⟩) rfl rfl
      have := hn.from_next t ((hn.visit hr).1 ▸ List.mem_cons_self)
      omega
  | cancel =>
    obtain ⟨-, rfl⟩ := by simpa [Feed.step] using hs
    exact h.withReader _ (fun n hn ↦ ⟨n, le_rfl, .idle hn.id_eq hn.next_eq⟩) rfl rfl
  | push t checkpoint =>
    obtain ⟨-, rfl⟩ := by simpa [Feed.step] using hs
    cases checkpoint with
    | false => exact h.congr rfl rfl fun _ hc ↦ hc
    | true =>
      exact h.withReader { f.reader with settings := schedCheckpointerSet f.reader.settings t }
        (fun n hn ↦ ⟨n, le_rfl, hn.withSettings hn.id_eq rfl⟩) rfl rfl
  | update secs =>
    obtain ⟨-, rfl⟩ := by simpa [Feed.step] using hs
    refine h.withReader _ (fun n hn ↦ ⟨n, le_rfl, hn.withSettings ?_ ?_⟩) rfl rfl
    · rw [← hn.id_eq, updateQueue]
      split <;> rfl
    · rw [updateQueue]
      split <;> rfl
  | receive i | stop i | release i =>
    simp only [Feed.step] at hs
    split at hs
    · obtain rfl := Option.some.inj hs
      exact h.congr rfl rfl fun _ hc ↦ hc
    · simp at hs
  | shutdown | pull | call | returns =>
    obtain ⟨-, rfl⟩ := by simpa [Feed.step] using hs
    exact h.congr rfl rfl fun _ hc ↦ hc

/-! ### Steps of the peer -/

/-- The order is kept, and the saved checkpoint does not move back. -/
def Advances (q : GoString) (s s' : State) : Prop :=
  Ordered q s' ∧ savedNext q s.db ≤ savedNext q s'.db

theorem Ordered.rewrite (h : Ordered q s) (honly : OnlyQueue q db)
    (hsmall : ∀ t, Stored db t → taskIndex t + 1 < 2 ^ 64) {arrived : List ℕ}
    (hconfig : db[getConfigKey q]? = s.db[getConfigKey q]?) :
    Advances q s { s with db, arrived } := by
  have hget : settingStoreGet db q = settingStoreGet s.db q := settingStoreGet_congr hconfig
  have hsaved : savedNext q db = savedNext q s.db := savedNext_congr hget
  refine ⟨⟨honly, hsmall, ?_, fun f hf ↦ ?_⟩, hsaved.ge⟩
  · rw [hget, hsaved]
    exact h.config
  · exact (h.feed f hf).congr hsaved rfl fun _ hc ↦ hc

theorem Ordered.saveAll (h : Ordered q s) {tasks : List Task} {si : Bool} {arrived : List ℕ}
    (hq : ∀ t ∈ tasks, t.queue = q) (hnum : ∀ t ∈ tasks, taskIndex t + 1 < 2 ^ 64)
    (hs : saveAll tasks si s.db = some db) : Advances q s { s with db, arrived } := by
  refine h.rewrite (h.only.saveAll hq hs) (fun t ht ↦ ?_) (getElem?_saveAll_config hs q)
  rcases mem_or_stored_of_saveAll hs ht with hmem | hold
  · exact hnum t hmem
  · exact h.small t hold

theorem Ordered.delete (h : Ordered q s) (acks : List Ack) :
    Advances q s { s with db := deleteAll acks s.db } := by
  refine h.rewrite ?_ (fun t ht ↦ h.small t (stored_of_deleteAll ht)) ?_
  · intro k v hk hv
    rw [getElem?_deleteAll] at hv
    split at hv
    · simp at hv
    · exact h.only k v hk hv
  · rw [getElem?_deleteAll, if_neg]
    rintro ⟨a, -, ha⟩
    exact not_isTaskKey_config q (isTaskKey_ackKey ha)

theorem Ordered.setFeed (h : Ordered q s) {feed : Option Feed} {sent : List Task}
    (hfeed : ∀ f ∈ feed, FeedOrdered q s.db f) : Advances q s { s with feed, sent } :=
  ⟨⟨h.only, h.small, h.config, hfeed⟩, le_rfl⟩

/-- A feed starts from the saved config, or from the default one. -/
theorem Ordered.load (h : Ordered q s) : FeedOrdered q s.db (load s.db q) := by
  rw [Checkpoint.load]
  split
  · rename_i c hc
    obtain ⟨hid, hnext⟩ := h.config c hc
    exact ⟨_, .idle hid hnext, le_rfl, by simp⟩
  · rename_i hnone
    refine FeedOrdered.trySave ⟨0, reads_default q ∅, ?_, by simp⟩
    rw [savedNext, hnone]
    exact le_rfl

/-- A config is saved that goes on from where the saved one does or later, and what is left of the
feed goes on behind it. -/
theorem Ordered.apply (h : Ordered q s) (hm : GoesOn q c m) (hle : savedNext q s.db ≤ m)
    {feed : Option Feed} (hfeed : ∀ g ∈ feed, ∃ n, Reads q ∅ g.reader n ∧ m ≤ n ∧
      ∀ c' ∈ g.saving, ∃ m', GoesOn q c' m' ∧ m ≤ m' ∧ m' ≤ n) :
    Advances q s { s with db := saveSettings c s.db, feed } := by
  obtain ⟨hget, hsaved⟩ := savedNext_saveSettings s.db hm
  have hframe : ∀ k, IsTaskKey k → (saveSettings c s.db)[k]? = s.db[k]? := by
    intro k hk
    rw [getElem?_saveSettings, if_neg]
    rintro rfl
    exact not_isTaskKey_config c.id hk
  refine ⟨⟨h.only.congr hframe, fun t ht ↦ h.small t ((stored_congr hframe).mp ht), fun d hd ↦ ?_,
    fun g hg ↦ ?_⟩, hsaved ▸ hle⟩
  · obtain rfl : c = d := Option.some.inj (hget.symm.trans hd)
    exact hsaved ▸ hm
  · rw [FeedOrdered, hsaved]
    exact hfeed g hg

theorem Ordered.store (h : Ordered q s) (hf : s.feed = some f) (hc : f.saving = some c)
    {feed : Option Feed} (hfeed : ∀ g ∈ feed, g.reader = f.reader ∧ g.saving = none) :
    Advances q s { s with db := saveSettings c s.db, feed } := by
  obtain ⟨n, hreads, -, hraft⟩ := h.feed f hf
  obtain ⟨m, hm, hlem, hmn⟩ := hraft c hc
  refine h.apply hm hlem fun g hg ↦ ?_
  obtain ⟨hreader, hsaving⟩ := hfeed g hg
  exact ⟨n, hreader ▸ hreads, hmn, by simp [hsaving]⟩

theorem Ordered.other (h : Ordered q s) (hc : InOrder q s c) :
    Advances q s { s with db := saveSettings c s.db } := by
  obtain ⟨hid, m, hm, hle, hfeed⟩ := hc
  refine h.apply ⟨hid, hm⟩ hle fun g hg ↦ ?_
  obtain ⟨n, hreads, -, hraft⟩ := h.feed g hg
  refine ⟨n, hreads, hfeed g hg _ List.mem_cons_self n hreads.next_eq, fun c' hc' ↦ ?_⟩
  obtain ⟨m', hm', -, hmn⟩ := hraft c' hc'
  have hmem : c' ∈ g.reader.settings :: g.saving.toList :=
    List.mem_cons_of_mem _ (Option.mem_toList.mpr hc')
  exact ⟨m', hm', hfeed g hg c' hmem m' hm'.2, hmn⟩

theorem Ordered.saved (h : Ordered q s) (hf : s.feed = some f) (hc : f.saving = some c)
    (stored acked : Bool) :
    Advances q s { s with
      db := if stored then saveSettings c s.db else s.db
      feed := f.saved c acked } := by
  cases stored with
  | true => exact h.store hf hc fun g hg ↦ Feed.saved_reader hg
  | false =>
    refine h.setFeed fun g hg ↦ ?_
    obtain ⟨hreader, hsaving⟩ := Feed.saved_reader hg
    exact (h.feed f hf).congr rfl hreader (by simp [hsaving])

theorem Ordered.crash (h : Ordered q s) (stored : Bool) :
    Advances q s { s with db := s.recovered stored, feed := none } := by
  rw [State.recovered]
  split
  · rename_i c hc
    obtain ⟨f, hf, hc⟩ := Option.bind_eq_some_iff.mp hc
    cases stored with
    | true => exact h.store hf hc (by simp)
    | false => exact h.setFeed (by simp)
  · exact h.setFeed (by simp)

theorem Ordered.step {e : Event} (h : Ordered q s) (hnum : Orderly q s (.event e))
    (hs : step q s e = some s') : Advances q s s' := by
  cases e with
  | arrive tasks si =>
    simp only [Checkpoint.step] at hs
    split at hs
    · rename_i hcond
      obtain ⟨db, hdb, rfl⟩ := Option.map_eq_some_iff.mp hs
      exact h.saveAll hcond.1 hnum hdb
    · simp at hs
  | delete acks => exact Option.some.inj hs ▸ h.delete acks
  | writeBack tasks =>
    simp only [Checkpoint.step] at hs
    split at hs
    · rename_i hq
      obtain ⟨db, hdb, rfl⟩ := Option.map_eq_some_iff.mp hs
      exact h.saveAll hq hnum hdb
    · simp at hs
  | openFeed =>
    simp only [Checkpoint.step] at hs
    split at hs
    · obtain rfl := Option.some.inj hs
      exact h.setFeed fun f hf ↦ Option.some.inj hf ▸ h.load
    · simp at hs
  | saved stored acked =>
    simp only [Checkpoint.step] at hs
    split at hs
    · simp at hs
    · rename_i f hf
      obtain ⟨c, hc, rfl⟩ := Option.map_eq_some_iff.mp hs
      exact h.saved hf hc stored acked
  | send i ok =>
    simp only [Checkpoint.step] at hs
    split at hs
    · simp at hs
    · rename_i f hf
      split at hs
      · obtain rfl := Option.some.inj hs
        exact h.setFeed fun g hg ↦ Option.some.inj hg ▸ (h.feed f hf).congr rfl rfl fun _ hc ↦ hc
      · simp at hs
  | close =>
    simp only [Checkpoint.step] at hs
    split at hs
    · simp at hs
    · rename_i f hf
      split at hs
      · obtain rfl := Option.some.inj hs
        exact h.setFeed fun g hg ↦ Option.some.inj hg ▸ (h.feed f hf).congr rfl rfl fun _ hc ↦ hc
      · simp at hs
  | flush =>
    simp only [Checkpoint.step] at hs
    split at hs
    · simp at hs
    · rename_i f hf
      split at hs
      · obtain rfl := Option.some.inj hs
        refine h.setFeed fun g hg ↦ ?_
        split at hg
        · simp at hg
        · exact Option.some.inj hg ▸ (h.feed f hf).trySave.congr rfl rfl fun _ hc ↦ hc
      · simp at hs
  | feed e =>
    simp only [Checkpoint.step] at hs
    split at hs
    · simp at hs
    · rename_i f hf
      obtain ⟨f', hf', rfl⟩ := Option.map_eq_some_iff.mp hs
      exact h.setFeed fun g hg ↦ Option.some.inj hg ▸ (h.feed f hf).step h.only h.small hf'

theorem Ordered.live {e : Life} (h : Ordered q s) (hok : Orderly q s e)
    (hs : live q s e = some s') : Advances q s s' := by
  cases e with
  | event e => exact h.step hok hs
  | other c => exact Option.some.inj hs ▸ h.other hok
  | crash stored => exact Option.some.inj hs ▸ h.crash stored

theorem Ordered.run {es : List Life} (h : Ordered q s)
    (hok : Runs.Meets (Checkpoint.live q) (Orderly q) s es)
    (hrun : Runs.run (Checkpoint.live q) s es = some s') : Advances q s s' := by
  have hstep : ∀ s₁ e s₂, Advances q s s₁ → Orderly q s₁ e → Checkpoint.live q s₁ e = some s₂ →
      Advances q s s₂ := by
    rintro s₁ e s₂ ⟨hs₁, hle⟩ hok hs
    obtain ⟨hs₂, hle'⟩ := hs₁.live hok hs
    exact ⟨hs₂, hle.trans hle'⟩
  exact Runs.Meets.invariant hstep ⟨h, le_rfl⟩ hok hrun

end

/-- The task that is pushed after `firstTask`. -/
def nextTask : Task := makeTask { queue := lit "q" } (.ofUnix 0 0) (.ofUnix 0 0) 2

/-- The first task is read, and the checkpoint behind it is saved. -/
def readOnce : List Life :=
  [.event .openFeed, .event (.saved true true), .event (.arrive [firstTask] false),
    .event (.feed .query), .event (.feed .visit), .event (.feed .tick), .event (.saved true true)]

/-- The peer crashes, and another one leads and saves the same checkpoint with another deadline.
Then another task arrives, and a feed is opened again. -/
def readAgain : List Life :=
  [.crash false, .other { defaultConfig (lit "q") with
      lastDeliveredQueuedTask := firstTask.id, ackDeadlineSeconds := 60 },
    .event (.arrive [nextTask] false), .event .openFeed, .event (.feed .query)]

end Z4.Checkpoint
