import Z4.Feeds.Queries

/-!
# Reading undelivered tasks

The FIFO `undeliveredReader` scans the unscheduled tasks of its queue from the index after the last
one it handed out. It works on a snapshot of the store that is taken when `Read` is called, and
moves the checkpoint to each task once it is pushed. Tasks that are saved meanwhile wait for the
next call.

In a store that holds the tasks of one queue, the keys of the unscheduled ones are ordered as their
indexes are, and the whole of this can be told in indexes: `Reads` says that the reader has ahead of
it, in order, every stored task from its next index on, except those past everything it has ahead.
-/

namespace Z4

open KeyValue

/-! ## Unscheduled tasks of a queue -/

/-- An unscheduled task of the queue, with an id that parses. -/
structure IsFifo (q : GoString) (t : Task) : Prop where
  queue_eq : t.queue = q
  unscheduled : t.scheduleTime = none
  parses : (mustParseString t.id).isSome

instance (q : GoString) (t : Task) : Decidable (IsFifo q t) :=
  decidable_of_iff (t.queue = q ∧ t.scheduleTime = none ∧ (mustParseString t.id).isSome)
    ⟨fun h ↦ ⟨h.1, h.2.1, h.2.2⟩, fun h ↦ ⟨h.1, h.2, h.3⟩⟩

section

variable {q : GoString} {t u : Task}

theorem IsFifo.exists_id (h : IsFifo q t) : ∃ id, mustParseString t.id = some id ∧
    recordKey t = some (getFifoTaskKey q id) ∧ taskIndex t = id.index.toNat := by
  obtain ⟨id, hid⟩ := Option.isSome_iff_exists.mp h.parses
  refine ⟨id, hid, ?_, by rw [taskIndex, hid]; rfl⟩
  rw [recordKey, hid, Option.map_some, getTaskKey, h.unscheduled, ← h.queue_eq]

theorem isFifo_task {p : Push} (h : ¬p.Scheduled) : IsFifo p.req.queue p.task where
  queue_eq := rfl
  unscheduled := p.scheduleTime_of_not_scheduled h
  parses := by rw [p.mustParseString_task]; rfl

theorem IsFifo.recordKey_eq_iff (ht : IsFifo q t) (hu : IsFifo q u) :
    recordKey t = recordKey u ↔ taskIndex t = taskIndex u := by
  obtain ⟨i, -, hi, hti⟩ := ht.exists_id
  obtain ⟨j, -, hj, huj⟩ := hu.exists_id
  rw [hi, hj, hti, huj, Option.some.injEq, getFifoTaskKey_inj, and_iff_right rfl,
    UInt64.toNat_inj]

end

/-! ## Stores with the tasks of one queue -/

/-- Every task record is a task of the queue, under its own key. -/
def OnlyQueue (q : GoString) (db : DB) : Prop :=
  ∀ k v, IsTaskKey k → db[k]? = some v → ∃ t, v = .task t ∧ t.queue = q ∧ recordKey t = some k

section

variable {q : GoString} {db db' : DB} {t u : Task} {k : Key}

theorem onlyQueue_empty (q : GoString) : OnlyQueue q ∅ := fun k v _ h ↦ by simp at h

theorem OnlyQueue.filed (h : OnlyQueue q db) : Filed db := by
  intro k v hk hv
  obtain ⟨t, rfl, -, ht⟩ := h k v hk hv
  exact ⟨t, rfl, ht⟩

theorem OnlyQueue.isFifo_of_contains (h : OnlyQueue q db) {a b : UInt64}
    (hin : (TaskRange.fifo q a b).Contains k) (hget : db[k]? = some (.task t)) :
    IsFifo q t ∧ recordKey t = some k := by
  have hk := TaskRange.isTaskKey_of_contains hin
  obtain ⟨u, hu, hq, hkey⟩ := h k _ hk hget
  obtain rfl : t = u := by simpa using hu
  obtain ⟨id, hid, hk⟩ := Option.map_eq_some_iff.mp hkey
  refine ⟨⟨hq, ?_, by rw [hid]; rfl⟩, hkey⟩
  cases htime : t.scheduleTime with
  | none => rfl
  | some ts =>
    rw [getTaskKey, htime] at hk
    exact absurd (hk ▸ hin) TaskRange.not_contains_fifo

theorem OnlyQueue.exists_stored (h : OnlyQueue q db) (ht : IsFifo q t) (hk : recordKey t = some k)
    (hne : db[k]? ≠ none) :
    ∃ u, Stored db u ∧ IsFifo q u ∧ recordKey u = recordKey t := by
  obtain ⟨v, hget⟩ := Option.ne_none_iff_exists'.mp hne
  obtain ⟨id, -, hkid, -⟩ := ht.exists_id
  obtain rfl : k = getFifoTaskKey q id := Option.some.inj (hk.symm.trans hkid)
  obtain ⟨u, rfl, -, -⟩ := h _ v (isTaskKey_recordKey hk) hget
  have hin : (TaskRange.fifo q id.index id.index).Contains (getFifoTaskKey q id) :=
    TaskRange.contains_fifo_iff.mpr ⟨UInt64.le_refl _, UInt64.le_refl _⟩
  obtain ⟨hfifo, hkey⟩ := h.isFifo_of_contains hin hget
  exact ⟨u, ⟨_, hkey, hget⟩, hfifo, hkey.trans hk.symm⟩

theorem OnlyQueue.saveAll (h : OnlyQueue q db) {ts : List Task} {si : Bool}
    (hts : ∀ t ∈ ts, t.queue = q) (hs : saveAll ts si db = some db') : OnlyQueue q db' := by
  intro k v hk hv
  obtain ⟨t, hmem, hrecord⟩ | hv := record_of_saveAll hs hk hv
  · exact ⟨t, hrecord.1, hts t hmem, hrecord.2⟩
  · exact h k v hk hv

theorem OnlyQueue.congr (h : OnlyQueue q db) (hdb : ∀ k, IsTaskKey k → db'[k]? = db[k]?) :
    OnlyQueue q db' := fun k v hk hv ↦ h k v hk (hdb k hk ▸ hv)

theorem OnlyQueue.mem_handedOut (h : OnlyQueue q db) {a : UInt64} :
    t ∈ handedOut db (.fifo q a maxUint64) ↔
      Stored db t ∧ IsFifo q t ∧ a.toNat ≤ taskIndex t := by
  rw [Z4.mem_handedOut h.filed]
  constructor
  · rintro ⟨k, hin, hget⟩
    obtain ⟨hfifo, hkey⟩ := h.isFifo_of_contains hin hget
    obtain ⟨id, -, hk, hidx⟩ := hfifo.exists_id
    obtain rfl : k = getFifoTaskKey q id := Option.some.inj (hkey.symm.trans hk)
    rw [TaskRange.contains_fifo_iff, UInt64.le_iff_toNat_le] at hin
    exact ⟨⟨_, hkey, hget⟩, hfifo, hidx ▸ hin.1⟩
  · rintro ⟨⟨k, hkey, hget⟩, hfifo, hle⟩
    obtain ⟨id, -, hk, hidx⟩ := hfifo.exists_id
    obtain rfl : k = getFifoTaskKey q id := Option.some.inj (hkey.symm.trans hk)
    refine ⟨_, TaskRange.contains_fifo_iff.mpr ⟨?_, ?_⟩, hget⟩
    · rwa [UInt64.le_iff_toNat_le, ← hidx]
    · have hlt := id.index.toNat_lt
      rw [UInt64.le_iff_toNat_le, show maxUint64.toNat = 2 ^ 64 - 1 by decide]
      omega

theorem OnlyQueue.pairwise_handedOut (h : OnlyQueue q db) (a : UInt64) :
    (handedOut db (.fifo q a maxUint64)).Pairwise fun t u ↦ taskIndex t < taskIndex u := by
  refine (Z4.pairwise_handedOut h.filed _).imp_of_mem fun {t u} ht hu ⟨k, l, hk, hl, hkl⟩ ↦ ?_
  obtain ⟨i, -, hki, hti⟩ := (h.mem_handedOut.mp ht).2.1.exists_id
  obtain ⟨j, -, hlj, huj⟩ := (h.mem_handedOut.mp hu).2.1.exists_id
  obtain rfl : k = getFifoTaskKey q i := Option.some.inj (hk.symm.trans hki)
  obtain rfl : l = getFifoTaskKey q j := Option.some.inj (hl.symm.trans hlj)
  rw [TaskRange.compare_getFifoTaskKey, Nat.compare_eq_lt] at hkl
  rwa [hti, huj]

end

/-! ## The reader -/

/-- The index `fifoUndeliveredFactory.Query` starts from. -/
def nextIndex (settings : QueueConfig) : Option UInt64 :=
  (mustParseString settings.lastDeliveredQueuedTask).map fun last ↦ last.index + 1

theorem fifoUndeliveredQuery_eq (settings : QueueConfig) : fifoUndeliveredQuery settings
    = (nextIndex settings).map fun n ↦ .fifo settings.id n maxUint64 := by
  rw [fifoUndeliveredQuery, nextIndex, Option.map_map]
  rfl

/-- The checkpoint of a new queue is the largest index, and the next index wraps to zero. -/
theorem nextIndex_default (q : GoString) : nextIndex (defaultConfig q) = some 0 := by
  rw [nextIndex, defaultConfig, mustParseString_string]
  rfl

theorem nextIndex_checkpoint {settings : QueueConfig} {t : Task} {q : GoString} (ht : IsFifo q t)
    (hlt : taskIndex t + 1 < 2 ^ 64) :
    (nextIndex (fifoCheckpointerSet settings t)).map UInt64.toNat = some (taskIndex t + 1) := by
  obtain ⟨id, hid⟩ := Option.isSome_iff_exists.mp ht.parses
  rw [taskIndex, hid, Option.map_some, Option.getD_some] at hlt ⊢
  rw [nextIndex, fifoCheckpointerSet, hid, Option.map_some, Option.map_some, UInt64.toNat_add,
    UInt64.toNat_one, Nat.mod_eq_of_lt hlt]

/-- The FIFO `undeliveredReader`: the settings it shares with its feed, and the iterator of a call
of `Read` that is under way. -/
structure UndeliveredReader where
  settings : QueueConfig
  reading : Option TaskIterator := none

namespace UndeliveredReader

/-- `executeQuery`, up to where the iterator is open. -/
def query (r : UndeliveredReader) (db : DB) : Option UndeliveredReader :=
  match r.reading with
  | some _ => none
  | none => (fifoUndeliveredQuery r.settings).map fun range ↦
    { r with reading := some (newTaskIterator db range) }

/-- One round of `ForEach` with a push that succeeds, and the task pushed. `Read` returns where the
iterator yields none. -/
def visit (r : UndeliveredReader) : Option (UndeliveredReader × Option Task) :=
  match r.reading with
  | none => none
  | some it =>
    match it.next with
    | (it, .ok task) =>
      some (⟨fifoCheckpointerSet r.settings task, some it⟩, some task)
    | (_, .error _) => some ({ r with reading := none }, none)

/-- The tasks the reader has ahead of it. -/
def ahead (r : UndeliveredReader) : List Task :=
  match r.reading with
  | none => []
  | some it => it.ahead

end UndeliveredReader

/-- The reader of the queue goes on from the index `next`. A call under way has ahead of it, in
order, every stored task from there on, up to those past all it has ahead. -/
structure Reads (q : GoString) (db : DB) (r : UndeliveredReader) (next : ℕ) : Prop where
  id_eq : r.settings.id = q
  next_eq : (nextIndex r.settings).map UInt64.toNat = some next
  sound : ∀ it, r.reading = some it → it.Sound
  fifo : ∀ t ∈ r.ahead, IsFifo q t
  small : ∀ t ∈ r.ahead, taskIndex t + 1 < 2 ^ 64
  sorted : r.ahead.Pairwise fun t u ↦ taskIndex t < taskIndex u
  from_next : ∀ t ∈ r.ahead, next ≤ taskIndex t
  complete : r.reading ≠ none → ∀ t, Stored db t → IsFifo q t → next ≤ taskIndex t →
    (∃ u ∈ r.ahead, taskIndex u = taskIndex t) ∨ ∀ u ∈ r.ahead, taskIndex u < taskIndex t

section

variable {q : GoString} {db db' : DB} {r r' : UndeliveredReader} {next : ℕ} {t : Task}

theorem Reads.idle {settings : QueueConfig} (hid : settings.id = q)
    (hnext : (nextIndex settings).map UInt64.toNat = some next) :
    Reads q db ⟨settings, none⟩ next :=
  ⟨hid, hnext, by simp, by simp [UndeliveredReader.ahead], by simp [UndeliveredReader.ahead],
    .nil, by simp [UndeliveredReader.ahead], by simp⟩

theorem reads_default (q : GoString) (db : DB) : Reads q db ⟨defaultConfig q, none⟩ 0 :=
  .idle rfl (by rw [nextIndex_default]; rfl)

theorem Reads.exists_query (h : Reads q db r next) (hidle : r.reading = none) :
    ∃ r', r.query db = some r' ∧ r'.reading ≠ none := by
  obtain ⟨n, hn, -⟩ := Option.map_eq_some_iff.mp h.next_eq
  simp [UndeliveredReader.query, hidle, fifoUndeliveredQuery_eq, hn]

/-- A call starts with every stored task from the next index on ahead of it. -/
theorem Reads.query (h : Reads q db r next) (hdb : OnlyQueue q db)
    (hsmall : ∀ t, Stored db t → IsFifo q t → taskIndex t + 1 < 2 ^ 64)
    (hr : r.query db = some r') :
    Reads q db r' next ∧ ∀ t, t ∈ r'.ahead ↔ Stored db t ∧ IsFifo q t ∧ next ≤ taskIndex t := by
  rw [UndeliveredReader.query] at hr
  split at hr
  · simp at hr
  · obtain ⟨n, hn, hnat⟩ := Option.map_eq_some_iff.mp h.next_eq
    rw [fifoUndeliveredQuery_eq, hn, Option.map_some, Option.map_some, Option.some.injEq,
      h.id_eq] at hr
    subst hr
    have hahead : UndeliveredReader.ahead
        { r with reading := some (newTaskIterator db (.fifo q n maxUint64)) }
          = handedOut db (.fifo q n maxUint64) := ahead_newTaskIterator hdb.filed _
    have hmem : ∀ t, t ∈ handedOut db (.fifo q n maxUint64) ↔
        Stored db t ∧ IsFifo q t ∧ next ≤ taskIndex t := fun t ↦ by rw [hdb.mem_handedOut, hnat]
    refine ⟨⟨h.id_eq, h.next_eq, ?_, ?_, ?_, ?_, ?_, ?_⟩, fun t ↦ by rw [hahead, hmem]⟩
    · intro it hit
      exact Option.some.inj hit ▸ hdb.filed.sound _
    · rw [hahead]
      exact fun t ht ↦ ((hmem t).mp ht).2.1
    · rw [hahead]
      exact fun t ht ↦ hsmall t ((hmem t).mp ht).1 ((hmem t).mp ht).2.1
    · rw [hahead]
      exact hdb.pairwise_handedOut n
    · rw [hahead]
      exact fun t ht ↦ ((hmem t).mp ht).2.2
    · rw [hahead]
      exact fun _ t ht hfifo hle ↦ .inl ⟨t, (hmem t).mpr ⟨ht, hfifo, hle⟩, rfl⟩

theorem UndeliveredReader.visit_cases (hne : r.reading ≠ none) :
    (∃ r' t, r.visit = some (r', some t) ∧ r'.reading ≠ none) ∨
      ∃ r', r.visit = some (r', none) := by
  obtain ⟨it, hit⟩ := Option.ne_none_iff_exists'.mp hne
  simp only [UndeliveredReader.visit, hit]
  split
  · exact .inl ⟨_, _, rfl, by simp⟩
  · exact .inr ⟨_, rfl⟩

theorem UndeliveredReader.settings_query (h : r.query db = some r') : r'.settings = r.settings := by
  rw [UndeliveredReader.query] at h
  split at h
  · simp at h
  · obtain ⟨range, -, rfl⟩ := Option.map_eq_some_iff.mp h
    rfl

theorem UndeliveredReader.eq_of_visit_query {r₁ r₂ : UndeliveredReader} (hidle : r.reading = none)
    (hquery : r.query db = some r₁) (hvisit : r₁.visit = some (r₂, none)) : r₂ = r := by
  simp only [UndeliveredReader.query, hidle] at hquery
  obtain ⟨range, -, rfl⟩ := Option.map_eq_some_iff.mp hquery
  simp only [UndeliveredReader.visit] at hvisit
  split at hvisit
  · simp at hvisit
  · obtain ⟨rfl, -⟩ := Prod.mk.inj (Option.some.inj hvisit)
    rw [← hidle]

theorem Reads.visit (h : Reads q db r next) (hr : r.visit = some (r', some t)) :
    r.ahead = t :: r'.ahead ∧ Reads q db r' (taskIndex t + 1) := by
  rw [UndeliveredReader.visit] at hr
  split at hr
  · simp at hr
  · rename_i it hit
    split at hr
    · rename_i it' task hnext
      obtain ⟨rfl, rfl⟩ := by simpa using hr
      have hcons : r.ahead = task :: it'.ahead := by
        rw [UndeliveredReader.ahead, hit]
        exact TaskIterator.ahead_of_next hnext
      have hmem : ∀ u ∈ it'.ahead, u ∈ r.ahead := fun u hu ↦ hcons ▸ List.mem_cons_of_mem task hu
      have hhead : task ∈ r.ahead := hcons ▸ List.mem_cons_self
      have hsorted := h.sorted
      rw [hcons, List.pairwise_cons] at hsorted
      refine ⟨hcons, ⟨h.id_eq, nextIndex_checkpoint (h.fifo task hhead) (h.small task hhead), ?_,
        fun u hu ↦ h.fifo u (hmem u hu), fun u hu ↦ h.small u (hmem u hu), hsorted.2,
        hsorted.1, ?_⟩⟩
      · intro it'' hit''
        exact Option.some.inj hit'' ▸ (h.sound it hit).next hnext
      · intro _ u hu hfifo hle
        have hne : r.reading ≠ none := by simp [hit]
        rcases h.complete hne u hu hfifo ((h.from_next task hhead).trans (by omega)) with
          ⟨v, hv, hvu⟩ | hpast
        · -- the task itself lies behind the new index, so it is one further ahead
          rw [hcons, List.mem_cons] at hv
          rcases hv with rfl | hv
          · omega
          · exact .inl ⟨v, hv, hvu⟩
        · exact .inr fun v hv ↦ hpast v (hmem v hv)
    · simp at hr

theorem Reads.visit_none (h : Reads q db r next) (hr : r.visit = some (r', none)) :
    r.ahead = [] ∧ r'.reading = none ∧ Reads q db r' next := by
  rw [UndeliveredReader.visit] at hr
  split at hr
  · simp at hr
  · rename_i it hit
    split at hr
    · simp at hr
    · rename_i it' err hnext
      obtain rfl : { r with reading := none } = r' := by simpa using hr
      refine ⟨?_, rfl, Reads.idle h.id_eq h.next_eq⟩
      rcases (h.sound it hit).next_cases with ⟨it'', t, hok⟩ | ⟨-, hnil⟩
      · rw [hnext] at hok
        simp at hok
      · rw [UndeliveredReader.ahead, hit]
        exact hnil

theorem Reads.le_or_eq (h : Reads q db r next) (hr : r.visit = some (r', some t)) {u : Task}
    (hu : Stored db u) (hfifo : IsFifo q u) (hle : next ≤ taskIndex u) :
    taskIndex u = taskIndex t ∨ taskIndex t + 1 ≤ taskIndex u := by
  obtain ⟨hcons, -⟩ := h.visit hr
  have hne : r.reading ≠ none := by
    intro hnone
    rw [UndeliveredReader.ahead, hnone] at hcons
    simp at hcons
  have hsorted := h.sorted
  rw [hcons, List.pairwise_cons] at hsorted
  rcases h.complete hne u hu hfifo hle with ⟨v, hv, hvu⟩ | hpast
  · rw [hcons, List.mem_cons] at hv
    rcases hv with rfl | hv
    · exact .inl hvu.symm
    · exact .inr (hvu ▸ hsorted.1 v hv)
  · exact .inr (hpast t (hcons ▸ List.mem_cons_self))

theorem Reads.withSettings (h : Reads q db r next) {settings : QueueConfig} (hid : settings.id = q)
    (hnext : nextIndex settings = nextIndex r.settings) :
    Reads q db { r with settings } next :=
  ⟨hid, hnext ▸ h.next_eq, h.sound, h.fifo, h.small, h.sorted, h.from_next, h.complete⟩

/-- The store may change as long as tasks that appear lie past everything the reader has ahead. -/
theorem Reads.store (h : Reads q db r next)
    (hdb : ∀ t, Stored db' t → IsFifo q t → next ≤ taskIndex t →
      (∃ u, Stored db u ∧ IsFifo q u ∧ taskIndex u = taskIndex t) ∨
        ∀ u ∈ r.ahead, taskIndex u < taskIndex t) : Reads q db' r next := by
  refine ⟨h.id_eq, h.next_eq, h.sound, h.fifo, h.small, h.sorted, h.from_next, ?_⟩
  intro hne t ht hfifo hle
  rcases hdb t ht hfifo hle with ⟨u, hu, hufifo, hut⟩ | hpast
  · rw [← hut] at hle ⊢
    exact h.complete hne u hu hufifo hle
  · exact .inr hpast

theorem Reads.forget (h : Reads q db r next) : Reads q ∅ r next :=
  h.store fun t ht ↦ by simp [Stored] at ht

theorem Reads.of_query (h : Reads q ∅ r next) (hr : r.query db = some r') : Reads q db r next := by
  obtain ⟨settings, reading⟩ := r
  cases reading with
  | none => exact .idle h.id_eq h.next_eq
  | some it => simp [UndeliveredReader.query] at hr

end

end Z4
