import Z4.Api.Push
import Z4.Storage.Iterator

/-!
# The four delivery queries

A queue's config names the last task each of its two undelivered readers handed out. From it and the
clock, four queries are built: unscheduled tasks up to and past the checkpoint, scheduled tasks up
to the ack watermark, and scheduled tasks past the checkpoint up to now.

A scheduled range is an interval of ids, and an id starts with the eight bytes of a wrapped time. So
the queries compare times modulo `2 ^ 64` nanoseconds, and the keys they compare with were built
from ids read back from text. The exact instants are recovered in `toNat_unixNano`, wherever the
clock stands between the epoch and `2 ^ 64` nanoseconds past it.
-/

namespace Z4

open KeyValue

/-! ## Configs -/

/-- The settings `SyncedSettings.load` starts a new queue with. -/
def defaultConfig (queue : GoString) : QueueConfig where
  id := queue
  lastDeliveredQueuedTask := TaskID.max.string
  lastDeliveredScheduledTask := TaskID.min.string
  ackDeadlineSeconds := 300

/-- `fifoCheckpointer.Set`. -/
def fifoCheckpointerSet (settings : QueueConfig) (task : Task) : QueueConfig :=
  { settings with lastDeliveredQueuedTask := task.id }

/-- `schedCheckpointer.Set`. -/
def schedCheckpointerSet (settings : QueueConfig) (task : Task) : QueueConfig :=
  { settings with lastDeliveredScheduledTask := task.id }

/-- What `Admin.UpdateQueue` does to the settings: a deadline of zero is ignored. -/
def updateQueue (settings : QueueConfig) (ackDeadlineSeconds : Int32) : QueueConfig :=
  if ackDeadlineSeconds ≠ 0 then { settings with ackDeadlineSeconds } else settings

/-- What changes a config after it was loaded. -/
inductive ConfigEvent where
  | fifoCheckpoint (p : Push)
  | schedCheckpoint (p : Push)
  | update (ackDeadlineSeconds : Int32)

def ConfigEvent.apply (settings : QueueConfig) : ConfigEvent → QueueConfig
  | fifoCheckpoint p => fifoCheckpointerSet settings p.task
  | schedCheckpoint p => schedCheckpointerSet settings p.task
  | update s => updateQueue settings s

/-- The configs a queue can have. -/
def ReachableConfig (queue : GoString) (settings : QueueConfig) : Prop :=
  ∃ events : List ConfigEvent, events.foldl ConfigEvent.apply (defaultConfig queue) = settings

/-! ## Queries -/

/-- The ack deadline as a duration. -/
def QueueConfig.ackDeadline (settings : QueueConfig) : Duration :=
  .ofInt (second.toInt * settings.ackDeadlineSeconds.toInt)

/-- `time.Now().Add(-ackDeadline)`. -/
def QueueConfig.watermark (settings : QueueConfig) (now : Time) : Time :=
  now.add (.ofInt (-settings.ackDeadline.toInt))

/-- `fifoDeliveredFactory.Query`; `none` is the panic of `MustParseString`. -/
def fifoDeliveredQuery (settings : QueueConfig) : Option TaskRange :=
  (mustParseString settings.lastDeliveredQueuedTask).map fun last ↦
    .fifo settings.id 0 last.index

/-- `fifoUndeliveredFactory.Query`. -/
def fifoUndeliveredQuery (settings : QueueConfig) : Option TaskRange :=
  (mustParseString settings.lastDeliveredQueuedTask).map fun last ↦
    .fifo settings.id (last.index + 1) maxUint64

/-- `schedDeliveredQueryFactory.Query`. -/
def schedDeliveredQuery (settings : QueueConfig) (now : Time) : TaskRange :=
  .scheduled settings.id .min (.new (settings.watermark now) 0)

/-- `schedUndeliveredQueryFactory.Query`. -/
def schedUndeliveredQuery (settings : QueueConfig) (now : Time) : Option TaskRange :=
  (mustParseString settings.lastDeliveredScheduledTask).map fun last ↦
    .scheduled settings.id (.new last.mustTime (last.index + 1)) (.new now 0)

/-! ## What a reachable config holds -/

/-- The config is the queue's, and its checkpoints are texts of ids. -/
structure QueueConfig.WellFormed (queue : GoString) (settings : QueueConfig) : Prop where
  id_eq : settings.id = queue
  queued : ∃ id : TaskID, settings.lastDeliveredQueuedTask = id.string
  scheduled : ∃ id : TaskID, settings.lastDeliveredScheduledTask = id.string

theorem QueueConfig.WellFormed.apply {queue : GoString} {settings : QueueConfig}
    (h : settings.WellFormed queue) (e : ConfigEvent) : (e.apply settings).WellFormed queue := by
  cases e with
  | fifoCheckpoint p =>
    rw [ConfigEvent.apply, fifoCheckpointerSet, p.task_id]
    generalize p.id = id
    exact ⟨h.id_eq, ⟨id, rfl⟩, h.scheduled⟩
  | schedCheckpoint p =>
    rw [ConfigEvent.apply, schedCheckpointerSet, p.task_id]
    generalize p.id = id
    exact ⟨h.id_eq, h.queued, ⟨id, rfl⟩⟩
  | update s =>
    rw [ConfigEvent.apply, updateQueue]
    split
    · exact ⟨h.id_eq, h.queued, h.scheduled⟩
    · exact h

theorem ReachableConfig.wellFormed {queue : GoString} {settings : QueueConfig}
    (h : ReachableConfig queue settings) : settings.WellFormed queue := by
  obtain ⟨events, rfl⟩ := h
  have hfold : ∀ (es : List ConfigEvent) (c : QueueConfig), c.WellFormed queue →
      (es.foldl ConfigEvent.apply c).WellFormed queue := by
    intro es
    induction es with
    | nil => exact fun c hc ↦ hc
    | cons e es ih => exact fun c hc ↦ ih _ (hc.apply e)
  exact hfold events _ ⟨rfl, ⟨TaskID.max, rfl⟩, ⟨TaskID.min, rfl⟩⟩

theorem mustParseString_string (id : TaskID) : mustParseString id.string = some id.reparsed := by
  rw [mustParseString, TaskID.parseString_string]
  rfl

/-! ## Times in ids -/

theorem toInt_ackDeadline (settings : QueueConfig) :
    settings.ackDeadline.toInt = settings.ackDeadlineSeconds.toInt * 10 ^ 9 := by
  have h1 := settings.ackDeadlineSeconds.toInt_lt
  have h2 := settings.ackDeadlineSeconds.le_toInt
  have hsecond : second.toInt = 10 ^ 9 := by decide
  rw [QueueConfig.ackDeadline, hsecond, Int64.toInt_ofInt_of_le (by omega) (by omega)]
  ring

/-- The watermark is exact for any clock within `2 ^ 80` nanoseconds of the epoch. -/
theorem nanos_watermark (settings : QueueConfig) (now : Time) (hlo : -2 ^ 80 ≤ now.nanos)
    (hhi : now.nanos ≤ 2 ^ 80) : (settings.watermark now).nanos
      = now.nanos - settings.ackDeadlineSeconds.toInt * 10 ^ 9 := by
  have h1 := settings.ackDeadlineSeconds.toInt_lt
  have h2 := settings.ackDeadlineSeconds.le_toInt
  rw [QueueConfig.watermark, Time.nanos_add hlo hhi, toInt_ackDeadline,
    Int64.toInt_ofInt_of_le (by omega) (by omega)]
  ring

/-- The eight bytes of the watermark, for a deadline that is not negative and any clock but those
within the deadline of the smallest time there is. -/
theorem toNat_unixNano_watermark (settings : QueueConfig) (now : Time)
    (hd : 0 ≤ settings.ackDeadlineSeconds.toInt) (hnow : -2 ^ 63 + 2 ^ 31 ≤ now.ext.toInt) :
    ((settings.watermark now).unixNano.toUInt64.toNat : ℤ)
      = (now.nanos - settings.ackDeadlineSeconds.toInt * 10 ^ 9) % 2 ^ 64 := by
  have h1 := settings.ackDeadlineSeconds.toInt_lt
  have h2 := now.ext.toInt_lt
  have h3 := now.nsec_lt
  have hdur : (Int64.ofInt (-settings.ackDeadline.toInt)).toInt
      = -(settings.ackDeadlineSeconds.toInt * 10 ^ 9) := by
    rw [toInt_ackDeadline, Int64.toInt_ofInt_of_le (by omega) (by omega)]
  rw [Time.unixNano_toUInt64, QueueConfig.watermark,
    Time.nanos_add_emod (by rw [hdur]; omega) (by rw [hdur]; omega), hdur, ← sub_eq_add_neg]

/-- A deadline of zero is never stored. -/
theorem ReachableConfig.ackDeadlineSeconds_ne_zero {queue : GoString} {settings : QueueConfig}
    (h : ReachableConfig queue settings) : settings.ackDeadlineSeconds ≠ 0 := by
  obtain ⟨events, rfl⟩ := h
  have hfold : ∀ (es : List ConfigEvent) (c : QueueConfig), c.ackDeadlineSeconds ≠ 0 →
      (es.foldl ConfigEvent.apply c).ackDeadlineSeconds ≠ 0 := by
    intro es
    induction es with
    | nil => exact fun c hc ↦ hc
    | cons e es ih =>
      intro c hc
      refine ih _ ?_
      cases e with
      | fifoCheckpoint p => exact hc
      | schedCheckpoint p => exact hc
      | update d =>
        rw [ConfigEvent.apply, updateQueue]
        split
        · assumption
        · exact hc
  have hdefault : (300 : Int32) ≠ 0 := by decide
  exact hfold events _ hdefault

/-! ## The queries as intervals -/

section

variable {settings : QueueConfig} {now : Time}

theorem contains_schedDelivered_iff {id : TaskID} :
    (schedDeliveredQuery settings now).Contains (getScheduledTaskKey settings.id id) ↔
      id.toNat ≤ (settings.watermark now).unixNano.toUInt64.toNat * 2 ^ 64 := by
  have hmin := TaskID.toNat_min
  rw [schedDeliveredQuery, TaskRange.contains_scheduled_iff, hmin, TaskID.toNat_new]
  simp

theorem contains_schedUndelivered_iff {id last : TaskID}
    (hlast : settings.lastDeliveredScheduledTask = last.string) :
    (∃ r ∈ schedUndeliveredQuery settings now,
        r.Contains (getScheduledTaskKey settings.id id)) ↔
      last.reparsed.timestamp.toNat * 2 ^ 64 + (last.reparsed.index + 1).toNat ≤ id.toNat ∧
        id.toNat ≤ now.unixNano.toUInt64.toNat * 2 ^ 64 := by
  rw [schedUndeliveredQuery, hlast, mustParseString_string, Option.map_some]
  simp only [Option.mem_some_iff, exists_eq_left', TaskRange.contains_scheduled_iff,
    TaskID.toNat_new, TaskID.unixNano_mustTime, UInt64.toNat_zero, Nat.add_zero]

theorem exists_contains_fifo (id : TaskID) {last : TaskID}
    (hlast : settings.lastDeliveredQueuedTask = last.string) :
    (∃ r ∈ fifoDeliveredQuery settings, r.Contains (getFifoTaskKey settings.id id)) ∨
      ∃ r ∈ fifoUndeliveredQuery settings, r.Contains (getFifoTaskKey settings.id id) := by
  rw [fifoDeliveredQuery, fifoUndeliveredQuery, hlast, mustParseString_string, Option.map_some,
    Option.map_some]
  simp only [Option.mem_some_iff, exists_eq_left', TaskRange.contains_fifo_iff,
    UInt64.le_iff_toNat_le]
  have hid := id.index.toNat_lt
  have hmax : maxUint64.toNat = 2 ^ 64 - 1 := by decide
  by_cases hle : id.index.toNat ≤ last.reparsed.index.toNat
  · exact .inl ⟨Nat.zero_le _, hle⟩
  · -- the checkpoint is below an index, so the next index does not wrap
    refine .inr ⟨?_, by omega⟩
    rw [UInt64.toNat_add, UInt64.toNat_one, Nat.mod_eq_of_lt (by omega)]
    omega

end

end Z4
