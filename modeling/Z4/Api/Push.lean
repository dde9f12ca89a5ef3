import Z4.Storage.TaskStore

/-!
# Pushing a task

`Queue.makeTask` turns a push request into a task: it reads the clock, picks the run time, takes the
next index of the queue and writes both into the id. The clock readings and the index are arguments.

The store keys a task not by the id that was generated but by the id read back from its text. The
two agree unless the leading byte of the id is zero, which a scheduled run time within the first
`2 ^ 56` nanoseconds after the epoch (until April 1972) makes it. There, ids that differ by trailing
zero bytes are read back as one, and the later task takes the earlier one's record;
`recordKey_eq_iff` says exactly when.

An ack has the text of the id as well, but not the schedule. `getAckKey` takes a task for an
unscheduled one if the id has the zero time, to which `UnixNano` wraps some run times beyond its
range.
-/

namespace Z4

open KeyValue

/-! ## From request to task -/

/-- `Queue.getRunTime`. The product with `time.Second` wraps. -/
def getRunTime (req : PushTaskRequest) (now : Time) : Time :=
  match req.schedule with
  | .ttsSeconds s => if 0 < s then now.add (.ofInt (s.toInt * second.toInt)) else .zero
  | .scheduleTime ts => ts.asTime
  | .none => .zero

/-- `Queue.makeTask`, once the index is taken. The clock is read for `CreatedAt` and again for the
run time. -/
def makeTask (req : PushTaskRequest) (created now : Time) (index : UInt64) : Task :=
  let ts := getRunTime req now
  { id := (TaskID.new ts index).string
    queue := req.queue
    metadata := req.metadata
    payload := req.payload
    createdAt := some (.new created)
    scheduleTime := if ts.isZero then none else some (.new ts) }

/-- An unscheduled task, the first of its queue, pushed at the epoch. -/
def firstTask : Task := makeTask { queue := lit "q" } (.ofUnix 0 0) (.ofUnix 0 0) 1

/-- A push the leader has handled. -/
structure Push where
  req : PushTaskRequest
  created : Time
  now : Time
  index : UInt64

namespace Push

variable (p : Push)

/-- The task the push made. -/
def task : Task := makeTask p.req p.created p.now p.index

def runTime : Time := getRunTime p.req p.now

/-- The id as generated. -/
def id : TaskID := .new p.runTime p.index

/-- The task is filed under its run time, not under its index alone. -/
def Scheduled : Prop := p.runTime.isZero = false

instance : Decidable p.Scheduled := inferInstanceAs (Decidable (_ = false))

@[simp] theorem task_queue : p.task.queue = p.req.queue := rfl

theorem task_id : p.task.id = p.id.string := by rw [task, makeTask, id, runTime]

@[simp] theorem index_id : p.id.index = p.index := TaskID.index_new _ _

theorem mustParseString_task : mustParseString p.task.id = some p.id.reparsed := by
  rw [mustParseString, task_id, TaskID.parseString_string]
  rfl

theorem scheduleTime_of_scheduled (h : p.Scheduled) :
    p.task.scheduleTime = some (.new p.runTime) := by
  rw [task, makeTask]
  exact if_neg (by rw [← runTime, h]; exact Bool.false_ne_true)

theorem scheduleTime_of_not_scheduled (h : ¬p.Scheduled) : p.task.scheduleTime = none := by
  rw [task, makeTask]
  exact if_pos (by rwa [Scheduled, Bool.not_eq_false] at h)

theorem recordKey_of_scheduled (h : p.Scheduled) :
    recordKey p.task = some (getScheduledTaskKey p.req.queue p.id.reparsed) := by
  rw [recordKey, mustParseString_task, Option.map_some, getTaskKey, p.scheduleTime_of_scheduled h,
    task_queue]

theorem le_toNat_id (h : 2 ^ 56 ≤ p.runTime.unixNano.toUInt64.toNat) : 256 ^ 15 ≤ p.id.toNat := by
  rw [id, TaskID.toNat_new]
  omega

theorem unixNano_of_not_scheduled (h : ¬p.Scheduled) :
    p.runTime.unixNano = Time.zero.unixNano := by
  rw [Scheduled, Bool.not_eq_false, Time.isZero, Bool.and_eq_true, beq_iff_eq, beq_iff_eq] at h
  rw [Time.unixNano, Time.unix, h.1, h.2]
  rfl

/-- The zero time's eight bytes start with a byte that is not zero. -/
theorem le_toNat_id_of_not_scheduled (h : ¬p.Scheduled) : 256 ^ 15 ≤ p.id.toNat := by
  refine p.le_toNat_id ?_
  rw [p.unixNano_of_not_scheduled h]
  decide

theorem recordKey_of_not_scheduled (h : ¬p.Scheduled) :
    recordKey p.task = some (getFifoTaskKey p.req.queue p.id) := by
  rw [recordKey, mustParseString_task, Option.map_some, getTaskKey,
    p.scheduleTime_of_not_scheduled h, task_queue,
    TaskID.reparsed_of_le (p.le_toNat_id_of_not_scheduled h)]

theorem isSome_recordKey_task : (recordKey p.task).isSome := by
  rw [recordKey, mustParseString_task]
  rfl

/-- The index read back from the id is the index taken, if the leading byte is not zero. -/
theorem taskIndex_task (h : 256 ^ 15 ≤ p.id.toNat) : taskIndex p.task = p.index.toNat := by
  rw [taskIndex, mustParseString_task, TaskID.reparsed_of_le h, Option.map_some, Option.getD_some,
    index_id]

end Push

/-! ## When two pushes share a record -/

/-- The numbers of the two ids differ by trailing zero bytes. -/
def Shifted (a b : TaskID) : Prop := ∃ k, a.toNat = b.toNat * 256 ^ k ∨ b.toNat = a.toNat * 256 ^ k

/-- Two pushes with different indexes share a record exactly when both are scheduled, in one queue,
and their ids are shifted copies of each other. -/
theorem recordKey_eq_iff {a b : Push} (hidx : a.req.queue = b.req.queue → a.index ≠ b.index) :
    recordKey a.task = recordKey b.task ↔
      a.req.queue = b.req.queue ∧ a.Scheduled ∧ b.Scheduled ∧ Shifted a.id b.id := by
  by_cases ha : a.Scheduled <;> by_cases hb : b.Scheduled
  · rw [a.recordKey_of_scheduled ha, b.recordKey_of_scheduled hb, Option.some.injEq,
      getScheduledTaskKey_inj, TaskID.reparsed_eq_iff, Shifted]
    simp only [ha, hb, true_and]
  · rw [a.recordKey_of_scheduled ha, b.recordKey_of_not_scheduled hb, Option.some.injEq]
    exact iff_of_false (getFifoTaskKey_ne_getScheduledTaskKey _ _ _ _).symm fun h ↦ hb h.2.2.1
  · rw [a.recordKey_of_not_scheduled ha, b.recordKey_of_scheduled hb, Option.some.injEq]
    exact iff_of_false (getFifoTaskKey_ne_getScheduledTaskKey _ _ _ _) fun h ↦ ha h.2.1
  · rw [a.recordKey_of_not_scheduled ha, b.recordKey_of_not_scheduled hb, Option.some.injEq,
      getFifoTaskKey_inj, Push.index_id, Push.index_id]
    exact iff_of_false (fun h ↦ hidx h.1 h.2) fun h ↦ ha h.2.1

/-- **When pushes keep apart.** Pushes whose indexes are distinct in each queue are stored under
distinct keys exactly when no two scheduled ids of one queue are shifted copies of each other. -/
theorem keys_distinct_iff (ps : List Push)
    (hidx : ps.Pairwise fun a b ↦ a.req.queue = b.req.queue → a.index ≠ b.index) :
    ps.Pairwise (fun a b ↦ recordKey a.task ≠ recordKey b.task) ↔
      ps.Pairwise fun a b ↦ a.req.queue = b.req.queue → a.Scheduled → b.Scheduled →
        ¬Shifted a.id b.id := by
  rw [List.pairwise_iff_forall_sublist] at hidx
  simp only [List.pairwise_iff_forall_sublist]
  refine forall₂_congr fun a b ↦ forall_congr' fun hab ↦ ?_
  rw [ne_eq, recordKey_eq_iff (hidx hab)]
  tauto

/-- A task scheduled for the epoch itself. -/
def epochPush (index : UInt64) : Push :=
  ⟨{ queue := lit "q", schedule := .scheduleTime ⟨0, 0⟩ }, .zero, .zero, index⟩

theorem keys_distinct_iff_epochPush :
    [epochPush 1, epochPush 257].Pairwise (fun a b ↦ recordKey a.task ≠ recordKey b.task) ↔
      [epochPush 1, epochPush 257].Pairwise fun a b ↦ a.req.queue = b.req.queue →
        a.Scheduled → b.Scheduled → ¬Shifted a.id b.id :=
  keys_distinct_iff _ (by decide)

/-- The ids `1` and `256` are both read back as `1` followed by fifteen zero bytes. -/
theorem recordKey_epochPush_collides :
    [epochPush 1, epochPush 256].Pairwise
        (fun a b ↦ a.req.queue = b.req.queue → a.index ≠ b.index) ∧
      ¬[epochPush 1, epochPush 256].Pairwise
        (fun a b ↦ recordKey a.task ≠ recordKey b.task) := by
  decide +kernel

/-! ## Acking a task -/

namespace Push

variable (p : Push)

/-- The key an ack of the task deletes. -/
theorem getAckKey_reference :
    getAckKey ⟨p.task.reference⟩ = .ok (ackKeyOf p.req.queue p.id.reparsed) := by
  rw [getAckKey, Task.reference, task_queue, task_id, TaskID.parseString_string]
  rfl

theorem timestamp_id_of_not_scheduled (h : ¬p.Scheduled) : p.id.timestamp = TaskID.zeroStamp := by
  rw [id, TaskID.timestamp_new, p.unixNano_of_not_scheduled h, TaskID.zeroStamp]

end Push

/-- **When acking a task deletes its record.** The one exception are scheduled tasks whose id, moved
up by some number of bytes, starts with the bytes of the zero time: they are stored under their run
time and looked for under their index. -/
theorem getAckKey_eq_recordKey_iff (p : Push) :
    (∃ k, recordKey p.task = some k ∧ getAckKey ⟨p.task.reference⟩ = .ok k) ↔
      (p.Scheduled → ∀ k, p.id.toNat * 256 ^ k / 2 ^ 64 ≠ TaskID.zeroStamp.toNat) := by
  simp only [p.getAckKey_reference, ackKeyOf_eq, Except.ok.injEq]
  by_cases hs : p.Scheduled
  · simp only [p.recordKey_of_scheduled hs, Option.some.injEq, exists_eq_left', hs, true_implies]
    have hshift : p.id.reparsed.timestamp = TaskID.zeroStamp ↔
        ∃ k, p.id.toNat * 256 ^ k / 2 ^ 64 = TaskID.zeroStamp.toNat :=
      TaskID.timestamp_reparsed_eq_zeroStamp_iff
    by_cases hz : p.id.reparsed.timestamp = TaskID.zeroStamp
    · rw [if_pos hz]
      obtain ⟨k, hk⟩ := hshift.mp hz
      exact iff_of_false (getFifoTaskKey_ne_getScheduledTaskKey _ _ _ _) fun h ↦ h k hk
    · rw [if_neg hz]
      exact iff_of_true rfl fun k hk ↦ hz (hshift.mpr ⟨k, hk⟩)
  · rw [p.recordKey_of_not_scheduled hs, if_pos]
    · rw [TaskID.reparsed_of_le (p.le_toNat_id_of_not_scheduled hs)]
      exact iff_of_true ⟨_, rfl, rfl⟩ fun h ↦ absurd h hs
    · rw [TaskID.reparsed_of_le (p.le_toNat_id_of_not_scheduled hs)]
      exact p.timestamp_id_of_not_scheduled hs

/-- A task scheduled `2 ^ 66` nanoseconds after the first of January of year one, in 2339. -/
def wrappedPush : Push :=
  ⟨{ queue := lit "q", schedule := .scheduleTime ⟨11651379494, 838206464⟩ }, .zero, .zero, 1⟩

/-- It is stored as a scheduled task and looked for as an unscheduled one. -/
theorem getAckKey_wrappedPush :
    recordKey wrappedPush.task = some (getScheduledTaskKey (lit "q") wrappedPush.id) ∧
      getAckKey ⟨wrappedPush.task.reference⟩ = .ok (getFifoTaskKey (lit "q") wrappedPush.id) ∧
      ¬∃ k, recordKey wrappedPush.task = some k ∧
        getAckKey ⟨wrappedPush.task.reference⟩ = .ok k := by
  have hrecord : recordKey wrappedPush.task
      = some (getScheduledTaskKey (lit "q") wrappedPush.id) := by decide +kernel
  have hack : getAckKey ⟨wrappedPush.task.reference⟩
      = .ok (getFifoTaskKey (lit "q") wrappedPush.id) := by decide +kernel
  refine ⟨hrecord, hack, ?_⟩
  rintro ⟨k, hk, hk'⟩
  rw [hrecord, Option.some.injEq] at hk
  rw [hack, Except.ok.injEq, ← hk] at hk'
  exact getFifoTaskKey_ne_getScheduledTaskKey _ _ _ _ hk'

end Z4
