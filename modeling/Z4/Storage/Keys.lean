import Z4.Foundations.KeyValue
import Z4.Proto.Model

/-!
# The key space

Everything the server stores lives in one byte-ordered key space: FIFO tasks under `task#fifo#`,
scheduled tasks under `task#sched#`, queue configs under `queue#config#` and index counters under
`queue#seq#`. The queue name is spliced in unescaped, but what follows it in a task key has a fixed
width, so a key still determines its queue: the four layouts are injective and pairwise disjoint.
-/

namespace Z4

open KeyValue

/-! ## Layouts -/

/-- `getFifoPrefix`. -/
def getFifoPrefix (queue : GoString) : Key := lit "task#fifo#" ++ (queue ++ lit "#")

/-- `getSchedPrefix`. -/
def getSchedPrefix (queue : GoString) : Key := lit "task#sched#" ++ (queue ++ lit "#")

/-- `getScheduledTaskKey`. -/
def getScheduledTaskKey (queue : GoString) (id : TaskID) : Key := getSchedPrefix queue ++ id.bytes

/-- `getFifoTaskKey`. Only the index of the id enters the key. -/
def getFifoTaskKey (queue : GoString) (id : TaskID) : Key :=
  getFifoPrefix queue ++ BigEndian.bytes 8 id.index.toNat

/-- `getTaskKey`. -/
def getTaskKey (task : Task) (parsedID : TaskID) : Key :=
  match task.scheduleTime with
  | none => getFifoTaskKey task.queue parsedID
  | some _ => getScheduledTaskKey task.queue parsedID

/-- The key `getAckKey` picks for a parsed id: whether the task was scheduled is guessed from the
time component. -/
def ackKeyOf (queue : GoString) (id : TaskID) : Key :=
  match id.time with
  | .error _ => getFifoTaskKey queue id
  | .ok _ => getScheduledTaskKey queue id

/-- `getAckKey`. -/
def getAckKey (ack : Ack) : Except IdenError Key :=
  (parseString ack.reference.taskId).map (ackKeyOf ack.reference.queue)

/-- `getSeqKey`. -/
def getSeqKey (queue : GoString) : Key := lit "queue#seq#" ++ queue

/-- `SettingStore.getConfigKey`. -/
def getConfigKey (queue : GoString) : Key := lit "queue#config#" ++ queue

/-! ## Disjointness

Two layouts are told apart within their literal heads. -/

private theorem append_ne_append {a b : GoString} (n : ℕ) (ha : n ≤ a.length) (hb : n ≤ b.length)
    (h : a.take n ≠ b.take n) (x y : GoString) : a ++ x ≠ b ++ y := by
  intro heq
  have htake := congrArg (List.take n) heq
  rw [List.take_append_of_le_length ha, List.take_append_of_le_length hb] at htake
  exact h htake

/-- A key is a task record's when it starts with `task#`. -/
def IsTaskKey (k : Key) : Prop := lit "task#" <+: k

instance (k : Key) : Decidable (IsTaskKey k) := inferInstanceAs (Decidable (_ <+: _))

theorem isTaskKey_fifo (q : GoString) (id : TaskID) : IsTaskKey (getFifoTaskKey q id) :=
  (show lit "task#" <+: lit "task#fifo#" by decide).trans
    ((List.prefix_append _ _).trans (List.prefix_append _ _))

theorem isTaskKey_sched (q : GoString) (id : TaskID) : IsTaskKey (getScheduledTaskKey q id) :=
  (show lit "task#" <+: lit "task#sched#" by decide).trans
    ((List.prefix_append _ _).trans (List.prefix_append _ _))

theorem isTaskKey_getTaskKey (t : Task) (id : TaskID) : IsTaskKey (getTaskKey t id) := by
  rw [getTaskKey]
  split
  · exact isTaskKey_fifo _ _
  · exact isTaskKey_sched _ _

/-- The ack of a task goes by the first eight bytes of the id. -/
theorem ackKeyOf_eq (q : GoString) (id : TaskID) : ackKeyOf q id =
    if id.timestamp = TaskID.zeroStamp then getFifoTaskKey q id else getScheduledTaskKey q id := by
  rw [ackKeyOf, TaskID.time]
  by_cases h : id.timestamp = TaskID.zeroStamp
  · rw [if_pos (TaskID.mustTime_eq_zeroTime_iff.mpr h), if_pos h]
  · rw [if_neg (mt TaskID.mustTime_eq_zeroTime_iff.mp h), if_neg h]

theorem isTaskKey_ackKeyOf (q : GoString) (id : TaskID) : IsTaskKey (ackKeyOf q id) := by
  rw [ackKeyOf]
  split
  · exact isTaskKey_fifo q id
  · exact isTaskKey_sched q id

private theorem not_isTaskKey_queue {h : GoString} (hh : lit "queue" <+: h) (x : GoString) :
    ¬IsTaskKey (h ++ x) := by
  rintro ⟨y, hy⟩
  obtain ⟨z, rfl⟩ := hh
  rw [List.append_assoc] at hy
  exact append_ne_append 1 (by decide) (by decide) (by decide) _ _ hy

theorem not_isTaskKey_seq (q : GoString) : ¬IsTaskKey (getSeqKey q) :=
  not_isTaskKey_queue (by decide) _

theorem not_isTaskKey_config (q : GoString) : ¬IsTaskKey (getConfigKey q) :=
  not_isTaskKey_queue (by decide) _

theorem getSeqKey_ne_getConfigKey (q r : GoString) : getSeqKey q ≠ getConfigKey r :=
  append_ne_append 7 (by decide) (by decide) (by decide) _ _

theorem not_startsWith_getSchedPrefix (q r : GoString) (i : TaskID) :
    ¬getSchedPrefix q <+: getFifoTaskKey r i := by
  rintro ⟨x, hx⟩
  rw [getFifoTaskKey, getSchedPrefix, getFifoPrefix, List.append_assoc (lit "task#fifo#"),
    List.append_assoc (lit "task#sched#")] at hx
  exact append_ne_append 6 (by decide) (by decide) (by decide) _ _ hx

theorem not_startsWith_getFifoPrefix (q r : GoString) (i : TaskID) :
    ¬getFifoPrefix q <+: getScheduledTaskKey r i := by
  rintro ⟨x, hx⟩
  rw [getScheduledTaskKey, getSchedPrefix, getFifoPrefix, List.append_assoc (lit "task#fifo#"),
    List.append_assoc (lit "task#sched#")] at hx
  exact append_ne_append 6 (by decide) (by decide) (by decide) _ _ hx

theorem getFifoTaskKey_ne_getScheduledTaskKey (q r : GoString) (i j : TaskID) :
    getFifoTaskKey q i ≠ getScheduledTaskKey r j := fun h ↦
  not_startsWith_getFifoPrefix q r j (h ▸ List.prefix_append _ _)

/-! ## Injectivity -/

@[simp] theorem getSeqKey_inj {q r : GoString} : getSeqKey q = getSeqKey r ↔ q = r :=
  List.append_right_inj _

@[simp] theorem getConfigKey_inj {q r : GoString} : getConfigKey q = getConfigKey r ↔ q = r :=
  List.append_right_inj _

/-- A fixed-width suffix behind `queue#` leaves the queue readable. -/
private theorem queue_suffix_inj {head q r x y : GoString} (hlen : x.length = y.length) :
    head ++ (q ++ lit "#") ++ x = head ++ (r ++ lit "#") ++ y ↔ q = r ∧ x = y := by
  constructor
  · intro h
    obtain ⟨hpre, hsuf⟩ := List.append_inj' h hlen
    exact ⟨List.append_cancel_right (List.append_cancel_left hpre), hsuf⟩
  · rintro ⟨rfl, rfl⟩
    rfl

theorem getFifoTaskKey_inj {q r : GoString} {i j : TaskID} :
    getFifoTaskKey q i = getFifoTaskKey r j ↔ q = r ∧ i.index = j.index := by
  rw [getFifoTaskKey, getFifoTaskKey, getFifoPrefix, getFifoPrefix, queue_suffix_inj (by simp)]
  refine and_congr_right fun _ ↦ ⟨fun h ↦ ?_, fun h ↦ by rw [h]⟩
  have hi := i.index.toNat_lt
  have hj := j.index.toNat_lt
  exact UInt64.toNat_inj.mp (BigEndian.bytes_injective (by omega) (by omega) h)

theorem getScheduledTaskKey_inj {q r : GoString} {i j : TaskID} :
    getScheduledTaskKey q i = getScheduledTaskKey r j ↔ q = r ∧ i = j := by
  rw [getScheduledTaskKey, getScheduledTaskKey, getSchedPrefix, getSchedPrefix,
    queue_suffix_inj (i.length_bytes.trans j.length_bytes.symm)]
  exact and_congr_right fun _ ↦ ⟨fun h ↦ TaskID.ext_toNat (congrArg BigEndian.value h),
    congrArg TaskID.bytes⟩

/-- Task records of different queues never share a key. -/
theorem queue_eq_of_getTaskKey_eq {t u : Task} {i j : TaskID}
    (h : getTaskKey t i = getTaskKey u j) : t.queue = u.queue := by
  rw [getTaskKey, getTaskKey] at h
  split at h <;> split at h
  · exact (getFifoTaskKey_inj.mp h).1
  · exact absurd h (getFifoTaskKey_ne_getScheduledTaskKey _ _ _ _)
  · exact absurd h.symm (getFifoTaskKey_ne_getScheduledTaskKey _ _ _ _)
  · exact (getScheduledTaskKey_inj.mp h).1

end Z4
