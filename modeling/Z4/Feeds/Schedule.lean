import Z4.Feeds.Resume
import Z4.Storage.Scan

/-!
# Delivery of scheduled tasks

The scheduled `undeliveredReader` scans the scheduled tasks of its queue from the id after the last
one it pushed up to the id of the current time. Its order is that of the ids: by time, and by index
among tasks of one time. Unlike indexes, times do not arrive in order. A task may be saved with a
time that the reader has passed, and the reader leaves it to redelivery.

So there are two things to say about any interleaving of saves, acks, changes of the settings and
calls of `Read`, with any clock and any pushes that fail. The ids that are pushed increase, so no
task is pushed twice. And a call pushes exactly the stored tasks that lie past the checkpoint and
are due, in order, up to the first push that fails.

A task is due when its id is not past that of the current time and the index zero. Ids hold the run
time of a task only from `2 ^ 56` nanoseconds after the epoch on: an id of an earlier time is read
back as one of a much later time, and its task is not due for decades. And a task with an index is
not due at its very run time.

Both need queue names without the separator: a record of another queue in the range would become the
checkpoint.
-/

namespace Z4.Timed

open KeyValue Runs Redelivery

/-! ## Ids -/

/-- The id of a task as a number. -/
def idOf (t : Task) : ℕ := ((mustParseString t.id).map TaskID.toNat).getD 0

/-- A scheduled task of the queue, with an id that parses. -/
structure IsSched (q : GoString) (t : Task) : Prop where
  queue : t.queue = q
  scheduled : t.scheduleTime ≠ none
  parses : (mustParseString t.id).isSome

/-- The name of the queue has no separator, and the index is not the largest. -/
def Plain (t : Task) : Prop := 35 ∉ t.queue ∧ idOf t % 2 ^ 64 + 1 < 2 ^ 64

instance (t : Task) : Decidable (Plain t) := inferInstanceAs (Decidable (_ ∧ _))

/-- Every task record is a plain task under its own key. -/
def HoldsPlain (db : DB) : Prop :=
  ∀ k v, IsTaskKey k → db[k]? = some v → ∃ t, v = .task t ∧ recordKey t = some k ∧ Plain t

section

variable {q : GoString} {db db' : DB} {t u : Task}

theorem HoldsPlain.filed (h : HoldsPlain db) : Filed db := by
  intro k v hk hv
  obtain ⟨t, rfl, hkey, -⟩ := h k v hk hv
  exact ⟨t, rfl, hkey⟩

theorem HoldsPlain.plain (h : HoldsPlain db) (ht : Stored db t) : Plain t := by
  obtain ⟨k, hk, hget⟩ := ht
  obtain ⟨u, hu, -, hplain⟩ := h k _ (isTaskKey_recordKey hk) hget
  obtain rfl : t = u := by simpa using hu
  exact hplain

theorem holdsPlain_empty : HoldsPlain ∅ := fun k v _ h ↦ by simp at h

theorem HoldsPlain.saveAll (h : HoldsPlain db) {ts : List Task} (hts : ∀ t ∈ ts, Plain t)
    {si : Bool} (hsave : saveAll ts si db = some db') : HoldsPlain db' := by
  intro k v hk hv
  obtain ⟨t, hmem, hv, hkey⟩ | hv := record_of_saveAll hsave hk hv
  · exact ⟨t, hv, hkey, hts t hmem⟩
  · exact h k v hk hv

theorem HoldsPlain.deleteAll (h : HoldsPlain db) (acks : List Ack) :
    HoldsPlain (deleteAll acks db) := by
  intro k v hk hv
  rw [getElem?_deleteAll] at hv
  split at hv
  · simp at hv
  · exact h k v hk hv

theorem wants_scheduled_iff {a b : TaskID} : (TaskRange.scheduled q a b).Wants t ↔
    IsSched q t ∧ a.toNat ≤ idOf t ∧ idOf t ≤ b.toNat := by
  cases hid : mustParseString t.id with
  | none =>
    refine iff_of_false ?_ fun h ↦ ?_
    · rintro ⟨-, -, id, h, -⟩
      simp [hid] at h
    · have := h.1.parses
      simp [hid] at this
  | some id =>
    have hidOf : idOf t = id.toNat := by rw [idOf, hid]; rfl
    rw [TaskRange.Wants, hid, hidOf]
    simp only [Option.mem_some_iff, exists_eq_left', TaskID.compare_bytes, Nat.isLE_compare]
    exact ⟨fun h ↦ ⟨⟨h.1, h.2.1, by rw [hid]; rfl⟩, h.2.2⟩,
      fun h ↦ ⟨h.1.queue, h.1.scheduled, h.2⟩⟩

/-- No record of another queue is in the range. -/
theorem filter_handedOut (hdb : HoldsPlain db) (hq : 35 ∉ q) (a b : TaskID) :
    (handedOut db (.scheduled q a b)).filter (·.queue = q) = handedOut db (.scheduled q a b) := by
  refine List.filter_eq_self.mpr fun t ht ↦ decide_eq_true ?_
  obtain ⟨k, hin, hget⟩ := (mem_handedOut hdb.filed).mp ht
  have hkey := hdb.filed.recordKey_eq (TaskRange.isTaskKey_of_contains hin) hget
  exact queue_eq_of_contains hin hkey hq (hdb.plain ⟨k, hkey, hget⟩).1

theorem mem_handedOut_iff (hdb : HoldsPlain db) (hq : 35 ∉ q) {a b : TaskID} :
    t ∈ handedOut db (.scheduled q a b) ↔
      Stored db t ∧ IsSched q t ∧ a.toNat ≤ idOf t ∧ idOf t ≤ b.toNat := by
  rw [← filter_handedOut hdb hq, ← wants_scheduled_iff]
  exact mem_filter_handedOut (r := .scheduled q a b) hdb.filed

theorem pairwise_handedOut_idOf (hdb : HoldsPlain db) (hq : 35 ∉ q) (a b : TaskID) :
    (handedOut db (.scheduled q a b)).Pairwise fun t u ↦ idOf t < idOf u := by
  have hsorted := pairwise_filter_handedOut hdb.filed (.scheduled q a b)
  rw [TaskRange.getQueue, filter_handedOut hdb hq] at hsorted
  refine hsorted.imp fun {t u} h ↦ ?_
  obtain ⟨i, hi, j, hj, hlt⟩ := h
  rw [TaskID.compare_bytes, Nat.compare_eq_lt] at hlt
  rw [Option.mem_def] at hi hj
  rw [idOf, idOf, hi, hj]
  exact hlt

end

/-! ## The checkpoint -/

/-- The id of the last task pushed, or zero, which is `iden.Min`. -/
def position (pushed : List Task) : ℕ := (pushed.getLast?.map idOf).getD 0

/-- The checkpoint names the last task pushed, or it is the one of a new queue. -/
structure Marked (q : GoString) (settings : QueueConfig) (pushed : List Task) : Prop where
  id_eq : settings.id = q
  last : settings.lastDeliveredScheduledTask
    = (pushed.getLast?.map Task.id).getD (defaultConfig q).lastDeliveredScheduledTask
  sched : ∀ t ∈ pushed, IsSched q t ∧ Plain t

section

variable {q : GoString} {settings : QueueConfig} {pushed : List Task}

/-- The checkpoint parses, and the id after it is one more. -/
theorem Marked.query (h : Marked q settings pushed) (now : Time) :
    ∃ a, schedUndeliveredQuery settings now = some (.scheduled q a (.new now 0)) ∧
      a.toNat = position pushed + 1 := by
  have hnext : ∀ {last : TaskID}, mustParseString settings.lastDeliveredScheduledTask = some last →
      last.toNat % 2 ^ 64 + 1 < 2 ^ 64 → last.toNat = position pushed →
      ∃ a, schedUndeliveredQuery settings now = some (.scheduled q a (.new now 0)) ∧
        a.toNat = position pushed + 1 := by
    intro last hparse hindex hpos
    refine ⟨.new last.mustTime (last.index + 1), ?_, ?_⟩
    · rw [schedUndeliveredQuery, hparse, Option.map_some, h.id_eq]
    · rw [TaskID.toNat_new, TaskID.unixNano_mustTime, TaskID.timestamp_toNat, UInt64.toNat_add,
        TaskID.index_toNat, UInt64.toNat_one, Nat.mod_eq_of_lt hindex, ← hpos]
      omega
  cases hlast : pushed.getLast? with
  | none =>
    have hmin : mustParseString (defaultConfig q).lastDeliveredScheduledTask = some .min := by
      rw [show (defaultConfig q).lastDeliveredScheduledTask = TaskID.min.string from rfl,
        mustParseString_string]
      exact congrArg some (TaskID.ext_toNat (by rw [TaskID.toNat_reparsed]; decide +kernel))
    have hl := h.last
    rw [hlast, Option.map_none, Option.getD_none] at hl
    refine hnext (hl ▸ hmin) (by rw [TaskID.toNat_min]; decide) ?_
    rw [TaskID.toNat_min, position, hlast]
    rfl
  | some t =>
    obtain ⟨hsched, hplain⟩ := h.sched t (List.mem_of_getLast? hlast)
    obtain ⟨id, hid⟩ := Option.isSome_iff_exists.mp hsched.parses
    have hidOf : idOf t = id.toNat := by rw [idOf, hid]; rfl
    have hl := h.last
    rw [hlast, Option.map_some, Option.getD_some] at hl
    refine hnext (hl ▸ hid) (hidOf ▸ hplain.2) ?_
    rw [position, hlast, ← hidOf]
    rfl

theorem Marked.after (h : Marked q settings pushed) {done : List Task}
    (hdone : ∀ t ∈ done, IsSched q t ∧ Plain t) :
    Marked q (done.foldl schedCheckpointerSet settings) (pushed ++ done) := by
  induction done generalizing settings pushed with
  | nil =>
    rw [List.append_nil]
    exact h
  | cons t done ih =>
    have hstep : Marked q (schedCheckpointerSet settings t) (pushed ++ [t]) := by
      refine ⟨h.id_eq, by simp [schedCheckpointerSet], fun u hu ↦ ?_⟩
      rcases List.mem_append.mp hu with hu | hu
      · exact h.sched u hu
      · exact List.mem_singleton.mp hu ▸ hdone t List.mem_cons_self
    have := ih hstep fun u hu ↦ hdone u (List.mem_cons_of_mem t hu)
    rwa [List.append_assoc, List.singleton_append] at this

theorem idOf_le_position (hsorted : pushed.Pairwise fun t u ↦ idOf t < idOf u) {t : Task}
    (ht : t ∈ pushed) : idOf t ≤ position pushed := by
  cases hlast : pushed.getLast? with
  | none =>
    rw [List.getLast?_eq_none_iff.mp hlast] at ht
    simp at ht
  | some u =>
    obtain ⟨init, rfl⟩ := List.getLast?_eq_some_iff.mp hlast
    rw [position, hlast, Option.map_some, Option.getD_some]
    rcases List.mem_append.mp ht with ht | ht
    · exact ((List.pairwise_append.mp hsorted).2.2 t ht u List.mem_cons_self).le
    · rw [List.mem_singleton.mp ht]

end

/-! ## Runs -/

structure State where
  db : DB := ∅
  reader : Resume.State

inductive Event where
  /-- Tasks are saved. -/
  | save (tasks : List Task) (saveIndex : Bool)
  /-- Acks are flushed. -/
  | delete (acks : List Ack)
  /-- The other fields of the settings change: the FIFO checkpoint and the ack deadline. -/
  | update (lastDeliveredQueuedTask : GoString) (ackDeadlineSeconds : Int32)
  /-- `Read` is called. -/
  | read (now : Time) (push : Resume.PushFunc)

def step (s : State) : Event → Option State
  | .save tasks saveIndex => (saveAll tasks saveIndex s.db).map fun db ↦ { s with db }
  | .delete acks => some { s with db := deleteAll acks s.db }
  | .update lastDeliveredQueuedTask ackDeadlineSeconds =>
    some { s with reader := { s.reader with
      settings := { s.reader.settings with lastDeliveredQueuedTask, ackDeadlineSeconds } } }
  | .read now push =>
    (Resume.read (schedUndeliveredQuery · now) schedCheckpointerSet s.db push s.reader).map fun r ↦
      { s with reader := r.1 }

/-- Only plain tasks are saved. -/
def Saves (_ : State) : Event → Prop
  | .save tasks _ => ∀ t ∈ tasks, Plain t
  | .delete _ | .update _ _ | .read _ _ => True

instance (s : State) : (e : Event) → Decidable (Saves s e)
  | .save tasks _ => inferInstanceAs (Decidable (∀ t ∈ tasks, Plain t))
  | .delete _ | .update _ _ | .read _ _ => inferInstanceAs (Decidable True)

/-- The invariant. -/
structure Inv (q : GoString) (s : State) : Prop where
  holds : HoldsPlain s.db
  marked : Marked q s.reader.settings s.reader.pushed
  sorted : s.reader.pushed.Pairwise fun t u ↦ idOf t < idOf u

/-- The task is stored, scheduled and due, and lies past the checkpoint. -/
structure Awaited (q : GoString) (now : Time) (s : State) (t : Task) : Prop where
  stored : Stored s.db t
  sched : IsSched q t
  past : position s.reader.pushed < idOf t
  due : idOf t ≤ (TaskID.new now 0).toNat

/-- What a call of `Read` does. -/
structure Reads (q : GoString) (now : Time) (push : Resume.PushFunc) (s s' : State)
    (due : List Task) : Prop where
  /-- The tasks that it pushes come after those pushed before. -/
  pushed : s'.reader.pushed = s.reader.pushed ++ due
  sound : ∀ t ∈ due, Awaited q now s t
  /-- They are all there are, or the push function fails on the next. -/
  complete : (∀ t, Awaited q now s t → t ∈ due) ∨
    ∃ u, Awaited q now s u ∧ push s'.reader.pushed u ≠ .ok ∧
      ∀ t, Awaited q now s t → t ∈ due ∨ idOf u ≤ idOf t

section

variable {q : GoString} {s s' : State}

theorem inv_init (q : GoString) : Inv q { reader := { settings := defaultConfig q } } where
  holds := holdsPlain_empty
  marked := ⟨rfl, rfl, by simp⟩
  sorted := .nil

/-- **One call.** It returns, and pushes what is due past the checkpoint. -/
theorem Inv.read (h : Inv q s) (hq : 35 ∉ q) (now : Time) (push : Resume.PushFunc) :
    ∃ s' due, step s (.read now push) = some s' ∧ Reads q now push s s' due ∧ Inv q s' := by
  obtain ⟨a, hquery, ha⟩ := h.marked.query now
  obtain ⟨err, done, rest, hread, hts, hstop⟩ := Resume.read_spec (schedUndeliveredQuery · now)
    schedCheckpointerSet push h.holds.filed hquery
  have hmem : ∀ t, t ∈ done ++ rest ↔ Awaited q now s t := by
    intro t
    rw [← hts, mem_handedOut_iff h.holds hq]
    exact ⟨fun ⟨hst, hsched, hlo, hhi⟩ ↦ ⟨hst, hsched, by omega, hhi⟩,
      fun ⟨hst, hsched, hlo, hhi⟩ ↦ ⟨hst, hsched, by omega, hhi⟩⟩
  have hsorted := pairwise_handedOut_idOf h.holds hq a (.new now 0)
  rw [hts] at hsorted
  have hdone : ∀ t ∈ done, Awaited q now s t := fun t ht ↦
    (hmem t).mp (List.mem_append_left rest ht)
  refine ⟨{ s with reader := s.reader.after schedCheckpointerSet done }, done,
    by rw [step, hread]; rfl, ⟨rfl, hdone, ?_⟩, h.holds, ?_, ?_⟩
  · cases rest with
    | nil => exact .inl fun t ht ↦ by simpa using (hmem t).mpr ht
    | cons u rest =>
      refine .inr ⟨u, (hmem u).mp (by simp), hstop u rfl, fun t ht ↦ ?_⟩
      rcases List.mem_append.mp ((hmem t).mpr ht) with ht | ht
      · exact .inl ht
      · refine .inr ?_
        rcases List.mem_cons.mp ht with rfl | ht
        · exact le_rfl
        · exact ((List.pairwise_cons.mp (List.pairwise_append.mp hsorted).2.1).1 t ht).le
  · exact h.marked.after fun t ht ↦ ⟨(hdone t ht).sched, h.holds.plain (hdone t ht).stored⟩
  · refine List.pairwise_append.mpr ⟨h.sorted, (List.pairwise_append.mp hsorted).1, ?_⟩
    intro t ht u hu
    exact (idOf_le_position h.sorted ht).trans_lt (hdone u hu).past

theorem Inv.step (h : Inv q s) (hq : 35 ∉ q) {e : Event} (hok : Saves s e)
    (hs : step s e = some s') : Inv q s' := by
  cases e with
  | save tasks saveIndex =>
    obtain ⟨db, hdb, rfl⟩ := Option.map_eq_some_iff.mp hs
    exact ⟨h.holds.saveAll hok hdb, h.marked, h.sorted⟩
  | delete acks =>
    obtain rfl := Option.some.inj hs
    exact ⟨h.holds.deleteAll acks, h.marked, h.sorted⟩
  | update queued deadline =>
    obtain rfl := Option.some.inj hs
    exact ⟨h.holds, ⟨h.marked.id_eq, h.marked.last, h.marked.sched⟩, h.sorted⟩
  | read now push =>
    obtain ⟨t, -, ht, -, hinv⟩ := h.read hq now push
    exact Option.some.inj (ht.symm.trans hs) ▸ hinv

end

/-! ## Times -/

/-- The push is scheduled, for an instant that an id can hold: from `2 ^ 56` nanoseconds after the
epoch on, and before they wrap. -/
structure Timely (p : Push) : Prop where
  scheduled : p.Scheduled
  lo : 2 ^ 56 ≤ p.runTime.nanos
  hi : p.runTime.nanos < 2 ^ 64

section

variable {p p' : Push}

theorem Timely.idOf_eq (h : Timely p) :
    (idOf p.task : ℤ) = p.runTime.nanos * 2 ^ 64 + p.index.toNat := by
  have htime := toNat_unixNano p.runTime (by have := h.lo; omega) h.hi
  have hlead : 2 ^ 56 ≤ p.runTime.unixNano.toUInt64.toNat := by
    have := h.lo
    omega
  rw [idOf, p.mustParseString_task, TaskID.reparsed_of_le (p.le_toNat_id hlead), Option.map_some,
    Option.getD_some, Push.id, TaskID.toNat_new, Nat.cast_add, Nat.cast_mul, htime]
  rfl

/-- A task is due once its run time has passed, or at its run time if its index is zero. -/
theorem Timely.due_iff (h : Timely p) {now : Time} (hlo : 0 ≤ now.nanos)
    (hhi : now.nanos < 2 ^ 64) :
    idOf p.task ≤ (TaskID.new now 0).toNat ↔
      p.runTime.nanos < now.nanos ∨ p.runTime.nanos = now.nanos ∧ p.index = 0 := by
  have hid := h.idOf_eq
  have hnow := toNat_unixNano now hlo hhi
  have hlt := p.index.toNat_lt
  have hzero : p.index = 0 ↔ p.index.toNat = 0 := by
    rw [← UInt64.toNat_inj]
    rfl
  rw [TaskID.toNat_new, hzero, ← Int.ofNat_le, hid]
  push_cast
  rw [hnow]
  omega

theorem Timely.idOf_lt_iff (h : Timely p) (h' : Timely p') :
    idOf p.task < idOf p'.task ↔ p.runTime.nanos < p'.runTime.nanos ∨
      p.runTime.nanos = p'.runTime.nanos ∧ p.index < p'.index := by
  have hid := h.idOf_eq
  have hid' := h'.idOf_eq
  have hlt := p.index.toNat_lt
  have hlt' := p'.index.toNat_lt
  rw [← Int.ofNat_lt, hid, hid', UInt64.lt_iff_toNat_lt]
  omega

end

/-- **Scheduled tasks are pushed once, in order, and when they are due.** In any run the ids pushed
increase, and the next call of `Read`, at whatever time, returns and pushes exactly the stored tasks
past the last of them that are due, up to the first push that fails. For tasks whose run times an id
can hold, the order is by run time and index, and a task is due once its run time has passed, or at
its run time if its index is zero. -/
theorem pushed_in_order {q : GoString} {s : State} {es : List Event} (hq : 35 ∉ q)
    (hok : Meets step Saves { reader := { settings := defaultConfig q } } es)
    (hrun : run step { reader := { settings := defaultConfig q } } es = some s) :
    (s.reader.pushed.Pairwise fun t u ↦ idOf t < idOf u) ∧
      (∀ now push, ∃ s' due, step s (.read now push) = some s' ∧ Reads q now push s s' due) ∧
      (∀ p p', Timely p → Timely p' → (idOf p.task < idOf p'.task ↔
        p.runTime.nanos < p'.runTime.nanos ∨
          p.runTime.nanos = p'.runTime.nanos ∧ p.index < p'.index)) ∧
      ∀ p now, Timely p → 0 ≤ now.nanos → now.nanos < 2 ^ 64 →
        (idOf p.task ≤ (TaskID.new now 0).toNat ↔
          p.runTime.nanos < now.nanos ∨ p.runTime.nanos = now.nanos ∧ p.index = 0) := by
  have h : Inv q s :=
    Meets.invariant (fun _ _ _ h hok hs ↦ h.step hq hok hs) (inv_init q) hok hrun
  refine ⟨h.sorted, fun now push ↦ ?_, fun p p' ↦ Timely.idOf_lt_iff,
    fun p now hp hlo hhi ↦ hp.due_iff hlo hhi⟩
  obtain ⟨s', due, hs', hreads, -⟩ := h.read hq now push
  exact ⟨s', due, hs', hreads⟩

/-- A task of the queue `q` for the given number of seconds after the epoch. -/
def timedTask (sec : Int64) (i : UInt64) : Task :=
  { id := (TaskID.new (.ofUnix sec 0) i).string, queue := lit "q", scheduleTime := some ⟨sec, 0⟩ }

/-- Two tasks, of which one is due at the first call. One that comes late is passed over. -/
theorem pushed_in_order_timedTask : ∃ s,
    run step { reader := { settings := defaultConfig (lit "q") } }
        [.save [timedTask 1800000000 1, timedTask 1600000000 2] true,
          .read (.ofUnix 1700000000 0) fun _ _ ↦ .ok, .save [timedTask 1500000000 3] true,
          .read (.ofUnix 1900000000 0) fun _ _ ↦ .ok] = some s ∧
      s.reader.pushed = [timedTask 1600000000 2, timedTask 1800000000 1] ∧
      ∀ now push, ∃ s' due, step s (.read now push) = some s' ∧
        Reads (lit "q") now push s s' due := by
  have h : (run step { reader := { settings := defaultConfig (lit "q") } }
      [.save [timedTask 1800000000 1, timedTask 1600000000 2] true,
        .read (.ofUnix 1700000000 0) fun _ _ ↦ .ok, .save [timedTask 1500000000 3] true,
        .read (.ofUnix 1900000000 0) fun _ _ ↦ .ok]).map (fun s ↦ decide (s.reader.pushed
          = [timedTask 1600000000 2, timedTask 1800000000 1])) = some true := by decide +kernel
  obtain ⟨s, hs, hd⟩ := Option.map_eq_some_iff.mp h
  exact ⟨s, hs, of_decide_eq_true hd,
    (pushed_in_order (by decide) (by decide +kernel) hs).2.1⟩

end Z4.Timed
