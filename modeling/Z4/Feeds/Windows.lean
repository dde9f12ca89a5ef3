import Z4.Feeds.Queries

/-!
# When a scheduled task is found

Two promises about a stored task: once it is due, some query covers it, and no query covers it
before the time that was asked for. Both hold on a window of times only.

* An id keeps its time modulo `2 ^ 64` nanoseconds, so times before the epoch read as times far
  ahead, and times `2 ^ 64` nanoseconds past the epoch (July 2554) read as times long gone.
* An id whose leading byte is zero is moved up when its text is read back, so times in the first
  `2 ^ 56` nanoseconds (until April 1972) read as later ones.
* The watermark is the clock minus the ack deadline, which an admin may set to any nonzero `int32`.
  A negative one puts the watermark ahead of the clock, and one that reaches back before the epoch
  wraps it around.
-/

namespace Z4

open KeyValue

/-! ## No task is stranded -/

/-- The key is in the range of one of the four queries. -/
def Covered (settings : QueueConfig) (now : Time) (k : Key) : Prop :=
  (∃ r ∈ fifoDeliveredQuery settings, r.Contains k) ∨
    (∃ r ∈ fifoUndeliveredQuery settings, r.Contains k) ∨
    (schedDeliveredQuery settings now).Contains k ∨
    ∃ r ∈ schedUndeliveredQuery settings now, r.Contains k

instance (settings : QueueConfig) (now : Time) (k : Key) : Decidable (Covered settings now k) :=
  inferInstanceAs (Decidable (_ ∨ _ ∨ _ ∨ _))

/-- The clock is past the schedule time and the ack deadline of the task, if it has one. -/
def Due (settings : QueueConfig) (now : Time) (task : Task) : Prop :=
  ∀ st ∈ task.scheduleTime,
    st.instant + settings.ackDeadlineSeconds.toInt * 10 ^ 9 < now.nanos

instance (settings : QueueConfig) (now : Time) (task : Task) : Decidable (Due settings now task) :=
  inferInstanceAs (Decidable (∀ st ∈ task.scheduleTime, _))

/-- Whatever index a push gets and whatever config its queue has, if the task is due at the clock
`now` then some query covers it there. -/
def NeverStranded (req : PushTaskRequest) (pushedAt now : Time) : Prop :=
  ∀ (p : Push) (settings : QueueConfig) (k : Key), p.req = req → p.now = pushedAt →
    ReachableConfig req.queue settings → 0 ≤ settings.ackDeadlineSeconds.toInt →
    recordKey p.task = some k → Due settings now p.task → Covered settings now k

/-- Whichever deadline makes a task with the run time due, the ids with that run time, as they are
read back from their texts, are not past the watermark. Times are compared as ids keep them, modulo
`2 ^ 64`. -/
def BelowWatermark (runTime now : Time) : Prop :=
  ∀ d : ℤ, 0 < d → d < 2 ^ 31 → runTime.nanos + d * 10 ^ 9 < now.nanos →
    (TaskID.lastReparsed (runTime.nanos % 2 ^ 64).toNat : ℤ)
      ≤ (now.nanos - d * 10 ^ 9) % 2 ^ 64 * 2 ^ 64

/-- Unscheduled tasks are on one side of the checkpoint or the other. -/
theorem covered_of_not_scheduled {p : Push} {settings : QueueConfig} {now : Time} {k : Key}
    (hp : ¬p.Scheduled) (hc : settings.WellFormed p.req.queue) (hk : recordKey p.task = some k) :
    Covered settings now k := by
  obtain ⟨last, hlast⟩ := hc.queued
  rw [p.recordKey_of_not_scheduled hp, Option.some.injEq] at hk
  rw [← hk, ← hc.id_eq]
  rcases exists_contains_fifo p.id hlast with h | h
  · exact .inl h
  · exact .inr (.inl h)

theorem Push.due_iff {p : Push} (hp : p.Scheduled) {settings : QueueConfig} {now : Time} :
    Due settings now p.task ↔
      p.runTime.nanos + settings.ackDeadlineSeconds.toInt * 10 ^ 9 < now.nanos := by
  rw [Due, p.scheduleTime_of_scheduled hp]
  simp

theorem lastReparsed_nanos (t : Time) :
    TaskID.lastReparsed (t.nanos % 2 ^ 64).toNat
      = TaskID.lastReparsed t.unixNano.toUInt64.toNat := by
  rw [← t.unixNano_toUInt64, Int.toNat_natCast]

/-- From `2 ^ 56` nanoseconds on and before `2 ^ 64`, a task that is due is below the watermark. -/
theorem belowWatermark_of_le {runTime now : Time} (hrun : 2 ^ 56 ≤ runTime.nanos)
    (hnow : now.nanos < 2 ^ 64) : BelowWatermark runTime now := by
  intro d hd _ hdue
  have hr : (runTime.nanos % 2 ^ 64).toNat = runTime.nanos.toNat := by
    rw [Int.emod_eq_of_lt (by omega) (by omega)]
  rw [hr, TaskID.lastReparsed_of_le (by omega) (by omega), Int.emod_eq_of_lt (by omega) (by omega)]
  omega

theorem le_toInt_ext_of_le_nanos {now : Time} (hlo : 0 ≤ now.nanos) (hhi : now.nanos < 2 ^ 64) :
    -2 ^ 63 + 2 ^ 31 ≤ now.ext.toInt := by
  have hext := Time.toInt_ext (t := now) (by omega) (by omega)
  have hunix := now.unix_toInt_bounds
  omega

theorem covered_of_belowWatermark {p : Push} {settings : QueueConfig} {now : Time} {k : Key}
    (hp : p.Scheduled) (hreach : ReachableConfig p.req.queue settings)
    (hd : 0 ≤ settings.ackDeadlineSeconds.toInt) (hnow : -2 ^ 63 + 2 ^ 31 ≤ now.ext.toInt)
    (hk : recordKey p.task = some k) (hdue : Due settings now p.task)
    (hbelow : BelowWatermark p.runTime now) : Covered settings now k := by
  have hc := hreach.wellFormed
  have hne : settings.ackDeadlineSeconds.toInt ≠ 0 := fun h ↦
    hreach.ackDeadlineSeconds_ne_zero (Int32.toInt_inj.mp h)
  have hlt := settings.ackDeadlineSeconds.toInt_lt
  have hle := hbelow _ (by omega) (by omega) ((Push.due_iff hp).mp hdue)
  rw [lastReparsed_nanos, ← toNat_unixNano_watermark settings now hd hnow] at hle
  have hid := TaskID.toNat_reparsed_new_le p.runTime p.index
  rw [p.recordKey_of_scheduled hp, Option.some.injEq] at hk
  refine .inr (.inr (.inl ?_))
  rw [← hk, ← hc.id_eq, contains_schedDelivered_iff]
  exact hid.trans (by exact_mod_cast hle)

theorem reachable_updateQueue (queue : GoString) {d : Int32} (hd : d ≠ 0) :
    ∃ settings, ReachableConfig queue settings ∧ settings.ackDeadlineSeconds = d ∧
      settings.lastDeliveredScheduledTask = TaskID.min.string := by
  refine ⟨updateQueue (defaultConfig queue) d, ⟨[.update d], rfl⟩, ?_, ?_⟩
  · rw [updateQueue, if_pos hd]
  · rw [updateQueue, if_pos hd, defaultConfig]

theorem reachable_schedCheckpoint (queue : GoString) {d : Int32} (hd : d ≠ 0) (now : Time) :
    ∃ settings, ReachableConfig queue settings ∧ settings.ackDeadlineSeconds = d ∧
      settings.lastDeliveredScheduledTask = (TaskID.new now 0).string := by
  obtain ⟨settings, ⟨events, rfl⟩, hdeadline, -⟩ := reachable_updateQueue queue hd
  let p : Push := ⟨{ queue, schedule := .scheduleTime (.new now) }, .zero, .zero, 0⟩
  refine ⟨_, ⟨events ++ [.schedCheckpoint p], rfl⟩, ?_, ?_⟩
  · rw [List.foldl_append]
    exact hdeadline
  · have htime : p.runTime = now := Timestamp.asTime_new now
    rw [List.foldl_append]
    show p.task.id = _
    rw [p.task_id, Push.id, htime]

/-- With the checkpoint at the clock itself, the undelivered query is empty: only the watermark
counts. -/
theorem covered_iff_of_checkpoint {settings : QueueConfig} {now : Time} {id : TaskID}
    {queue : GoString} (hc : settings.WellFormed queue)
    (hlast : settings.lastDeliveredScheduledTask = (TaskID.new now 0).string) :
    Covered settings now (getScheduledTaskKey queue id) ↔
      id.toNat ≤ (settings.watermark now).unixNano.toUInt64.toNat * 2 ^ 64 := by
  rw [← hc.id_eq]
  refine ⟨?_, fun h ↦ .inr (.inr (.inl (contains_schedDelivered_iff.mpr h)))⟩
  rintro (h | h | h | h)
  · obtain ⟨r, hr, hin⟩ := h
    obtain ⟨last, -, rfl⟩ := Option.map_eq_some_iff.mp hr
    exact (TaskRange.not_contains_fifo hin).elim
  · obtain ⟨r, hr, hin⟩ := h
    obtain ⟨last, -, rfl⟩ := Option.map_eq_some_iff.mp hr
    exact (TaskRange.not_contains_fifo hin).elim
  · exact contains_schedDelivered_iff.mp h
  · -- the checkpoint is read back as an id at or past the clock, with index zero
    rw [contains_schedUndelivered_iff hlast] at h
    have hnat : (TaskID.new now 0).toNat = now.unixNano.toUInt64.toNat * 2 ^ 64 := by
      rw [TaskID.toNat_new, UInt64.toNat_zero, Nat.add_zero]
    have hle := TaskID.le_toNat_reparsed (TaskID.new now 0)
    have hdvd : 2 ^ 64 ∣ (TaskID.new now 0).reparsed.toNat := by
      rw [TaskID.toNat_reparsed, hnat]
      exact (Nat.dvd_mul_left _ _).mul_right _
    have hts := (TaskID.new now 0).reparsed.timestamp_toNat
    have hidx : (TaskID.new now 0).reparsed.index = 0 := by
      rw [← UInt64.toNat_inj, TaskID.index_toNat, UInt64.toNat_zero]
      omega
    have hone : ((TaskID.new now 0).reparsed.index + 1).toNat = 1 := by
      rw [hidx]
      decide
    omega

/-- **When no query strands a task.** Unscheduled tasks are covered at every clock. So are scheduled
ones that run `2 ^ 56` nanoseconds past the epoch or later, at every clock before `2 ^ 64`. In
general a scheduled task is covered exactly at the clocks at which its id is not past the watermark,
whichever deadline has made it due; for clocks within 69 years of the smallest time that Go can
represent this is not claimed. -/
theorem neverStranded_iff (req : PushTaskRequest) (pushedAt now : Time) :
    ((getRunTime req pushedAt).isZero = true ∨
        2 ^ 56 ≤ (getRunTime req pushedAt).nanos ∧ now.nanos < 2 ^ 64 →
      NeverStranded req pushedAt now) ∧
    (-2 ^ 63 + 2 ^ 31 ≤ now.ext.toInt →
      (NeverStranded req pushedAt now ↔
        (getRunTime req pushedAt).isZero = true ∨
          BelowWatermark (getRunTime req pushedAt) now)) := by
  constructor
  · rintro h p settings k rfl rfl hreach hd hk hdue
    by_cases hp : p.Scheduled
    · obtain ⟨hrun, hnow⟩ := h.resolve_left (by rw [← Push.runTime, hp]; decide)
      have hlater := (Push.due_iff hp).mp hdue
      rw [Push.runTime] at hlater
      exact covered_of_belowWatermark hp hreach hd (le_toInt_ext_of_le_nanos (by omega) hnow) hk
        hdue (belowWatermark_of_le hrun hnow)
    · exact covered_of_not_scheduled hp hreach.wellFormed hk
  · intro hclock
    constructor
    · intro h
      rw [or_iff_not_imp_left, Bool.not_eq_true]
      intro hscheduled d hpos hlt hdue
      -- the largest index, under the checkpoint at the clock and the deadline
      let p : Push := ⟨req, pushedAt, pushedAt, maxUint64⟩
      have hp : p.Scheduled := hscheduled
      have hd : (Int32.ofInt d).toInt = d := Int32.toInt_ofInt_of_le (by omega) (by omega)
      have hne : Int32.ofInt d ≠ 0 := by
        intro hc
        rw [hc] at hd
        simp at hd
        omega
      obtain ⟨settings, hreach, hdeadline, hlast⟩ := reachable_schedCheckpoint req.queue hne now
      have hsec : settings.ackDeadlineSeconds.toInt = d := by rw [hdeadline, hd]
      have hcov := h p settings _ rfl rfl hreach (by omega) (p.recordKey_of_scheduled hp)
        ((Push.due_iff hp).mpr (by rw [hsec]; exact hdue))
      rw [covered_iff_of_checkpoint hreach.wellFormed hlast] at hcov
      have hid : p.id.reparsed.toNat
          = TaskID.lastReparsed (getRunTime req pushedAt).unixNano.toUInt64.toNat :=
        TaskID.toNat_reparsed_new_max _
      rw [lastReparsed_nanos, ← hsec, ← toNat_unixNano_watermark settings now (by omega) hclock,
        ← hid]
      exact_mod_cast hcov
    · rintro h p settings k rfl rfl hreach hd hk hdue
      by_cases hp : p.Scheduled
      · exact covered_of_belowWatermark hp hreach hd hclock hk hdue
          (h.resolve_left (by rw [← Push.runTime, hp]; decide))
      · exact covered_of_not_scheduled hp hreach.wellFormed hk

/-- A task scheduled for the first second after the epoch. -/
def firstSecond : Push :=
  ⟨{ queue := lit "q", schedule := .scheduleTime ⟨1, 0⟩ }, .ofUnix 0 0, .ofUnix 0 0, 1⟩

/-- Ten minutes later, with the default settings, no query finds it. -/
theorem firstSecond_stranded : ReachableConfig (lit "q") (defaultConfig (lit "q")) ∧
    0 ≤ (defaultConfig (lit "q")).ackDeadlineSeconds.toInt ∧
    Due (defaultConfig (lit "q")) (.ofUnix 600 0) firstSecond.task ∧
    ¬∀ k ∈ recordKey firstSecond.task, Covered (defaultConfig (lit "q")) (.ofUnix 600 0) k := by
  refine ⟨⟨[], rfl⟩, by decide, by decide +kernel, by decide +kernel⟩

/-! ## No task is early -/

/-- The time a request asks for, exactly. -/
def requestedTime (req : PushTaskRequest) (pushedAt : Time) : Option ℤ :=
  match req.schedule with
  | .ttsSeconds s => if 0 < s then some (pushedAt.nanos + s.toInt * 10 ^ 9) else none
  | .scheduleTime ts => some ts.instant
  | .none => none

/-- A scheduled query covers the key. -/
def SchedCovered (settings : QueueConfig) (now : Time) (k : Key) : Prop :=
  (∃ r ∈ schedUndeliveredQuery settings now, r.Contains k) ∨
    (schedDeliveredQuery settings now).Contains k

instance (settings : QueueConfig) (now : Time) (k : Key) :
    Decidable (SchedCovered settings now k) := inferInstanceAs (Decidable (_ ∨ _))

/-- No scheduled query of a queue with ack deadline `d` covers the task of a push before the instant
`requested`, whatever index it got and however far the queue's checkpoints are. -/
def NeverEarly (req : PushTaskRequest) (pushedAt : Time) (d : Int32) (requested : ℤ) : Prop :=
  ∀ (p : Push) (settings : QueueConfig) (now : Time) (k : Key), p.req = req → p.now = pushedAt →
    ReachableConfig req.queue settings → settings.ackDeadlineSeconds = d →
    pushedAt.nanos ≤ now.nanos → recordKey p.task = some k → SchedCovered settings now k →
    requested ≤ now.nanos

/-- The request asks for no later time than the push itself, or for one in the window, and the ack
deadline reaches neither ahead of the clock nor back before the epoch. -/
def InWindow (pushedAt : Time) (d : Int32) (requested : ℤ) : Prop :=
  requested ≤ pushedAt.nanos ∨
    requested < 2 ^ 64 ∧ 0 ≤ d.toInt * 10 ^ 9 ∧ d.toInt * 10 ^ 9 ≤ pushedAt.nanos

section

variable {req : PushTaskRequest} {pushedAt : Time} {R : ℤ}

/-- The eight bytes of the run time are the requested time modulo `2 ^ 64`: the wrapped product with
`time.Second` loses nothing more. -/
theorem unixNano_getRunTime (hR : requestedTime req pushedAt = some R)
    (hlo : -2 ^ 80 ≤ pushedAt.nanos) (hhi : pushedAt.nanos ≤ 2 ^ 80) :
    ((getRunTime req pushedAt).unixNano.toUInt64.toNat : ℤ) = R % 2 ^ 64 := by
  rw [Time.unixNano_toUInt64]
  rw [requestedTime] at hR
  rw [getRunTime]
  cases hs : req.schedule with
  | none => simp [hs] at hR
  | scheduleTime ts =>
    rw [hs] at hR
    rw [← Option.some.inj hR]
    exact ts.nanos_asTime_emod
  | ttsSeconds s =>
    rw [hs] at hR
    by_cases hpos : 0 < s
    · have hsecond : second.toInt = 10 ^ 9 := by decide
      simp only [hpos, if_true, Option.some.injEq] at hR ⊢
      rw [← hR, Time.nanos_add hlo hhi, hsecond, Int.add_emod, toInt_ofInt_emod, ← Int.add_emod]
    · simp [hpos] at hR

theorem neverEarly_of_inWindow (hR : requestedTime req pushedAt = some R) {d : Int32}
    (hwin : InWindow pushedAt d R) : NeverEarly req pushedAt d R := by
  rintro p settings now k rfl rfl hreach rfl hlater hk hcov
  rcases hwin with hle | ⟨hlt, hd, hd'⟩
  · omega
  by_contra hearly
  have hc := hreach.wellFormed
  by_cases hp : p.Scheduled
  · have hrun := unixNano_getRunTime hR (by omega) (by omega)
    have hid := TaskID.toNat_new p.runTime p.index
    have hle := TaskID.le_toNat_reparsed p.id
    have hwater := nanos_watermark settings now (by omega) (by omega)
    have hN := toNat_unixNano now (by omega) (by omega)
    have hW := toNat_unixNano (settings.watermark now) (by omega) (by omega)
    rw [Int.emod_eq_of_lt (by omega) hlt, ← Push.runTime] at hrun
    rw [← Push.id] at hid
    rw [p.recordKey_of_scheduled hp, Option.some.injEq] at hk
    rw [← hk, ← hc.id_eq] at hcov
    obtain ⟨last, hlast⟩ := hc.scheduled
    rcases hcov with h | h
    · rw [contains_schedUndelivered_iff hlast] at h
      omega
    · rw [contains_schedDelivered_iff] at h
      omega
  · rw [p.recordKey_of_not_scheduled hp, Option.some.injEq] at hk
    rw [← hk] at hcov
    rcases hcov with ⟨r, hr, hin⟩ | hin
    · obtain ⟨last, -, rfl⟩ := Option.map_eq_some_iff.mp hr
      exact TaskRange.not_contains_scheduled hin
    · exact TaskRange.not_contains_scheduled hin

theorem scheduled_of_lt {p : Push} (hR : requestedTime p.req p.now = some R)
    (hlo : 0 ≤ p.now.nanos) (hhi : p.now.nanos < 2 ^ 63) (hlt : p.now.nanos < R) :
    p.Scheduled := by
  by_contra hzero
  rw [Push.Scheduled, Bool.not_eq_false, Push.runTime, getRunTime] at hzero
  rw [requestedTime] at hR
  split at hR
  · rename_i s hs
    rw [hs] at hzero
    split at hR
    · rename_i hpos
      simp only [hpos, if_true] at hzero
      have hnanos := Time.nanos_of_isZero hzero
      have hd := (Int64.ofInt (s.toInt * second.toInt)).le_toInt
      rw [Time.nanos_add (by omega) (by omega)] at hnanos
      omega
    · simp at hR
  · rename_i ts hs
    rw [hs] at hzero
    have hinstant := Time.instant_of_isZero hzero
    rw [← Option.some.inj hR, Timestamp.instant] at hlt
    omega
  · simp at hR

/-- A key at or below the watermark, or between the default checkpoint and the clock, is covered
under some reachable config. -/
theorem not_neverEarly {p : Push} {d : Int32} (now : Time) (hp : p.Scheduled) (hd : d ≠ 0)
    (hlater : p.now.nanos ≤ now.nanos) (hearly : now.nanos < R)
    (hcov : ∀ settings : QueueConfig, settings.ackDeadlineSeconds = d →
      p.id.reparsed.toNat ≤ (settings.watermark now).unixNano.toUInt64.toNat * 2 ^ 64 ∨
        0 < p.id.reparsed.toNat ∧
          p.id.reparsed.toNat ≤ now.unixNano.toUInt64.toNat * 2 ^ 64) :
    ¬NeverEarly p.req p.now d R := by
  intro h
  obtain ⟨settings, hreach, hdeadline, hlast⟩ := reachable_updateQueue p.req.queue hd
  have hin : SchedCovered settings now (getScheduledTaskKey p.req.queue p.id.reparsed) := by
    rw [← hreach.wellFormed.id_eq]
    rcases hcov settings hdeadline with hle | ⟨hpos, hle⟩
    · exact .inr (contains_schedDelivered_iff.mpr hle)
    · refine .inl ((contains_schedUndelivered_iff hlast).mpr ⟨?_, hle⟩)
      have hts : TaskID.min.reparsed.timestamp.toNat = 0 := by decide +kernel
      have hidx : (TaskID.min.reparsed.index + 1).toNat = 1 := by decide +kernel
      omega
  have := h p settings now _ rfl rfl hreach hdeadline hlater (p.recordKey_of_scheduled hp) hin
  omega

/-- A requested time past the window is found early by a clock at the end of the window. -/
theorem not_neverEarly_of_le {p : Push} {d : Int32} (hp : p.Scheduled) (hindex : p.index = 0)
    (hd : d ≠ 0) (hlo : 0 ≤ p.now.nanos)
    (hhi : p.now.nanos < 2 ^ 63) (hle : 2 ^ 64 ≤ R) : ¬NeverEarly p.req p.now d R := by
  obtain ⟨now, hnow⟩ := Time.exists_nanos (x := 2 ^ 64 - 1) (by norm_num) (by norm_num)
  have hN := toNat_unixNano now (by omega) (by omega)
  refine not_neverEarly now hp hd (by omega) (by omega) fun settings _ ↦ ?_
  rcases Nat.eq_zero_or_pos p.id.reparsed.toNat with hzero | hpos
  · exact .inl (by omega)
  · -- the last eight bytes are zero, so the id is at most the last one of the last instant
    have hlt := p.id.reparsed.toNat_lt
    have hdvd : 2 ^ 64 ∣ p.id.reparsed.toNat := by
      rw [TaskID.toNat_reparsed, Push.id, TaskID.toNat_new, hindex, UInt64.toNat_zero, Nat.add_zero]
      exact (Nat.dvd_mul_left _ _).mul_right _
    exact .inr ⟨hpos, by omega⟩

theorem not_neverEarly_of_watermark {p : Push} {d : Int32} (now : Time)
    (hR : requestedTime p.req p.now = some R) (hp : p.Scheduled) (hindex : p.index = 0)
    (hd : d ≠ 0) (hlo : 2 ^ 56 ≤ p.now.nanos) (hhi : p.now.nanos < 2 ^ 63)
    (hlater : p.now.nanos ≤ now.nanos) (hearly : now.nanos < R) (hlt : R < 2 ^ 64)
    (hwater : R ≤ (now.nanos - d.toInt * 10 ^ 9) % 2 ^ 64) : ¬NeverEarly p.req p.now d R := by
  refine not_neverEarly now hp hd hlater hearly fun settings hdeadline ↦ .inl ?_
  have hrun := unixNano_getRunTime hR (by omega) (by omega)
  have hW := (settings.watermark now).unixNano_toUInt64
  rw [nanos_watermark settings now (by omega) (by omega), hdeadline] at hW
  rw [Int.emod_eq_of_lt (by omega) hlt, ← Push.runTime] at hrun
  rw [TaskID.reparsed_of_le (p.le_toNat_id (by omega)), Push.id, TaskID.toNat_new, hindex,
    UInt64.toNat_zero, Nat.add_zero]
  exact Nat.mul_le_mul_right _ (by omega)

/-- Outside the window some clock finds the task early. -/
theorem inWindow_of_neverEarly (hR : requestedTime req pushedAt = some R) {d : Int32} (hd : d ≠ 0)
    (hlo : 2 ^ 56 ≤ pushedAt.nanos) (hhi : pushedAt.nanos < 2 ^ 63)
    (h : NeverEarly req pushedAt d R) : InWindow pushedAt d R := by
  by_contra hwin
  rw [InWindow, not_or, not_le] at hwin
  obtain ⟨hlt, hout⟩ := hwin
  have hp : (⟨req, pushedAt, pushedAt, 0⟩ : Push).Scheduled :=
    scheduled_of_lt hR (by dsimp only; omega) hhi hlt
  have hd1 := d.toInt_lt
  have hd2 := d.le_toInt
  rcases lt_or_ge R (2 ^ 64) with hR64 | hR64
  · -- a clock at which the watermark, ahead or wrapped around, reaches the requested time
    obtain ⟨now, hnow⟩ : ∃ now : Time, now.nanos
        = max pushedAt.nanos (if d.toInt < 0 then R + d.toInt * 10 ^ 9
          else R + d.toInt * 10 ^ 9 - 2 ^ 64) :=
      Time.exists_nanos (by omega) (by omega)
    refine not_neverEarly_of_watermark now hR hp rfl hd hlo hhi ?_ ?_ hR64 ?_ h
    · dsimp only
      omega
    · omega
    · split at hnow <;> omega
  · exact not_neverEarly_of_le hp rfl hd (by dsimp only; omega) hhi hR64 h

/-- **When no scheduled task is early.** Requests in the window are never found early, at any clock;
and for clocks between `2 ^ 56` and `2 ^ 63` nanoseconds past the epoch (1972 to 2262) only those
are. -/
theorem neverEarly_iff (d : Int32) (hR : requestedTime req pushedAt = some R) :
    (InWindow pushedAt d R → NeverEarly req pushedAt d R) ∧
      (d ≠ 0 → 2 ^ 56 ≤ pushedAt.nanos → pushedAt.nanos < 2 ^ 63 →
        (NeverEarly req pushedAt d R ↔ InWindow pushedAt d R)) :=
  ⟨neverEarly_of_inWindow hR, fun hd hlo hhi ↦
    ⟨inWindow_of_neverEarly hR hd hlo hhi, neverEarly_of_inWindow hR⟩⟩

end

/-- A push in 2022 that asks to run after so many seconds. -/
def delayed (s : Int64) : Push :=
  ⟨{ queue := lit "q", schedule := .ttsSeconds s }, .ofUnix 1650000000 0, .ofUnix 1650000000 0, 1⟩

theorem neverEarly_delayed :
    requestedTime (delayed 60).req (delayed 60).now = some (1650000060 * 10 ^ 9) ∧
      NeverEarly (delayed 60).req (delayed 60).now 300 (1650000060 * 10 ^ 9) := by
  have hR : requestedTime (delayed 60).req (delayed 60).now = some (1650000060 * 10 ^ 9) := by
    decide +kernel
  refine ⟨hR, (neverEarly_iff 300 hR).1 (.inr ?_)⟩
  decide +kernel

/-- A delay of 584 years wraps to a third of a second: the task is found one second later. -/
theorem delayed_early : ReachableConfig (lit "q") (defaultConfig (lit "q")) ∧
    requestedTime (delayed 18446744074).req (delayed 18446744074).now
      = some (1650000000 * 10 ^ 9 + 18446744074 * 10 ^ 9) ∧
    (∃ k ∈ recordKey (delayed 18446744074).task,
      SchedCovered (defaultConfig (lit "q")) (.ofUnix 1650000001 0) k) ∧
    (Time.ofUnix 1650000001 0).nanos < 1650000000 * 10 ^ 9 + 18446744074 * 10 ^ 9 :=
  ⟨⟨[], rfl⟩, by decide +kernel, by decide +kernel, by decide +kernel⟩

end Z4
