import Z4.Cluster.Refinement
import Z4.Storage.KeySpace

/-!
# Reading a task back

`Queue.GetTask` answers from the store of the peer it is asked at. It is not forwarded, takes no
part in Raft, and looks under the key of a scheduled task only. So what it finds depends on how far
that peer has come with the log, and a task without a schedule is never found, although it is
stored.

The statement is about every moment of every schedule of the state machine: a scheduled task that
was saved and not acked is found under the reference that its push returned, and what is found is a
scheduled task of the log, of that queue and with that id.
-/

namespace Z4

open KeyValue

/-- The errors of `GetTask`. -/
inductive GetTaskError where
  /-- `InvalidArgument`, "invalid task id". -/
  | invalidArgument
  /-- `NotFound`, "task not found". -/
  | notFound
deriving DecidableEq

/-- `Queue.GetTask`. -/
def getTask (db : DB) (ref : TaskReference) : Except GetTaskError Task :=
  match parseString ref.taskId with
  | .error _ => .error .invalidArgument
  | .ok id =>
    match taskStoreGet db ref.queue id with
    | none => .error .notFound
    | some task => .ok task

section

variable {db : DB} {ref : TaskReference} {t : Task}

theorem taskStoreGet_eq_some {q : GoString} {id : TaskID} :
    taskStoreGet db q id = some t ↔ db[getScheduledTaskKey q id]? = some (.task t) := by
  rw [taskStoreGet]
  cases db[getScheduledTaskKey q id]? with
  | none => simp
  | some v => cases v <;> simp

/-- The handler finds what is under the key of the parsed id. -/
theorem getTask_eq_ok : getTask db ref = .ok t ↔
    ∃ id, mustParseString ref.taskId = some id ∧
      db[getScheduledTaskKey ref.queue id]? = some (.task t) := by
  rw [getTask, mustParseString]
  cases parseString ref.taskId with
  | error e => simp [Except.toOption]
  | ok id =>
    simp only [Except.toOption, Option.some.injEq, exists_eq_left', ← taskStoreGet_eq_some]
    cases taskStoreGet db ref.queue id <;> simp

theorem recordKey_eq_sched {q : GoString} {id : TaskID} :
    recordKey t = some (getScheduledTaskKey q id) ↔
      t.scheduleTime ≠ none ∧ t.queue = q ∧ mustParseString t.id = some id := by
  rw [recordKey]
  cases mustParseString t.id with
  | none => simp
  | some id' =>
    rw [Option.map_some, Option.some.injEq, Option.some.injEq, getTaskKey]
    cases t.scheduleTime with
    | none => simp [getFifoTaskKey_ne_getScheduledTaskKey]
    | some ts => simp [getScheduledTaskKey_inj]

end

namespace StateMachine

variable {cmds : List Command} {s : StateMachine}

theorem Tracks.getTask_found (h : Tracks cmds s) {t : Task} (ht : t ∈ tasksOf (s.reached cmds))
    (hsaved : t ∉ s.tasks) (hack : ¬Acked (s.reached cmds) t) (hsched : t.scheduleTime ≠ none)
    (hkey : (recordKey t).isSome) : getTask s.db t.reference = .ok t := by
  obtain ⟨k, hk⟩ := Option.isSome_iff_exists.mp hkey
  obtain ⟨id, hid, -⟩ := Option.map_eq_some_iff.mp hk
  have hk : recordKey t = some (getScheduledTaskKey t.queue id) :=
    recordKey_eq_sched.mpr ⟨hsched, rfl, hid⟩
  exact getTask_eq_ok.mpr ⟨id, hid, h.stored t ht hsaved hack _ hk⟩

theorem Tracks.getTask_sound (h : Tracks cmds s) {t : Task} {ref : TaskReference}
    (hget : getTask s.db ref = .ok t) :
    t ∈ tasksOf (s.reached cmds) ∧ t.scheduleTime ≠ none ∧ t.queue = ref.queue ∧
      mustParseString t.id = mustParseString ref.taskId := by
  obtain ⟨id, hid, hdb⟩ := getTask_eq_ok.mp hget
  obtain ⟨u, hu, htu, hkey⟩ := h.known _ _ (isTaskKey_sched ref.queue id) hdb
  obtain rfl := Value.task.inj htu
  obtain ⟨hsched, hqueue, hparse⟩ := recordKey_eq_sched.mp hkey
  exact ⟨hu, hsched, hqueue, hparse.trans hid.symm⟩

/-- **`GetTask` reads the log.** At every moment of every schedule of the state machine, in which
the storage calls succeed and no ack overtakes its task, `GetTask` returns a task exactly where the
log that was reached has a scheduled one, under the reference it was pushed with: it returns only
such tasks, and it returns each that was saved and is not acked. -/
theorem getTask_reads_log {es : List Event} (hlog : WellOrdered cmds) (hkeys : KeysFaithful cmds)
    (hok : Runs.Meets (step (logOf cmds)) InOrder {} es)
    (hrun : Runs.run (step (logOf cmds)) {} es = some s) :
    (∀ ref t, getTask s.db ref = .ok t → t ∈ tasksOf (s.reached cmds) ∧ t.scheduleTime ≠ none ∧
      t.queue = ref.queue ∧ mustParseString t.id = mustParseString ref.taskId) ∧
    ∀ t ∈ tasksOf (s.reached cmds), t ∉ s.tasks → ¬Acked (s.reached cmds) t →
      t.scheduleTime ≠ none → (recordKey t).isSome → getTask s.db t.reference = .ok t := by
  obtain ⟨htracks, -⟩ := Tracks.run hlog hkeys hok hrun
  exact ⟨fun ref t ↦ htracks.getTask_sound, fun t ↦ htracks.getTask_found⟩

/-- A task for one second after the epoch. -/
def scheduledTask : Task := makeTask { queue := lit "q", schedule := .ttsSeconds 1 } (.ofUnix 0 0)
  (.ofUnix 0 0) 1

theorem getTask_reads_log_scheduledTask : ∃ s,
    Runs.run (step (logOf [.task scheduledTask])) {} [.applyBatch 1, .push true true, .reply]
      = some s ∧ getTask s.db scheduledTask.reference = .ok scheduledTask := by
  have hend : (Runs.run (step (logOf [.task scheduledTask])) {} [.applyBatch 1, .push true true,
      .reply]).map (fun s ↦ (s.applied, s.size, s.tasks)) = some (1, 0, []) := by decide +kernel
  obtain ⟨s, hrun, hs⟩ := Option.map_eq_some_iff.mp hend
  obtain ⟨happlied, hs⟩ := Prod.mk.inj hs
  obtain ⟨hsize, htasks⟩ := Prod.mk.inj hs
  have hreached : s.reached [.task scheduledTask] = [.task scheduledTask] := by
    rw [reached, happlied, hsize]
    rfl
  refine ⟨s, hrun, (getTask_reads_log (by decide +kernel) (by decide +kernel) (by decide +kernel)
    hrun).2 scheduledTask ?_ ?_ ?_ (by decide +kernel) (by decide +kernel)⟩
  · rw [hreached]
    decide +kernel
  · rw [htasks]
    exact List.not_mem_nil
  · rw [hreached]
    decide +kernel

end StateMachine

end Z4
