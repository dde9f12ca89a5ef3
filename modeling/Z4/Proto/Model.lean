import Z4.Iden.TaskID

/-!
# The messages

The protobuf messages the server stores and replicates. A message field that is absent reads as its
zero value through the generated getters, so only fields whose presence the code tests are optional:
the schedule time and the last retry of a task, and the schedule of a push.
-/

namespace Z4

/-- `proto.Task`. -/
structure Task where
  id : GoString
  queue : GoString
  metadata : List (GoString × GoString) := []
  payload : List UInt8 := []
  scheduleTime : Option Timestamp := none
  lastRetry : Option Timestamp := none
  createdAt : Option Timestamp := none
deriving DecidableEq

/-- `proto.TaskReference`. -/
structure TaskReference where
  queue : GoString
  taskId : GoString
deriving DecidableEq

/-- `proto.Ack`. -/
structure Ack where
  reference : TaskReference
deriving DecidableEq

/-- `proto.QueueConfig`. -/
structure QueueConfig where
  id : GoString
  lastDeliveredScheduledTask : GoString
  lastDeliveredQueuedTask : GoString
  ackDeadlineSeconds : Int32
deriving DecidableEq

/-- `proto.Command`, with a case for each member of its `oneof`. -/
inductive Command where
  | task (t : Task)
  | ack (a : Ack)
  | queue (c : QueueConfig)
deriving DecidableEq

/-- The task a command saves, if that is what it does. -/
def Command.task? : Command → Option Task
  | .task t => some t
  | _ => none

/-- The ack a command applies, if that is what it does. -/
def Command.ack? : Command → Option Ack
  | .ack a => some a
  | _ => none

/-- The config a command saves, if that is what it does. -/
def Command.queue? : Command → Option QueueConfig
  | .queue c => some c
  | _ => none

/-- The tasks, the acks and the configs of a stretch of the log, each in log order. -/
def tasksOf (cmds : List Command) : List Task := cmds.filterMap Command.task?

@[inherit_doc tasksOf]
def acksOf (cmds : List Command) : List Ack := cmds.filterMap Command.ack?

@[inherit_doc tasksOf]
def configsOf (cmds : List Command) : List QueueConfig := cmds.filterMap Command.queue?

theorem tasksOf_append (l m : List Command) : tasksOf (l ++ m) = tasksOf l ++ tasksOf m :=
  List.filterMap_append

theorem acksOf_append (l m : List Command) : acksOf (l ++ m) = acksOf l ++ acksOf m :=
  List.filterMap_append

theorem configsOf_append (l m : List Command) : configsOf (l ++ m) = configsOf l ++ configsOf m :=
  List.filterMap_append

theorem mem_tasksOf {l : List Command} {t : Task} : t ∈ tasksOf l ↔ .task t ∈ l := by
  rw [tasksOf, List.mem_filterMap]
  constructor
  · rintro ⟨c, hc, h⟩
    cases c with
    | task u => exact Option.some.inj h ▸ hc
    | ack a => simp [Command.task?] at h
    | queue c => simp [Command.task?] at h
  · exact fun h ↦ ⟨.task t, h, rfl⟩

/-- The `oneof schedule` of a push request. -/
inductive Schedule where
  | none
  | scheduleTime (ts : Timestamp)
  | ttsSeconds (s : Int64)
deriving DecidableEq

/-- `proto.PushTaskRequest`. -/
structure PushTaskRequest where
  queue : GoString
  async : Bool := false
  metadata : List (GoString × GoString) := []
  payload : List UInt8 := []
  schedule : Schedule := .none
deriving DecidableEq

/-- `proto.PushTaskResponse`. -/
structure PushTaskResponse where
  task : Task
  forwardedTo : GoString := []
deriving DecidableEq

/-- `Task.GetCreatedAt().AsTime()`: an absent timestamp reads as the epoch. -/
def Task.createdAtTime (t : Task) : Time := (t.createdAt.getD ⟨0, 0⟩).asTime

/-- The reference under which a client names a task. -/
def Task.reference (t : Task) : TaskReference := ⟨t.queue, t.id⟩

end Z4
