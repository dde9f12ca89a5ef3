import Z4.Feeds.TaskWriter
import Z4.Foundations.Runs

/-!
# The replicated state machine

Raft hands the committed log to `StateMachine.ApplyBatch` in consecutive batches.
`batchWriter.Write` sorts a batch into settings, tasks and acks, applies the three groups in three
goroutines and waits for them. Beside it a ticker flushes the ack buffer.

A `StateMachine` is the store, the ack buffer, the length of the log applied so far and, while a
batch is under way, what its goroutines have yet to do. The labels of `StateMachine.step` are the
atomic actions: the settings goroutine makes one put at a time, the other two make one call each.
Each label carries the outcome of the storage call it makes.

## Errors

If an entry of a batch does not decode, the whole batch is dropped. If a storage call fails the
other groups are still applied. In both cases every entry of the batch gets the one error.
-/

namespace Z4

/-! ## Grouping a batch -/

/-- `raft.Log`, by what `groupByType` makes of it. -/
inductive LogEntry where
  | command (c : Command)
  /-- Its type is not `LogCommand`. -/
  | other
  /-- Its data does not unmarshal. -/
  | garbled
  /-- It unmarshals to a command with no member of the `oneof` set. -/
  | unknown
deriving DecidableEq

/-- The errors `Write` can report. -/
inductive WriteError where
  | unmarshal
  /-- "unknown command type: expected ack or task" -/
  | unknownCommand
  | saveSettings
  | saveTasks
deriving DecidableEq

/-- The three groups of a `batchWriter`. -/
structure Groups where
  settings : List QueueConfig := []
  tasks : List Task := []
  acks : List Ack := []

/-- One round of the loop of `groupByType`. -/
def groupEntry (g : Groups) : LogEntry → Except WriteError Groups
  | .other => .ok g
  | .garbled => .error .unmarshal
  | .command (.task t) => .ok { g with tasks := g.tasks ++ [t] }
  | .command (.ack a) => .ok { g with acks := g.acks ++ [a] }
  | .command (.queue c) => .ok { g with settings := g.settings ++ [c] }
  | .unknown => .error .unknownCommand

/-- `batchWriter.groupByType`. -/
def groupByType (logs : List LogEntry) : Except WriteError Groups := logs.foldlM groupEntry {}

/-- The command an entry carries, if it carries one. -/
def LogEntry.command? : LogEntry → Option Command
  | .command c => some c
  | _ => none

/-- Grouping goes past the entry. -/
def LogEntry.Decodes (e : LogEntry) : Prop := e ≠ .garbled ∧ e ≠ .unknown

instance (e : LogEntry) : Decidable e.Decodes := inferInstanceAs (Decidable (_ ∧ _))

/-- The groups of a list of commands. -/
def groupsOf (cmds : List Command) : Groups := ⟨configsOf cmds, tasksOf cmds, acksOf cmds⟩

theorem groupEntry_groupsOf {e : LogEntry} (h : e.Decodes) (cmds : List Command) :
    groupEntry (groupsOf cmds) e = .ok (groupsOf (cmds ++ e.command?.toList)) := by
  cases e with
  | command c => cases c <;> simp [groupEntry, groupsOf, configsOf, tasksOf, acksOf,
      LogEntry.command?, Command.task?, Command.ack?, Command.queue?]
  | other => simp [groupEntry, LogEntry.command?]
  | garbled => exact absurd rfl h.1
  | unknown => exact absurd rfl h.2

theorem groupByType_of_decodes {logs : List LogEntry} (h : ∀ e ∈ logs, e.Decodes) :
    groupByType logs = .ok (groupsOf (logs.filterMap LogEntry.command?)) := by
  induction logs using List.reverseRecOn with
  | nil => rfl
  | append_singleton logs e ih =>
    have hlogs := ih fun x hx ↦ h x (List.mem_append_left _ hx)
    have he : e.Decodes := h e (by simp)
    rw [groupByType] at hlogs ⊢
    rw [List.foldlM_append, hlogs]
    simp only [List.foldlM_cons, List.foldlM_nil, bind, Except.bind, pure, Except.pure]
    rw [groupEntry_groupsOf he, List.filterMap_append]
    cases e <;> rfl

/-- One entry that does not decode fails the whole batch. -/
theorem groupByType_of_not_decodes {logs : List LogEntry} (h : ¬∀ e ∈ logs, e.Decodes) :
    ∃ err, groupByType logs = .error err := by
  have hgen : ∀ g : Groups, ∃ err, logs.foldlM groupEntry g = .error err := by
    induction logs with
    | nil => simp at h
    | cons e logs ih =>
      intro g
      rw [List.foldlM_cons]
      by_cases he : e.Decodes
      · have hlogs : ¬∀ e ∈ logs, e.Decodes := fun hall ↦
          h fun x hx ↦ (List.mem_cons.mp hx).elim (fun hxe ↦ hxe ▸ he) (hall x)
        cases hg : groupEntry g e with
        | error err => exact ⟨err, rfl⟩
        | ok g' => exact ih hlogs g'
      · cases e with
        | command c => exact absurd ⟨LogEntry.noConfusion, LogEntry.noConfusion⟩ he
        | other => exact absurd ⟨LogEntry.noConfusion, LogEntry.noConfusion⟩ he
        | garbled => exact ⟨_, rfl⟩
        | unknown => exact ⟨_, rfl⟩
  exact hgen {}

/-! ## The machine and its steps -/

/-- The state of one peer's state machine. -/
structure StateMachine where
  db : DB := ∅
  ackBuffer : List Ack := []
  /-- How many entries of the log have been applied. -/
  applied : ℕ := 0
  /-- The length of the batch under way, zero if there is none. -/
  size : ℕ := 0
  /-- What the three goroutines have yet to do. -/
  settings : List QueueConfig := []
  tasks : List Task := []
  acks : List Ack := []
  groupErr : Option WriteError := none
  settingsErr : Option WriteError := none
  tasksErr : Option WriteError := none

namespace StateMachine

inductive Event where
  /-- `ApplyBatch` is called with the next `n` entries. -/
  | applyBatch (n : ℕ)
  | saveSetting (ok : Bool)
  | push (saveIndex ok : Bool)
  | acknowledge (ok : Bool)
  | flushTick (ok : Bool)
  /-- All goroutines are done and `ApplyBatch` returns. -/
  | reply
deriving DecidableEq

/-- The start of `batchWriter.Write`, up to where the goroutines have been started. -/
def start (s : StateMachine) (logs : List LogEntry) : StateMachine :=
  match groupByType logs with
  | .error err => { s with
      size := logs.length, settings := [], tasks := [], acks := []
      groupErr := some err, settingsErr := none, tasksErr := none }
  | .ok g => { s with
      size := logs.length, settings := g.settings, tasks := g.tasks, acks := g.acks
      groupErr := none, settingsErr := none, tasksErr := none }

/-- What `Write` returns once its goroutines are done: the first error for every entry. -/
def results (s : StateMachine) : List (Option WriteError) :=
  List.replicate s.size (s.groupErr.or (s.settingsErr.or s.tasksErr))

/-- The next `n` entries of a log of which `applied` entries have been applied. -/
def batch {α : Type*} (log : List α) (applied n : ℕ) : List α := (log.drop applied).take n

/-- No goroutine has anything left to do. -/
def Done (s : StateMachine) : Prop := s.settings = [] ∧ s.tasks = [] ∧ s.acks = []

instance (s : StateMachine) : Decidable s.Done := inferInstanceAs (Decidable (_ ∧ _ ∧ _))

def step (log : List LogEntry) (s : StateMachine) : Event → Option StateMachine
  | .applyBatch n =>
    if s.size = 0 ∧ 0 < n ∧ s.applied + n ≤ log.length then
      some (s.start (batch log s.applied n))
    else none
  | .saveSetting ok =>
    match s.settings with
    | [] => none
    | c :: cs =>
      if ok then some { s with db := saveSettings c s.db, settings := cs }
      else some { s with settings := [], settingsErr := some .saveSettings }
  | .push saveIndex ok =>
    if s.tasks = [] then none
    else if ok then (saveAll s.tasks saveIndex s.db).map fun db ↦ { s with db, tasks := [] }
    else some { s with tasks := [], tasksErr := some .saveTasks }
  | .acknowledge ok =>
    if s.acks = [] then none
    else
      let r := Z4.acknowledge s.ackBuffer s.acks s.db ok
      some { s with ackBuffer := r.1, db := r.2, acks := [] }
  | .flushTick ok =>
    let r := Z4.flushTick s.ackBuffer s.db ok
    some { s with ackBuffer := r.1, db := r.2 }
  | .reply =>
    if 0 < s.size ∧ s.Done then some { s with applied := s.applied + s.size, size := 0 } else none

/-- The acks a step deletes. -/
def flushed (s : StateMachine) : Event → List Ack
  | .acknowledge ok => overflow s.ackBuffer s.acks ok
  | .flushTick ok => ticked s.ackBuffer ok
  | _ => []

/-! ## What a step can do -/

theorem start_of_decodes (s : StateMachine) {logs : List LogEntry} (h : ∀ e ∈ logs, e.Decodes) :
    s.start logs = { s with
      size := logs.length
      settings := configsOf (logs.filterMap LogEntry.command?)
      tasks := tasksOf (logs.filterMap LogEntry.command?)
      acks := acksOf (logs.filterMap LogEntry.command?)
      groupErr := none, settingsErr := none, tasksErr := none } := by
  rw [start, groupByType_of_decodes h, groupsOf]

theorem start_of_not_decodes (s : StateMachine) {logs : List LogEntry}
    (h : ¬∀ e ∈ logs, e.Decodes) : ∃ err, s.start logs = { s with
      size := logs.length, settings := [], tasks := [], acks := []
      groupErr := some err, settingsErr := none, tasksErr := none } := by
  obtain ⟨err, herr⟩ := groupByType_of_not_decodes h
  exact ⟨err, by rw [start, herr]⟩

section

variable {log : List LogEntry} {s s' : StateMachine}

theorem step_applyBatch {n : ℕ} (h : step log s (.applyBatch n) = some s') :
    s.size = 0 ∧ s.applied + n ≤ log.length ∧ s' = s.start (batch log s.applied n) := by
  rw [step] at h
  split at h
  · rename_i hc
    exact ⟨hc.1, hc.2.2, (Option.some.inj h).symm⟩
  · simp at h

theorem step_saveSetting {ok : Bool} (h : step log s (.saveSetting ok) = some s') :
    ∃ c cs, s.settings = c :: cs ∧
      (ok = true ∧ s' = { s with db := saveSettings c s.db, settings := cs } ∨
        ok = false ∧ s' = { s with settings := [], settingsErr := some .saveSettings }) := by
  rw [step] at h
  split at h
  · simp at h
  · rename_i c cs hcs
    refine ⟨c, cs, hcs, ?_⟩
    cases ok with
    | true => exact .inl ⟨rfl, (Option.some.inj h).symm⟩
    | false => exact .inr ⟨rfl, (Option.some.inj h).symm⟩

theorem step_push {si ok : Bool} (h : step log s (.push si ok) = some s') :
    (ok = true ∧ ∃ db, saveAll s.tasks si s.db = some db ∧ s' = { s with db, tasks := [] }) ∨
      ok = false ∧ s' = { s with tasks := [], tasksErr := some .saveTasks } := by
  rw [step] at h
  split at h
  · simp at h
  · cases ok with
    | true =>
      obtain ⟨db, hdb, rfl⟩ := Option.map_eq_some_iff.mp h
      exact .inl ⟨rfl, db, hdb, rfl⟩
    | false => exact .inr ⟨rfl, (Option.some.inj h).symm⟩

/-- The two steps that may flush, told by what they delete and what stays in the buffer. -/
theorem step_acknowledge {ok : Bool} (h : step log s (.acknowledge ok) = some s') :
    ∃ buffer, s.flushed (.acknowledge ok) ++ buffer = s.ackBuffer ++ s.acks ∧
      s' = { s with ackBuffer := buffer, acks := []
                    db := deleteAll (s.flushed (.acknowledge ok)) s.db } := by
  rw [step] at h
  split at h
  · simp at h
  · refine ⟨(Z4.acknowledge s.ackBuffer s.acks s.db ok).1, overflow_append_acknowledge .., ?_⟩
    rw [← Option.some.inj h, snd_acknowledge, flushed]

@[inherit_doc step_acknowledge]
theorem step_flushTick {ok : Bool} (h : step log s (.flushTick ok) = some s') :
    ∃ buffer, s.flushed (.flushTick ok) ++ buffer = s.ackBuffer ∧
      s' = { s with ackBuffer := buffer, db := deleteAll (s.flushed (.flushTick ok)) s.db } := by
  refine ⟨(Z4.flushTick s.ackBuffer s.db ok).1, ticked_append_flushTick .., ?_⟩
  rw [← Option.some.inj h, snd_flushTick, flushed]

theorem step_reply (h : step log s .reply = some s') :
    s.Done ∧ s' = { s with applied := s.applied + s.size, size := 0 } := by
  rw [step] at h
  split at h
  · rename_i hc
    exact ⟨hc.2, (Option.some.inj h).symm⟩
  · simp at h

end

/-! ## Logs of commands -/

/-- The log of a run in which every entry carries a command. -/
def logOf (cmds : List Command) : List LogEntry := cmds.map .command

theorem batch_logOf (cmds : List Command) (i n : ℕ) :
    batch (logOf cmds) i n = logOf (batch cmds i n) := by
  rw [batch, batch, logOf, logOf, List.map_take, List.map_drop]

theorem start_logOf (s : StateMachine) (cmds : List Command) :
    s.start (logOf cmds) = { s with
      size := cmds.length, settings := configsOf cmds, tasks := tasksOf cmds, acks := acksOf cmds
      groupErr := none, settingsErr := none, tasksErr := none } := by
  have hdec : ∀ e ∈ logOf cmds, e.Decodes := by
    intro e he
    obtain ⟨c, -, rfl⟩ := List.mem_map.mp he
    exact ⟨LogEntry.noConfusion, LogEntry.noConfusion⟩
  have hcmds : (logOf cmds).filterMap LogEntry.command? = cmds := by
    rw [logOf, List.filterMap_map]
    exact List.filterMap_some
  rw [s.start_of_decodes hdec, hcmds, logOf, List.length_map]

theorem batch_length {α : Type*} (log : List α) (i n : ℕ) :
    batch log i (batch log i n).length = batch log i n := by
  rw [batch, batch, List.length_take, ← List.take_eq_take_min]

theorem step_applyBatch_logOf {cmds : List Command} {s s' : StateMachine} {n : ℕ}
    (h : step (logOf cmds) s (.applyBatch n) = some s') : s.size = 0 ∧ ∃ b,
      b = batch cmds s.applied b.length ∧ s' = { s with
        size := b.length, settings := configsOf b, tasks := tasksOf b, acks := acksOf b
        groupErr := none, settingsErr := none, tasksErr := none } := by
  obtain ⟨hsize, -, rfl⟩ := step_applyBatch h
  refine ⟨hsize, batch cmds s.applied n, (batch_length cmds s.applied n).symm, ?_⟩
  rw [batch_logOf, start_logOf]

end StateMachine

end Z4
