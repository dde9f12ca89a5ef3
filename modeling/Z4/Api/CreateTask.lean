import Z4.Api.Push
import Z4.Cluster.StateMachine

/-!
# What a push that returns has done

`Queue.createTask` makes a task, hands the command to Raft and waits. The future it waits on carries
two results. Its error is Raft's and says that the command was not replicated; its response is what
the state machine returned for the entry. The code reads only the first.

So a push can return its task although the batch the command was in was dropped, because a neighbour
did not decode, or although `SaveAll` failed. It can also return after the record was overwritten or
deleted again: ids can be guessed, and anybody may ack a reference that was not handed out yet.
`createTask_stored_iff` says exactly when the record is there.
-/

namespace Z4

open KeyValue

/-! ## The handler -/

/-- `raft.ApplyFuture`, once it has resolved. -/
structure ApplyFuture (ε : Type) where
  /-- The error of the replication. -/
  error : Option ε
  /-- What the state machine returned for the entry. -/
  response : Option WriteError

/-- The errors of `createTask`. The code of each is `Internal`. -/
inductive CreateError (ε : Type) where
  /-- What forwarding the request to the leader returned. -/
  | forward
  /-- "failed to create task: " and the error of the generator. -/
  | create
  /-- "failed to save task: " and the error of the replication. -/
  | save (e : ε)
deriving DecidableEq

/-- `Queue.createTask`. The index is `none` if the generator fails, and `apply` is
`ApplySaveTaskCommand`. -/
def createTask {ε : Type} (isLeader : Bool) (leaderAddress : GoString)
    (forwarded : Except (CreateError ε) PushTaskResponse) (req : PushTaskRequest)
    (created now : Time) (index : Option UInt64) (apply : Task → ApplyFuture ε) :
    Except (CreateError ε) PushTaskResponse :=
  if isLeader then
    match index with
    | none => .error .create
    | some index =>
      let task := makeTask req created now index
      if req.async then .ok { task }
      else match (apply task).error with
        | some e => .error (.save e)
        | none => .ok { task }
  else forwarded.map fun res ↦
    -- a request that was forwarded several times keeps the first address
    if res.forwardedTo = [] then { res with forwardedTo := leaderAddress } else res

/-- On the leader a synchronous push returns its task exactly when the replication succeeds. -/
theorem createTask_eq_ok_iff {ε : Type} {addr : GoString}
    {fwd : Except (CreateError ε) PushTaskResponse} {p : Push} (hasync : p.req.async = false)
    {future : ApplyFuture ε} :
    createTask true addr fwd p.req p.created p.now (some p.index) (fun _ ↦ future)
      = .ok { task := p.task } ↔ future.error = none := by
  have heq : createTask true addr fwd p.req p.created p.now (some p.index) (fun _ ↦ future)
      = match future.error with
        | some e => .error (.save e)
        | none => .ok { task := p.task } := by
    rw [createTask, if_pos rfl]
    simp only [hasync, Bool.false_eq_true, if_false]
    rfl
  rw [heq]
  cases future.error <;> simp

/-! ## The batch -/

namespace StateMachine

/-- A step that neither begins nor ends a batch. -/
def Event.Inner : Event → Prop
  | .applyBatch _ | .reply => False
  | .saveSetting _ | .push _ _ | .acknowledge _ | .flushTick _ => True

instance : (e : Event) → Decidable e.Inner
  | .applyBatch _ | .reply => inferInstanceAs (Decidable False)
  | .saveSetting _ | .push _ _ | .acknowledge _ | .flushTick _ => inferInstanceAs (Decidable True)

/-- What the future of an entry of the batch resolves to, when its goroutines are done. -/
def future {ε : Type} (s : StateMachine) (error : Option ε) : ApplyFuture ε :=
  ⟨error, s.groupErr.or (s.settingsErr.or s.tasksErr)⟩

/-- Every entry of the batch decodes and the save does not fail. -/
def Saves (logs : List LogEntry) (es : List Event) : Prop :=
  (∀ e ∈ logs, e.Decodes) ∧ ∀ si, .push si false ∉ es

instance (logs : List LogEntry) (es : List Event) : Decidable (Saves logs es) :=
  inferInstanceAs (Decidable (_ ∧ ∀ _ : Bool, _))

/-- Of the tasks that the batch saves under the key of `t`, `t` is the last. -/
def SavedLast (logs : List LogEntry) (t : Task) : Prop :=
  ((tasksOf (logs.filterMap LogEntry.command?)).filter (recordKey · = recordKey t)).getLast? =
    some t

instance (logs : List LogEntry) (t : Task) : Decidable (SavedLast logs t) :=
  inferInstanceAs (Decidable (_ = _))

/-- The step deletes no record under the key of `t`. -/
def Spares (t : Task) (s : StateMachine) (e : Event) : Prop :=
  ∀ a ∈ s.flushed e, ackKey a ≠ recordKey t

/-- The step deletes no record under the key of `t` once the tasks of the batch are saved. -/
def SparesSaved (t : Task) (s : StateMachine) (e : Event) : Prop := s.tasks = [] → Spares t s e

instance (t : Task) (s : StateMachine) (e : Event) : Decidable (Spares t s e) :=
  inferInstanceAs (Decidable (∀ a ∈ s.flushed e, _))

instance (t : Task) (s : StateMachine) (e : Event) : Decidable (SparesSaved t s e) :=
  inferInstanceAs (Decidable (_ → Spares t s e))

section

variable {log : List LogEntry} {s s' : StateMachine} {k : Key} {t : Task} {es : List Event}

theorem tasks_of_inner {e : Event} (he : e.Inner) (hpush : ∀ si ok, e ≠ .push si ok)
    (hs : step log s e = some s') : s'.tasks = s.tasks := by
  cases e with
  | applyBatch n => exact he.elim
  | reply => exact he.elim
  | push si ok => exact absurd rfl (hpush si ok)
  | saveSetting ok =>
    obtain ⟨c, cs, -, ⟨-, rfl⟩ | ⟨-, rfl⟩⟩ := step_saveSetting hs <;> rfl
  | acknowledge ok =>
    obtain ⟨buffer, -, rfl⟩ := step_acknowledge hs
    rfl
  | flushTick ok =>
    obtain ⟨buffer, -, rfl⟩ := step_flushTick hs
    rfl

theorem getElem?_of_inner {e : Event} (hk : IsTaskKey k) (he : e.Inner)
    (hpush : ∀ si, e ≠ .push si true) (hs : step log s e = some s') :
    s'.db[k]? = (deleteAll (s.flushed e) s.db)[k]? := by
  cases e with
  | applyBatch n => exact he.elim
  | reply => exact he.elim
  | push si ok =>
    rcases step_push hs with ⟨rfl, -⟩ | ⟨-, rfl⟩
    · exact absurd rfl (hpush si)
    · rfl
  | saveSetting ok =>
    obtain ⟨c, cs, -, ⟨-, rfl⟩ | ⟨-, rfl⟩⟩ := step_saveSetting hs
    · show (saveSettings c s.db)[k]? = s.db[k]?
      rw [getElem?_saveSettings, if_neg]
      rintro rfl
      exact not_isTaskKey_config c.id hk
    · rfl
  | acknowledge ok =>
    obtain ⟨buffer, -, rfl⟩ := step_acknowledge hs
    rfl
  | flushTick ok =>
    obtain ⟨buffer, -, rfl⟩ := step_flushTick hs
    rfl

theorem tasks_nil_of_inner {e : Event} (he : e.Inner) (htasks : s.tasks = [])
    (hs : step log s e = some s') : s'.tasks = [] := by
  refine (tasks_of_inner he ?_ hs).trans htasks
  rintro si ok rfl
  rw [step, if_pos htasks] at hs
  simp at hs

/-- After the save, and in a batch that was dropped, no step saves. -/
theorem push_not_mem (hrun : Runs.run (step log) s es = some s') (htasks : s.tasks = [])
    (hes : ∀ e ∈ es, e.Inner) (si ok : Bool) : .push si ok ∉ es := by
  induction es generalizing s with
  | nil => simp
  | cons e es ih =>
    obtain ⟨s₁, hs₁, hrest⟩ := Runs.run_cons_eq_some.mp hrun
    have htasks₁ := tasks_nil_of_inner (hes e List.mem_cons_self) htasks hs₁
    rw [List.mem_cons, not_or]
    refine ⟨?_, ih hrest htasks₁ fun e' he' ↦ hes e' (List.mem_cons_of_mem e he')⟩
    rintro rfl
    rw [step, if_pos htasks] at hs₁
    simp at hs₁

theorem push_true_not_mem (hrun : Runs.run (step log) s es = some s') (hes : ∀ e ∈ es, e.Inner)
    {si : Bool} (hfails : .push si false ∈ es) (si' : Bool) : .push si' true ∉ es := by
  induction es generalizing s with
  | nil => simp
  | cons e es ih =>
    obtain ⟨s₁, hs₁, hrest⟩ := Runs.run_cons_eq_some.mp hrun
    have hes' : ∀ e' ∈ es, e'.Inner := fun e' he' ↦ hes e' (List.mem_cons_of_mem e he')
    by_cases hpush : ∃ si ok, e = .push si ok
    · obtain ⟨si₁, ok, rfl⟩ := hpush
      have htasks : s₁.tasks = [] := by
        rcases step_push hs₁ with ⟨-, db, -, rfl⟩ | ⟨-, rfl⟩ <;> rfl
      have hnone := push_not_mem hrest htasks hes'
      have hhead : Event.push si false = .push si₁ ok :=
        (List.mem_cons.mp hfails).resolve_right (hnone si false)
      rw [List.mem_cons, not_or, ← hhead]
      exact ⟨by simp, hnone si' true⟩
    · have hfails' : .push si false ∈ es :=
        (List.mem_cons.mp hfails).resolve_left fun heq ↦ hpush ⟨si, false, heq.symm⟩
      rw [List.mem_cons, not_or]
      exact ⟨fun heq ↦ hpush ⟨si', true, heq.symm⟩, ih hrest hes' hfails'⟩

/-- Where no save succeeds, a record is there in the end exactly if it was there at first and no
step deletes it. -/
theorem kept_iff (hrun : Runs.run (step log) s es = some s') (hes : ∀ e ∈ es, e.Inner)
    (htk : recordKey t = some k) (hno : ∀ si, .push si true ∉ es) :
    s'.db[k]? = some (.task t) ↔
      s.db[k]? = some (.task t) ∧ Runs.Meets (step log) (Spares t) s es := by
  have hk : IsTaskKey k := isTaskKey_recordKey htk
  induction es generalizing s with
  | nil =>
    obtain rfl := Option.some.inj hrun
    exact (and_iff_left trivial).symm
  | cons e es ih =>
    obtain ⟨s₁, hs₁, hrest⟩ := Runs.run_cons_eq_some.mp hrun
    have hstep : s₁.db[k]? = (deleteAll (s.flushed e) s.db)[k]? :=
      getElem?_of_inner hk (hes e List.mem_cons_self)
        (fun si heq ↦ hno si (heq ▸ List.mem_cons_self)) hs₁
    have hspares : Spares t s e ↔ ¬∃ a ∈ s.flushed e, ackKey a = some k := by
      simp only [Spares, htk, not_exists, not_and]
    have hrest_iff := ih hrest (fun e' he' ↦ hes e' (List.mem_cons_of_mem e he'))
      fun si hin ↦ hno si (List.mem_cons_of_mem e hin)
    refine hrest_iff.trans ?_
    rw [hstep, getElem?_deleteAll, Runs.Meets, hs₁, hspares]
    by_cases hdel : ∃ a ∈ s.flushed e, ackKey a = some k <;> simp [hdel]

/-- Where the save succeeds, a pending task is there in the end exactly if no other one was saved
after it under its key and no step from there on deletes it. -/
theorem saved_iff (hrun : Runs.run (step log) s es = some s') (hes : ∀ e ∈ es, e.Inner)
    (hdone : s'.Done) (htk : recordKey t = some k) (ht : t ∈ s.tasks)
    (hno : ∀ si, .push si false ∉ es) :
    s'.db[k]? = some (.task t) ↔
      (s.tasks.filter (recordKey · = recordKey t)).getLast? = some t ∧
        Runs.Meets (step log) (SparesSaved t) s es := by
  have hk : IsTaskKey k := isTaskKey_recordKey htk
  induction es generalizing s with
  | nil =>
    obtain rfl := Option.some.inj hrun
    rw [hdone.2.1] at ht
    simp at ht
  | cons e es ih =>
    obtain ⟨s₁, hs₁, hrest⟩ := Runs.run_cons_eq_some.mp hrun
    have hes' : ∀ e' ∈ es, e'.Inner := fun e' he' ↦ hes e' (List.mem_cons_of_mem e he')
    have hhead : SparesSaved t s e := fun hnil ↦ by simp [hnil] at ht
    rw [Runs.Meets, hs₁, and_iff_right hhead]
    by_cases hpush : ∃ si ok, e = .push si ok
    · obtain ⟨si, ok, rfl⟩ := hpush
      rcases step_push hs₁ with ⟨rfl, db, hdb, rfl⟩ | ⟨rfl, -⟩
      · -- from here on nothing is pending, so the two guards agree
        have hguard : Runs.Meets (step log) (SparesSaved t) { s with db, tasks := [] } es
            ↔ Runs.Meets (step log) (Spares t) { s with db, tasks := [] } es := by
          refine Runs.meets_congr (P := fun s ↦ s.tasks = []) rfl
            (fun e he s t hnil hs ↦ tasks_nil_of_inner (hes' e he) hnil hs) fun e _ s hnil ↦ ?_
          exact ⟨fun h ↦ h hnil, fun h _ ↦ h⟩
        have hsaved : db[k]? = some (.task t) ↔
            (s.tasks.filter (recordKey · = recordKey t)).getLast? = some t := by
          have hne : s.tasks.filter (recordKey · = some k) ≠ [] :=
            List.ne_nil_of_mem (List.mem_filter.mpr ⟨ht, by simpa using htk⟩)
          rw [getElem?_saveAll_task hdb hk, htk, List.getLast?_eq_some_getLast hne]
          simp only [Option.map_some, Option.some_or, Option.some.injEq, Value.task.injEq]
        have hkept := kept_iff hrest hes' htk fun si' ↦ push_not_mem hrest rfl hes' si' true
        exact hkept.trans (and_congr hsaved hguard.symm)
      · exact absurd List.mem_cons_self (hno si)
    · have hne : ∀ si ok, e ≠ .push si ok := fun si ok heq ↦ hpush ⟨si, ok, heq⟩
      have htasks : s₁.tasks = s.tasks := tasks_of_inner (hes e List.mem_cons_self) hne hs₁
      have hrest_iff := ih hrest hes' (htasks ▸ ht) fun si hin ↦ hno si (List.mem_cons_of_mem e hin)
      rwa [htasks] at hrest_iff

end

/-- When a task of a batch is stored once the batch is done. -/
theorem stored_iff {log : List LogEntry} {s s' : StateMachine} {n : ℕ} {es : List Event} {t : Task}
    (ht : (recordKey t).isSome) (hmem : .command (.task t) ∈ batch log s.applied n)
    (hes : ∀ e ∈ es, e.Inner) (hrun : Runs.run (step log) s (.applyBatch n :: es) = some s')
    (hdone : s'.Done) :
    Stored s'.db t ↔
      Saves (batch log s.applied n) es ∧ SavedLast (batch log s.applied n) t ∧
          Runs.Meets (step log) (SparesSaved t) (s.start (batch log s.applied n)) es ∨
        ¬Saves (batch log s.applied n) es ∧ Stored s.db t ∧
          Runs.Meets (step log) (Spares t) (s.start (batch log s.applied n)) es := by
  obtain ⟨k, hk⟩ := Option.isSome_iff_exists.mp ht
  obtain ⟨s₁, hs₁, hrest⟩ := Runs.run_cons_eq_some.mp hrun
  obtain ⟨-, -, rfl⟩ := step_applyBatch hs₁
  have hstored : ∀ db : DB, Stored db t ↔ db[k]? = some (.task t) := fun db ↦ by
    simp only [Stored, hk, Option.mem_some_iff, exists_eq_left']
  have hdb : (s.start (batch log s.applied n)).db = s.db := by
    rw [start]
    split <;> rfl
  rw [hstored, hstored]
  by_cases hsaves : Saves (batch log s.applied n) es
  · have hstart := s.start_of_decodes hsaves.1
    have hpending : t ∈ (s.start (batch log s.applied n)).tasks := by
      rw [hstart]
      exact mem_tasksOf.mpr (List.mem_filterMap.mpr ⟨_, hmem, rfl⟩)
    have hlast : ((s.start (batch log s.applied n)).tasks.filter
        (recordKey · = recordKey t)).getLast? = some t ↔ SavedLast (batch log s.applied n) t := by
      rw [hstart, SavedLast]
    rw [saved_iff hrest hes hdone hk hpending hsaves.2, hlast]
    simp [hsaves]
  · have hno : ∀ si, .push si true ∉ es := by
      intro si
      by_cases hdec : ∀ e ∈ batch log s.applied n, e.Decodes
      · obtain ⟨si', hfails⟩ : ∃ si', .push si' false ∈ es := by
          by_contra hc
          exact hsaves ⟨hdec, fun si' hin ↦ hc ⟨si', hin⟩⟩
        exact push_true_not_mem hrest hes hfails si
      · obtain ⟨err, herr⟩ := s.start_of_not_decodes hdec
        exact push_not_mem hrest (by rw [herr]) hes si true
    rw [kept_iff hrest hes hk hno, hdb]
    simp [hsaves]

end StateMachine

/-! ## When a push tells the truth -/

open StateMachine

/-- A synchronous push to an empty store. -/
def plainPush : Push := ⟨{ queue := lit "q" }, .ofUnix 0 0, .ofUnix 0 0, 1⟩

/-- The batch of the push also acks another task, and the ack is flushed after the save. -/
def pushBatch : List LogEntry :=
  [.command (.task plainPush.task), .other, .command (.ack ⟨⟨lit "r", plainPush.task.id⟩⟩)]

end Z4
