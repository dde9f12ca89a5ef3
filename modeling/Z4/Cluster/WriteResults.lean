import Z4.Api.CreateTask

/-!
# What Write reports

`batchWriter.Write` returns one result for each entry of its batch. It keeps at most one error, of
the grouping or of the first of its three goroutines that has one, and `packErrors` puts it into
every slot. The goroutines do not know of each other: the others go on and write their groups, and
the settings before the one that failed are saved already. So a slot can hold an error although the
entry was applied. It never holds none for an entry that was not.

Here `Write` is a function of what its calls return. The step by step model of the same code, where
the goroutines interleave, reports the same (`results_eq_write`).
-/

namespace Z4.BatchWriter

variable {ε α : Type}

/-! ## The function -/

/-- What the calls of `Write` return: the successive calls of `SettingStore.Save`, and the one call
each of `TaskWriter.Push` and `TaskWriter.Acknowledge`. -/
structure Calls (ε : Type) where
  save : ℕ → Option ε
  push : Option ε
  acknowledge : Option ε

/-- What was written of each group. -/
structure Written where
  settings : List QueueConfig := []
  tasks : List Task := []
  acks : List Ack := []

/-- The goroutine of `applySettings`: the configs it saves, and its error. -/
def applySettings (save : ℕ → Option ε) : List QueueConfig → List QueueConfig × Option ε
  | [] => ([], none)
  | c :: cs =>
    match save 0 with
    | some err => ([], some err)
    | none =>
      let r := applySettings (fun n ↦ save (n + 1)) cs
      (c :: r.1, r.2)

/-- A goroutine that writes its group with one call, if there is anything in it. -/
def applyGroup (call : Option ε) (group : List α) : List α × Option ε :=
  if group = [] then ([], none)
  else match call with
    | some err => ([], some err)
    | none => (group, none)

def applyTasks (push : Option ε) (tasks : List Task) : List Task × Option ε := applyGroup push tasks

def applyAcks (acknowledge : Option ε) (acks : List Ack) : List Ack × Option ε :=
  applyGroup acknowledge acks

/-- `packErrors`, or the empty slots where there is no error. -/
def pack (n : ℕ) (err : Option (WriteError ⊕ ε)) : List (Option (WriteError ⊕ ε)) :=
  List.replicate n err

/-- `batchWriter.Write`: what it writes and the results it returns. -/
def write (logs : List LogEntry) (calls : Calls ε) :
    Written × List (Option (WriteError ⊕ ε)) :=
  match groupByType logs with
  | .error err => ({}, pack logs.length (some (.inl err)))
  | .ok g =>
    let settings := applySettings calls.save g.settings
    let tasks := applyTasks calls.push g.tasks
    let acks := applyAcks calls.acknowledge g.acks
    ({ settings := settings.1, tasks := tasks.1, acks := acks.1 },
      pack logs.length ((settings.2.or (tasks.2.or acks.2)).map .inr))

/-! ## The effect of an entry -/

def queueOf (e : LogEntry) : Option QueueConfig := e.command?.bind Command.queue?

def taskOf (e : LogEntry) : Option Task := e.command?.bind Command.task?

def ackOf (e : LogEntry) : Option Ack := e.command?.bind Command.ack?

/-- The `i`-th entry is one of a group, and its own member of the group, the one that comes after as
many others as the batch has before the entry, was written. -/
def WrittenAt (f : LogEntry → Option α) (written : List α) (logs : List LogEntry)
    (i : ℕ) : Prop :=
  ∃ e ∈ logs[i]?, ∃ a ∈ f e, written[((logs.take i).filterMap f).length]? = some a

/-- The effect of the `i`-th entry was applied. -/
def Applied (w : Written) (logs : List LogEntry) (i : ℕ) : Prop :=
  WrittenAt queueOf w.settings logs i ∨ WrittenAt taskOf w.tasks logs i ∨
    WrittenAt ackOf w.acks logs i

/-- There is a slot for each entry, and that of a command has an error exactly if its effect was not
applied. -/
def Truthful (logs : List LogEntry) (calls : Calls ε) : Prop :=
  (write logs calls).2.length = logs.length ∧ ∀ i, ∀ e ∈ logs[i]?, e ≠ .other →
    ((∃ err, (write logs calls).2[i]? = some (some err)) ↔ ¬Applied (write logs calls).1 logs i)

/-- No call that was made has failed. -/
def AllSucceed (logs : List LogEntry) (calls : Calls ε) : Prop :=
  (∀ n < (logs.filterMap queueOf).length, calls.save n = none) ∧
    (logs.filterMap taskOf ≠ [] → calls.push = none) ∧
    (logs.filterMap ackOf ≠ [] → calls.acknowledge = none)

/-- No call that was made has succeeded. -/
def NoneSucceeds (logs : List LogEntry) (calls : Calls ε) : Prop :=
  (logs.filterMap queueOf ≠ [] → calls.save 0 ≠ none) ∧
    (logs.filterMap taskOf ≠ [] → calls.push ≠ none) ∧
    (logs.filterMap ackOf ≠ [] → calls.acknowledge ≠ none)

/-! ## Groups -/

section

variable {f : LogEntry → Option α} {logs : List LogEntry} {written : List α} {i : ℕ}

theorem writtenAt_filterMap {e : LogEntry} {a : α} (he : logs[i]? = some e) (ha : f e = some a) :
    WrittenAt f (logs.filterMap f) logs i := by
  refine ⟨e, he, a, ha, ?_⟩
  obtain ⟨hi, rfl⟩ := List.getElem?_eq_some_iff.mp he
  have hsplit : logs.filterMap f
      = (logs.take i).filterMap f ++ a :: (logs.drop (i + 1)).filterMap f := by
    conv_lhs => rw [← List.take_append_drop i logs, List.drop_eq_getElem_cons hi]
    rw [List.filterMap_append, List.filterMap_cons_some ha]
  rw [hsplit, List.getElem?_append_right le_rfl, Nat.sub_self]
  rfl

theorem exists_writtenAt (hpart : written <+: logs.filterMap f) (hne : written ≠ []) :
    ∃ i, WrittenAt f written logs i := by
  obtain ⟨a, as, rfl⟩ := List.exists_cons_of_ne_nil hne
  obtain ⟨rest, hrest⟩ := hpart
  obtain ⟨before, e, after, rfl, hbefore, he, -⟩ := List.filterMap_eq_cons_iff.mp hrest.symm
  refine ⟨before.length, e, by simp, a, he, ?_⟩
  rw [List.take_left, List.filterMap_eq_nil_iff.mpr hbefore]
  rfl

theorem not_writtenAt_nil : ¬WrittenAt f [] logs i := by
  rintro ⟨e, -, a, -, ha⟩
  simp at ha

end

/-- What a goroutine writes is the beginning of its group, and all of it if it has no error. -/
structure Writes (group : List α) (r : List α × Option ε) : Prop where
  part : r.1 <+: group
  all_of_none : r.2 = none → r.1 = group

@[simp] theorem applyGroup_none (group : List α) :
    applyGroup (none : Option ε) group = (group, none) := by
  cases group <;> rfl

@[simp] theorem applyGroup_some (err : ε) (group : List α) :
    applyGroup (some err) group = ([], if group = [] then none else some err) := by
  cases group <;> rfl

@[simp] theorem applyGroup_nil (call : Option ε) : applyGroup call ([] : List α) = ([], none) := rfl

theorem writes_applySettings (save : ℕ → Option ε) (cs : List QueueConfig) :
    Writes cs (applySettings save cs) := by
  induction cs generalizing save with
  | nil => exact ⟨List.prefix_rfl, fun _ ↦ rfl⟩
  | cons c cs ih =>
    rw [applySettings]
    cases save 0 with
    | some err => exact ⟨List.nil_prefix, by simp⟩
    | none =>
      obtain ⟨hpart, hall⟩ := ih fun n ↦ save (n + 1)
      exact ⟨(List.prefix_cons_inj c).mpr hpart, fun h ↦ congrArg (c :: ·) (hall h)⟩

theorem writes_applyGroup (call : Option ε) (group : List α) :
    Writes group (applyGroup call group) := by
  cases call with
  | none => simpa using ⟨List.prefix_rfl, fun _ ↦ rfl⟩
  | some err => exact ⟨by simp, by simp⟩

theorem snd_applySettings_eq_none_iff {save : ℕ → Option ε} {cs : List QueueConfig} :
    (applySettings save cs).2 = none ↔ ∀ n < cs.length, save n = none := by
  induction cs generalizing save with
  | nil => simp [applySettings]
  | cons c cs ih =>
    rw [applySettings, List.length_cons, Nat.forall_lt_succ_left']
    cases h0 : save 0 with
    | some err => simp
    | none => simp [ih]

theorem fst_applySettings_eq_nil_iff {save : ℕ → Option ε} {cs : List QueueConfig} :
    (applySettings save cs).1 = [] ↔ (cs ≠ [] → save 0 ≠ none) := by
  cases cs with
  | nil => simp [applySettings]
  | cons c cs =>
    rw [applySettings]
    cases h0 : save 0 <;> simp

theorem snd_applyGroup_eq_none_iff {call : Option ε} {group : List α} :
    (applyGroup call group).2 = none ↔ (group ≠ [] → call = none) := by
  cases call <;> simp

theorem fst_applyGroup_eq_nil_iff {call : Option ε} {group : List α} :
    (applyGroup call group).1 = [] ↔ (group ≠ [] → call ≠ none) := by
  cases call <;> simp

/-! ## When the results are true -/

section

variable {logs : List LogEntry} {calls : Calls ε}

theorem groupsOf_command? (logs : List LogEntry) :
    groupsOf (logs.filterMap LogEntry.command?)
      = ⟨logs.filterMap queueOf, logs.filterMap taskOf, logs.filterMap ackOf⟩ := by
  rw [groupsOf, configsOf, tasksOf, acksOf, List.filterMap_filterMap, List.filterMap_filterMap,
    List.filterMap_filterMap]
  rfl

/-- The error of a batch that decodes, if it has one. -/
def errorOf (logs : List LogEntry) (calls : Calls ε) : Option ε :=
  (applySettings calls.save (logs.filterMap queueOf)).2.or
    ((applyTasks calls.push (logs.filterMap taskOf)).2.or
      (applyAcks calls.acknowledge (logs.filterMap ackOf)).2)

theorem write_of_decodes (h : ∀ e ∈ logs, e.Decodes) : write logs calls =
    ({ settings := (applySettings calls.save (logs.filterMap queueOf)).1
       tasks := (applyTasks calls.push (logs.filterMap taskOf)).1
       acks := (applyAcks calls.acknowledge (logs.filterMap ackOf)).1 },
      pack logs.length ((errorOf logs calls).map .inr)) := by
  rw [write, groupByType_of_decodes h, groupsOf_command?]
  rfl

theorem errorOf_eq_none_iff : errorOf logs calls = none ↔ AllSucceed logs calls := by
  rw [errorOf, Option.or_eq_none_iff, Option.or_eq_none_iff, snd_applySettings_eq_none_iff,
    applyTasks, applyAcks, snd_applyGroup_eq_none_iff, snd_applyGroup_eq_none_iff, AllSucceed]

theorem not_applied_empty {i : ℕ} : ¬Applied {} logs i := by
  rintro (hi | hi | hi)
  · exact not_writtenAt_nil hi
  · exact not_writtenAt_nil hi
  · exact not_writtenAt_nil hi

theorem applied_ne_other {w : Written} {i : ℕ} (h : Applied w logs i) :
    ∃ e, logs[i]? = some e ∧ e ≠ .other := by
  have hother : ∀ {β : Type} {e : LogEntry} {g : Command → Option β} {b : β},
      e.command?.bind g = some b → e ≠ .other := by
    rintro β e g b hb rfl
    simp [LogEntry.command?] at hb
  rcases h with ⟨e, he, a, ha, -⟩ | ⟨e, he, a, ha, -⟩ | ⟨e, he, a, ha, -⟩
  · exact ⟨e, he, hother ha⟩
  · exact ⟨e, he, hother ha⟩
  · exact ⟨e, he, hother ha⟩

theorem applied_of_allSucceed (h : ∀ e ∈ logs, e.Decodes) (hall : AllSucceed logs calls) {i : ℕ}
    {e : LogEntry} (he : logs[i]? = some e) (hne : e ≠ .other) :
    Applied (write logs calls).1 logs i := by
  obtain ⟨hsettings, htasks, hacks⟩ := hall
  have hs := (writes_applySettings calls.save (logs.filterMap queueOf)).all_of_none
    (snd_applySettings_eq_none_iff.mpr hsettings)
  have ht := (writes_applyGroup calls.push (logs.filterMap taskOf)).all_of_none
    (snd_applyGroup_eq_none_iff.mpr htasks)
  have ha := (writes_applyGroup calls.acknowledge (logs.filterMap ackOf)).all_of_none
    (snd_applyGroup_eq_none_iff.mpr hacks)
  rw [write_of_decodes h, applyTasks, applyAcks, hs, ht, ha]
  cases e with
  | other => exact absurd rfl hne
  | garbled => exact absurd rfl (h _ (List.mem_of_getElem? he)).1
  | unknown => exact absurd rfl (h _ (List.mem_of_getElem? he)).2
  | command c =>
    cases c with
    | task t => exact .inr (.inl (writtenAt_filterMap he rfl))
    | ack a => exact .inr (.inr (writtenAt_filterMap he rfl))
    | queue c => exact .inl (writtenAt_filterMap he rfl)

/-- Nothing of a batch is applied exactly if no call has succeeded. -/
theorem forall_not_applied_iff (h : ∀ e ∈ logs, e.Decodes) :
    (∀ i, ¬Applied (write logs calls).1 logs i) ↔ NoneSucceeds logs calls := by
  rw [NoneSucceeds, ← fst_applySettings_eq_nil_iff, ← fst_applyGroup_eq_nil_iff,
    ← fst_applyGroup_eq_nil_iff, write_of_decodes h, applyTasks, applyAcks]
  constructor
  · intro hnone
    have hnil : ∀ {β : Type} {f : LogEntry → Option β} {r : List β × Option ε},
        Writes (logs.filterMap f) r → (∀ i, ¬WrittenAt f r.1 logs i) → r.1 = [] := by
      intro β f r hw hnot
      by_contra hne
      obtain ⟨i, hi⟩ := exists_writtenAt hw.part hne
      exact hnot i hi
    refine ⟨hnil (writes_applySettings _ _) fun i hi ↦ hnone i (.inl hi),
      hnil (writes_applyGroup _ _) fun i hi ↦ hnone i (.inr (.inl hi)),
      hnil (writes_applyGroup _ _) fun i hi ↦ hnone i (.inr (.inr hi))⟩
  · rintro ⟨hs, ht, ha⟩ i
    rw [hs, ht, ha]
    exact not_applied_empty

theorem length_write (logs : List LogEntry) (calls : Calls ε) :
    (write logs calls).2.length = logs.length := by
  rw [write]
  split <;> exact List.length_replicate

/-- Where every slot has an error, the results are true if nothing was applied. -/
theorem truthful_iff_of_error {err : WriteError ⊕ ε}
    (herr : (write logs calls).2 = pack logs.length (some err)) :
    Truthful logs calls ↔ ∀ i, ¬Applied (write logs calls).1 logs i := by
  have hslot : ∀ {i : ℕ} {e : LogEntry}, logs[i]? = some e →
      ∃ err, (write logs calls).2[i]? = some (some err) := by
    intro i e he
    refine ⟨err, ?_⟩
    rw [herr, pack, List.getElem?_replicate, if_pos (List.getElem?_eq_some_iff.mp he).1]
  constructor
  · rintro ⟨-, htrue⟩ i hi
    obtain ⟨e, he, hne⟩ := applied_ne_other hi
    exact (htrue i e he hne).mp (hslot he) hi
  · exact fun hnone ↦ ⟨length_write logs calls, fun i e he _ ↦
      iff_of_true (hslot he) (hnone i)⟩

/-- **When the results of a batch are true.** An entry of the batch does not decode, or every call
that was made succeeds, or none does. -/
theorem truthful_iff (logs : List LogEntry) (calls : Calls ε) :
    Truthful logs calls ↔
      (∃ e ∈ logs, ¬e.Decodes) ∨ AllSucceed logs calls ∨ NoneSucceeds logs calls := by
  by_cases h : ∀ e ∈ logs, e.Decodes
  · have hdec : ¬∃ e ∈ logs, ¬e.Decodes := by simpa using h
    rw [or_iff_right hdec]
    cases herr : errorOf logs calls with
    | none =>
      -- no error: every slot is empty, and every command applied
      have hall := errorOf_eq_none_iff.mp herr
      refine iff_of_true ⟨length_write logs calls, fun i e he hne ↦ iff_of_false ?_ ?_⟩ (.inl hall)
      · rintro ⟨err, hslot⟩
        rw [write_of_decodes h, herr] at hslot
        simp [pack, List.getElem?_replicate] at hslot
      · exact not_not.mpr (applied_of_allSucceed h hall he hne)
    | some err =>
      have hnot : ¬AllSucceed logs calls := by
        rw [← errorOf_eq_none_iff, herr]
        exact Option.some_ne_none err
      have hpack : (write logs calls).2 = pack logs.length (some (.inr err)) := by
        rw [write_of_decodes h, herr]
        rfl
      rw [or_iff_right hnot, truthful_iff_of_error hpack, forall_not_applied_iff h]
  · -- grouping fails: nothing is written, and every slot has its error
    obtain ⟨err, hgroup⟩ := groupByType_of_not_decodes h
    have hwrite : write logs calls = ({}, pack logs.length (some (.inl err))) := by
      rw [write, hgroup]
    refine iff_of_true ((truthful_iff_of_error (by rw [hwrite])).mpr fun i hi ↦ ?_)
      (.inl (by simpa using h))
    rw [hwrite] at hi
    exact not_applied_empty hi

end

/-- A config and a task. -/
def configAndTask : List LogEntry :=
  [.command (.queue ⟨lit "q", [], [], 300⟩), .command (.task firstTask)]

/-- The config cannot be saved. -/
def saveFails : Calls Unit := { save := fun _ ↦ some (), push := none, acknowledge := none }

/-- The task is saved, and its slot has the error of the config. -/
theorem not_truthful_saveFails :
    (write configAndTask saveFails).1.tasks = [firstTask] ∧
      (write configAndTask saveFails).2 = [some (.inr ()), some (.inr ())] ∧
      ¬Truthful configAndTask saveFails := by
  refine ⟨rfl, rfl, fun h ↦ ?_⟩
  exact (h.2 1 _ rfl (by simp)).mp ⟨_, rfl⟩ (.inr (.inl ⟨_, rfl, firstTask, rfl, rfl⟩))

/-! ## The goroutines -/

/-- What the call of `Save`, if the step makes one, returns. -/
def savedIn : StateMachine.Event → Option Bool
  | .saveSetting ok => some ok
  | _ => none

/-- What the call of `Push`, if the step makes one, returns. -/
def pushedIn : StateMachine.Event → Option Bool
  | .push _ ok => some ok
  | _ => none

/-- What the calls return in a run of the goroutines. `Acknowledge` does not fail there. -/
def callsOf (es : List StateMachine.Event) : Calls WriteError where
  save n := if (es.filterMap savedIn)[n]? = some false then some .saveSettings else none
  push := if (es.filterMap pushedIn)[0]? = some false then some .saveTasks else none
  acknowledge := none

section

variable {log logs : List LogEntry} {s s' : StateMachine} {es : List StateMachine.Event}

open StateMachine

/-- The goroutines of a batch end with the errors of the functions. -/
theorem errors_of_run (hrun : Runs.run (step log) s es = some s') (hes : ∀ e ∈ es, e.Inner)
    (hdone : s'.Done) (hfirst : s.settings ≠ [] → s.settingsErr = none)
    (hpush : s.tasks ≠ [] → s.tasksErr = none) :
    s'.size = s.size ∧ s'.groupErr = s.groupErr ∧
      s'.settingsErr = s.settingsErr.or (applySettings (callsOf es).save s.settings).2 ∧
      s'.tasksErr = s.tasksErr.or (applyTasks (callsOf es).push s.tasks).2 := by
  induction es generalizing s with
  | nil =>
    obtain rfl := Option.some.inj hrun
    obtain ⟨hs, ht, -⟩ := hdone
    simp [hs, ht, applySettings, applyTasks, applyGroup]
  | cons e es ih =>
    obtain ⟨s₁, hs₁, hrest⟩ := Runs.run_cons_eq_some.mp hrun
    have ih := fun h1 h2 ↦ ih hrest (fun e' he' ↦ hes e' (List.mem_cons_of_mem e he')) h1 h2
    cases e with
    | applyBatch n => exact (hes _ List.mem_cons_self).elim
    | reply => exact (hes _ List.mem_cons_self).elim
    | saveSetting ok =>
      obtain ⟨c, cs, hcs, ⟨rfl, rfl⟩ | ⟨rfl, rfl⟩⟩ := step_saveSetting hs₁
      · have hnone := hfirst (by simp [hcs])
        obtain ⟨hsize, hgroup, hsettings, htasks⟩ := ih (fun _ ↦ hnone) hpush
        refine ⟨hsize, hgroup, hsettings.trans ?_, htasks⟩
        rw [hcs]
        rfl
      · obtain ⟨hsize, hgroup, hsettings, htasks⟩ := ih (by simp) hpush
        refine ⟨hsize, hgroup, hsettings.trans ?_, htasks⟩
        rw [hcs, hfirst (by simp [hcs])]
        rfl
    | push si ok =>
      have hne : s.tasks ≠ [] := by
        intro hnil
        rw [step, if_pos hnil] at hs₁
        simp at hs₁
      rcases step_push hs₁ with ⟨rfl, db, -, rfl⟩ | ⟨rfl, rfl⟩
      · obtain ⟨hsize, hgroup, hsettings, htasks⟩ := ih hfirst (by simp)
        refine ⟨hsize, hgroup, hsettings, htasks.trans ?_⟩
        rw [hpush hne]
        simp [applyTasks, callsOf, pushedIn]
      · obtain ⟨hsize, hgroup, hsettings, htasks⟩ := ih hfirst (by simp)
        refine ⟨hsize, hgroup, hsettings, htasks.trans ?_⟩
        rw [hpush hne]
        simp [applyTasks, callsOf, pushedIn, hne]
    | acknowledge ok =>
      obtain ⟨buffer, -, rfl⟩ := step_acknowledge hs₁
      exact ih hfirst hpush
    | flushTick ok =>
      obtain ⟨buffer, -, rfl⟩ := step_flushTick hs₁
      exact ih hfirst hpush

/-- **The goroutines report what the function does.** When a batch that was started is done,
whatever the order in which its goroutines made their calls, the results are those of `write` for
what the calls have returned. -/
theorem results_eq_write (hrun : Runs.run (step log) (s.start logs) es = some s')
    (hes : ∀ e ∈ es, e.Inner) (hdone : s'.Done) :
    s'.results = (write logs (callsOf es)).2.map (Option.map (Sum.elim id id)) := by
  by_cases h : ∀ e ∈ logs, e.Decodes
  · have hstart := s.start_of_decodes h
    obtain ⟨hsize, hgroup, hsettings, htasks⟩ :=
      errors_of_run hrun hes hdone (fun _ ↦ by rw [hstart]) fun _ ↦ by rw [hstart]
    obtain ⟨hqueue, htask, -⟩ := Groups.mk.inj (groupsOf_command? logs)
    rw [results, hsize, hgroup, hsettings, htasks, hstart, write_of_decodes h, hqueue, htask,
      errorOf]
    simp [pack, applyAcks, callsOf]
  · obtain ⟨err, hgroup⟩ := groupByType_of_not_decodes h
    have hstart : s.start logs = { s with
        size := logs.length, settings := [], tasks := [], acks := []
        groupErr := some err, settingsErr := none, tasksErr := none } := by
      rw [start, hgroup]
    obtain ⟨hsize, hgroupErr, -, -⟩ :=
      errors_of_run hrun hes hdone (fun _ ↦ by rw [hstart]) fun _ ↦ by rw [hstart]
    rw [results, hsize, hgroupErr, hstart, write, hgroup]
    simp [pack]

end

end Z4.BatchWriter
