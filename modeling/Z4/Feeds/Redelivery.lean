import Z4.Feeds.Queries
import Z4.Feeds.TaskWriter
import Z4.Foundations.Runs

/-!
# Redelivery

A `deliveredReader` starts a goroutine that scans the delivered tasks of its queue over a snapshot
of the store, pushes those whose ack deadline has passed to the feed, and at the end writes the
pushed tasks back with a new retry time. It runs beside the goroutine that applies acks and the one
that flushes the ack buffer.

## The flag

The flag `active` keeps a second run from starting. It has to fall when a run is over, or the queue
is never redelivered again; the source lowers it on one of its five ways out. `Healthy` says which
steps of a run leave by that way, and `FlagLowered` is kept by them.
-/

namespace Z4.Redelivery

open KeyValue

/-! ## One run -/

/-- What `Feed.push` returns: nothing, `io.EOF` when the feed is closed, or another error. -/
inductive PushOutcome where
  | ok
  | eof
  | failed
deriving DecidableEq

/-- Where a call of `deliveredReader.run` stands. -/
inductive Run where
  | started
  | scanning (it : TaskIterator) (watermark : Time) (tasks : List Task)
  | saving (tasks : List Task)

/-- What a run does next, with the outcomes of the calls it makes. -/
inductive RunEvent where
  /-- The clock is read for the watermark and again for the query. -/
  | executeQuery (settings : QueueConfig) (now now' : Time)
  | visit (push : PushOutcome) (now : Time)
  | save (ok : Bool)

inductive RunResult where
  | running (r : Run)
  /-- The run returns, with `active` lowered or not. -/
  | returned (lowered : Bool)

/-- `deliveredReader.retryTask`. -/
def retryTask (task : Task) (watermark : Time) : Bool :=
  match task.lastRetry with
  | none => task.createdAtTime.before watermark
  | some ts => ts.asTime.before watermark

/-- What follows the query in `run`, if it ended well or with `io.EOF`. -/
def afterQuery (tasks : List Task) : RunResult :=
  if tasks.isEmpty then .returned false else .running (.saving tasks)

/-- One step of `deliveredReader.run`. -/
def Run.step (qf : QueueConfig → Time → Option TaskRange) (db : DB) :
    Run → RunEvent → Option (RunResult × DB)
  | .started, .executeQuery settings now now' =>
    (qf settings now').map fun query ↦
      (.running (.scanning (newTaskIterator db query) (settings.watermark now) []), db)
  | .scanning it watermark tasks, .visit push now =>
    match it.next with
    | (_, .error .eof) => some (afterQuery tasks, db)
    | (_, .error _) => some (.returned false, db)
    | (it, .ok task) =>
      if retryTask task watermark then
        match push with
        | .ok => some (.running (.scanning it watermark
            (tasks ++ [{ task with lastRetry := some (.new now) }])), db)
        | .eof => some (afterQuery tasks, db)
        | .failed => some (.returned false, db)
      else some (.running (.scanning it watermark tasks), db)
  | .saving tasks, .save ok =>
    if ok then (saveAll tasks false db).map fun db ↦ (.returned true, db)
    else some (.returned false, db)
  | _, _ => none

/-- How a round of the scan can go: the task is not due, it is pushed, the scan is over, or the
iterator or the push fails. -/
inductive Round (it : TaskIterator) (watermark : Time) (tasks : List Task) (push : PushOutcome)
    (now : Time) : RunResult → Prop where
  | skip {it' : TaskIterator} {t : Task} (hnext : it.next = (it', .ok t))
      (hdue : retryTask t watermark = false) :
      Round it watermark tasks push now (.running (.scanning it' watermark tasks))
  | handOver {it' : TaskIterator} {t : Task} (hnext : it.next = (it', .ok t))
      (hdue : retryTask t watermark = true) (hpush : push = .ok) :
      Round it watermark tasks push now (.running (.scanning it' watermark
        (tasks ++ [{ t with lastRetry := some (.new now) }])))
  | ended (hend : it.next.2 = .error .eof ∨ push = .eof) :
      Round it watermark tasks push now (afterQuery tasks)
  | failed (herr : it.next.2 = .error .unmarshal ∨ it.next.2 = .error .emptyID ∨ push = .failed) :
      Round it watermark tasks push now (.returned false)

section

variable {qf : QueueConfig → Time → Option TaskRange} {db db' : DB} {r : Run} {o : RunResult}

theorem Run.step_executeQuery {c : QueueConfig} {now now' : Time}
    (h : r.step qf db (.executeQuery c now now') = some (o, db')) :
    ∃ query ∈ qf c now', r = .started ∧ db' = db ∧
      o = .running (.scanning (newTaskIterator db query) (c.watermark now) []) := by
  cases r with
  | started =>
    obtain ⟨query, hq, heq⟩ := Option.map_eq_some_iff.mp h
    obtain ⟨rfl, rfl⟩ := Prod.mk.inj heq
    exact ⟨query, hq, rfl, rfl, rfl⟩
  | scanning _ _ _ => simp [Run.step] at h
  | saving _ => simp [Run.step] at h

theorem Run.step_visit {push : PushOutcome} {now : Time}
    (h : r.step qf db (.visit push now) = some (o, db')) :
    ∃ it watermark tasks, r = .scanning it watermark tasks ∧ db' = db ∧
      Round it watermark tasks push now o := by
  cases r with
  | started => simp [Run.step] at h
  | saving _ => simp [Run.step] at h
  | scanning it watermark tasks =>
    refine ⟨it, watermark, tasks, rfl, ?_⟩
    simp only [Run.step] at h
    split at h
    · rename_i hnext
      obtain ⟨rfl, rfl⟩ := Prod.mk.inj (Option.some.inj h)
      exact ⟨rfl, .ended (.inl (by rw [hnext]))⟩
    · rename_i err hne hnext
      obtain ⟨rfl, rfl⟩ := Prod.mk.inj (Option.some.inj h)
      refine ⟨rfl, .failed ?_⟩
      rw [hnext]
      cases err <;> simp_all
    · rename_i it' t hnext
      split at h
      · rename_i hdue
        cases push with
        | ok =>
          obtain ⟨rfl, rfl⟩ := Prod.mk.inj (Option.some.inj h)
          exact ⟨rfl, .handOver hnext hdue rfl⟩
        | eof =>
          obtain ⟨rfl, rfl⟩ := Prod.mk.inj (Option.some.inj h)
          exact ⟨rfl, .ended (.inr rfl)⟩
        | failed =>
          obtain ⟨rfl, rfl⟩ := Prod.mk.inj (Option.some.inj h)
          exact ⟨rfl, .failed (.inr (.inr rfl))⟩
      · rename_i hdue
        obtain ⟨rfl, rfl⟩ := Prod.mk.inj (Option.some.inj h)
        exact ⟨rfl, .skip hnext (by simpa using hdue)⟩

theorem Run.step_save {ok : Bool} (h : r.step qf db (.save ok) = some (o, db')) :
    ∃ tasks, r = .saving tasks ∧
      (ok = true ∧ saveAll tasks false db = some db' ∧ o = .returned true ∨
        ok = false ∧ db' = db ∧ o = .returned false) := by
  cases r with
  | started => simp [Run.step] at h
  | scanning _ _ _ => simp [Run.step] at h
  | saving tasks =>
    refine ⟨tasks, rfl, ?_⟩
    cases ok with
    | true =>
      obtain ⟨db₁, hdb, heq⟩ := Option.map_eq_some_iff.mp h
      obtain ⟨rfl, rfl⟩ := Prod.mk.inj heq
      exact .inl ⟨rfl, hdb, rfl⟩
    | false =>
      obtain ⟨rfl, rfl⟩ := Prod.mk.inj (Option.some.inj h)
      exact .inr ⟨rfl, rfl, rfl⟩

theorem afterQuery_cases (tasks : List Task) :
    afterQuery tasks = .running (.saving tasks) ∨
      tasks = [] ∧ afterQuery tasks = .returned false := by
  cases tasks with
  | nil => exact .inr ⟨rfl, rfl⟩
  | cons t ts => exact .inl rfl

end

/-! ## Readers, acks and the store -/

/-- `deliveredReader`, with its calls of `run` that have not returned. -/
structure Reader where
  qf : QueueConfig → Time → Option TaskRange
  interval : Duration
  lastRun : Time := .zero
  active : Bool := false
  runs : List Run := []

/-- `deliveredReader.Ready`. -/
def Reader.ready (d : Reader) (now : Time) : Bool := d.interval < now.sub d.lastRun && !d.active

/-- `redeliveryInterval`. -/
def redeliveryInterval : Duration := .ofInt (30 * second.toInt)

/-- The reader for queued tasks, and the one for scheduled tasks, as `Readers` makes them. -/
def fifoReader : Reader := ⟨fun settings _ ↦ fifoDeliveredQuery settings, redeliveryInterval,
  .zero, false, []⟩

@[inherit_doc fifoReader]
def schedReader : Reader := ⟨fun settings now ↦ schedDeliveredQuery settings now,
  redeliveryInterval, .zero, false, []⟩

structure System (ι : Type) where
  db : DB
  ackBuffer : List Ack := []
  readers : ι → Reader
  /-- The keys that flushes have deleted so far. -/
  gone : List Key := []

inductive Event (ι : Type) where
  /-- `deliveredReader.Read`. -/
  | read (i : ι) (now : Time)
  /-- A step of the `k`-th run of a reader. -/
  | run (i : ι) (k : ℕ) (e : RunEvent)
  /-- Tasks are saved through the Raft log. -/
  | saveTasks (tasks : List Task) (saveIndex : Bool)
  /-- Acks are applied through the Raft log. -/
  | ack (acks : List Ack) (ok : Bool)
  | tick (ok : Bool)

variable {ι : Type}

/-- The reader after one of its runs has taken a step. -/
def Reader.advance (d : Reader) (k : ℕ) : RunResult → Reader
  | .running r => { d with runs := d.runs.set k r }
  | .returned lowered => { d with runs := d.runs.eraseIdx k, active := d.active && !lowered }

/-- The keys of acks, as far as they parse. -/
def ackKeys (acks : List Ack) : List Key := acks.filterMap ackKey

/-- The acks a step deletes. -/
def flushed (s : System ι) : Event ι → List Ack
  | .ack acks ok => overflow s.ackBuffer acks ok
  | .tick ok => ticked s.ackBuffer ok
  | _ => []

variable [DecidableEq ι]

def System.setReader (s : System ι) (i : ι) (d : Reader) : System ι :=
  { s with readers := Function.update s.readers i d }

def step (s : System ι) (e : Event ι) : Option (System ι) :=
  match e with
  | .read i now =>
    let d := s.readers i
    some (s.setReader i { d with lastRun := now, active := true, runs := d.runs ++ [.started] })
  | .run i k e =>
    match (s.readers i).runs[k]? with
    | none => none
    | some r => (r.step (s.readers i).qf s.db e).map fun o ↦
        { s.setReader i ((s.readers i).advance k o.1) with db := o.2 }
  | .saveTasks tasks saveIndex =>
    -- an id is saved once: what was acked and deleted is not pushed again
    if ∀ t ∈ tasks, ∀ k ∈ s.gone, recordKey t ≠ some k then
      (saveAll tasks saveIndex s.db).map fun db ↦ { s with db }
    else none
  | .ack acks ok =>
    let r := acknowledge s.ackBuffer acks s.db ok
    some { s with ackBuffer := r.1, db := r.2, gone := s.gone ++ ackKeys (flushed s e) }
  | .tick ok =>
    let r := flushTick s.ackBuffer s.db ok
    some { s with ackBuffer := r.1, db := r.2, gone := s.gone ++ ackKeys (flushed s e) }

@[simp] theorem setReader_readers_self (s : System ι) (i : ι) (d : Reader) :
    (s.setReader i d).readers i = d := Function.update_self ..

@[simp] theorem setReader_readers_of_ne (s : System ι) {i j : ι} (d : Reader) (h : j ≠ i) :
    (s.setReader i d).readers j = s.readers j := Function.update_of_ne h ..

theorem forall_setReader {P : Reader → Prop} {s : System ι} {i : ι} {d : Reader}
    (h : ∀ j, P (s.readers j)) (hd : P d) (j : ι) : P ((s.setReader i d).readers j) := by
  by_cases hj : j = i
  · rw [hj, setReader_readers_self]
    exact hd
  · rw [setReader_readers_of_ne s d hj]
    exact h j

/-! ## The flag -/

/-- The step does not leave `run` on a way out that forgets to lower the flag: the iterator and the
pushes report nothing but the end, at least one task was pushed by then, and the write-back
succeeds. -/
def Healthy : Run → RunEvent → Prop
  | .scanning it _ tasks, .visit push _ =>
    it.next.2 ≠ .error .unmarshal ∧ it.next.2 ≠ .error .emptyID ∧ push ≠ .failed ∧
      (it.next.2 = .error .eof ∨ push = .eof → tasks ≠ [])
  | .saving _, .save ok => ok = true
  | _, _ => True

instance : (r : Run) → (e : RunEvent) → Decidable (Healthy r e)
  | .scanning _ _ _, .visit _ _ => inferInstanceAs (Decidable (_ ∧ _ ∧ _ ∧ (_ → _)))
  | .saving _, .save _ => inferInstanceAs (Decidable (_ = true))
  | .started, .executeQuery _ _ _ | .started, .visit _ _ | .started, .save _
  | .scanning _ _ _, .executeQuery _ _ _ | .scanning _ _ _, .save _
  | .saving _, .executeQuery _ _ _ | .saving _, .visit _ _ => inferInstanceAs (Decidable True)

/-- Every run that takes a step takes a healthy one. -/
def Restoring (s : System ι) : Event ι → Prop
  | .run i k e => ∀ r ∈ (s.readers i).runs[k]?, Healthy r e
  | _ => True

instance (s : System ι) : (e : Event ι) → Decidable (Restoring s e)
  | .run i k e => inferInstanceAs (Decidable (∀ r ∈ (s.readers i).runs[k]?, Healthy r e))
  | .read _ _ | .saveTasks _ _ | .ack _ _ | .tick _ => inferInstanceAs (Decidable True)

/-- A healthy step goes on, or returns with the flag lowered. -/
theorem Healthy.ne_returned {qf : QueueConfig → Time → Option TaskRange} {db db' : DB} {r : Run}
    {e : RunEvent} (h : Healthy r e) : r.step qf db e ≠ some (.returned false, db') := by
  intro hs
  cases e with
  | executeQuery settings now now' =>
    obtain ⟨query, -, -, -, ho⟩ := Run.step_executeQuery hs
    simp at ho
  | visit push now =>
    obtain ⟨it, watermark, tasks, rfl, -, hround⟩ := Run.step_visit hs
    obtain ⟨h1, h2, h3, h4⟩ := h
    generalize ho : RunResult.returned false = o at hround
    cases hround with
    | skip hnext hdue => simp at ho
    | handOver hnext hdue hpush => simp at ho
    | ended hend =>
      rcases afterQuery_cases tasks with hsaving | ⟨hnil, -⟩
      · simp [hsaving] at ho
      · exact h4 hend hnil
    | failed herr =>
      rcases herr with herr | herr | herr
      · exact h1 herr
      · exact h2 herr
      · exact h3 herr
  | save ok =>
    obtain ⟨tasks, rfl, ⟨-, -, ho⟩ | ⟨rfl, -, -⟩⟩ := Run.step_save hs
    · simp at ho
    · simp [Healthy] at h

/-- The flag is up only while a run is under way. -/
def FlagLowered (d : Reader) : Prop := d.active = true → d.runs ≠ []

theorem FlagLowered.step {s s' : System ι} {e : Event ι} (h : ∀ i, FlagLowered (s.readers i))
    (hok : Restoring s e) (hs : step s e = some s') : ∀ i, FlagLowered (s'.readers i) := by
  cases e with
  | read i now =>
    obtain rfl := Option.some.inj hs
    exact forall_setReader h fun _ ↦ by simp
  | run i k e =>
    rw [Redelivery.step] at hs
    split at hs
    · simp at hs
    · rename_i r hr
      obtain ⟨o, ho, rfl⟩ := Option.map_eq_some_iff.mp hs
      refine forall_setReader h ?_
      rcases o with ⟨o, db⟩
      cases o with
      | running r' =>
        intro hactive
        have := h i hactive
        simpa [Reader.advance, List.set_eq_nil_iff] using this
      | returned lowered =>
        cases lowered with
        | false => exact absurd ho (hok r hr).ne_returned
        | true => intro hactive; simp [Reader.advance] at hactive
  | saveTasks tasks si =>
    rw [Redelivery.step] at hs
    split at hs
    · obtain ⟨db, -, rfl⟩ := Option.map_eq_some_iff.mp hs
      exact h
    · simp at hs
  | ack acks ok =>
    obtain rfl := Option.some.inj hs
    exact h
  | tick ok =>
    obtain rfl := Option.some.inj hs
    exact h

/-- **Redelivery stays on.** In a run of the system all of whose steps are healthy, the flag is up
only while a run is under way, and otherwise the reader is ready as soon as its interval is over. -/
theorem ready_of_restoring {s₀ s : System ι} {es : List (Event ι)}
    (h₀ : ∀ i, (s₀.readers i).active = false) (hok : Runs.Meets step Restoring s₀ es)
    (hrun : Runs.run step s₀ es = some s) (i : ι) :
    ((s.readers i).active = true → (s.readers i).runs ≠ []) ∧
      ((s.readers i).runs = [] → ∀ now, (s.readers i).interval < now.sub (s.readers i).lastRun →
        (s.readers i).ready now = true) := by
  have hflag : FlagLowered (s.readers i) :=
    Runs.Meets.invariant (fun s e s' ↦ FlagLowered.step)
      (fun i hi ↦ absurd hi (by simp [h₀ i])) hok hrun i
  refine ⟨hflag, fun hnone now hnow ↦ ?_⟩
  have hactive : (s.readers i).active = false := by
    by_contra hc
    exact hflag (by simpa using hc) hnone
  simp [Reader.ready, hactive, hnow]

/-- A store with one task in it. -/
def oldStore : DB := (saveAll [firstTask] false ∅).getD ∅

/-- A scan of the queue's unscheduled tasks a day later, over at most one task. -/
def dailyScan : List (Event Unit) :=
  [.read () (.ofUnix 86400 0),
    .run () 0 (.executeQuery (defaultConfig (lit "q")) (.ofUnix 86400 0) (.ofUnix 86400 0)),
    .run () 0 (.visit .ok (.ofUnix 86401 0))]

theorem ready_of_restoring_dailyScan : ∃ s,
    Runs.run step { db := oldStore, readers := fun _ ↦ fifoReader }
      (dailyScan ++ [.run () 0 (.visit .ok (.ofUnix 86401 0)), .run () 0 (.save true)]) = some s ∧
    (((s.readers ()).active = true → (s.readers ()).runs ≠ []) ∧
      ((s.readers ()).runs = [] → ∀ now, (s.readers ()).interval < now.sub (s.readers ()).lastRun →
        (s.readers ()).ready now = true)) := by
  have hsome : (Runs.run step { db := oldStore, readers := fun _ ↦ fifoReader }
      (dailyScan ++ [.run () 0 (.visit .ok (.ofUnix 86401 0)),
        .run () 0 (.save true)])).isSome := by decide +kernel
  obtain ⟨s, hs⟩ := Option.isSome_iff_exists.mp hsome
  exact ⟨s, hs, ready_of_restoring (fun _ ↦ rfl) (by decide +kernel) hs ()⟩

/-- Nothing is due in an empty store, and after that scan the flag stays up for good. -/
theorem active_after_empty_dailyScan : ∃ s,
    Runs.run step { db := ∅, readers := fun _ ↦ fifoReader } dailyScan = some s ∧
      (s.readers ()).active = true ∧ (s.readers ()).runs = [] := by
  have h : (Runs.run step { db := ∅, readers := fun _ ↦ fifoReader } dailyScan).map
      (fun s ↦ (s.readers ()).active && (s.readers ()).runs.isEmpty) = some true := by
    decide +kernel
  obtain ⟨s, hs, hflag⟩ := Option.map_eq_some_iff.mp h
  rw [Bool.and_eq_true, List.isEmpty_iff] at hflag
  exact ⟨s, hs, hflag⟩

end Z4.Redelivery
