import Z4.Feeds.Redelivery

/-!
# The ack deadline

A feed has four readers. The two undelivered ones hand a task over for the first time, the two
delivered ones again, once its ack deadline has passed. The only trace a hand-over leaves in the
store is the retry time that a redelivery writes back at its end. A first hand-over leaves none, and
the delivered readers then count the deadline from the creation of the task; nor do they know
whether a task in their range was handed over at all, as the checkpoint of a new queue is past every
index.

`Respecting` names what has to hold at each step so that the retry times, and the creation times of
tasks that have none, can stand for the hand-overs. Along such steps `Inv` is kept: a stored retry
time is not before the last hand-over, unless the run that made it has still to write it back, and
what a scan has still to hand over was last handed over before its watermark.

Goroutines of a feed that was closed may still be under way, so every feed of the run stays.
-/

namespace Z4.Deadline

open KeyValue Redelivery

/-! ## The readers of a queue -/

inductive Kind where
  | fifo
  | sched
deriving DecidableEq

/-- The `QueryFactory` of a `deliveredReader`. -/
def Kind.delivered : Kind → QueueConfig → Time → Option TaskRange
  | fifo => fifoReader.qf
  | sched => schedReader.qf

/-- The `QueryFactory` of an `undeliveredReader`. -/
def Kind.undelivered : Kind → QueueConfig → Time → Option TaskRange
  | fifo => fun settings _ ↦ fifoUndeliveredQuery settings
  | sched => schedUndeliveredQuery

/-- Its `Checkpointer`. -/
def Kind.checkpoint : Kind → QueueConfig → Task → QueueConfig
  | fifo => fifoCheckpointerSet
  | sched => schedCheckpointerSet

structure Feed where
  settings : QueueConfig
  /-- The calls of `undeliveredReader.Read` under way. -/
  reading : Kind → Option TaskIterator := fun _ ↦ none

/-- A call of `deliveredReader.run`, until it has returned. -/
structure Redelivering where
  feed : ℕ
  kind : Kind
  run : Option Run := some .started

/-- A task was handed over to a feed. -/
structure HandOver where
  record : Option Key
  time : Time
  feed : ℕ
  /-- The redelivery run that did it, or `none` for the undelivered reader. -/
  run : Option ℕ

structure State where
  db : DB := ∅
  clock : Time
  feeds : List Feed
  runs : List Redelivering := []
  /-- The hand-overs, the last one first. -/
  handed : List HandOver := []

def State.init (q : GoString) (start : Time) : State where
  clock := start
  feeds := [{ settings := defaultConfig q }]

/-- When the task of a record was last handed over. -/
def State.last (s : State) (r : Option Key) : Option Time :=
  (s.handed.find? (·.record = r)).map (·.time)

def State.settings (s : State) (j : ℕ) : Option QueueConfig := s.feeds[j]?.map (·.settings)

inductive Event where
  /-- Pushed tasks are saved through the Raft log. -/
  | arrive (tasks : List Task) (saveIndex : Bool)
  /-- Acknowledged tasks are deleted. -/
  | delete (acks : List Ack)
  /-- A feed is opened, with the settings that were loaded. -/
  | openFeed (settings : QueueConfig)
  /-- `UpdateQueue`. -/
  | update (j : ℕ) (ackDeadlineSeconds : Int32)
  /-- `undeliveredReader.Read` is called. -/
  | query (j : ℕ) (kind : Kind) (now : Time)
  /-- One round of its loop, whose push succeeds or returns `io.EOF`. -/
  | visit (j : ℕ) (kind : Kind) (ok : Bool) (now : Time)
  /-- `deliveredReader.Read` starts a run. -/
  | read (j : ℕ) (kind : Kind)
  /-- The run reads the clock for the watermark and again for the query. -/
  | executeQuery (k : ℕ) (now now' : Time)
  /-- One round of its loop: the push at one time, the retry time taken at a later one. -/
  | redeliver (k : ℕ) (push : PushOutcome) (pushed now : Time)
  | save (k : ℕ) (ok : Bool)

/-- The task a round of a run hands over. -/
def handsOver : Run → PushOutcome → Option Task
  | .scanning it watermark _, .ok =>
    match it.next.2 with
    | .ok t => if retryTask t watermark then some t else none
    | .error _ => none
  | _, _ => none

/-- The run after one of its steps. -/
def advance : RunResult → Option Run
  | .running r => some r
  | .returned _ => none

/-- A run that has not returned, and the settings of its feed. -/
def State.runAt (s : State) (k : ℕ) : Option (Redelivering × Run × QueueConfig) :=
  s.runs[k]?.bind fun x ↦ x.run.bind fun r ↦ (s.settings x.feed).map fun c ↦ (x, r, c)

/-- A step of a run. -/
def State.stepRun (s : State) (k : ℕ) (e : QueueConfig → RunEvent) : Option State :=
  (s.runAt k).bind fun (x, r, c) ↦ (r.step x.kind.delivered s.db (e c)).map fun (o, db) ↦
    { s with db, runs := s.runs.set k { x with run := advance o } }

def step (q : GoString) (s : State) : Event → Option State
  | .arrive tasks saveIndex =>
    -- `makeTask` sets no retry time
    if ∀ t ∈ tasks, t.queue = q ∧ t.lastRetry = none then
      (saveAll tasks saveIndex s.db).map fun db ↦ { s with db }
    else none
  | .delete acks => some { s with db := deleteAll acks s.db }
  | .openFeed settings =>
    if settings.id = q then some { s with feeds := s.feeds ++ [{ settings }] } else none
  | .update j secs => s.feeds[j]?.map fun f ↦
    { s with feeds := s.feeds.set j { f with settings := updateQueue f.settings secs } }
  | .query j kind now =>
    if s.clock.nanos ≤ now.nanos then
      s.feeds[j]?.bind fun f ↦
        match f.reading kind with
        | some _ => none
        | none => (kind.undelivered f.settings now).map fun range ↦
          { s with
            clock := now
            feeds := s.feeds.set j { f with
              reading := Function.update f.reading kind (some (newTaskIterator s.db range)) } }
    else none
  | .visit j kind ok now =>
    if s.clock.nanos ≤ now.nanos then
      s.feeds[j]?.bind fun f ↦ (f.reading kind).map fun it ↦
        match it.next, ok with
        | (it, .ok t), true =>
          { s with
            clock := now
            feeds := s.feeds.set j
              ⟨kind.checkpoint f.settings t, Function.update f.reading kind (some it)⟩
            handed := ⟨recordKey t, now, j, none⟩ :: s.handed }
        | _, _ =>
          { s with
            clock := now
            feeds := s.feeds.set j { f with reading := Function.update f.reading kind none } }
    else none
  | .read j kind =>
    if j < s.feeds.length then some { s with runs := s.runs ++ [{ feed := j, kind }] } else none
  | .executeQuery k now now' =>
    if s.clock.nanos ≤ now.nanos ∧ now.nanos ≤ now'.nanos then
      (s.stepRun k (.executeQuery · now now')).map fun s ↦ { s with clock := now' }
    else none
  | .redeliver k push pushed now =>
    if s.clock.nanos ≤ pushed.nanos ∧ pushed.nanos ≤ now.nanos then
      (s.stepRun k fun _ ↦ .visit push now).map fun s' ↦
        match (s.runAt k).bind fun (x, r, _) ↦ (handsOver r push).map (x.feed, ·) with
        | some (feed, t) => { s' with
            clock := now
            handed := ⟨recordKey t, pushed, feed, some k⟩ :: s.handed }
        | none => { s' with clock := now }
    else none
  | .save k ok => s.stepRun k fun _ ↦ .save ok

/-- What a delivered reader hands over in a step, under which settings and when. -/
def State.redelivers (s : State) : Event → Option (QueueConfig × Task × Time)
  | .redeliver k push pushed _ =>
    (s.runAt k).bind fun (_, r, c) ↦ (handsOver r push).map fun t ↦ (c, t, pushed)
  | _ => none

/-- The task was handed over before, and its ack deadline has passed since. -/
def OnTime (s : State) (c : QueueConfig) (t : Task) (now : Time) : Prop :=
  ∃ h ∈ s.last (recordKey t), h.nanos + c.ackDeadlineSeconds.toInt * 10 ^ 9 ≤ now.nanos

instance (s : State) (c : QueueConfig) (t : Task) (now : Time) : Decidable (OnTime s c t now) :=
  inferInstanceAs (Decidable (∃ h ∈ _, _))

/-! ## What a run holds -/

/-- The tasks a run has pushed, which it will write back. -/
def pushedTasks : Run → List Task
  | .started => []
  | .scanning _ _ tasks => tasks
  | .saving tasks => tasks

/-- The tasks it has still to push. -/
def dueAhead : Run → List Task
  | .scanning it watermark _ => it.ahead.filter (retryTask · watermark)
  | _ => []

/-- The records of both. -/
def records (r : Run) : List (Option Key) := (pushedTasks r ++ dueAhead r).map recordKey

def Redelivering.holds (x : Redelivering) : List (Option Key) := x.run.elim [] records

/-- The task under the key of a record. -/
def recordOf (db : DB) (r : Option Key) : Option Task :=
  r.bind fun k ↦ match db[k]? with
    | some (.task t) => some t
    | _ => none

/-! ## Runs in which the times stand for the hand-overs -/

/-- Times on which Go's arithmetic is exact. -/
def InRange (t : Time) : Prop := -2 ^ 80 ≤ t.nanos ∧ t.nanos ≤ 2 ^ 80

instance (t : Time) : Decidable (InRange t) := inferInstanceAs (Decidable (_ ∧ _))

/-- No run under way holds the record. -/
def State.Free (s : State) (r : Option Key) : Prop := ∀ x ∈ s.runs, r ∉ x.holds

instance (s : State) (r : Option Key) : Decidable (s.Free r) :=
  inferInstanceAs (Decidable (∀ x ∈ _, _))

/-- A run that has pushed something does not return without writing it back. -/
def WritesBack : Run → RunEvent → Prop
  | .scanning it _ tasks, .visit push _ =>
    tasks ≠ [] → it.next.2 ≠ .error .unmarshal ∧ it.next.2 ≠ .error .emptyID ∧ push ≠ .failed
  | .saving _, .save ok => ok = true
  | _, _ => True

instance : (r : Run) → (e : RunEvent) → Decidable (WritesBack r e)
  | .scanning _ _ _, .visit _ _ => inferInstanceAs (Decidable (_ → _ ∧ _ ∧ _))
  | .saving _, .save _ => inferInstanceAs (Decidable (_ = true))
  | .started, .executeQuery _ _ _ | .started, .visit _ _ | .started, .save _
  | .scanning _ _ _, .executeQuery _ _ _ | .scanning _ _ _, .save _
  | .saving _, .executeQuery _ _ _ | .saving _, .visit _ _ => inferInstanceAs (Decidable True)

/-- What a scan may find due: records that no run holds, and without a retry time only tasks that
were handed over, the last time not after the watermark. -/
def Ripe (s : State) (watermark : Time) (t : Task) : Prop :=
  s.Free (recordKey t) ∧
    (t.lastRetry = none → ∃ h ∈ s.last (recordKey t), h.nanos ≤ watermark.nanos)

instance (s : State) (watermark : Time) (t : Task) : Decidable (Ripe s watermark t) :=
  inferInstanceAs (Decidable (_ ∧ (_ → ∃ h ∈ _, _)))

/-- The watermark of a scan lies the deadline, or more, in the past. -/
def Waited (clock : Time) (secs : Int32) : Run → Prop
  | .scanning _ watermark _ => watermark.nanos + secs.toInt * 10 ^ 9 ≤ clock.nanos
  | _ => True

instance (clock : Time) (secs : Int32) : (r : Run) → Decidable (Waited clock secs r)
  | .scanning _ _ _ => inferInstanceAs (Decidable (_ ≤ _))
  | .started | .saving _ => .isTrue trivial

/-- A first hand-over is of a record that no run holds and that has no retry time. -/
def First (s : State) : Except IterError Task → Prop
  | .ok t => s.Free (recordKey t) ∧ ∀ u ∈ recordOf s.db (recordKey t), u.lastRetry = none
  | .error _ => True

instance (s : State) : (x : Except IterError Task) → Decidable (First s x)
  | .ok _ => inferInstanceAs (Decidable (_ ∧ ∀ u ∈ _, _))
  | .error _ => .isTrue trivial

/-- Scans find only ripe tasks due, first hand-overs are such, runs write back what they have
pushed, the deadline of a feed is not raised past what its scans under way have waited, and times
are in range. -/
def Respecting (s : State) : Event → Prop
  | .update j secs => ∀ x ∈ s.runs, x.feed = j → ∀ r ∈ x.run, Waited s.clock secs r
  | .visit j kind ok _ => ok = true → ∀ f ∈ s.feeds[j]?, ∀ it ∈ f.reading kind, First s it.next.2
  | .executeQuery k now now' => InRange now ∧ ∀ y ∈ s.runAt k,
      ∀ range ∈ y.1.kind.delivered y.2.2 now', ∀ t ∈ handedOut s.db range,
        retryTask t (y.2.2.watermark now) = true → Ripe s (y.2.2.watermark now) t
  | .redeliver k push _ now => InRange now ∧ ∀ y ∈ s.runAt k, WritesBack y.2.1 (.visit push now)
  | .save k ok => ∀ y ∈ s.runAt k, WritesBack y.2.1 (.save ok)
  | _ => True

instance (s : State) : (e : Event) → Decidable (Respecting s e)
  | .update _ _ => inferInstanceAs (Decidable (∀ x ∈ _, _ → ∀ r ∈ _, _))
  | .visit _ _ _ _ => inferInstanceAs (Decidable (_ → ∀ f ∈ _, ∀ it ∈ _, _))
  | .executeQuery _ _ _ =>
    inferInstanceAs (Decidable (_ ∧ ∀ y ∈ _, ∀ range ∈ _, ∀ t ∈ _, _ → _))
  | .redeliver _ _ _ _ => inferInstanceAs (Decidable (_ ∧ ∀ y ∈ _, _))
  | .save _ _ => inferInstanceAs (Decidable (∀ y ∈ _, _))
  | .arrive _ _ | .delete _ | .openFeed _ | .query _ _ _ | .read _ _ => .isTrue trivial

/-! ## What a round hands over -/

section

variable {r : Run} {it it' : TaskIterator} {watermark : Time} {tasks : List Task} {t : Task}
  {push : PushOutcome}

theorem handsOver_eq_some (h : handsOver r push = some t) :
    ∃ it it' watermark tasks, r = .scanning it watermark tasks ∧ it.next = (it', .ok t) ∧
      retryTask t watermark = true := by
  cases r with
  | started => simp [handsOver] at h
  | saving tasks => simp [handsOver] at h
  | scanning it watermark tasks =>
    cases push with
    | ok =>
      simp only [handsOver] at h
      split at h
      · rename_i u hu
        obtain ⟨hdue, rfl⟩ := by simpa using h
        exact ⟨it, it.next.1, watermark, tasks, rfl, Prod.ext rfl hu, hdue⟩
      · simp at h
    | eof => simp [handsOver] at h
    | failed => simp [handsOver] at h

theorem handsOver_of_due (hnext : it.next = (it', .ok t)) (hdue : retryTask t watermark = true) :
    handsOver (.scanning it watermark tasks) .ok = some t := by
  simp [handsOver, hnext, hdue]

theorem handsOver_of_not_due (hnext : it.next = (it', .ok t))
    (hdue : retryTask t watermark = false) :
    handsOver (.scanning it watermark tasks) push = none := by
  cases push <;> simp [handsOver, hnext, hdue]

theorem handsOver_of_error {err : IterError} (herr : it.next.2 = .error err) :
    handsOver (.scanning it watermark tasks) push = none := by
  cases push <;> simp [handsOver, herr]

theorem handsOver_of_ne_ok (hpush : push ≠ .ok) : handsOver r push = none := by
  cases push with
  | ok => exact absurd rfl hpush
  | eof => cases r <;> rfl
  | failed => cases r <;> rfl

/-- A run that writes back what it has pushed fails only before it has pushed anything. -/
theorem WritesBack.eq_nil {now : Time}
    (h : WritesBack (.scanning it watermark tasks) (.visit push now))
    (herr : it.next.2 = .error .unmarshal ∨ it.next.2 = .error .emptyID ∨ push = .failed) :
    tasks = [] := by
  by_contra hne
  obtain ⟨h1, h2, h3⟩ := h hne
  rcases herr with herr | herr | herr
  · exact h1 herr
  · exact h2 herr
  · exact h3 herr

end

/-! ## The invariant -/

/-- The timestamp is not before the last hand-over of the record. -/
def Dated (s : State) (r : Option Key) (ts : Timestamp) : Prop :=
  InRange ts.asTime ∧ ∃ h ∈ s.last r, h.nanos ≤ ts.asTime.nanos

/-- What a scan has still to push was handed over, the last time not after the watermark. -/
def DueHanded (s : State) : Run → Prop
  | .scanning it watermark _ => ∀ t ∈ it.ahead, retryTask t watermark = true →
      ∃ h ∈ s.last (recordKey t), h.nanos ≤ watermark.nanos
  | _ => True

structure RunInv (s : State) (feed : ℕ) (r : Run) : Prop where
  pushed : ∀ t ∈ pushedTasks r, ∃ ts ∈ t.lastRetry, Dated s (recordKey t) ts
  due : DueHanded s r
  waited : ∃ c ∈ s.settings feed, Waited s.clock c.ackDeadlineSeconds r
  nodup : (records r).Nodup

structure Inv (s : State) : Prop where
  filed : Filed s.db
  retried : ∀ t, Stored s.db t → ∀ ts ∈ t.lastRetry,
    (∃ x ∈ s.runs, ∃ r ∈ x.run, ∃ u ∈ pushedTasks r, recordKey u = recordKey t) ∨
      Dated s (recordKey t) ts
  runs : ∀ x ∈ s.runs, ∀ r ∈ x.run, RunInv s x.feed r
  apart : ∀ (i j : ℕ) (x y : Redelivering), s.runs[i]? = some x → s.runs[j]? = some y → i ≠ j →
    ∀ r ∈ x.holds, r ∉ y.holds

section

variable {s s' : State} {r : Run} {feed : ℕ}

theorem inv_init (q : GoString) (start : Time) : Inv (.init q start) where
  filed := filed_empty
  retried := by simp [State.init, Stored]
  runs := by simp [State.init]
  apart := by simp [State.init]

theorem mem_records_of_pushed {t : Task} (h : t ∈ pushedTasks r) : recordKey t ∈ records r :=
  List.mem_map_of_mem (List.mem_append_left _ h)

theorem mem_records_of_due {it : TaskIterator} {watermark : Time} {tasks : List Task} {t : Task}
    (h : t ∈ it.ahead) (hdue : retryTask t watermark = true) :
    recordKey t ∈ records (.scanning it watermark tasks) :=
  List.mem_map_of_mem (List.mem_append_right _ (List.mem_filter.mpr ⟨h, hdue⟩))

theorem Dated.congr {k : Option Key} {ts : Timestamp} (h : Dated s k ts)
    (hlast : s'.last k = s.last k) : Dated s' k ts := by
  rw [Dated, hlast]
  exact h

theorem Waited.mono {clock clock' : Time} {secs : Int32} (h : Waited clock secs r)
    (hle : clock.nanos ≤ clock'.nanos) : Waited clock' secs r := by
  cases r with
  | started => trivial
  | saving tasks => trivial
  | scanning it watermark tasks => exact h.trans hle

theorem RunInv.congr (h : RunInv s feed r) (hlast : ∀ k ∈ records r, s'.last k = s.last k)
    (hwaited : ∀ c ∈ s.settings feed, Waited s.clock c.ackDeadlineSeconds r →
      ∃ c' ∈ s'.settings feed, Waited s'.clock c'.ackDeadlineSeconds r) : RunInv s' feed r := by
  refine ⟨fun t ht ↦ ?_, ?_, ?_, h.nodup⟩
  · obtain ⟨ts, hts, hdated⟩ := h.pushed t ht
    exact ⟨ts, hts, hdated.congr (hlast _ (mem_records_of_pushed ht))⟩
  · have hdue := h.due
    cases r with
    | started => trivial
    | saving tasks => trivial
    | scanning it watermark tasks =>
      intro t ht hretry
      rw [hlast _ (mem_records_of_due ht hretry)]
      exact hdue t ht hretry
  · obtain ⟨c, hc, hw⟩ := h.waited
    exact hwaited c hc hw

/-- The settings of the other feeds stay where they are, with their deadlines. -/
def SameDeadlines (s s' : State) : Prop :=
  s.clock.nanos ≤ s'.clock.nanos ∧ ∀ j, ∀ c ∈ s.settings j, ∃ c' ∈ s'.settings j,
    c'.ackDeadlineSeconds = c.ackDeadlineSeconds

theorem SameDeadlines.waited (h : SameDeadlines s s') :
    ∀ c ∈ s.settings feed, Waited s.clock c.ackDeadlineSeconds r →
      ∃ c' ∈ s'.settings feed, Waited s'.clock c'.ackDeadlineSeconds r := by
  intro c hc hw
  obtain ⟨c', hc', heq⟩ := h.2 feed c hc
  exact ⟨c', hc', heq ▸ hw.mono h.1⟩

theorem sameDeadlines_rfl (hclock : s.clock.nanos ≤ s'.clock.nanos) (hfeeds : s'.feeds = s.feeds) :
    SameDeadlines s s' := by
  refine ⟨hclock, fun j c hc ↦ ⟨c, ?_, rfl⟩⟩
  rw [State.settings, hfeeds]
  exact hc

theorem sameDeadlines_set {j : ℕ} {f f' : Feed} (hclock : s.clock.nanos ≤ s'.clock.nanos)
    (hf : s.feeds[j]? = some f) (hfeeds : s'.feeds = s.feeds.set j f')
    (hsecs : f'.settings.ackDeadlineSeconds = f.settings.ackDeadlineSeconds) :
    SameDeadlines s s' := by
  refine ⟨hclock, fun i c hc ↦ ?_⟩
  rw [State.settings, hfeeds]
  by_cases hij : i = j
  · subst hij
    have hlt := (List.getElem?_eq_some_iff.mp hf).1
    rw [State.settings, hf] at hc
    obtain rfl : f.settings = c := by simpa using hc
    exact ⟨f'.settings, by rw [List.getElem?_set_self hlt]; rfl, hsecs⟩
  · rw [List.getElem?_set_ne (Ne.symm hij)]
    exact ⟨c, hc, rfl⟩

theorem Inv.frame (h : Inv s) (hruns : s'.runs = s.runs) (hlast : s'.handed = s.handed)
    (hfiled : Filed s'.db)
    (hstored : ∀ t, Stored s'.db t → t.lastRetry ≠ none → Stored s.db t)
    (hwaited : ∀ x ∈ s.runs, ∀ r ∈ x.run, ∀ c ∈ s.settings x.feed,
      Waited s.clock c.ackDeadlineSeconds r →
      ∃ c' ∈ s'.settings x.feed, Waited s'.clock c'.ackDeadlineSeconds r) : Inv s' := by
  have hlast' : ∀ k, s'.last k = s.last k := fun k ↦ by rw [State.last, State.last, hlast]
  refine ⟨hfiled, fun t ht ts hts ↦ ?_, ?_, ?_⟩
  · rw [hruns]
    have hne : t.lastRetry ≠ none := by
      rw [show t.lastRetry = some ts from hts]
      simp
    exact (h.retried t (hstored t ht hne) ts hts).imp_right fun hd ↦ hd.congr (hlast' _)
  · rw [hruns]
    exact fun x hx r hr ↦ (h.runs x hx r hr).congr (fun k _ ↦ hlast' k) (hwaited x hx r hr)
  · rw [hruns]
    exact h.apart

/-! ### The store and the feeds -/

theorem Inv.arrive (h : Inv s) {q : GoString} {tasks : List Task} {si : Bool} {db : DB}
    (hnew : ∀ t ∈ tasks, t.queue = q ∧ t.lastRetry = none)
    (hs : saveAll tasks si s.db = some db) : Inv { s with db } := by
  refine h.frame rfl rfl (h.filed.saveAll hs) (fun t ht hne ↦ ?_) fun x _ r _ c hc hw ↦ ⟨c, hc, hw⟩
  rcases mem_or_stored_of_saveAll hs ht with hmem | hold
  · exact absurd (hnew t hmem).2 hne
  · exact hold

theorem Inv.delete (h : Inv s) (acks : List Ack) : Inv { s with db := deleteAll acks s.db } :=
  h.frame rfl rfl (h.filed.deleteAll acks) (fun _ ht _ ↦ stored_of_deleteAll ht)
    fun _ _ _ _ c hc hw ↦ ⟨c, hc, hw⟩

theorem Inv.openFeed (h : Inv s) (settings : QueueConfig) :
    Inv { s with feeds := s.feeds ++ [{ settings }] } := by
  refine h.frame rfl rfl h.filed (fun _ ht _ ↦ ht) fun x _ r _ c hc hw ↦ ⟨c, ?_, hw⟩
  obtain ⟨f, hf, rfl⟩ := Option.map_eq_some_iff.mp hc
  rw [State.settings, List.getElem?_append_left (List.getElem?_eq_some_iff.mp hf).1, hf]
  rfl

theorem Inv.update (h : Inv s) {j : ℕ} {secs : Int32} {f : Feed} (hf : s.feeds[j]? = some f)
    (hok : ∀ x ∈ s.runs, x.feed = j → ∀ r ∈ x.run, Waited s.clock secs r) :
    Inv { s with feeds := s.feeds.set j { f with settings := updateQueue f.settings secs } } := by
  refine h.frame rfl rfl h.filed (fun _ ht _ ↦ ht) fun x hx r hr c hc hw ↦ ?_
  by_cases hj : x.feed = j
  · have hlt := (List.getElem?_eq_some_iff.mp hf).1
    obtain rfl : f.settings = c := by
      rw [State.settings, hj, hf] at hc
      simpa using hc
    refine ⟨updateQueue f.settings secs, ?_, ?_⟩
    · rw [State.settings, hj, List.getElem?_set_self hlt]
      rfl
    · rw [updateQueue]
      split
      · exact hok x hx hj r hr
      · exact hw
  · refine ⟨c, ?_, hw⟩
    rw [State.settings, List.getElem?_set_ne (Ne.symm hj)]
    exact hc

theorem Inv.setFeed (h : Inv s) {j : ℕ} {f f' : Feed} {now : Time} (hf : s.feeds[j]? = some f)
    (hclock : s.clock.nanos ≤ now.nanos)
    (hsecs : f'.settings.ackDeadlineSeconds = f.settings.ackDeadlineSeconds) :
    Inv { s with clock := now, feeds := s.feeds.set j f' } := by
  have hsame : SameDeadlines s { s with clock := now, feeds := s.feeds.set j f' } :=
    sameDeadlines_set hclock hf rfl hsecs
  exact h.frame rfl rfl h.filed (fun _ ht _ ↦ ht) fun _ _ _ _ ↦ hsame.waited

/-! ### First hand-overs -/

theorem last_of_handed {h₀ : HandOver} (h : s'.handed = h₀ :: s.handed)
    (k : Option Key) : s'.last k = if k = h₀.record then some h₀.time else s.last k := by
  rw [State.last, h, List.find?_cons]
  by_cases hk : k = h₀.record
  · simp [hk]
  · simp [hk, Ne.symm hk, State.last]

theorem recordOf_of_stored {db : DB} {t : Task} (h : Stored db t) :
    recordOf db (recordKey t) = some t := by
  obtain ⟨k, hk, hget⟩ := h
  rw [recordOf, show recordKey t = some k from hk, Option.bind_some, hget]

theorem Inv.first (h : Inv s) {t : Task} {now : Time} {j : ℕ} (hok : First s (.ok t))
    (hruns : s'.runs = s.runs) (hdb : s'.db = s.db)
    (hhanded : s'.handed = ⟨recordKey t, now, j, none⟩ :: s.handed)
    (hsame : SameDeadlines s s') : Inv s' := by
  have hlast : ∀ k, k ≠ recordKey t → s'.last k = s.last k := fun k hk ↦ by
    rw [last_of_handed hhanded, if_neg hk]
  refine ⟨hdb ▸ h.filed, fun u hu ts hts ↦ ?_, fun x hx r hr ↦ ?_, hruns ▸ h.apart⟩
  · rw [hdb] at hu
    rw [hruns]
    refine (h.retried u hu ts hts).imp_right fun hd ↦ hd.congr (hlast _ fun heq ↦ ?_)
    -- the record itself has no retry time
    have hnone := hok.2 u (heq ▸ recordOf_of_stored hu)
    rw [hnone] at hts
    simp at hts
  · rw [hruns] at hx
    refine (h.runs x hx r hr).congr (fun k hk ↦ hlast k ?_) hsame.waited
    rintro rfl
    refine hok.1 x hx ?_
    rw [Redelivering.holds, show x.run = some r from hr]
    exact hk

/-! ### Redelivery -/

theorem Inv.read (h : Inv s) {j : ℕ} {kind : Kind} (hj : j < s.feeds.length) :
    Inv { s with runs := s.runs ++ [{ feed := j, kind }] } := by
  have hget : ∀ (i : ℕ) (y : Redelivering), (s.runs ++ [{ feed := j, kind }])[i]? = some y →
      s.runs[i]? = some y ∨ y.holds = [] := by
    intro i y hy
    rcases lt_or_ge i s.runs.length with hi | hi
    · rw [List.getElem?_append_left hi] at hy
      exact .inl hy
    · rw [List.getElem?_append_right hi] at hy
      obtain rfl := List.mem_singleton.mp (List.mem_of_getElem? hy)
      exact .inr rfl
  refine ⟨h.filed, fun t ht ts hts ↦ ?_, fun x hx r hr ↦ ?_, fun i i' x y hx hy hne k hk hk' ↦ ?_⟩
  · exact (h.retried t ht ts hts).imp_left fun ⟨x, hx, hr⟩ ↦ ⟨x, List.mem_append_left _ hx, hr⟩
  · rcases List.mem_append.mp hx with hx | hx
    · exact (h.runs x hx r hr).congr (fun _ _ ↦ rfl) fun c hc hw ↦ ⟨c, hc, hw⟩
    · rw [List.mem_singleton] at hx
      subst hx
      obtain rfl : .started = r := Option.some.inj hr
      refine ⟨by simp [pushedTasks], trivial, ⟨s.feeds[j].settings, ?_, trivial⟩, .nil⟩
      rw [State.settings, List.getElem?_eq_getElem hj]
      rfl
  · rcases hget i x hx with hx | hx
    · rcases hget i' y hy with hy | hy
      · exact h.apart i i' x y hx hy hne k hk hk'
      · simp [hy] at hk'
    · simp [hx] at hk

/-- A run takes a step. The other runs are not concerned, as they hold other records. -/
theorem Inv.setRun (h : Inv s) {k : ℕ} {x : Redelivering} (hx : s.runs[k]? = some x)
    {o : Option Run} (hruns : s'.runs = s.runs.set k { x with run := o }) (hfiled : Filed s'.db)
    (hretried : ∀ t, Stored s'.db t → ∀ ts ∈ t.lastRetry,
      (∃ x ∈ s'.runs, ∃ r ∈ x.run, ∃ u ∈ pushedTasks r, recordKey u = recordKey t) ∨
        Dated s' (recordKey t) ts)
    (hlast : ∀ k, k ∉ x.holds → s'.last k = s.last k) (hsame : SameDeadlines s s')
    (hrun : ∀ r ∈ o, RunInv s' x.feed r)
    (hholds : ∀ k ∈ o.elim [] records, k ∈ x.holds ∨ s.Free k) : Inv s' := by
  have hlt := (List.getElem?_eq_some_iff.mp hx).1
  have hget : ∀ (i : ℕ) (y : Redelivering), s'.runs[i]? = some y →
      i = k ∧ y = { x with run := o } ∨ i ≠ k ∧ s.runs[i]? = some y := by
    intro i y hy
    rw [hruns] at hy
    by_cases hi : i = k
    · subst hi
      rw [List.getElem?_set_self hlt] at hy
      exact .inl ⟨rfl, (Option.some.inj hy).symm⟩
    · rw [List.getElem?_set_ne (Ne.symm hi)] at hy
      exact .inr ⟨hi, hy⟩
  refine ⟨hfiled, hretried, fun y hy r hr ↦ ?_, fun i j y z hy hz hij l hl hl' ↦ ?_⟩
  · obtain ⟨i, hi⟩ := List.mem_iff_getElem?.mp hy
    rcases hget i y hi with ⟨-, rfl⟩ | ⟨hne, hold⟩
    · exact hrun r hr
    · refine (h.runs y (List.mem_of_getElem? hold) r hr).congr (fun l hl ↦ hlast l ?_) hsame.waited
      refine h.apart i k y x hold hx hne l ?_
      rw [Redelivering.holds, show y.run = some r from hr]
      exact hl
  · -- of two runs at most one is the run that moved
    rcases hget i y hy with ⟨rfl, rfl⟩ | ⟨hi, hold⟩
    · rcases hget j z hz with ⟨rfl, -⟩ | ⟨hj, hold'⟩
      · exact hij rfl
      · rcases hholds l hl with hmem | hfree
        · exact h.apart i j x z hx hold' hij l hmem hl'
        · exact hfree z (List.mem_of_getElem? hold') hl'
    · rcases hget j z hz with ⟨rfl, rfl⟩ | ⟨hj, hold'⟩
      · rcases hholds l hl' with hmem | hfree
        · exact h.apart i j y x hold hx hij l hl hmem
        · exact hfree y (List.mem_of_getElem? hold) hl
      · exact h.apart i j y z hold hold' hij l hl hl'

theorem runAt_eq_some {k : ℕ} {x : Redelivering} {c : QueueConfig} :
    s.runAt k = some (x, r, c) ↔
      s.runs[k]? = some x ∧ x.run = some r ∧ s.settings x.feed = some c := by
  simp only [State.runAt, Option.bind_eq_some_iff, Option.map_eq_some_iff, Prod.mk.injEq]
  constructor
  · rintro ⟨x, hx, r, hr, c, hc, rfl, rfl, rfl⟩
    exact ⟨hx, hr, hc⟩
  · rintro ⟨hx, hr, hc⟩
    exact ⟨x, hx, r, hr, c, hc, rfl, rfl, rfl⟩

theorem stepRun_eq_some {k : ℕ} {e : QueueConfig → RunEvent} (h : s.stepRun k e = some s') :
    ∃ x r c o db, s.runAt k = some (x, r, c) ∧
      r.step x.kind.delivered s.db (e c) = some (o, db) ∧
      s' = { s with db, runs := s.runs.set k { x with run := advance o } } := by
  obtain ⟨⟨x, r, c⟩, hat, h⟩ := Option.bind_eq_some_iff.mp h
  obtain ⟨⟨o, db⟩, hstep, rfl⟩ := Option.map_eq_some_iff.mp h
  exact ⟨x, r, c, o, db, hat, hstep, rfl⟩

theorem exists_run_set {P : Run → Prop} {k : ℕ} {x : Redelivering} {o : Option Run}
    (hx : s.runs[k]? = some x) (h : ∃ y ∈ s.runs, ∃ r ∈ y.run, P r)
    (hk : ∀ r ∈ x.run, P r → ∃ r' ∈ o, P r') :
    ∃ y ∈ s.runs.set k { x with run := o }, ∃ r ∈ y.run, P r := by
  obtain ⟨y, hy, r, hr, hP⟩ := h
  obtain ⟨i, hi⟩ := List.mem_iff_getElem?.mp hy
  by_cases hik : i = k
  · subst hik
    obtain rfl : x = y := Option.some.inj (hx.symm.trans hi)
    obtain ⟨r', hr', hP'⟩ := hk r hr hP
    refine ⟨{ x with run := o }, ?_, r', hr', hP'⟩
    exact List.mem_iff_getElem?.mpr ⟨i, List.getElem?_set_self (List.getElem?_eq_some_iff.mp hx).1⟩
  · refine ⟨y, List.mem_iff_getElem?.mpr ⟨i, ?_⟩, r, hr, hP⟩
    rw [List.getElem?_set_ne (Ne.symm hik), hi]

/-- A retry time that a scan finds due lies before its watermark, and so does the hand-over. -/
theorem Dated.le_watermark {k : Option Key} {ts : Timestamp} (h : Dated s k ts) {watermark : Time}
    (hrange : -2 ^ 81 ≤ watermark.nanos ∧ watermark.nanos ≤ 2 ^ 81)
    (hbefore : ts.asTime.before watermark = true) :
    ∃ h ∈ s.last k, h.nanos ≤ watermark.nanos := by
  obtain ⟨hin, t, ht, hle⟩ := h
  have hlo := hin.1
  have hhi := hin.2
  have hlt := (Time.before_iff_nanos_lt ⟨by omega, by omega⟩ hrange).mp hbefore
  exact ⟨t, ht, by omega⟩

theorem nodup_records_new {db : DB} (hdb : Filed db) (range : TaskRange) (watermark : Time) :
    (records (.scanning (newTaskIterator db range) watermark [])).Nodup := by
  rw [records, pushedTasks, dueAhead, List.nil_append, ahead_newTaskIterator hdb, List.Nodup,
    List.pairwise_map]
  exact ((pairwise_handedOut hdb range).filter _).imp fun ⟨_, _, hk, hl, hlt⟩ ↦
    recordKey_ne_of_lt hk hl hlt

/-- What a new scan finds due was handed over: a task with a retry time, as no run holds it, not
after that time. -/
theorem Inv.dueHanded_new (h : Inv s) {range : TaskRange} {watermark : Time}
    (hwater : -2 ^ 81 ≤ watermark.nanos ∧ watermark.nanos ≤ 2 ^ 81)
    (hok : ∀ t ∈ handedOut s.db range, retryTask t watermark = true → Ripe s watermark t) :
    DueHanded s (.scanning (newTaskIterator s.db range) watermark []) := by
  intro t ht hdue
  rw [ahead_newTaskIterator h.filed range] at ht
  obtain ⟨hfree, hnone⟩ := hok t ht hdue
  cases hretry : t.lastRetry with
  | none => exact hnone hretry
  | some ts =>
    rcases h.retried t (stored_of_mem_handedOut h.filed ht) ts hretry with
      ⟨y, hy, r, hr, u, hu, heq⟩ | hdated
    · refine absurd ?_ (hfree y hy)
      rw [Redelivering.holds, show y.run = some r from hr, ← heq]
      exact mem_records_of_pushed hu
    · rw [retryTask, hretry] at hdue
      exact hdated.le_watermark hwater hdue

theorem Inv.executeQuery (h : Inv s) {k : ℕ} {x : Redelivering} {c : QueueConfig} {now now' : Time}
    {range : TaskRange} (hat : s.runAt k = some (x, .started, c)) (hrange : InRange now)
    (hclock : s.clock.nanos ≤ now.nanos) (hnow : now.nanos ≤ now'.nanos)
    (hok : ∀ t ∈ handedOut s.db range, retryTask t (c.watermark now) = true →
      Ripe s (c.watermark now) t) :
    Inv { s with
      clock := now'
      runs := s.runs.set k { x with
        run := some (.scanning (newTaskIterator s.db range) (c.watermark now) []) } } := by
  obtain ⟨hx, hr, hc⟩ := runAt_eq_some.mp hat
  have hlo := hrange.1
  have hhi := hrange.2
  have hwater := nanos_watermark c now hlo hhi
  have h1 := c.ackDeadlineSeconds.toInt_lt
  have h2 := c.ackDeadlineSeconds.le_toInt
  refine h.setRun hx rfl h.filed (fun t ht ts hts ↦ ?_) (fun _ _ ↦ rfl)
    (sameDeadlines_rfl (hclock.trans hnow) rfl) (fun r hr ↦ ?_) fun l hl ↦ ?_
  · refine (h.retried t ht ts hts).imp_left fun hrun ↦ exists_run_set hx hrun ?_
    rintro r hr' ⟨u, hu, -⟩
    obtain rfl : .started = r := Option.some.inj (hr.symm.trans hr')
    simp [pushedTasks] at hu
  · obtain rfl := Option.some.inj hr
    refine ⟨by simp [pushedTasks], h.dueHanded_new ⟨by omega, by omega⟩ hok, ⟨c, hc, ?_⟩,
      nodup_records_new h.filed range _⟩
    rw [Waited, hwater]
    dsimp only
    omega
  · simp only [Option.elim_some, records, pushedTasks, dueAhead, List.nil_append,
      ahead_newTaskIterator h.filed range, List.mem_map, List.mem_filter] at hl
    obtain ⟨t, ⟨ht, hdue⟩, rfl⟩ := hl
    exact .inr (hok t ht hdue).1

theorem Inv.quiet (h : Inv s) {k : ℕ} {x : Redelivering} {c : QueueConfig} {now : Time}
    (hat : s.runAt k = some (x, r, c)) (hclock : s.clock.nanos ≤ now.nanos) {o : Option Run}
    (hpushed : pushedTasks r ≠ [] → ∃ r' ∈ o, pushedTasks r' = pushedTasks r)
    (hsub : ∀ r' ∈ o, (records r').Sublist (records r))
    (hinv : ∀ r' ∈ o, RunInv s x.feed r → RunInv s x.feed r') :
    Inv { s with clock := now, runs := s.runs.set k { x with run := o } } := by
  obtain ⟨hx, hr, hc⟩ := runAt_eq_some.mp hat
  have hsame : SameDeadlines s
      { s with clock := now, runs := s.runs.set k { x with run := o } } :=
    sameDeadlines_rfl hclock rfl
  refine h.setRun hx rfl h.filed (fun t ht ts hts ↦ ?_) (fun _ _ ↦ rfl) hsame (fun r' hr' ↦ ?_)
    fun l hl ↦ ?_
  · refine (h.retried t ht ts hts).imp_left fun hrun ↦ exists_run_set hx hrun ?_
    rintro r₁ hr₁ ⟨u, hu, hkey⟩
    obtain rfl : r = r₁ := Option.some.inj (hr.symm.trans hr₁)
    obtain ⟨r', hr', heq⟩ := hpushed (List.ne_nil_of_mem hu)
    exact ⟨r', hr', u, heq ▸ hu, hkey⟩
  · exact (hinv r' hr' (h.runs x (List.mem_of_getElem? hx) r hr)).congr (fun _ _ ↦ rfl) hsame.waited
  · cases o with
    | none => simp at hl
    | some r' =>
      refine .inl ?_
      rw [Redelivering.holds, hr]
      exact (hsub r' rfl).subset hl

section

variable {it it' : TaskIterator} {watermark : Time} {tasks : List Task} {t : Task}

theorem dueAhead_of_next (hnext : it.next = (it', .ok t)) :
    dueAhead (.scanning it watermark tasks) = (if retryTask t watermark then [t] else [])
      ++ dueAhead (.scanning it' watermark tasks) := by
  rw [dueAhead, TaskIterator.ahead_of_next hnext, List.filter_cons]
  split <;> rfl

theorem records_of_skip (hnext : it.next = (it', .ok t)) (hdue : retryTask t watermark = false) :
    records (.scanning it' watermark tasks) = records (.scanning it watermark tasks) := by
  rw [records, records, dueAhead_of_next hnext, if_neg (by simp [hdue])]
  rfl

theorem records_of_next (hnext : it.next = (it', .ok t)) (hdue : retryTask t watermark = true)
    (ts : Option Timestamp) :
    records (.scanning it' watermark (tasks ++ [{ t with lastRetry := ts }]))
      = records (.scanning it watermark tasks) := by
  rw [records, records, dueAhead_of_next hnext, if_pos hdue]
  simp [pushedTasks, dueAhead]
  rfl

theorem recordKey_ne_of_next (hnd : (records (.scanning it watermark tasks)).Nodup)
    (hnext : it.next = (it', .ok t)) (hdue : retryTask t watermark = true) {u : Task}
    (hu : u ∈ tasks ∨ u ∈ it'.ahead ∧ retryTask u watermark = true) :
    recordKey u ≠ recordKey t := by
  rw [records, dueAhead_of_next hnext, if_pos hdue, List.map_append, List.map_append,
    List.nodup_append] at hnd
  obtain ⟨-, hnd, hdisj⟩ := hnd
  intro heq
  rcases hu with hu | hu
  · exact hdisj _ (List.mem_map_of_mem hu) _
      (List.mem_append_left _ (List.mem_map_of_mem List.mem_cons_self)) heq
  · rw [List.nodup_append] at hnd
    exact hnd.2.2 _ (List.mem_map_of_mem List.mem_cons_self) _
      (List.mem_map_of_mem (List.mem_filter.mpr hu)) heq.symm

theorem RunInv.handOver (h : RunInv s feed (.scanning it watermark tasks))
    (hnext : it.next = (it', .ok t)) (hdue : retryTask t watermark = true) {now : Time}
    (hlast : ∀ k, k ≠ recordKey t → s'.last k = s.last k)
    (hdated : Dated s' (recordKey t) (.new now)) (hsame : SameDeadlines s s') :
    RunInv s' feed
      (.scanning it' watermark (tasks ++ [{ t with lastRetry := some (.new now) }])) := by
  refine ⟨fun u hu ↦ ?_, fun u hu hretry ↦ ?_, ?_, ?_⟩
  · rcases List.mem_append.mp hu with hu | hu
    · obtain ⟨ts, hts, hd⟩ := h.pushed u hu
      exact ⟨ts, hts, hd.congr (hlast _ (recordKey_ne_of_next h.nodup hnext hdue (.inl hu)))⟩
    · rw [List.mem_singleton.mp hu]
      exact ⟨.new now, rfl, hdated⟩
  · rw [hlast _ (recordKey_ne_of_next h.nodup hnext hdue (.inr ⟨hu, hretry⟩))]
    exact h.due u (TaskIterator.ahead_of_next hnext ▸ List.mem_cons_of_mem t hu) hretry
  · obtain ⟨c, hc, hw⟩ := h.waited
    exact hsame.waited c hc hw
  · rw [records_of_next hnext hdue]
    exact h.nodup

/-- A task is handed over again. No other run holds its record, and the run itself has it no
further ahead. -/
theorem Inv.handOver (h : Inv s) {k : ℕ} {x : Redelivering} {c : QueueConfig} {pushed now : Time}
    (hat : s.runAt k = some (x, .scanning it watermark tasks, c)) (hrange : InRange now)
    (hclock : s.clock.nanos ≤ pushed.nanos) (hnow : pushed.nanos ≤ now.nanos)
    (hnext : it.next = (it', .ok t)) (hdue : retryTask t watermark = true) :
    Inv { s with
      clock := now
      runs := s.runs.set k { x with run := some (.scanning it' watermark
        (tasks ++ [{ t with lastRetry := some (.new now) }])) }
      handed := ⟨recordKey t, pushed, x.feed, some k⟩ :: s.handed } := by
  obtain ⟨hx, hr, hc⟩ := runAt_eq_some.mp hat
  generalize hs' : ({ s with
    clock := now
    runs := s.runs.set k { x with run := some (.scanning it' watermark
      (tasks ++ [{ t with lastRetry := some (.new now) }])) }
    handed := ⟨recordKey t, pushed, x.feed, some k⟩ :: s.handed } : State) = s'
  have hruns : s'.runs = s.runs.set k { x with run := some (.scanning it' watermark
      (tasks ++ [{ t with lastRetry := some (.new now) }])) } := by
    rw [← hs']
  have hdb : s'.db = s.db := by rw [← hs']
  have hlast := last_of_handed (show s'.handed = _ by rw [← hs'])
  have hother : ∀ l, l ≠ recordKey t → s'.last l = s.last l := fun l hl ↦ by
    rw [hlast, if_neg hl]
  have hsame : SameDeadlines s s' := by
    rw [← hs']
    exact sameDeadlines_rfl (hclock.trans hnow) rfl
  have hdated : Dated s' (recordKey t) (.new now) := by
    refine ⟨by rwa [Timestamp.asTime_new], pushed, ?_, by rwa [Timestamp.asTime_new]⟩
    rw [hlast, if_pos rfl]
    rfl
  refine h.setRun hx hruns (hdb ▸ h.filed) (fun u hu ts hts ↦ ?_) (fun l hl ↦ hother l ?_) hsame
    (fun r hr' ↦ ?_) fun l hl ↦ ?_
  · rw [hruns]
    rw [hdb] at hu
    by_cases heq : recordKey u = recordKey t
    · -- its retry time is stale from now on, until the run writes the new one back
      refine .inl ⟨_, List.mem_iff_getElem?.mpr ⟨k, List.getElem?_set_self
        (List.getElem?_eq_some_iff.mp hx).1⟩, _, rfl, _, List.mem_append_right _
        (List.mem_singleton.mpr rfl), ?_⟩
      exact heq.symm
    · refine (h.retried u hu ts hts).imp (fun hrun ↦ exists_run_set hx hrun ?_) fun hd ↦
        hd.congr (hother _ heq)
      rintro r₁ hr₁ ⟨v, hv, hkey⟩
      obtain rfl := Option.some.inj (hr.symm.trans hr₁)
      exact ⟨_, rfl, v, List.mem_append_left _ hv, hkey⟩
  · -- a record that the run does not hold is not the one handed over
    rintro rfl
    refine hl ?_
    rw [Redelivering.holds, hr]
    exact mem_records_of_due (TaskIterator.ahead_of_next hnext ▸ List.mem_cons_self) hdue
  · obtain rfl := Option.some.inj hr'
    exact (h.runs x (List.mem_of_getElem? hx) _ hr).handOver hnext hdue hother hdated hsame
  · refine .inl ?_
    rw [Option.elim_some, records_of_next hnext hdue] at hl
    rw [Redelivering.holds, hr]
    exact hl

theorem Inv.endScan (h : Inv s) {k : ℕ} {x : Redelivering} {c : QueueConfig} {now : Time}
    (hat : s.runAt k = some (x, .scanning it watermark tasks, c))
    (hclock : s.clock.nanos ≤ now.nanos) :
    Inv { s with clock := now, runs := s.runs.set k { x with run := some (.saving tasks) } } := by
  have hsub : (records (.saving tasks)).Sublist (records (.scanning it watermark tasks)) := by
    rw [records, records]
    exact ((List.Sublist.refl tasks).append (List.nil_sublist _)).map recordKey
  refine h.quiet hat hclock (fun _ ↦ ⟨_, rfl, rfl⟩) (fun r hr ↦ ?_) fun r hr hinv ↦ ?_
  · exact Option.some.inj hr ▸ hsub
  · rw [← Option.some.inj hr]
    exact ⟨hinv.pushed, trivial, hinv.waited.imp fun c hc ↦ ⟨hc.1, trivial⟩,
      hinv.nodup.sublist hsub⟩

theorem Inv.returned (h : Inv s) {k : ℕ} {x : Redelivering} {c : QueueConfig} {now : Time}
    (hat : s.runAt k = some (x, .scanning it watermark [], c))
    (hclock : s.clock.nanos ≤ now.nanos) :
    Inv { s with clock := now, runs := s.runs.set k { x with run := none } } :=
  h.quiet hat hclock (fun hne ↦ absurd rfl hne) (by simp) (by simp)

end

/-- The run writes back what it has pushed, with retry times that are not before the hand-overs. -/
theorem Inv.save (h : Inv s) {k : ℕ} {x : Redelivering} {c : QueueConfig} {tasks : List Task}
    {db : DB} (hat : s.runAt k = some (x, .saving tasks, c))
    (hs : saveAll tasks false s.db = some db) :
    Inv { s with db, runs := s.runs.set k { x with run := none } } := by
  obtain ⟨hx, hr, hc⟩ := runAt_eq_some.mp hat
  have hinv := h.runs x (List.mem_of_getElem? hx) _ hr
  refine h.setRun hx rfl (h.filed.saveAll hs) (fun t ht ts hts ↦ ?_) (fun _ _ ↦ rfl)
    (sameDeadlines_rfl le_rfl rfl) (by simp) (by simp)
  rcases mem_or_kept_of_saveAll hs ht with hmem | ⟨hold, hkeep⟩
  · obtain ⟨ts', hts', hd⟩ := hinv.pushed t hmem
    obtain rfl : ts' = ts := Option.some.inj (hts'.symm.trans hts)
    exact .inr (hd.congr rfl)
  · refine (h.retried t hold ts hts).imp (fun hrun ↦ exists_run_set hx hrun ?_)
      fun hd ↦ hd.congr rfl
    rintro r₁ hr₁ ⟨u, hu, hkey⟩
    obtain rfl := Option.some.inj (hr.symm.trans hr₁)
    exact absurd hkey (hkeep u hu)

theorem Inv.redeliver (h : Inv s) {k : ℕ} {push : PushOutcome} {pushed now : Time}
    (hrange : InRange now) (hok : ∀ y ∈ s.runAt k, WritesBack y.2.1 (.visit push now))
    (hclock : s.clock.nanos ≤ pushed.nanos) (hnow : pushed.nanos ≤ now.nanos) {s₁ : State}
    (hs : s.stepRun k (fun _ ↦ .visit push now) = some s₁) :
    Inv (match (s.runAt k).bind fun (x, r, _) ↦ (handsOver r push).map (x.feed, ·) with
      | some (feed, t) => { s₁ with
          clock := now
          handed := ⟨recordKey t, pushed, feed, some k⟩ :: s.handed }
      | none => { s₁ with clock := now }) := by
  obtain ⟨x, r, c, o, db, hat, hstep, rfl⟩ := stepRun_eq_some hs
  rw [hat, Option.bind_some]
  dsimp only
  have hw := hok _ hat
  obtain ⟨it, watermark, tasks, rfl, rfl, hround⟩ := Run.step_visit hstep
  cases hround with
  | @skip it' t hnext hdue =>
    rw [handsOver_of_not_due hnext hdue]
    have hrecords : records (.scanning it' watermark tasks)
        = records (.scanning it watermark tasks) := records_of_skip hnext hdue
    refine h.quiet hat (hclock.trans hnow) (fun _ ↦ ⟨_, rfl, rfl⟩) (fun r hr ↦ ?_)
      fun r hr hinv ↦ ?_
    · rw [← Option.some.inj hr, hrecords]
    · rw [← Option.some.inj hr]
      refine ⟨hinv.pushed, fun u hu ↦ ?_, hinv.waited, hrecords ▸ hinv.nodup⟩
      exact hinv.due u (TaskIterator.ahead_of_next hnext ▸ List.mem_cons_of_mem t hu)
  | handOver hnext hdue hpush =>
    subst hpush
    rw [handsOver_of_due hnext hdue]
    exact h.handOver hat hrange hclock hnow hnext hdue
  | ended hend =>
    rw [hend.elim handsOver_of_error fun hpush ↦ handsOver_of_ne_ok (by simp [hpush])]
    rcases afterQuery_cases tasks with hsaving | ⟨rfl, hreturned⟩
    · rw [hsaving]
      exact h.endScan hat (hclock.trans hnow)
    · rw [hreturned]
      exact h.returned hat (hclock.trans hnow)
  | failed herr =>
    -- a run that fails has pushed nothing, or its retry times would be lost
    obtain rfl := hw.eq_nil herr
    have hhand : handsOver (.scanning it watermark []) push = none := by
      rcases herr with herr | herr | hpush
      · exact handsOver_of_error herr
      · exact handsOver_of_error herr
      · exact handsOver_of_ne_ok (by simp [hpush])
    rw [hhand]
    exact h.returned hat (hclock.trans hnow)

theorem Inv.step {q : GoString} {e : Event} (h : Inv s) (hok : Respecting s e)
    (hs : Deadline.step q s e = some s') : Inv s' := by
  cases e with
  | arrive tasks si =>
    simp only [Deadline.step] at hs
    split at hs
    · rename_i hnew
      obtain ⟨db, hdb, rfl⟩ := Option.map_eq_some_iff.mp hs
      exact h.arrive hnew hdb
    · simp at hs
  | delete acks => exact Option.some.inj hs ▸ h.delete acks
  | openFeed settings =>
    simp only [Deadline.step] at hs
    split at hs
    · exact Option.some.inj hs ▸ h.openFeed settings
    · simp at hs
  | update j secs =>
    obtain ⟨f, hf, rfl⟩ := Option.map_eq_some_iff.mp hs
    exact h.update hf hok
  | query j kind now =>
    simp only [Deadline.step] at hs
    split at hs
    · rename_i hclock
      obtain ⟨f, hf, hs⟩ := Option.bind_eq_some_iff.mp hs
      split at hs
      · simp at hs
      · obtain ⟨range, -, rfl⟩ := Option.map_eq_some_iff.mp hs
        exact h.setFeed hf hclock rfl
    · simp at hs
  | visit j kind ok now =>
    simp only [Deadline.step] at hs
    split at hs
    · rename_i hclock
      obtain ⟨f, hf, hvisit⟩ := Option.bind_eq_some_iff.mp hs
      obtain ⟨it, hit, rfl⟩ := Option.map_eq_some_iff.mp hvisit
      clear hs hvisit
      split
      · rename_i it' t hnext
        have hfirst : First s (.ok t) := by
          have := hok rfl f hf it hit
          rwa [hnext] at this
        refine h.first hfirst rfl rfl rfl (sameDeadlines_set hclock hf rfl ?_)
        cases kind <;> rfl
      · exact h.setFeed hf hclock rfl
    · simp at hs
  | read j kind =>
    simp only [Deadline.step] at hs
    split at hs
    · rename_i hj
      obtain rfl := Option.some.inj hs
      exact h.read hj
    · simp at hs
  | executeQuery k now now' =>
    simp only [Deadline.step] at hs
    split at hs
    · rename_i hclock
      obtain ⟨s₁, hs₁, rfl⟩ := Option.map_eq_some_iff.mp hs
      obtain ⟨x, r, c, o, db, hat, hstep, rfl⟩ := stepRun_eq_some hs₁
      obtain ⟨range, hq, rfl, rfl, rfl⟩ := Run.step_executeQuery hstep
      exact h.executeQuery hat hok.1 hclock.1 hclock.2 (hok.2 _ hat range hq)
    · simp at hs
  | redeliver k push pushed now =>
    simp only [Deadline.step] at hs
    split at hs
    · rename_i hclock
      obtain ⟨s₁, hs₁, rfl⟩ := Option.map_eq_some_iff.mp hs
      exact h.redeliver hok.1 hok.2 hclock.1 hclock.2 hs₁
    · simp at hs
  | save k ok =>
    have hrun : s.stepRun k (fun _ ↦ .save ok) = some s' := hs
    obtain ⟨x, r, c, o, db, hat, hstep, rfl⟩ := stepRun_eq_some hrun
    obtain ⟨tasks, rfl, ⟨-, hdb, rfl⟩ | ⟨rfl, -, -⟩⟩ := Run.step_save hstep
    · exact h.save hat hdb
    · exact absurd (hok _ hat) (by simp [WritesBack])

end

/-- **Redelivery respects the ack deadline** while the times in the store stand for the hand-overs.
In every run whose steps are such, a task that a delivered reader hands over was handed over before,
and the ack deadline of the feed has passed since the last time. -/
theorem onTime_of_respecting {q : GoString} {start : Time} {es : List Event} {e : Event}
    {s s' : State} {c : QueueConfig} {t : Task} {now : Time}
    (hok : Runs.Meets (step q) Respecting (.init q start) es)
    (hrun : Runs.run (step q) (.init q start) es = some s) (hs : step q s e = some s')
    (he : s.redelivers e = some (c, t, now)) : OnTime s c t now := by
  have hinv : Inv s := Runs.Meets.invariant (P := Inv) (fun _ _ _ h hok hs ↦ h.step hok hs)
    (inv_init q start) hok hrun
  cases e with
  | redeliver k push pushed now' =>
    obtain ⟨⟨x, r, c⟩, hat, he⟩ := Option.bind_eq_some_iff.mp he
    obtain ⟨t, hhand, heq⟩ := Option.map_eq_some_iff.mp he
    obtain ⟨rfl, rfl, rfl⟩ := by simpa using heq
    obtain ⟨hx, hr, hc⟩ := runAt_eq_some.mp hat
    have hrinv := hinv.runs x (List.mem_of_getElem? hx) r hr
    simp only [step] at hs
    split at hs
    · rename_i hclock
      obtain ⟨it, it', watermark, tasks, rfl, hnext, hdue⟩ := handsOver_eq_some hhand
      have hmem : t ∈ it.ahead := TaskIterator.ahead_of_next hnext ▸ List.mem_cons_self
      obtain ⟨h, hh, hle⟩ := hrinv.due t hmem hdue
      obtain ⟨c', hc', hw⟩ := hrinv.waited
      obtain rfl : c = c' := Option.some.inj (hc.symm.trans hc')
      rw [Waited] at hw
      exact ⟨h, hh, by omega⟩
    · simp at hs
  | _ => simp [State.redelivers] at he

/-- A task is handed over after a second, and a scan starts when its deadline has passed. -/
def handedThenScanned : List Event :=
  [.arrive [firstTask] false, .query 0 .fifo (.ofUnix 1 0), .visit 0 .fifo true (.ofUnix 1 0),
    .read 0 .fifo, .executeQuery 0 (.ofUnix 400 0) (.ofUnix 400 0)]

theorem onTime_of_respecting_handedThenScanned : ∃ s c,
    Runs.run (step (lit "q")) (.init (lit "q") (.ofUnix 0 0)) handedThenScanned = some s ∧
      s.redelivers (.redeliver 0 .ok (.ofUnix 401 0) (.ofUnix 401 0))
        = some (c, firstTask, .ofUnix 401 0) ∧ OnTime s c firstTask (.ofUnix 401 0) := by
  have hok : Runs.Meets (step (lit "q")) Respecting (.init (lit "q") (.ofUnix 0 0))
      handedThenScanned := by decide +kernel
  have hrun : (Runs.run (step (lit "q")) (.init (lit "q") (.ofUnix 0 0)) handedThenScanned).map
      (fun s ↦ ((step (lit "q") s (.redeliver 0 .ok (.ofUnix 401 0) (.ofUnix 401 0))).isSome,
        (s.redelivers (.redeliver 0 .ok (.ofUnix 401 0) (.ofUnix 401 0))).map (·.2)))
      = some (true, some (firstTask, .ofUnix 401 0)) := by decide +kernel
  obtain ⟨s, hrun, heq⟩ := Option.map_eq_some_iff.mp hrun
  obtain ⟨hstep, hred⟩ := Prod.mk.inj heq
  obtain ⟨s', hs⟩ := Option.isSome_iff_exists.mp hstep
  obtain ⟨⟨c, y⟩, hred, rfl⟩ := Option.map_eq_some_iff.mp hred
  exact ⟨s, c, hrun, hred, onTime_of_respecting hok hrun hs hred⟩

/-- The first feed of a queue is opened a day after a task was pushed, and the delivered reader is
the first to look. -/
def scannedFirst : List Event :=
  [.arrive [firstTask] false, .read 0 .fifo,
    .executeQuery 0 (.ofUnix 86400 0) (.ofUnix 86400 0)]

/-- It hands over a task that was never handed over: the checkpoint of a new queue is past every
index, and the task was created long ago. -/
theorem not_onTime_scannedFirst : ∃ s s' c,
    Runs.run (step (lit "q")) (.init (lit "q") (.ofUnix 86400 0)) scannedFirst = some s ∧
      step (lit "q") s (.redeliver 0 .ok (.ofUnix 86401 0) (.ofUnix 86401 0)) = some s' ∧
      s.redelivers (.redeliver 0 .ok (.ofUnix 86401 0) (.ofUnix 86401 0))
        = some (c, firstTask, .ofUnix 86401 0) ∧
      s.handed = [] ∧ ¬OnTime s c firstTask (.ofUnix 86401 0) := by
  have hrun : (Runs.run (step (lit "q")) (.init (lit "q") (.ofUnix 86400 0)) scannedFirst).map
      (fun s ↦ ((step (lit "q") s (.redeliver 0 .ok (.ofUnix 86401 0) (.ofUnix 86401 0))).isSome,
        (s.redelivers (.redeliver 0 .ok (.ofUnix 86401 0) (.ofUnix 86401 0))).map (·.2),
        s.handed.isEmpty)) = some (true, some (firstTask, .ofUnix 86401 0), true) := by
    decide +kernel
  obtain ⟨s, hrun, heq⟩ := Option.map_eq_some_iff.mp hrun
  obtain ⟨hstep, heq⟩ := Prod.mk.inj heq
  obtain ⟨hred, hempty⟩ := Prod.mk.inj heq
  have hhanded := List.isEmpty_iff.mp hempty
  obtain ⟨s', hs⟩ := Option.isSome_iff_exists.mp hstep
  obtain ⟨⟨c, y⟩, hred, rfl⟩ := Option.map_eq_some_iff.mp hred
  refine ⟨s, s', c, hrun, hs, hred, hhanded, ?_⟩
  rintro ⟨h, hh, -⟩
  rw [State.last, hhanded] at hh
  simp at hh

end Z4.Deadline
