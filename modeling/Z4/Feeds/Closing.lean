import Z4.Feeds.Checkpoint
import Z4.Feeds.Deadline
import Z4.Foundations.Channel

/-!
# Closing a feed

A feed hands tasks to its consumers through a channel. The goroutine of `startFeed` serves the four
readers in turn and closes the channel when it returns, which it does once the feed's context is
cancelled. The two redelivery readers push from goroutines of their own, which nobody waits for.

## The select of push

`Feed.push` waits for the context or for room in the channel. Both cases are ready on a feed that
was closed, the second because a send on a closed channel does not wait, and either may be taken.
So a redelivery run that still has a task to push when `startFeed` returns can bring the process
down. `Drained` asks that there is none; from then on no run reaches `push`, and no run is started.

Anything may happen to the store in the meantime.
-/

namespace Z4.Closing

open KeyValue Redelivery Channel Runs
open Deadline (Kind dueAhead dueAhead_of_next)

/-! ## The feed -/

/-- A reader of the feed. -/
inductive ReaderName where
  | delivered (k : Kind)
  | undelivered (k : Kind)

/-- `Readers`, in its order. -/
def readers : List ReaderName :=
  [.delivered .fifo, .delivered .sched, .undelivered .fifo, .undelivered .sched]

/-- Where the goroutine of `startFeed` stands. -/
inductive Loop where
  /-- Before the `select` of its loop. -/
  | top
  /-- In `pullAndPush`, with these readers still to be served. -/
  | serving (rest : List ReaderName)
  /-- In the `Read` of an undelivered reader. -/
  | reading (k : Kind) (it : TaskIterator) (rest : List ReaderName)
  | returned

structure State where
  db : DB
  settings : QueueConfig
  delivered : Kind → Reader
  feed : Chan Task := { capacity := Checkpoint.feedSize }
  /-- The context is cancelled. -/
  cancelled : Bool := false
  loop : Loop := .top
  /-- A task was sent on the closed channel. -/
  panicked : Bool := false

/-- A new feed. -/
def State.init (db : DB) (settings : QueueConfig) : State where
  db := db
  settings := settings
  delivered
    | .fifo => fifoReader
    | .sched => schedReader

/-- The cases of the `select` in `push`. -/
inductive Case where
  | done
  | send
deriving DecidableEq

/-- What a step of a redelivery run does. -/
inductive RunAction where
  | executeQuery (now now' : Time)
  | visit (c : Case) (now : Time)
  | save (ok : Bool)

inductive Event where
  /-- Whatever else is written to the store. -/
  | write (db : DB)
  /-- `UpdateQueue`. -/
  | update (ackDeadlineSeconds : Int32)
  /-- A step of `startFeed`, with the case that `push` takes if it is called. -/
  | loop (c : Case) (now now' : Time)
  /-- A step of the `j`-th run of a redelivery reader. -/
  | run (k : Kind) (j : ℕ) (e : RunAction)
  /-- A consumer receives. -/
  | receive
  /-- `Feed.Close` cancels the context. -/
  | close

/-! ## The steps -/

/-- What a call of `push` comes to. -/
inductive Pushed where
  | returned (s : State) (o : PushOutcome)
  | panicked

/-- `Feed.push` with the given case of its `select`; `none` where that case is not ready. -/
def push (s : State) (t : Task) : Case → Option Pushed
  | .done => if s.cancelled then some (.returned s .eof) else none
  | .send =>
    match s.feed.send t with
    | .queued feed => some (.returned { s with feed } .ok)
    | .blocked => none
    | .panicked => some .panicked

/-- `push`, and what its caller does with the outcome. -/
def pushThen (s : State) (t : Task) (c : Case) (next : State → PushOutcome → Option State) :
    Option State :=
  match push s t c with
  | none => none
  | some .panicked => some { s with panicked := true }
  | some (.returned s o) => next s o

/-- One step of `startFeed`. -/
def loopStep (s : State) (c : Case) (now now' : Time) : Option State :=
  match s.loop with
  | .top =>
    if s.cancelled then s.feed.close.map fun feed ↦ { s with feed, loop := .returned }
    else some { s with loop := .serving readers }
  | .serving [] => some { s with loop := .top }
  | .serving (.delivered k :: rest) =>
    let d := s.delivered k
    if d.ready now then
      some { s with
        delivered := Function.update s.delivered k
          { d with lastRun := now', active := true, runs := d.runs ++ [.started] }
        loop := .serving rest }
    else some { s with loop := .serving rest }
  | .serving (.undelivered k :: rest) =>
    (k.undelivered s.settings now).map fun query ↦
      { s with loop := .reading k (newTaskIterator s.db query) rest }
  | .reading k it rest =>
    match it.next with
    | (_, .error .eof) => some { s with loop := .serving rest }
    -- the error ends `pullAndPush`
    | (_, .error _) => some { s with loop := .top }
    | (it, .ok t) => pushThen s t c fun s o ↦
      if o = .ok then
        some { s with settings := k.checkpoint s.settings t, loop := .reading k it rest }
      else some { s with loop := .serving rest }
  | .returned => none

/-- The task a run pushes in its next round. -/
def due : Run → Option Task
  | .scanning it watermark _ =>
    match it.next with
    | (_, .ok t) => if retryTask t watermark then some t else none
    | (_, .error _) => none
  | _ => none

/-- The `j`-th run of a reader takes a step. -/
def advance (s : State) (k : Kind) (j : ℕ) (r : Run) (e : RunEvent) : Option State :=
  (r.step (s.delivered k).qf s.db e).map fun o ↦
    { s with db := o.2, delivered := Function.update s.delivered k ((s.delivered k).advance j o.1) }

def runStep (s : State) (k : Kind) (j : ℕ) (r : Run) : RunAction → Option State
  | .executeQuery now now' => advance s k j r (.executeQuery s.settings now now')
  | .visit c now =>
    match due r with
    | none => advance s k j r (.visit .ok now)
    | some t => pushThen s t c fun s o ↦ advance s k j r (.visit o now)
  | .save ok => advance s k j r (.save ok)

/-- A panic ends the process. -/
def step (s : State) (e : Event) : Option State :=
  if s.panicked then none
  else match e with
    | .write db => some { s with db }
    | .update secs => some { s with settings := updateQueue s.settings secs }
    | .loop c now now' => loopStep s c now now'
    | .run k j e =>
      match (s.delivered k).runs[j]? with
      | none => none
      | some r => runStep s k j r e
    | .receive => s.feed.receive.map fun o ↦ { s with feed := o.2 }
    | .close => some { s with cancelled := true }

/-! ## Drained runs -/

/-- The run has no task left to push. -/
def Quiet : Run → Prop
  | .started => False
  | r => dueAhead r = []

instance : (r : Run) → Decidable (Quiet r)
  | .started => inferInstanceAs (Decidable False)
  | .scanning _ _ _ => inferInstanceAs (Decidable (_ = _))
  | .saving _ => inferInstanceAs (Decidable (_ = _))

/-- No run under way has a task left to push. -/
def AllQuiet (s : State) : Prop := ∀ k, ∀ r ∈ (s.delivered k).runs, Quiet r

instance (s : State) : Decidable (AllQuiet s) :=
  decidable_of_iff ((∀ r ∈ (s.delivered .fifo).runs, Quiet r) ∧
    ∀ r ∈ (s.delivered .sched).runs, Quiet r)
    ⟨fun h k ↦ by cases k with | fifo => exact h.1 | sched => exact h.2,
      fun h ↦ ⟨h .fifo, h .sched⟩⟩

/-- `startFeed` returns, and closes the channel, only when no run has a task left to push. -/
def Drained (s : State) : Event → Prop
  | .loop _ _ _ =>
    match s.loop with
    | .top => s.cancelled = true → AllQuiet s
    | _ => True
  | _ => True

instance (s : State) : (e : Event) → Decidable (Drained s e)
  | .loop _ _ _ =>
    match hl : s.loop with
    | .top => decidable_of_iff (s.cancelled = true → AllQuiet s) (by simp [Drained, hl])
    | .serving _ | .reading _ _ _ | .returned => .isTrue (by simp [Drained, hl])
  | .write _ | .update _ | .run _ _ _ | .receive | .close => .isTrue trivial

section

variable {r r' : Run} {s s' : State} {t : Task} {c : Case} {k : Kind} {j : ℕ}

theorem mem_dueAhead_of_due (h : due r = some t) : t ∈ dueAhead r := by
  cases r with
  | started => simp [due] at h
  | saving tasks => simp [due] at h
  | scanning it watermark tasks =>
    rw [due] at h
    split at h
    · rename_i it' u hnext
      split at h
      · rename_i hdue
        obtain rfl := Option.some.inj h
        rw [dueAhead_of_next hnext, if_pos hdue]
        exact List.mem_append_left _ List.mem_cons_self
      · simp at h
    · simp at h

theorem Quiet.dueAhead_eq_nil (h : Quiet r) : dueAhead r = [] := by
  cases r with
  | started => exact h.elim
  | scanning it watermark tasks => exact h
  | saving tasks => exact h

theorem Quiet.due_eq_none (h : Quiet r) : due r = none := by
  cases hd : due r with
  | none => rfl
  | some t =>
    have hmem := mem_dueAhead_of_due hd
    rw [h.dueAhead_eq_nil] at hmem
    exact absurd hmem List.not_mem_nil

/-- A run that is quiet stays quiet. -/
theorem Quiet.step {qf : QueueConfig → Time → Option TaskRange} {db db' : DB} {e : RunEvent}
    (h : Quiet r) (hs : r.step qf db e = some (.running r', db')) : Quiet r' := by
  cases e with
  | executeQuery settings now now' =>
    obtain ⟨query, -, rfl, -⟩ := Run.step_executeQuery hs
    exact h.elim
  | visit push now =>
    obtain ⟨it, watermark, tasks, rfl, -, hround⟩ := Run.step_visit hs
    generalize ho : RunResult.running r' = o at hround
    cases hround with
    | skip hnext hdue =>
      obtain rfl := RunResult.running.inj ho
      have hahead := h.dueAhead_eq_nil
      rw [dueAhead_of_next hnext, if_neg (by simp [hdue])] at hahead
      exact hahead
    | handOver hnext hdue hpush =>
      have hahead := h.dueAhead_eq_nil
      rw [dueAhead_of_next hnext, if_pos hdue] at hahead
      simp at hahead
    | ended hend =>
      rcases afterQuery_cases tasks with hsaving | ⟨-, hreturned⟩
      · obtain rfl := RunResult.running.inj (ho.trans hsaving)
        rfl
      · simp [hreturned] at ho
    | failed herr => simp at ho
  | save ok =>
    obtain ⟨tasks, -, ⟨-, -, ho⟩ | ⟨-, -, ho⟩⟩ := Run.step_save hs
    · simp at ho
    · simp at ho

/-! ## What the steps do to the channel -/

theorem pushThen_eq_some {next : State → PushOutcome → Option State}
    (hopen : s.feed.closed = false) (h : pushThen s t c next = some s') :
    ∃ feed o, feed.closed = false ∧ next { s with feed } o = some s' := by
  rw [pushThen] at h
  cases c with
  | done =>
    simp only [push] at h
    split at h
    · simp at h
    · rename_i hc
      split at hc <;> simp at hc
    · rename_i s₁ o hc
      split at hc
      · obtain ⟨rfl, rfl⟩ := Pushed.returned.inj (Option.some.inj hc)
        exact ⟨s.feed, .eof, hopen, h⟩
      · simp at hc
  | send =>
    cases hsend : s.feed.send t with
    | queued feed =>
      simp only [push, hsend] at h
      exact ⟨feed, .ok, Chan.closed_of_send hsend, h⟩
    | blocked => simp [push, hsend] at h
    | panicked => exact absurd hsend (Chan.send_ne_panicked hopen)

theorem advance_eq_some {e : RunEvent} (h : advance s k j r e = some s') :
    ∃ o, r.step (s.delivered k).qf s.db e = some o ∧
      s' = { s with
        db := o.2
        delivered := Function.update s.delivered k ((s.delivered k).advance j o.1) } := by
  obtain ⟨o, ho, rfl⟩ := Option.map_eq_some_iff.mp h
  exact ⟨o, ho, rfl⟩

theorem loopStep_open {now now' : Time} (hopen : s.feed.closed = false)
    (hstay : s.loop = .top → s.cancelled = false) (h : loopStep s c now now' = some s') :
    s'.feed.closed = false ∧ s'.panicked = s.panicked := by
  rw [loopStep] at h
  cases hl : s.loop with
  | top =>
    simp only [hl, hstay hl, Bool.false_eq_true, if_false] at h
    obtain rfl := Option.some.inj h
    exact ⟨hopen, rfl⟩
  | returned => simp [hl] at h
  | serving rest =>
    cases rest with
    | nil =>
      simp only [hl] at h
      obtain rfl := Option.some.inj h
      exact ⟨hopen, rfl⟩
    | cons x rest =>
      cases x with
      | delivered k =>
        simp only [hl] at h
        split at h
        · obtain rfl := Option.some.inj h
          exact ⟨hopen, rfl⟩
        · obtain rfl := Option.some.inj h
          exact ⟨hopen, rfl⟩
      | undelivered k =>
        simp only [hl] at h
        obtain ⟨query, -, rfl⟩ := Option.map_eq_some_iff.mp h
        exact ⟨hopen, rfl⟩
  | reading k it rest =>
    simp only [hl] at h
    split at h
    · obtain rfl := Option.some.inj h
      exact ⟨hopen, rfl⟩
    · obtain rfl := Option.some.inj h
      exact ⟨hopen, rfl⟩
    · obtain ⟨feed, o, hfeed, h⟩ := pushThen_eq_some hopen h
      split at h
      · obtain rfl := Option.some.inj h
        exact ⟨hfeed, rfl⟩
      · obtain rfl := Option.some.inj h
        exact ⟨hfeed, rfl⟩

theorem runStep_open {e : RunAction} (hopen : s.feed.closed = false)
    (h : runStep s k j r e = some s') :
    s'.feed.closed = false ∧ s'.panicked = s.panicked := by
  cases e with
  | executeQuery now now' =>
    obtain ⟨o, -, rfl⟩ := advance_eq_some h
    exact ⟨hopen, rfl⟩
  | save ok =>
    obtain ⟨o, -, rfl⟩ := advance_eq_some h
    exact ⟨hopen, rfl⟩
  | visit c now =>
    rw [runStep] at h
    cases hd : due r with
    | none =>
      rw [hd] at h
      obtain ⟨o, -, rfl⟩ := advance_eq_some h
      exact ⟨hopen, rfl⟩
    | some t =>
      rw [hd] at h
      obtain ⟨feed, o, hfeed, h⟩ := pushThen_eq_some hopen h
      obtain ⟨o', -, rfl⟩ := advance_eq_some h
      exact ⟨hfeed, rfl⟩

theorem runStep_quiet {e : RunAction} (hquiet : AllQuiet s) (hr : (s.delivered k).runs[j]? = some r)
    (h : runStep s k j r e = some s') :
    s'.feed = s.feed ∧ s'.panicked = s.panicked ∧ s'.loop = s.loop ∧ AllQuiet s' := by
  have hrq : Quiet r := hquiet k r (List.mem_of_getElem? hr)
  have hadvance : ∀ {e : RunEvent}, advance s k j r e = some s' →
      s'.feed = s.feed ∧ s'.panicked = s.panicked ∧ s'.loop = s.loop ∧ AllQuiet s' := by
    intro e h
    obtain ⟨⟨o, db'⟩, hs, rfl⟩ := advance_eq_some h
    refine ⟨rfl, rfl, rfl, fun k' u hu ↦ ?_⟩
    by_cases hk : k' = k
    · subst hk
      simp only [Function.update_self] at hu
      cases o with
      | running r' =>
        rcases List.mem_or_eq_of_mem_set hu with hu | rfl
        · exact hquiet k' u hu
        · exact hrq.step hs
      | returned lowered => exact hquiet k' u (List.mem_of_mem_eraseIdx hu)
    · simp only [Function.update_of_ne hk] at hu
      exact hquiet k' u hu
  cases e with
  | executeQuery now now' => exact hadvance h
  | save ok => exact hadvance h
  | visit c now =>
    rw [runStep, hrq.due_eq_none] at h
    exact hadvance h

/-! ## Runs of a feed -/

/-- Nothing was sent on the closed channel, and once it is closed nothing is left that could. -/
structure Inv (s : State) : Prop where
  panicked : s.panicked = false
  closed : s.feed.closed = true → s.loop = .returned ∧ AllQuiet s

theorem Inv.of_open (hp : s.panicked = false) (hopen : s.feed.closed = false) : Inv s :=
  ⟨hp, fun hc ↦ absurd hc (by simp [hopen])⟩

theorem Inv.loop {now now' : Time} (h : Inv s) (hok : Drained s (.loop c now now'))
    (hs : loopStep s c now now' = some s') : Inv s' := by
  have hopen : s.feed.closed = false := by
    by_contra hc
    obtain ⟨hl, -⟩ := h.closed (by simpa using hc)
    simp [loopStep, hl] at hs
  by_cases hend : s.loop = .top ∧ s.cancelled = true
  · -- the loop ends here, with every run quiet
    obtain ⟨hl, hcancel⟩ := hend
    have hquiet : AllQuiet s := by
      simp only [Drained, hl] at hok
      exact hok hcancel
    simp only [loopStep, hl, hcancel, if_true] at hs
    obtain ⟨feed, -, rfl⟩ := Option.map_eq_some_iff.mp hs
    exact ⟨h.panicked, fun _ ↦ ⟨rfl, hquiet⟩⟩
  · have hstay : s.loop = .top → s.cancelled = false := fun hl ↦ by simpa [hl] using hend
    obtain ⟨hopen', hp⟩ := loopStep_open hopen hstay hs
    exact .of_open (hp.trans h.panicked) hopen'

theorem Inv.run {e : RunAction} (h : Inv s) (hr : (s.delivered k).runs[j]? = some r)
    (hs : runStep s k j r e = some s') : Inv s' := by
  cases hc : s.feed.closed with
  | false =>
    obtain ⟨hopen, hp⟩ := runStep_open hc hs
    exact .of_open (hp.trans h.panicked) hopen
  | true =>
    obtain ⟨hl, hquiet⟩ := h.closed hc
    obtain ⟨-, hp, hl', hquiet'⟩ := runStep_quiet hquiet hr hs
    exact ⟨hp.trans h.panicked, fun _ ↦ ⟨hl'.trans hl, hquiet'⟩⟩

theorem Inv.step {e : Event} (h : Inv s) (hok : Drained s e) (hs : step s e = some s') :
    Inv s' := by
  rw [Closing.step.eq_def, h.panicked, if_neg Bool.false_ne_true] at hs
  cases e with
  | write db =>
    obtain rfl := Option.some.inj hs
    exact ⟨rfl, h.closed⟩
  | update secs =>
    obtain rfl := Option.some.inj hs
    exact ⟨rfl, h.closed⟩
  | loop c now now' => exact h.loop hok hs
  | run k j e =>
    dsimp only at hs
    split at hs
    · simp at hs
    · rename_i r hr
      exact h.run hr hs
  | receive =>
    obtain ⟨o, ho, rfl⟩ := Option.map_eq_some_iff.mp hs
    exact ⟨rfl, fun hc ↦ h.closed ((Chan.closed_of_receive ho).symm.trans hc)⟩
  | close =>
    obtain rfl := Option.some.inj hs
    exact ⟨rfl, h.closed⟩

/-- **When nothing is sent on a closed channel.** In every run in which `startFeed` returns only
when no redelivery run has a task left to push, no push takes the send case on the closed
channel. -/
theorem not_panicked_of_drained {db : DB} {settings : QueueConfig} {es : List Event}
    (hok : Meets Closing.step Drained (.init db settings) es)
    (hrun : Runs.run Closing.step (.init db settings) es = some s) : s.panicked = false := by
  have h0 : Inv (.init db settings) := .of_open rfl rfl
  exact (Meets.invariant (fun _ _ _ h hok hs ↦ h.step hok hs) h0 hok hrun).panicked

end

/-- A store with one unscheduled task, made at the epoch. -/
def oneTask : DB := (∅ : DB).insert (getFifoTaskKey (lit "q") (.new .zero 1)) (.task firstTask)

/-- The day after, when its ack deadline has passed. -/
def dayAfter : Time := .ofUnix 86400 0

/-- A step of `startFeed` that takes the given case if it pushes. -/
def turn (c : Case) : Event := .loop c dayAfter dayAfter

/-- The redelivery run pushes the task and is at the end of its scan when the feed is closed; only
its write-back is left when `startFeed` returns. -/
def drainedRun : List Event :=
  [turn .send, turn .send, .run .fifo 0 (.executeQuery dayAfter dayAfter),
    .run .fifo 0 (.visit .send dayAfter), .receive, .run .fifo 0 (.visit .send dayAfter),
    turn .send, .run .sched 0 (.executeQuery dayAfter dayAfter),
    .run .sched 0 (.visit .send dayAfter), .close, turn .send, turn .done, turn .send, turn .send,
    turn .send, turn .send, .run .fifo 0 (.save true)]

theorem not_panicked_drainedRun :
    ∃ s, Runs.run step (.init oneTask (defaultConfig (lit "q"))) drainedRun = some s ∧
      s.feed.closed = true ∧ s.panicked = false := by
  have hok : Meets step Drained (.init oneTask (defaultConfig (lit "q"))) drainedRun := by
    decide +kernel
  have hclosed : (Runs.run step (.init oneTask (defaultConfig (lit "q"))) drainedRun).map
      (·.feed.closed) = some true := by decide +kernel
  obtain ⟨s, hrun, hs⟩ := Option.map_eq_some_iff.mp hclosed
  exact ⟨s, hrun, hs, not_panicked_of_drained hok hrun⟩

/-- The feed is closed while the redelivery run has the task to push. `startFeed` returns, and the
run takes the send case. -/
def lateRun : List Event :=
  [turn .send, turn .send, .run .fifo 0 (.executeQuery dayAfter dayAfter), .close, turn .send,
    turn .send, turn .done, turn .send, turn .send, turn .send, turn .send,
    .run .fifo 0 (.visit .send dayAfter)]

theorem panicked_lateRun :
    ∃ s, Runs.run step (.init oneTask (defaultConfig (lit "q"))) lateRun = some s ∧
      s.feed.closed = true ∧ s.panicked = true := by
  have h : (Runs.run step (.init oneTask (defaultConfig (lit "q"))) lateRun).map
      (fun s ↦ (s.feed.closed, s.panicked)) = some (true, true) := by decide +kernel
  obtain ⟨s, hrun, hs⟩ := Option.map_eq_some_iff.mp h
  exact ⟨s, hrun, Prod.mk.inj hs⟩

end Z4.Closing
