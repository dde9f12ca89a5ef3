import Z4.Feeds.Closing
import Z4.Foundations.Draining

/-!
# A closed feed comes to an end

`Feed.Close` cancels the feed's context and waits for nothing. What is left are the goroutine of
`startFeed` and the redelivery runs, which may be anywhere in their code. From then on a push never
waits: the case of the context is ready even when no consumer receives and the channel is full. So
every one of them returns after finitely many steps of its own, whatever else goes on.

## The measure

A run scans the store as it is when the query is executed, and other runs may have written to it by
then, so the length of a scan is not bounded in advance. The number of queries that will still be
executed is. The loop serves the rest of its pass before it looks at the context again, and each
reader left in it executes at most one query, or starts one run that does. The measure is this
number first, and then the rounds left in the scans under way.

The end may also be a panic, of a run that sends on the channel `startFeed` has closed.
-/

namespace Z4.Shutdown

open KeyValue Redelivery Channel Runs Draining Closing
open Deadline (Kind)

/-! ## The goroutines of a feed -/

/-- A step of one of the feed's own goroutines. -/
def IsWork : Event → Prop
  | .loop _ _ _ | .run _ _ _ => True
  | .write _ | .update _ | .receive | .close => False

/-- A step of anyone else. What is written to the store keeps its records in place. -/
def Meantime : Event → Prop
  | .write db => Filed db
  | .update _ | .receive | .close => True
  | .loop _ _ _ | .run _ _ _ => False

/-- All goroutines of the feed have returned, or the process has ended. -/
def Ended (s : State) : Prop :=
  s.panicked = true ∨ s.loop = .returned ∧ ∀ k, (s.delivered k).runs = []

/-! ## What a step does -/

/-- A step of `startFeed` on an open channel. -/
inductive Turn (s : State) : State → Prop
  | returns {feed : Chan Task} (hl : s.loop = .top) (hc : s.cancelled = true) :
      Turn s { s with feed, loop := .returned }
  | begins (hl : s.loop = .top) (hc : s.cancelled = false) :
      Turn s { s with loop := .serving readers }
  | passes (hl : s.loop = .serving []) : Turn s { s with loop := .top }
  | starts {k : Kind} {rest : List ReaderName} {now : Time}
      (hl : s.loop = .serving (.delivered k :: rest)) :
      Turn s { s with
        delivered := Function.update s.delivered k { s.delivered k with
          lastRun := now, active := true, runs := (s.delivered k).runs ++ [.started] }
        loop := .serving rest }
  | skips {x : ReaderName} {rest : List ReaderName} (hl : s.loop = .serving (x :: rest)) :
      Turn s { s with loop := .serving rest }
  | queries {k : Kind} {rest : List ReaderName} {query : TaskRange}
      (hl : s.loop = .serving (.undelivered k :: rest)) :
      Turn s { s with loop := .reading k (newTaskIterator s.db query) rest }
  | stops {k : Kind} {it : TaskIterator} {rest : List ReaderName} {feed : Chan Task}
      (hl : s.loop = .reading k it rest) (hopen : feed.closed = false) :
      Turn s { s with feed, loop := .serving rest }
  | fails {k : Kind} {it : TaskIterator} {rest : List ReaderName}
      (hl : s.loop = .reading k it rest) : Turn s { s with loop := .top }
  | pushes {k : Kind} {it it' : TaskIterator} {rest : List ReaderName} {t : Task}
      {feed : Chan Task} (hl : s.loop = .reading k it rest) (hnext : it.next = (it', .ok t))
      (hopen : feed.closed = false) :
      Turn s { s with
        feed
        settings := k.checkpoint s.settings t
        loop := .reading k it' rest }

section

variable {s s' : State} {k : Kind} {j : ℕ} {r : Run} {c : Case} {now now' : Time}

theorem turn_of_loopStep (hopen : s.feed.closed = false) (h : loopStep s c now now' = some s') :
    Turn s s' := by
  rw [loopStep] at h
  split at h
  next hl =>
    split at h
    next hc =>
      obtain ⟨feed, -, rfl⟩ := Option.map_eq_some_iff.mp h
      exact .returns hl hc
    next hc =>
      obtain rfl := Option.some.inj h
      exact .begins hl (by simpa using hc)
  next hl =>
    obtain rfl := Option.some.inj h
    exact .passes hl
  next k rest hl =>
    dsimp only at h
    split at h
    · obtain rfl := Option.some.inj h
      exact .starts hl
    · obtain rfl := Option.some.inj h
      exact .skips hl
  next k rest hl =>
    obtain ⟨query, -, rfl⟩ := Option.map_eq_some_iff.mp h
    exact .queries hl
  next k it rest hl =>
    split at h
    · obtain rfl := Option.some.inj h
      exact .stops hl hopen
    · obtain rfl := Option.some.inj h
      exact .fails hl
    · rename_i it' t hnext
      obtain ⟨feed, o, hfeed, h⟩ := pushThen_eq_some hopen h
      split at h
      · obtain rfl := Option.some.inj h
        exact .pushes hl hnext hfeed
      · obtain rfl := Option.some.inj h
        exact .stops hl hfeed
  next => simp at h

/-- The case of the context is ready on a closed feed, and the push returns `io.EOF`. -/
theorem pushThen_done (hcancel : s.cancelled = true) (t : Task)
    (next : State → PushOutcome → Option State) : pushThen s t .done next = next s .eof := by
  simp [pushThen, push, hcancel]

/-- At most one task was sent. -/
def Pushes (feed feed' : Chan Task) : Prop := feed' = feed ∨ ∃ t, feed.send t = .queued feed'

theorem Pushes.closed_eq {feed feed' : Chan Task} (h : Pushes feed feed') :
    feed'.closed = feed.closed := by
  rcases h with rfl | ⟨t, hsend⟩
  · rfl
  · have hopen : feed.closed = false := by
      cases hc : feed.closed with
      | false => rfl
      | true => simp [Chan.send, hc] at hsend
    rw [Chan.closed_of_send hsend, hopen]

theorem pushThen_cases {t : Task} {next : State → PushOutcome → Option State}
    (h : pushThen s t c next = some s') :
    s' = { s with panicked := true } ∨
      ∃ feed o, Pushes s.feed feed ∧ next { s with feed } o = some s' := by
  cases c with
  | done =>
    by_cases hc : s.cancelled = true
    · rw [pushThen_done hc] at h
      exact .inr ⟨s.feed, .eof, .inl rfl, h⟩
    · simp [pushThen, push, hc] at h
  | send =>
    cases hsend : s.feed.send t with
    | queued feed =>
      simp only [pushThen, push, hsend] at h
      exact .inr ⟨feed, .ok, .inr ⟨t, hsend⟩, h⟩
    | blocked => simp [pushThen, push, hsend] at h
    | panicked =>
      simp only [pushThen, push, hsend] at h
      exact .inl (Option.some.inj h).symm

theorem runStep_cases {e : RunAction} (h : runStep s k j r e = some s') :
    s' = { s with panicked := true } ∨
      ∃ feed e o, Pushes s.feed feed ∧ r.step (s.delivered k).qf s.db e = some o ∧
        s' = { s with
          feed
          db := o.2
          delivered := Function.update s.delivered k ((s.delivered k).advance j o.1) } := by
  cases e with
  | executeQuery now now' =>
    obtain ⟨o, ho, rfl⟩ := advance_eq_some h
    exact .inr ⟨s.feed, _, o, .inl rfl, ho, rfl⟩
  | save ok =>
    obtain ⟨o, ho, rfl⟩ := advance_eq_some h
    exact .inr ⟨s.feed, _, o, .inl rfl, ho, rfl⟩
  | visit c now =>
    rw [runStep] at h
    split at h
    · obtain ⟨o, ho, rfl⟩ := advance_eq_some h
      exact .inr ⟨s.feed, _, o, .inl rfl, ho, rfl⟩
    · obtain rfl | ⟨feed, out, hfeed, h⟩ := pushThen_cases h
      · exact .inl rfl
      · obtain ⟨o, ho, rfl⟩ := advance_eq_some h
        exact .inr ⟨feed, _, o, hfeed, ho, rfl⟩

/-! ## What holds in every state -/

/-- The text of an id. -/
def Parses (id : GoString) : Prop := (mustParseString id).isSome

/-- The store holds records of tasks only, and the checkpoints, present and to come, can be
parsed. -/
structure Inv (s : State) : Prop where
  filed : Filed s.db
  queued : Parses s.settings.lastDeliveredQueuedTask
  scheduled : Parses s.settings.lastDeliveredScheduledTask
  qf : ∀ k, (s.delivered k).qf = k.delivered
  channel : s.loop ≠ .returned → s.feed.closed = false
  ahead : ∀ k it rest, s.loop = .reading k it rest → ∀ t ∈ it.ahead, Parses t.id

theorem inv_init {q : GoString} {db : DB} {settings : QueueConfig} (hdb : Filed db)
    (hc : settings.WellFormed q) : Inv (.init db settings) where
  filed := hdb
  queued := by
    obtain ⟨id, hid⟩ := hc.queued
    rw [Parses, State.init, hid, mustParseString_string]
    rfl
  scheduled := by
    obtain ⟨id, hid⟩ := hc.scheduled
    rw [Parses, State.init, hid, mustParseString_string]
    rfl
  qf k := by cases k <;> rfl
  channel _ := rfl
  ahead k it rest hl := by simp [State.init] at hl

theorem parses_of_stored {db : DB} {t : Task} (h : Stored db t) : Parses t.id := by
  obtain ⟨key, hkey, -⟩ := h
  rw [Parses]
  cases hid : mustParseString t.id with
  | none => simp [recordKey, hid] at hkey
  | some id => rfl

theorem Inv.frame (h : Inv s) (hdb : Filed s'.db) (hset : s'.settings = s.settings)
    (hqf : ∀ k, (s'.delivered k).qf = (s.delivered k).qf)
    (hchan : s'.loop ≠ .returned → s'.feed.closed = false)
    (hahead : ∀ k it rest, s'.loop = .reading k it rest → ∀ t ∈ it.ahead, Parses t.id) :
    Inv s' where
  filed := hdb
  queued := hset ▸ h.queued
  scheduled := hset ▸ h.scheduled
  qf k := (hqf k).trans (h.qf k)
  channel := hchan
  ahead := hahead

theorem Inv.turn (h : Inv s) (hturn : Turn s s') : Inv s' := by
  cases hturn with
  | returns hl hc => exact h.frame h.filed rfl (fun _ ↦ rfl) (by simp) (by simp)
  | begins hl hc =>
    exact h.frame h.filed rfl (fun _ ↦ rfl) (fun _ ↦ h.channel (by simp [hl])) (by simp)
  | passes hl =>
    exact h.frame h.filed rfl (fun _ ↦ rfl) (fun _ ↦ h.channel (by simp [hl])) (by simp)
  | @starts k rest now hl =>
    refine h.frame h.filed rfl (fun k' ↦ ?_) (fun _ ↦ h.channel (by simp [hl])) (by simp)
    by_cases hk : k' = k
    · subst hk
      simp
    · simp [Function.update_of_ne hk]
  | skips hl =>
    exact h.frame h.filed rfl (fun _ ↦ rfl) (fun _ ↦ h.channel (by simp [hl])) (by simp)
  | queries hl =>
    refine h.frame h.filed rfl (fun _ ↦ rfl) (fun _ ↦ h.channel (by simp [hl])) ?_
    intro k it rest hl' t ht
    obtain ⟨-, rfl, -⟩ := Loop.reading.inj hl'
    rw [ahead_newTaskIterator h.filed] at ht
    exact parses_of_stored (stored_of_mem_handedOut h.filed ht)
  | stops hl hopen => exact h.frame h.filed rfl (fun _ ↦ rfl) (fun _ ↦ hopen) (by simp)
  | fails hl =>
    exact h.frame h.filed rfl (fun _ ↦ rfl) (fun _ ↦ h.channel (by simp [hl])) (by simp)
  | @pushes k it it' rest t feed hl hnext hopen =>
    have hahead := TaskIterator.ahead_of_next hnext
    have hall := h.ahead k it rest hl
    rw [hahead] at hall
    have ht : Parses t.id := hall t List.mem_cons_self
    refine ⟨h.filed, ?_, ?_, h.qf, fun _ ↦ hopen, fun k₁ it₁ rest₁ hl₁ u hu ↦ ?_⟩
    · cases k with
      | fifo => exact ht
      | sched => exact h.queued
    · cases k with
      | fifo => exact h.scheduled
      | sched => exact ht
    · obtain ⟨-, rfl, -⟩ := Loop.reading.inj hl₁
      exact hall u (List.mem_cons_of_mem t hu)

theorem filed_of_step {qf : QueueConfig → Time → Option TaskRange} {db : DB} {e : RunEvent}
    {o : RunResult × DB} (hdb : Filed db) (h : r.step qf db e = some o) : Filed o.2 := by
  obtain ⟨o, db'⟩ := o
  cases e with
  | executeQuery settings now now' =>
    obtain ⟨-, -, -, rfl, -⟩ := Run.step_executeQuery h
    exact hdb
  | visit push now =>
    obtain ⟨-, -, -, -, rfl, -⟩ := Run.step_visit h
    exact hdb
  | save ok =>
    obtain ⟨tasks, -, ⟨-, hsave, -⟩ | ⟨-, rfl, -⟩⟩ := Run.step_save h
    · exact hdb.saveAll hsave
    · exact hdb

theorem qf_advance (d : Reader) (j : ℕ) (o : RunResult) : (d.advance j o).qf = d.qf := by
  cases o <;> rfl

theorem Inv.run {e : RunAction} (h : Inv s) (hs : runStep s k j r e = some s') : Inv s' := by
  obtain rfl | ⟨feed, e, o, hfeed, ho, rfl⟩ := runStep_cases hs
  · exact h.frame h.filed rfl (fun _ ↦ rfl) h.channel h.ahead
  · refine h.frame (filed_of_step h.filed ho) rfl (fun k' ↦ ?_)
      (fun hl ↦ hfeed.closed_eq.trans (h.channel hl)) h.ahead
    by_cases hk : k' = k
    · subst hk
      simp only [Function.update_self, qf_advance]
    · simp only [Function.update_of_ne hk]

theorem Inv.meantime {e : Event} (h : Inv s) (he : Meantime e) (hs : step s e = some s') :
    Inv s' ∧ s'.delivered = s.delivered ∧ s'.loop = s.loop ∧ s'.panicked = s.panicked ∧
      (s.cancelled = true → s'.cancelled = true) := by
  rw [Closing.step.eq_def] at hs
  split at hs
  · simp at hs
  · cases e with
    | write db =>
      obtain rfl := Option.some.inj hs
      exact ⟨h.frame he rfl (fun _ ↦ rfl) h.channel h.ahead, rfl, rfl, rfl, id⟩
    | update secs =>
      obtain rfl := Option.some.inj hs
      refine ⟨⟨h.filed, ?_, ?_, h.qf, h.channel, h.ahead⟩, rfl, rfl, rfl, id⟩
      · rw [updateQueue]
        split
        · exact h.queued
        · exact h.queued
      · rw [updateQueue]
        split
        · exact h.scheduled
        · exact h.scheduled
    | receive =>
      obtain ⟨o, ho, rfl⟩ := Option.map_eq_some_iff.mp hs
      refine ⟨h.frame h.filed rfl (fun _ ↦ rfl) (fun hl ↦ ?_) h.ahead, rfl, rfl, rfl, id⟩
      exact (Chan.closed_of_receive ho).trans (h.channel hl)
    | close =>
      obtain rfl := Option.some.inj hs
      exact ⟨h.frame h.filed rfl (fun _ ↦ rfl) h.channel h.ahead, rfl, rfl, rfl, fun _ ↦ rfl⟩
    | loop c now now' => exact he.elim
    | run k j e => exact he.elim

theorem Inv.work_cases {e : Event} (h : Inv s) (he : IsWork e) (hs : step s e = some s') :
    s.panicked = false ∧ (Turn s s' ∨
      ∃ k j r e, (s.delivered k).runs[j]? = some r ∧ runStep s k j r e = some s') := by
  rw [Closing.step.eq_def] at hs
  split at hs
  · simp at hs
  · rename_i hp
    refine ⟨by simpa using hp, ?_⟩
    cases e with
    | loop c now now' =>
      have hopen : s.feed.closed = false := by
        apply h.channel
        intro hl
        simp [loopStep, hl] at hs
      exact .inl (turn_of_loopStep hopen hs)
    | run k j e =>
      dsimp only at hs
      split at hs
      · simp at hs
      · rename_i r hr
        exact .inr ⟨k, j, r, e, hr, hs⟩
    | write db => exact he.elim
    | update secs => exact he.elim
    | receive => exact he.elim
    | close => exact he.elim

theorem Inv.work {e : Event} (h : Inv s) (he : IsWork e) (hs : step s e = some s') : Inv s' := by
  obtain ⟨-, hturn | ⟨k, j, r, e, -, hrun⟩⟩ := h.work_cases he hs
  · exact h.turn hturn
  · exact h.run hrun

theorem Inv.step {e : Event} (h : Inv s) (hok : ∀ db, e = .write db → Filed db)
    (hs : step s e = some s') : Inv s' := by
  have he : IsWork e ∨ Meantime e := by
    cases e with
    | loop c now now' => exact .inl trivial
    | run k j e => exact .inl trivial
    | write db => exact .inr (hok db rfl)
    | update secs => exact .inr trivial
    | receive => exact .inr trivial
    | close => exact .inr trivial
  rcases he with he | he
  · exact h.work he hs
  · exact (h.meantime he hs).1

/-! ## How much is left to do -/

/-- The queries a run has still to execute. -/
def queriesOf : Run → ℕ
  | .started => 1
  | _ => 0

/-- The rounds left in its scan, with the one that ends it and the write-back. -/
def roundsOf : Run → ℕ
  | .started => 0
  | .scanning it _ _ => it.it.length + 2
  | .saving _ => 1

/-- A weight of runs for what a run has become. -/
def after (w : Run → ℕ) : RunResult → ℕ
  | .running r => w r
  | .returned _ => 0

def loopQueries : Loop → ℕ
  | .serving rest | .reading _ _ rest => 2 * rest.length
  | .top | .returned => 0

def loopRounds : Loop → ℕ
  | .returned => 0
  | .top => 1
  | .serving _ => 2
  | .reading _ it _ => it.it.length + 3

/-- The weight of all runs. -/
def total (w : Run → ℕ) (d : Kind → Reader) : ℕ :=
  weight w (d .fifo).runs + weight w (d .sched).runs

def queries (s : State) : ℕ := loopQueries s.loop + total queriesOf s.delivered

def rounds (s : State) : ℕ :=
  (if s.panicked then 0 else 1) + loopRounds s.loop + total roundsOf s.delivered

/-- The queries first, then the rounds. -/
def left (s : State) : ℕ ×ₗ ℕ := toLex (queries s, rounds s)

theorem left_lt (h : queries s' < queries s ∨ queries s' = queries s ∧ rounds s' < rounds s) :
    left s' < left s :=
  Prod.Lex.toLex_lt_toLex.mpr h

theorem total_update (w : Run → ℕ) (d : Kind → Reader) (k : Kind) (x : Reader) :
    total w (Function.update d k x) + weight w (d k).runs = total w d + weight w x.runs := by
  cases k with
  | fifo =>
    rw [total, total, Function.update_self, Function.update_of_ne (by decide)]
    omega
  | sched =>
    rw [total, total, Function.update_self, Function.update_of_ne (by decide)]
    omega

theorem weight_advance (w : Run → ℕ) {d : Reader} (hr : d.runs[j]? = some r) (o : RunResult) :
    weight w (d.advance j o).runs + w r = weight w d.runs + after w o := by
  cases o with
  | running r' => exact weight_set w hr r'
  | returned lowered => exact weight_eraseIdx w hr

theorem length_of_next {it it' : TaskIterator} {t : Task} (h : it.next = (it', .ok t)) :
    it'.it.length < it.it.length := by
  obtain ⟨e, rest, hit, rfl, -⟩ := TaskIterator.next_eq_ok h
  rw [hit]
  exact Nat.lt_succ_self _

theorem after_step {qf : QueueConfig → Time → Option TaskRange} {db : DB} {e : RunEvent}
    {o : RunResult × DB} (h : r.step qf db e = some o) :
    after queriesOf o.1 < queriesOf r ∨
      after queriesOf o.1 = queriesOf r ∧ after roundsOf o.1 < roundsOf r := by
  obtain ⟨o, db'⟩ := o
  cases e with
  | executeQuery settings now now' =>
    obtain ⟨query, -, rfl, -, rfl⟩ := Run.step_executeQuery h
    exact .inl Nat.zero_lt_one
  | visit push now =>
    obtain ⟨it, watermark, tasks, rfl, -, hround⟩ := Run.step_visit h
    cases hround with
    | skip hnext hdue =>
      exact .inr ⟨rfl, Nat.add_lt_add_right (length_of_next hnext) 2⟩
    | handOver hnext hdue hpush =>
      exact .inr ⟨rfl, Nat.add_lt_add_right (length_of_next hnext) 2⟩
    | ended hend =>
      rcases afterQuery_cases tasks with hsaving | ⟨-, hreturned⟩
      · rw [hsaving]
        exact .inr ⟨rfl, Nat.succ_lt_succ (Nat.succ_pos _)⟩
      · rw [hreturned]
        exact .inr ⟨rfl, Nat.succ_pos _⟩
    | failed herr => exact .inr ⟨rfl, Nat.succ_pos _⟩
  | save ok =>
    obtain ⟨tasks, rfl, ⟨-, -, rfl⟩ | ⟨-, -, rfl⟩⟩ := Run.step_save h
    · exact .inr ⟨rfl, Nat.zero_lt_one⟩
    · exact .inr ⟨rfl, Nat.zero_lt_one⟩

/-- A step of `startFeed` on a closed feed leaves less to do. -/
theorem left_turn (hcancel : s.cancelled = true) (h : Turn s s') : left s' < left s := by
  apply left_lt
  cases h with
  | returns hl hc =>
    right
    simp [queries, rounds, loopQueries, loopRounds, hl]
  | begins hl hc => simp [hcancel] at hc
  | passes hl =>
    right
    simp [queries, rounds, loopQueries, loopRounds, hl]
  | @starts k rest now hl =>
    -- the reader leaves the pass, and its run has one query to execute
    left
    have htotal := total_update queriesOf s.delivered k { s.delivered k with
      lastRun := now, active := true, runs := (s.delivered k).runs ++ [.started] }
    rw [weight_concat] at htotal
    simp only [queries, loopQueries, hl, List.length_cons, queriesOf] at htotal ⊢
    omega
  | skips hl =>
    left
    simp only [queries, loopQueries, hl, List.length_cons]
    omega
  | queries hl =>
    left
    simp only [queries, loopQueries, hl, List.length_cons]
    omega
  | stops hl hopen =>
    right
    simp [queries, rounds, loopQueries, loopRounds, hl]
  | @fails k it rest hl =>
    simp only [queries, rounds, loopQueries, loopRounds, hl]
    omega
  | pushes hl hnext hopen =>
    right
    have hlen := length_of_next hnext
    simp only [queries, rounds, loopQueries, loopRounds, hl, true_and]
    omega

theorem left_run {e : RunAction} (hp : s.panicked = false)
    (hr : (s.delivered k).runs[j]? = some r) (hs : runStep s k j r e = some s') :
    left s' < left s := by
  apply left_lt
  obtain rfl | ⟨feed, e, o, -, ho, rfl⟩ := runStep_cases hs
  · right
    simp [queries, rounds, hp]
  · have hq := total_update queriesOf s.delivered k ((s.delivered k).advance j o.1)
    have hq' := weight_advance queriesOf hr o.1
    have hn := total_update roundsOf s.delivered k ((s.delivered k).advance j o.1)
    have hn' := weight_advance roundsOf hr o.1
    have hless := after_step ho
    simp only [queries, rounds]
    omega

/-! ## Some goroutine can go on -/

theorem Inv.undelivered (h : Inv s) (k : Kind) (now : Time) :
    ∃ query, k.undelivered s.settings now = some query := by
  cases k with
  | fifo =>
    obtain ⟨last, hlast⟩ := Option.isSome_iff_exists.mp h.queued
    exact ⟨_, congrArg (Option.map _) hlast⟩
  | sched =>
    obtain ⟨last, hlast⟩ := Option.isSome_iff_exists.mp h.scheduled
    exact ⟨_, congrArg (Option.map _) hlast⟩

theorem Inv.delivered (h : Inv s) (k : Kind) (now : Time) :
    ∃ query, (s.delivered k).qf s.settings now = some query := by
  rw [h.qf k]
  cases k with
  | fifo =>
    obtain ⟨last, hlast⟩ := Option.isSome_iff_exists.mp h.queued
    exact ⟨_, congrArg (Option.map _) hlast⟩
  | sched => exact ⟨_, rfl⟩

theorem Inv.loop_enabled (h : Inv s) (hcancel : s.cancelled = true) (hl : s.loop ≠ .returned) :
    (loopStep s .done .zero .zero).isSome := by
  rw [loopStep]
  split
  next => simp [hcancel, Chan.close, h.channel hl]
  next => rfl
  next =>
    dsimp only
    split
    · rfl
    · rfl
  next k rest _ =>
    obtain ⟨query, hquery⟩ := h.undelivered k .zero
    rw [hquery]
    rfl
  next =>
    split
    · rfl
    · rfl
    · rw [pushThen_done hcancel]
      rfl
  next hl' => exact absurd hl' hl

/-- The step a run can always take on a closed feed. -/
def goOn : Run → RunAction
  | .started => .executeQuery .zero .zero
  | .scanning _ _ _ => .visit .done .zero
  | .saving _ => .save false

theorem visit_isSome (qf : QueueConfig → Time → Option TaskRange) (db : DB) (it : TaskIterator)
    (watermark : Time) (tasks : List Task) (push : PushOutcome) (now : Time) :
    ((Run.scanning it watermark tasks).step qf db (.visit push now)).isSome := by
  rw [Run.step]
  split
  · rfl
  · rfl
  · split
    · cases push <;> rfl
    · rfl

theorem Inv.run_enabled (h : Inv s) (hcancel : s.cancelled = true) (k : Kind) (j : ℕ) (r : Run) :
    (runStep s k j r (goOn r)).isSome := by
  cases r with
  | started =>
    obtain ⟨query, hquery⟩ := h.delivered k .zero
    simp [goOn, runStep, advance, Run.step, hquery]
  | scanning it watermark tasks =>
    rw [goOn, runStep]
    split
    · rw [advance, Option.isSome_map]
      exact visit_isSome ..
    · rw [pushThen_done hcancel, advance, Option.isSome_map]
      exact visit_isSome ..
  | saving tasks => simp [goOn, runStep, advance, Run.step]

theorem Inv.enabled (h : Inv s) (hcancel : s.cancelled = true) (hend : ¬Ended s) :
    ∃ e, IsWork e ∧ (Closing.step s e).isSome := by
  rw [Ended, not_or, not_and_or, not_forall] at hend
  obtain ⟨hp, hl | ⟨k, hk⟩⟩ := hend
  · refine ⟨.loop .done .zero .zero, trivial, ?_⟩
    rw [Closing.step.eq_def, if_neg hp]
    exact h.loop_enabled hcancel hl
  · obtain ⟨r, rest, hruns⟩ := List.exists_cons_of_ne_nil hk
    refine ⟨.run k 0 (goOn r), trivial, ?_⟩
    rw [Closing.step.eq_def, if_neg hp]
    simp only [hruns, List.getElem?_cons_zero]
    exact h.run_enabled hcancel k 0 r

/-! ## The end of a feed -/

theorem cancelled_of_turn (hcancel : s.cancelled = true) (h : Turn s s') : s'.cancelled = true := by
  cases h <;> exact hcancel

theorem cancelled_of_run {e : RunAction} (hcancel : s.cancelled = true)
    (h : runStep s k j r e = some s') : s'.cancelled = true := by
  obtain rfl | ⟨feed, e, o, -, -, rfl⟩ := runStep_cases h
  · exact hcancel
  · exact hcancel

/-- **A closed feed comes to an end.** From any state a feed can reach, once its context is
cancelled its goroutines return after finitely many steps of theirs, in whatever order they take
them and whatever is received, written or updated in between; or the process ends with a panic.
Until then one of them can take a step. -/
theorem goroutines_return {q : GoString} {db : DB} {settings : QueueConfig} {es : List Event}
    (hdb : Filed db) (hc : ReachableConfig q settings)
    (hok : ∀ db', .write db' ∈ es → Filed db')
    (hrun : Runs.run Closing.step (.init db settings) es = some s) (hcancel : s.cancelled = true) :
    Inevitable (amid Closing.step) (fun x ↦ (∀ e ∈ x.1, Meantime e) ∧ IsWork x.2) Ended s := by
  have hmeets : Meets Closing.step (fun _ e ↦ ∀ db, e = .write db → Filed db)
      (.init db settings) es := meets_of_forall_mem fun e he db' hdb' ↦ hok db' (hdb' ▸ he)
  have hinv : Inv s :=
    Meets.invariant (fun _ _ _ h hok hs ↦ h.step hok hs) (inv_init hdb hc.wellFormed) hmeets hrun
  refine .amid_of_measure (I := fun s ↦ Inv s ∧ s.cancelled = true) left ?_ ?_ ?_ ⟨hinv, hcancel⟩
  · rintro s e s' ⟨h, hcancel⟩ he hs
    obtain ⟨h', hd, hl, hp, hcancel'⟩ := h.meantime he hs
    exact ⟨⟨h', hcancel' hcancel⟩, by rw [left, left, queries, queries, rounds, rounds, hd, hl, hp]⟩
  · rintro s e s' ⟨h, hcancel⟩ he hs
    obtain ⟨hp, hturn | ⟨k, j, r, e, hr, hstep⟩⟩ := h.work_cases he hs
    · exact ⟨⟨h.turn hturn, cancelled_of_turn hcancel hturn⟩, left_turn hcancel hturn⟩
    · exact ⟨⟨h.run hstep, cancelled_of_run hcancel hstep⟩, left_run hp hr hstep⟩
  · exact fun s ⟨h, hcancel⟩ hend ↦ h.enabled hcancel hend

end

theorem filed_oneTask : Filed oneTask := by
  intro k v hk hget
  rw [oneTask, getElem?_insert] at hget
  split at hget
  · rename_i heq
    obtain rfl := Option.some.inj hget
    exact ⟨firstTask, rfl, heq ▸ by decide +kernel⟩
  · simp at hget

/-- The feed is closed while a redelivery run has the task of the store to push, and nobody
receives. -/
def closedMidway : List Event :=
  [turn .send, turn .send, .run .fifo 0 (.executeQuery dayAfter dayAfter), turn .send, .close]

theorem goroutines_return_closedMidway :
    ∃ s, Runs.run step (.init oneTask (defaultConfig (lit "q"))) closedMidway = some s ∧
      ¬Ended s ∧
      Inevitable (amid step) (fun x ↦ (∀ e ∈ x.1, Meantime e) ∧ IsWork x.2) Ended s := by
  have hreach : (Runs.run step (.init oneTask (defaultConfig (lit "q"))) closedMidway).map
      (fun s ↦ (s.panicked, s.cancelled, (s.delivered .fifo).runs.length)) =
        some (false, true, 1) := by decide +kernel
  obtain ⟨s, hrun, hs⟩ := Option.map_eq_some_iff.mp hreach
  obtain ⟨hp, hs⟩ := Prod.mk.inj hs
  obtain ⟨hcancel, hlen⟩ := Prod.mk.inj hs
  refine ⟨s, hrun, ?_, goroutines_return filed_oneTask ⟨[], rfl⟩ (by simp [closedMidway, turn])
    hrun hcancel⟩
  rintro (hp' | ⟨-, hnone⟩)
  · simp [hp] at hp'
  · simp [hnone] at hlen

end Z4.Shutdown
