import Z4.Feeds.Redelivery
import Z4.Feeds.Undelivered

/-!
# Resuming a read

A call of `Read` of an `undeliveredReader` runs until the push function fails or the tasks are used
up. Here a call is one function, over a store that does not change, and the push function may fail
on any task of any call. `read_spec` says what a call does, for any query factory and checkpointer.
For the FIFO ones `byRounds_of_step` says that it is what the reader does round by round.

## The invariant

Between calls the FIFO reader knows nothing but its checkpoint, the text of the id of the last task
that was pushed, or the sentinel of a new queue. The stored tasks, in ascending order, split into
those pushed so far and the rest, and the query of the next call yields exactly the rest: the text
is read back as the index it was made from, and one more than the index of the sentinel is zero. A
push that fails leaves the split where it is.
-/

namespace Z4.Resume

open KeyValue Runs Redelivery

/-! ## Calls of Read -/

/-- A reader between calls: the settings it shares with its feed, and the tasks pushed so far. -/
structure State where
  settings : QueueConfig
  pushed : List Task := []

/-- A push function, by what it returns for a task when the given tasks have been pushed before. -/
abbrev PushFunc := List Task → Task → PushOutcome

/-- What `Read` passes to `ForEach`. The checkpoint moves when the push succeeds. -/
def handle (check : QueueConfig → Task → QueueConfig) (push : PushFunc) (s : State) (task : Task) :
    State × Option PushOutcome :=
  if push s.pushed task = .ok then
    ({ settings := check s.settings task, pushed := s.pushed ++ [task] }, none)
  else (s, some (push s.pushed task))

/-- `undeliveredReader.Read` and the error it returns, which is never `io.EOF`. -/
def read (qf : QueueConfig → Option TaskRange) (check : QueueConfig → Task → QueueConfig) (db : DB)
    (push : PushFunc) (s : State) : Option (State × Option (IterError ⊕ PushOutcome)) :=
  (qf s.settings).map fun query ↦
    match (newTaskIterator db query).forEach (handle check push) s with
    | (s, some (.inr .eof)) => (s, none)
    | r => r

/-- One call of the FIFO reader after the other, each with its own push function. -/
def step (db : DB) (s : State) (push : PushFunc) : Option State :=
  (read fifoUndeliveredQuery fifoCheckpointerSet db push s).map Prod.fst

section

variable (qf : QueueConfig → Option TaskRange) (check : QueueConfig → Task → QueueConfig)
  (push : PushFunc) {s : State}

/-- The reader after pushes. -/
def State.after (s : State) (ts : List Task) : State where
  settings := ts.foldl check s.settings
  pushed := s.pushed ++ ts

theorem feed_handle (ts : List Task) : ∃ done rest, ts = done ++ rest ∧
    (TaskIterator.feed (handle check push) ts s).1 = s.after check done ∧
    ∀ t ∈ rest.head?, push (s.pushed ++ done) t ≠ .ok := by
  induction ts generalizing s with
  | nil => exact ⟨[], [], rfl, by simp [TaskIterator.feed, State.after], nofun⟩
  | cons t ts ih =>
    rw [TaskIterator.feed, handle]
    by_cases hpush : push s.pushed t = .ok
    · rw [if_pos hpush]
      obtain ⟨done, rest, hts, hafter, hstop⟩ := ih (s := ⟨check s.settings t, s.pushed ++ [t]⟩)
      rw [List.append_assoc, List.singleton_append] at hstop
      refine ⟨t :: done, rest, by rw [hts, List.cons_append], ?_, hstop⟩
      simp only [hafter, State.after, List.foldl_cons, List.append_assoc, List.singleton_append]
    · rw [if_neg hpush]
      refine ⟨[], t :: ts, rfl, by simp [State.after], fun u hu ↦ ?_⟩
      obtain rfl := Option.some.inj hu
      rwa [List.append_nil]

/-- **What a call does**, over a filed store: it pushes what the query hands out, up to the first
push that fails. -/
theorem read_spec {db : DB} (hdb : Filed db) {query : TaskRange}
    (hquery : qf s.settings = some query) :
    ∃ err done rest, read qf check db push s = some (s.after check done, err) ∧
      handedOut db query = done ++ rest ∧ ∀ t ∈ rest.head?, push (s.pushed ++ done) t ≠ .ok := by
  have hscan : (newTaskIterator db query).forEach (handle check push) s
      = (TaskIterator.feed (handle check push) (handedOut db query) s).map id
          (Option.map .inr) := by
    rw [TaskIterator.forEach, TaskIterator.forEachFrom_eq_feed _ (hdb.sound _),
      ← ahead_newTaskIterator hdb]
    rfl
  obtain ⟨done, rest, hts, hafter, hstop⟩ :=
    feed_handle check push (s := s) (handedOut db query)
  rw [read, hquery, Option.map_some, hscan]
  split <;> rename_i heq
  · obtain rfl := congrArg Prod.fst heq
    exact ⟨none, done, rest, by rw [← hafter]; rfl, hts, hstop⟩
  · exact ⟨_, done, rest, by rw [← hafter]; rfl, hts, hstop⟩

end

/-! ## Rounds of a call -/

/-- Rounds of the reader that push the tasks one after the other. -/
def Rounds : UndeliveredReader → List Task → UndeliveredReader → Prop
  | r, [], r' => r = r'
  | r, t :: ts, r' => ∃ r₁, r.visit = some (r₁, some t) ∧ Rounds r₁ ts r'

/-- From `s` to `s'` the tasks were pushed that rounds of the reader push. The next round ends the
call, or its push fails. -/
def ByRounds (push : PushFunc) (r : UndeliveredReader) (s s' : State) : Prop :=
  ∃ ts it, s'.pushed = s.pushed ++ ts ∧ Rounds r ts ⟨s'.settings, some it⟩ ∧
    (UndeliveredReader.visit ⟨s'.settings, some it⟩ = some (⟨s'.settings, none⟩, none) ∨
      ∃ r' t, UndeliveredReader.visit ⟨s'.settings, some it⟩ = some (r', some t) ∧
        push s'.pushed t ≠ .ok)

theorem byRounds_of_error {push : PushFunc} {s : State} {it it' : TaskIterator} {err : IterError}
    (h : it.next = (it', .error err)) : ByRounds push ⟨s.settings, some it⟩ s s := by
  refine ⟨[], it, (List.append_nil _).symm, rfl, .inl ?_⟩
  simp only [UndeliveredReader.visit, h]

theorem byRounds_forEachFrom (push : PushFunc) (stop pre : Key) (entries : List (Key × Value))
    (s : State) :
    ByRounds push ⟨s.settings, some ⟨entries, stop, pre⟩⟩ s
      (TaskIterator.forEachFrom (handle fifoCheckpointerSet push) stop pre entries s).1 := by
  induction entries generalizing s with
  | nil => exact byRounds_of_error rfl
  | cons e rest ih =>
    rw [TaskIterator.forEachFrom]
    rcases hnext : TaskIterator.next ⟨e :: rest, stop, pre⟩ with ⟨it', err | t⟩
    · -- at its end or at a record that does not decode, the iterator ends the call
      cases err <;> exact byRounds_of_error hnext
    · obtain ⟨e', rest', hit, rfl, -, -⟩ := TaskIterator.next_eq_ok hnext
      obtain ⟨rfl, rfl⟩ := List.cons.inj hit
      have hvisit : UndeliveredReader.visit ⟨s.settings, some ⟨e :: rest, stop, pre⟩⟩ =
          some (⟨fifoCheckpointerSet s.settings t, some ⟨rest, stop, pre⟩⟩, some t) := by
        simp only [UndeliveredReader.visit, hnext]
      by_cases hpush : push s.pushed t = .ok
      · simp only [handle, if_pos hpush]
        obtain ⟨ts, it, hpushed, hrounds, hend⟩ := ih
          ⟨fifoCheckpointerSet s.settings t, s.pushed ++ [t]⟩
        refine ⟨t :: ts, it, ?_, ⟨_, hvisit, hrounds⟩, hend⟩
        rw [hpushed, List.append_assoc, List.singleton_append]
      · simp only [handle, if_neg hpush]
        exact ⟨[], _, (List.append_nil _).symm, rfl, .inr ⟨_, t, hvisit, hpush⟩⟩

/-- **A call is its rounds.** `read` and the reader that is called round by round push the same
tasks and leave the same checkpoint. -/
theorem byRounds_of_step {db : DB} {push : PushFunc} {s s' : State}
    (h : step db s push = some s') :
    ∃ r, UndeliveredReader.query ⟨s.settings, none⟩ db = some r ∧ ByRounds push r s s' := by
  obtain ⟨o, hread, rfl⟩ := Option.map_eq_some_iff.mp h
  obtain ⟨query, hquery, rfl⟩ := Option.map_eq_some_iff.mp hread
  refine ⟨⟨s.settings, some (newTaskIterator db query)⟩, ?_, ?_⟩
  · simp only [UndeliveredReader.query, hquery, Option.map_some]
  · have hloop := byRounds_forEachFrom push (newTaskIterator db query).stop
      (newTaskIterator db query).pre (newTaskIterator db query).it s
    rw [← TaskIterator.forEach] at hloop
    -- the end that `Read` makes of `io.EOF` does not touch the state
    split
    · rename_i heq
      rw [heq] at hloop
      exact hloop
    · exact hloop

/-! ## Stores of one queue -/

/-- Every task record is an unscheduled task of the queue under its own key, with an id made from
the zero time and an index below the largest. -/
def HoldsIndexed (q : GoString) (db : DB) : Prop :=
  ∀ k v, IsTaskKey k → db[k]? = some v → ∃ (t : Task) (i : UInt64), v = .task t ∧ t.queue = q ∧
    t.scheduleTime = none ∧ t.id = (TaskID.new .zero i).string ∧ i < maxUint64 ∧
    recordKey t = some k

section

variable {q : GoString} {db : DB} {t : Task}

theorem mustParseString_new_zero (i : UInt64) :
    mustParseString (TaskID.new .zero i).string = some (TaskID.new .zero i) := by
  rw [mustParseString_string, TaskID.reparsed_of_le]
  rw [TaskID.toNat_new]
  have hzero : 2 ^ 56 ≤ Time.zero.unixNano.toUInt64.toNat := by decide
  omega

theorem HoldsIndexed.onlyQueue (h : HoldsIndexed q db) : OnlyQueue q db := by
  intro k v hk hv
  obtain ⟨t, i, rfl, hq, -, -, -, hkey⟩ := h k v hk hv
  exact ⟨t, rfl, hq, hkey⟩

theorem HoldsIndexed.of_stored (h : HoldsIndexed q db) (ht : Stored db t) :
    IsFifo q t ∧ taskIndex t + 1 < 2 ^ 64 := by
  obtain ⟨k, hk, hget⟩ := ht
  obtain ⟨u, i, hu, hq, hsched, hid, hi, -⟩ := h k _ (isTaskKey_recordKey hk) hget
  obtain rfl : t = u := by simpa using hu
  have hparse := mustParseString_new_zero i
  rw [← hid] at hparse
  refine ⟨⟨hq, hsched, by rw [hparse]; rfl⟩, ?_⟩
  rw [taskIndex, hparse, Option.map_some, Option.getD_some, TaskID.index_new]
  rw [UInt64.lt_iff_toNat_lt, show maxUint64.toNat = 2 ^ 64 - 1 by decide] at hi
  omega

end

/-! ## The checkpoint -/

/-- The text that names the last task pushed. -/
def lastID (q : GoString) (pushed : List Task) : GoString :=
  (pushed.getLast?.map Task.id).getD (defaultConfig q).lastDeliveredQueuedTask

/-- The index after the last task pushed. -/
def nextOf (pushed : List Task) : ℕ := (pushed.getLast?.map fun t ↦ taskIndex t + 1).getD 0

/-- The settings are those of the queue and name the last task pushed. -/
def Named (q : GoString) (s : State) : Prop :=
  s.settings.id = q ∧ s.settings.lastDeliveredQueuedTask = lastID q s.pushed

section

variable {q : GoString} {s : State}

theorem named_default (q : GoString) : Named q { settings := defaultConfig q } := ⟨rfl, rfl⟩

/-- The query starts after the last task pushed. -/
theorem Named.nextIndex_eq (h : Named q s)
    (hpushed : ∀ t ∈ s.pushed, IsFifo q t ∧ taskIndex t + 1 < 2 ^ 64) :
    (nextIndex s.settings).map UInt64.toNat = some (nextOf s.pushed) := by
  obtain ⟨-, hlast⟩ := h
  cases hp : s.pushed.getLast? with
  | none =>
    rw [lastID, hp, Option.map_none, Option.getD_none] at hlast
    rw [nextOf, hp, nextIndex, hlast, ← nextIndex, nextIndex_default]
    rfl
  | some t =>
    rw [lastID, hp, Option.map_some, Option.getD_some] at hlast
    obtain ⟨hfifo, hlt⟩ := hpushed t (List.mem_of_getLast? hp)
    have hset : fifoCheckpointerSet s.settings t = s.settings := by
      rw [fifoCheckpointerSet, ← hlast]
    rw [nextOf, hp, ← hset, nextIndex_checkpoint hfifo hlt]
    rfl

theorem mem_rest_iff {pushed rest : List Task} {t : Task}
    (hsorted : (pushed ++ rest).Pairwise fun t u ↦ taskIndex t < taskIndex u) :
    t ∈ rest ↔ t ∈ pushed ++ rest ∧ nextOf pushed ≤ taskIndex t := by
  obtain ⟨hpushed, -, hcross⟩ := List.pairwise_append.mp hsorted
  cases hp : pushed.getLast? with
  | none =>
    obtain rfl := List.getLast?_eq_none_iff.mp hp
    simp [nextOf]
  | some u =>
    have hnext : nextOf pushed = taskIndex u + 1 := by rw [nextOf, hp]; rfl
    rw [hnext, List.mem_append]
    constructor
    · exact fun ht ↦ ⟨.inr ht, hcross u (List.mem_of_getLast? hp) t ht⟩
    · rintro ⟨ht | ht, hle⟩
      · -- what was pushed is not past the last of it
        obtain ⟨init, rfl⟩ := List.getLast?_eq_some_iff.mp hp
        rcases List.mem_append.mp ht with ht | ht
        · have := (List.pairwise_append.mp hpushed).2.2 t ht u List.mem_cons_self
          omega
        · rw [List.mem_singleton.mp ht] at hle
          omega
      · exact ht

theorem Named.after (h : Named q s) (ts : List Task) :
    Named q (s.after fifoCheckpointerSet ts) := by
  induction ts generalizing s with
  | nil =>
    rw [State.after, List.foldl_nil, List.append_nil]
    exact h
  | cons t ts ih =>
    have hstep : Named q ⟨fifoCheckpointerSet s.settings t, s.pushed ++ [t]⟩ :=
      ⟨h.1, by simp [lastID, fifoCheckpointerSet]⟩
    have := ih hstep
    rwa [State.after, List.append_assoc, List.singleton_append] at this

end

/-! ## Any sequence of calls -/

/-- The stored tasks, in ascending order. -/
structure Listing (db : DB) (all : List Task) : Prop where
  mem_iff : ∀ t, t ∈ all ↔ Stored db t
  sorted : all.Pairwise fun t u ↦ taskIndex t < taskIndex u

section

variable {q : GoString} {db : DB} {all : List Task} {s : State}

/-- What the next call scans is what has not been pushed. -/
theorem handedOut_eq_rest (hdb : HoldsIndexed q db) (hall : Listing db all) {n : UInt64}
    {pushed rest : List Task} (hsplit : all = pushed ++ rest) (hn : n.toNat = nextOf pushed) :
    handedOut db (.fifo q n maxUint64) = rest := by
  subst hsplit
  have hne : ∀ {ts : List Task}, ts.Pairwise (fun t u ↦ taskIndex t < taskIndex u) → ts.Nodup :=
    fun h ↦ h.imp fun hlt hc ↦ absurd hlt (by rw [hc]; exact lt_irrefl _)
  have hscan := hdb.onlyQueue.pairwise_handedOut n
  have hrest := (List.pairwise_append.mp hall.sorted).2.1
  refine List.Perm.eq_of_pairwise (fun t u _ _ h1 h2 ↦ absurd h1 h2.asymm) hscan hrest ?_
  rw [List.perm_ext_iff_of_nodup (hne hscan) (hne hrest)]
  intro t
  rw [hdb.onlyQueue.mem_handedOut, mem_rest_iff hall.sorted, hall.mem_iff, hn]
  exact ⟨fun h ↦ ⟨h.1, h.2.2⟩, fun h ↦ ⟨h.1, (hdb.of_stored h.1).1, h.2⟩⟩

/-- What was pushed are all the tasks, or the push function fails on the next. -/
def UpTo (push : PushFunc) (all pushed : List Task) : Prop :=
  pushed = all ∨ ∃ t rest, all = pushed ++ t :: rest ∧ push pushed t ≠ .ok

/-- A call extends what was pushed, up to the first push that fails. -/
theorem step_resumes (hdb : HoldsIndexed q db) (hall : Listing db all) (hs : Named q s)
    (hpre : s.pushed <+: all) (push : PushFunc) :
    ∃ s', step db s push = some s' ∧ Named q s' ∧ s'.pushed <+: all ∧
      UpTo push all s'.pushed := by
  obtain ⟨rest, rfl⟩ := hpre
  have hpushed : ∀ t ∈ s.pushed, IsFifo q t ∧ taskIndex t + 1 < 2 ^ 64 := fun t ht ↦
    hdb.of_stored ((hall.mem_iff t).mp (List.mem_append_left rest ht))
  obtain ⟨n, hn, hnat⟩ := Option.map_eq_some_iff.mp (hs.nextIndex_eq hpushed)
  have hquery : fifoUndeliveredQuery s.settings = some (.fifo q n maxUint64) := by
    rw [fifoUndeliveredQuery_eq, hn, Option.map_some, hs.1]
  obtain ⟨err, done, left, hread, hts, hstop⟩ :=
    read_spec fifoUndeliveredQuery fifoCheckpointerSet push hdb.onlyQueue.filed hquery
  obtain rfl := (handedOut_eq_rest hdb hall rfl hnat).symm.trans hts
  refine ⟨s.after fifoCheckpointerSet done, by rw [step, hread]; rfl, hs.after done,
    ⟨left, List.append_assoc ..⟩, ?_⟩
  cases left with
  | nil => exact .inl (by rw [List.append_nil]; rfl)
  | cons t left =>
    exact .inr ⟨t, left, (List.append_assoc ..).symm, hstop t rfl⟩

theorem run_resumes (hdb : HoldsIndexed q db) (hall : Listing db all) (pushes : List PushFunc) :
    ∃ s, run (step db) { settings := defaultConfig q } pushes = some s ∧ Named q s ∧
      s.pushed <+: all ∧ ∀ push ∈ pushes.getLast?, UpTo push all s.pushed := by
  induction pushes using List.reverseRecOn with
  | nil => exact ⟨_, rfl, named_default q, List.nil_prefix, nofun⟩
  | append_singleton pushes push ih =>
    obtain ⟨s, hrun, hnamed, hpre, -⟩ := ih
    obtain ⟨s', hstep, hnamed', hpre', hupTo⟩ := step_resumes hdb hall hnamed hpre push
    refine ⟨s', ?_, hnamed', hpre', fun push' hlast ↦ ?_⟩
    · rw [run_append, hrun, Option.bind_some, run_cons, hstep]
      rfl
    · rw [List.getLast?_concat, Option.mem_some_iff] at hlast
      exact hlast ▸ hupTo

/-- **A read resumes where the last one stopped.** Over any sequence of calls with any pushes that
fail, what was pushed is a prefix of the stored tasks in ascending order, and the checkpoint names
the last of it. A call stops only where its push function fails, so after a call in which no push
failed everything has been pushed. -/
theorem pushed_prefix_stored (hdb : HoldsIndexed q db) (hall : Listing db all)
    (pushes : List PushFunc) :
    ∃ s, run (step db) { settings := defaultConfig q } pushes = some s ∧ s.pushed <+: all ∧
      s.settings.lastDeliveredQueuedTask = lastID q s.pushed ∧
      ∀ push ∈ pushes.getLast?,
        s.pushed = all ∨ ∃ t rest, all = s.pushed ++ t :: rest ∧ push s.pushed t ≠ .ok := by
  obtain ⟨s, hrun, ⟨-, hlast⟩, hpre, hupTo⟩ := run_resumes hdb hall pushes
  exact ⟨s, hrun, hpre, hlast, hupTo⟩

/-- There is such a listing of every store. -/
theorem listing_handedOut (hdb : HoldsIndexed q db) :
    Listing db (handedOut db (.fifo q 0 maxUint64)) where
  mem_iff t := by
    rw [hdb.onlyQueue.mem_handedOut]
    exact ⟨And.left, fun h ↦ ⟨h, (hdb.of_stored h).1, Nat.zero_le _⟩⟩
  sorted := hdb.onlyQueue.pairwise_handedOut 0

end

/-- A task of the queue `q` with the given index. -/
def queuedTask (i : UInt64) : Task := { id := (TaskID.new .zero i).string, queue := lit "q" }

/-- A store with two tasks of the queue. -/
def twoQueued : DB :=
  ((∅ : DB).insert (getFifoTaskKey (lit "q") (.new .zero 3)) (.task (queuedTask 3))).insert
    (getFifoTaskKey (lit "q") (.new .zero 7)) (.task (queuedTask 7))

theorem holdsIndexed_twoQueued : HoldsIndexed (lit "q") twoQueued := by
  have hkey : ∀ i, recordKey (queuedTask i) = some (getFifoTaskKey (lit "q") (.new .zero i)) := by
    intro i
    rw [recordKey, queuedTask, mustParseString_new_zero]
    rfl
  intro k v _ hv
  rw [twoQueued, getElem?_insert] at hv
  split at hv
  · rename_i hk
    obtain rfl := Option.some.inj hv
    exact ⟨queuedTask 7, 7, rfl, rfl, rfl, rfl, by decide, hk ▸ hkey 7⟩
  · rw [getElem?_insert] at hv
    split at hv
    · rename_i hk
      obtain rfl := Option.some.inj hv
      exact ⟨queuedTask 3, 3, rfl, rfl, rfl, rfl, by decide, hk ▸ hkey 3⟩
    · simp at hv

/-- A first call that fails at its second push, and one that goes through. -/
theorem pushed_prefix_stored_twoQueued :
    ∃ s, run (step twoQueued) { settings := defaultConfig (lit "q") }
        [fun pushed _ ↦ if pushed = [] then .ok else .eof, fun _ _ ↦ .ok] = some s ∧
      s.pushed = handedOut twoQueued (.fifo (lit "q") 0 maxUint64) ∧
      s.settings.lastDeliveredQueuedTask = lastID (lit "q") s.pushed := by
  obtain ⟨s, hrun, -, hlast, hupTo⟩ := pushed_prefix_stored holdsIndexed_twoQueued
    (listing_handedOut holdsIndexed_twoQueued)
    [fun pushed _ ↦ if pushed = [] then .ok else .eof, fun _ _ ↦ .ok]
  refine ⟨s, hrun, ?_, hlast⟩
  rcases hupTo _ rfl with hall | ⟨t, rest, -, hfail⟩
  · exact hall
  · exact absurd rfl hfail

end Z4.Resume
