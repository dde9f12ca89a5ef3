import Z4.Cluster.StateMachine
import Z4.Feeds.WriteBack

/-!
# Replica agreement

Peers that apply the same log one entry at a time should hold the same task records, whichever of
them runs feeds. What a record should be is a function of the log: `recordAt` replays the entries
for one key, the last task with that key or ack for it deciding.

A peer is behind this by what it still holds back: the task its current batch has yet to save, and
the acks in its buffer and in the current batch. `settled` is its store with these applied, and
it follows `recordAt` entry by entry. Two things break this. A task may be saved under a key whose
ack is still buffered, and the flush then deletes the wrong record. And the redelivery runs of a
feed write their retry times into the store of their own peer only, past the log. `Logged` excludes
both.
-/

namespace Z4.Agreement

open KeyValue Redelivery

/-! ## Peers with feeds -/

/-- A peer: its state machine, and the redelivery readers of the feeds it has run. -/
structure Peer where
  machine : StateMachine := {}
  readers : List Reader := []

inductive PeerEvent where
  | machine (e : StateMachine.Event)
  /-- A feed is opened, with its reader for queued or for scheduled tasks. -/
  | feed (scheduled : Bool)
  /-- `deliveredReader.Read`. -/
  | read (i : ℕ) (now : Time)
  /-- A step of the `k`-th run of a reader. -/
  | run (i k : ℕ) (e : RunEvent)

/-- Raft hands over the log one entry at a time. -/
def OneEntry : StateMachine.Event → Prop
  | .applyBatch n => n = 1
  | _ => True

instance : (e : StateMachine.Event) → Decidable (OneEntry e)
  | .applyBatch n => inferInstanceAs (Decidable (n = 1))
  | .saveSetting _ | .push _ _ | .acknowledge _ | .flushTick _ | .reply => .isTrue trivial

/-- The reader after `deliveredReader.Read`. -/
def started (d : Reader) (now : Time) : Reader :=
  { d with lastRun := now, active := true, runs := d.runs ++ [.started] }

def Peer.step (log : List LogEntry) (x : Peer) : PeerEvent → Option Peer
  | .machine e =>
    if OneEntry e then (x.machine.step log e).map fun machine ↦ { x with machine } else none
  | .feed scheduled =>
    some { x with readers := x.readers ++ [if scheduled then schedReader else fifoReader] }
  | .read i now =>
    x.readers[i]?.map fun d ↦ { x with readers := x.readers.set i (started d now) }
  | .run i k e =>
    x.readers[i]?.bind fun d ↦ d.runs[k]?.bind fun r ↦
      (r.step d.qf x.machine.db e).map fun o ↦
        { machine := { x.machine with db := o.2 }, readers := x.readers.set i (d.advance k o.1) }

variable {ι : Type}

/-- The peers of a cluster, over one committed log. -/
def step [DecidableEq ι] (log : List LogEntry) (c : ι → Peer) (e : ι × PeerEvent) :
    Option (ι → Peer) :=
  ((c e.1).step log e.2).map (Function.update c e.1)

/-- What a step of a redelivery run saves. -/
def writeBack : Run → RunEvent → List Task
  | .saving tasks, .save true => tasks
  | _, _ => []

/-- The step writes task records only as the log says: an entry's task is saved, and while no ack
for its key is buffered, and a redelivery run writes a task back only where such an ack is. -/
def Logged (x : Peer) : PeerEvent → Prop
  | .machine (.push _ ok) => ok = true ∧ ∀ t ∈ x.machine.tasks, ∀ a ∈ x.machine.ackBuffer,
      ∀ k ∈ recordKey t, ackKey a ≠ some k
  | .run i k e => ∀ d ∈ x.readers[i]?, ∀ r ∈ d.runs[k]?, ∀ t ∈ writeBack r e,
      ∃ a ∈ x.machine.ackBuffer, ackKey a = recordKey t
  | _ => True

instance (x : Peer) : (e : PeerEvent) → Decidable (Logged x e)
  | .machine (.push _ ok) => inferInstanceAs (Decidable (ok = true ∧ ∀ t ∈ x.machine.tasks,
      ∀ a ∈ x.machine.ackBuffer, ∀ k ∈ recordKey t, ackKey a ≠ some k))
  | .run i k e => inferInstanceAs (Decidable (∀ d ∈ x.readers[i]?, ∀ r ∈ d.runs[k]?,
      ∀ t ∈ writeBack r e, ∃ a ∈ x.machine.ackBuffer, ackKey a = recordKey t))
  | .machine (.applyBatch _) | .machine (.saveSetting _) | .machine (.acknowledge _)
  | .machine (.flushTick _) | .machine .reply | .feed _ | .read _ _ => .isTrue trivial

/-! ## What the log says of a record -/

/-- The effect of an entry on the record under a key. -/
def recordAfter (k : Key) (r : Option Value) : LogEntry → Option Value
  | .command (.task t) => if recordKey t = some k then some (.task t) else r
  | .command (.ack a) => if ackKey a = some k then none else r
  | _ => r

/-- The record under a key, by the log. -/
def recordAt (log : List LogEntry) (k : Key) : Option Value := log.foldl (recordAfter k) none

/-- The record a peer will have under a key once it has done what it holds back. -/
def settled (s : StateMachine) (k : Key) : Option Value :=
  ((s.tasks.filter (recordKey · = some k)).getLast?.map Value.task).or
    (if ∃ a ∈ s.ackBuffer ++ s.acks, ackKey a = some k then none else s.db[k]?)

/-- A peer that follows the log. -/
structure Follows (log : List LogEntry) (s : StateMachine) : Prop where
  settled_eq : ∀ k, IsTaskKey k → settled s k = recordAt (log.take (s.applied + s.size)) k
  /-- One entry gives work to one goroutine. -/
  alone : s.tasks = [] ∨ s.acks = []
  idle : s.size = 0 → s.Done

section

variable {log : List LogEntry} {s s' : StateMachine} {k : Key}

theorem follows_start (log : List LogEntry) : Follows log {} where
  settled_eq k _ := by simp [settled, recordAt]
  alone := .inl rfl
  idle _ := ⟨rfl, rfl, rfl⟩

theorem recordAt_concat (log : List LogEntry) (e : LogEntry) (k : Key) :
    recordAt (log ++ [e]) k = recordAfter k (recordAt log k) e := by
  rw [recordAt, List.foldl_append]
  rfl

theorem settled_of_tasks_eq_nil (h : s.tasks = []) (k : Key) : settled s k
    = if ∃ a ∈ s.ackBuffer ++ s.acks, ackKey a = some k then none else s.db[k]? := by
  rw [settled, h]
  rfl

/-- An idle peer that takes an entry holds back the effect of that entry. -/
theorem settled_start (hdone : s.Done) (e : LogEntry) (k : Key) :
    settled (s.start [e]) k = recordAfter k (settled s k) e ∧
      ((s.start [e]).tasks = [] ∨ (s.start [e]).acks = []) := by
  obtain ⟨-, htasks, hacks⟩ := hdone
  have hold : settled s k = if ∃ a ∈ s.ackBuffer, ackKey a = some k then none else s.db[k]? := by
    rw [settled_of_tasks_eq_nil htasks, hacks, List.append_nil]
  -- an entry without a task or an ack leaves everything as it is
  have hnone : (s.start [e]).tasks = [] → (s.start [e]).acks = [] →
      (s.start [e]).ackBuffer = s.ackBuffer → (s.start [e]).db = s.db →
      settled (s.start [e]) k = settled s k := by
    intro h1 h2 h3 h4
    rw [hold, settled_of_tasks_eq_nil h1, h2, h3, h4, List.append_nil]
  cases e with
  | command c =>
    cases c with
    | task t =>
      refine ⟨?_, .inr rfl⟩
      have hset : settled (s.start [.command (.task t)]) k
          = (([t].filter (recordKey · = some k)).getLast?.map Value.task).or
            (if ∃ a ∈ s.ackBuffer ++ [], ackKey a = some k then none else s.db[k]?) := rfl
      rw [hset, List.append_nil, ← hold, recordAfter]
      by_cases ht : recordKey t = some k <;> simp [ht]
    | ack a =>
      refine ⟨?_, .inl rfl⟩
      have hset : settled (s.start [.command (.ack a)]) k
          = if ∃ a' ∈ s.ackBuffer ++ [a], ackKey a' = some k then none else s.db[k]? :=
        settled_of_tasks_eq_nil rfl k
      rw [hset, hold, recordAfter]
      by_cases ha : ackKey a = some k <;> simp [or_and_right, exists_or, ha]
    | queue c => exact ⟨hnone rfl rfl rfl rfl, .inl rfl⟩
  | other => exact ⟨hnone rfl rfl rfl rfl, .inl rfl⟩
  | garbled => exact ⟨hnone rfl rfl rfl rfl, .inl rfl⟩
  | unknown => exact ⟨hnone rfl rfl rfl rfl, .inl rfl⟩

theorem settled_flush {flushed buffer : List Ack} (acks : List Ack) {db : DB}
    (h : ∀ a, a ∈ flushed ∨ a ∈ buffer ++ acks ↔ a ∈ s.ackBuffer ++ s.acks)
    (hdb : db = deleteAll flushed s.db) (k : Key) :
    settled { s with ackBuffer := buffer, acks := acks, db := db } k = settled s k := by
  have hcase : (∃ a ∈ s.ackBuffer ++ s.acks, ackKey a = some k) ↔
      (∃ a ∈ buffer ++ acks, ackKey a = some k) ∨ ∃ a ∈ flushed, ackKey a = some k := by
    simp only [← h, or_and_right, exists_or]
    exact or_comm
  simp only [settled]
  congr 1
  rw [hdb, getElem?_deleteAll]
  by_cases hbuf : ∃ a ∈ buffer ++ acks, ackKey a = some k
  · rw [if_pos hbuf, if_pos (hcase.mpr (.inl hbuf))]
  · rw [if_neg hbuf]
    by_cases hfl : ∃ a ∈ flushed, ackKey a = some k
    · rw [if_pos hfl, if_pos (hcase.mpr (.inr hfl))]
    · rw [if_neg hfl, if_neg fun hc ↦ (hcase.mp hc).elim hbuf hfl]

theorem Follows.of_settled (h : Follows log s) {db : DB}
    (hdb : ∀ k, IsTaskKey k → (∀ a ∈ s.ackBuffer, ackKey a ≠ some k) → db[k]? = s.db[k]?) :
    Follows log { s with db } := by
  refine ⟨fun k hk ↦ ?_, h.alone, h.idle⟩
  rw [← h.settled_eq k hk]
  simp only [settled]
  congr 1
  by_cases hbuf : ∃ a ∈ s.ackBuffer ++ s.acks, ackKey a = some k
  · rw [if_pos hbuf, if_pos hbuf]
  · rw [if_neg hbuf, if_neg hbuf]
    exact hdb k hk fun a ha hc ↦ hbuf ⟨a, List.mem_append_left _ ha, hc⟩

theorem Follows.push (h : Follows log s) {si ok : Bool}
    (hok : ok = true ∧ ∀ t ∈ s.tasks, ∀ a ∈ s.ackBuffer, ∀ k ∈ recordKey t, ackKey a ≠ some k)
    (hs : s.step log (.push si ok) = some s') : Follows log s' := by
  obtain ⟨rfl, hclear⟩ := hok
  have hne : s.tasks ≠ [] := by
    intro hnil
    simp [StateMachine.step, hnil] at hs
  have hacks : s.acks = [] := h.alone.resolve_left hne
  obtain ⟨-, db, hdb, rfl⟩ | ⟨hf, -⟩ := StateMachine.step_push hs
  · refine ⟨fun k hk ↦ ?_, .inl rfl, fun hz ↦ ?_⟩
    · rw [← h.settled_eq k hk]
      simp only [settled, hacks, List.append_nil]
      rw [getElem?_saveAll_task hdb hk]
      cases hlast : (s.tasks.filter (recordKey · = some k)).getLast? with
      | none => rfl
      | some t =>
        -- the saved task has no ack in the buffer, so nothing takes it away again
        obtain ⟨ht, hkey⟩ := List.mem_filter.mp (List.mem_of_getLast? hlast)
        have hbuf : ¬∃ a ∈ s.ackBuffer, ackKey a = some k := by
          rintro ⟨a, ha, hak⟩
          exact hclear t ht a ha k (by simpa using hkey) hak
        simp [hbuf]
    · exact absurd (h.idle hz).2.1 hne
  · simp at hf

theorem Follows.step (h : Follows log s) {e : StateMachine.Event} (hone : OneEntry e)
    (hok : Logged { machine := s } (.machine e)) (hs : s.step log e = some s') :
    Follows log s' := by
  cases e with
  | applyBatch n =>
    -- the entry counts as settled from here on, by what is left to do for it
    obtain rfl : n = 1 := hone
    obtain ⟨hsize, hlen, rfl⟩ := StateMachine.step_applyBatch hs
    obtain ⟨e, he⟩ : ∃ e, log[s.applied]? = some e :=
      ⟨_, List.getElem?_eq_getElem (by omega : s.applied < log.length)⟩
    have hbatch : StateMachine.batch log s.applied 1 = [e] := by
      rw [StateMachine.batch, List.take_one, List.head?_drop, he]
      rfl
    have hframe : ∀ logs,
        (s.start logs).applied = s.applied ∧ (s.start logs).size = logs.length := by
      intro logs
      rw [StateMachine.start]
      split <;> exact ⟨rfl, rfl⟩
    have hdone := h.idle hsize
    rw [hbatch]
    refine ⟨fun k hk ↦ ?_, (settled_start hdone e []).2, fun hz ↦ ?_⟩
    · have hold := h.settled_eq k hk
      rw [hsize, Nat.add_zero] at hold
      rw [(settled_start hdone e k).1, hold, (hframe [e]).1, (hframe [e]).2, ← recordAt_concat,
        List.length_singleton, List.take_add_one, he]
      rfl
    · rw [(hframe [e]).2] at hz
      simp at hz
  | saveSetting ok =>
    obtain ⟨c, cs, hcs, ⟨-, rfl⟩ | ⟨-, rfl⟩⟩ := StateMachine.step_saveSetting hs
    · refine ⟨fun k hk ↦ ?_, h.alone, fun hz ↦ ?_⟩
      · have hdb : (saveSettings c s.db)[k]? = s.db[k]? := by
          rw [getElem?_saveSettings, if_neg]
          rintro rfl
          exact not_isTaskKey_config c.id hk
        rw [← h.settled_eq k hk]
        simp only [settled, hdb]
      · have := (h.idle hz).1
        simp [hcs] at this
    · refine ⟨h.settled_eq, h.alone, fun hz ↦ ?_⟩
      have := (h.idle hz).1
      simp [hcs] at this
  | push si ok => exact h.push hok hs
  | acknowledge ok =>
    obtain ⟨buffer, hsplit, rfl⟩ := StateMachine.step_acknowledge hs
    refine ⟨fun k hk ↦ ?_, .inr rfl, fun hz ↦ ?_⟩
    · rw [← h.settled_eq k hk]
      refine settled_flush [] (fun a ↦ ?_) rfl k
      rw [← hsplit, List.append_nil, List.mem_append]
    · obtain ⟨h1, h2, -⟩ := h.idle hz
      exact ⟨h1, h2, rfl⟩
  | flushTick ok =>
    obtain ⟨buffer, hsplit, rfl⟩ := StateMachine.step_flushTick hs
    refine ⟨fun k hk ↦ ?_, h.alone, h.idle⟩
    rw [← h.settled_eq k hk]
    refine settled_flush s.acks (fun a ↦ ?_) rfl k
    simp only [← hsplit, List.append_assoc, List.mem_append]
  | reply =>
    obtain ⟨hdone, rfl⟩ := StateMachine.step_reply hs
    exact ⟨fun k hk ↦ h.settled_eq k hk, h.alone, fun _ ↦ hdone⟩

/-! ## Feeds -/

theorem step_writeBack {qf : QueueConfig → Time → Option TaskRange} {db db' : DB} {r : Run}
    {e : RunEvent} {o : RunResult} (h : r.step qf db e = some (o, db')) :
    saveAll (writeBack r e) false db = some db' ∨ db' = db := by
  cases e with
  | executeQuery settings now now' =>
    obtain ⟨query, -, rfl, rfl, rfl⟩ := Run.step_executeQuery h
    exact .inr rfl
  | visit push now =>
    obtain ⟨it, watermark, tasks, rfl, rfl, -⟩ := Run.step_visit h
    exact .inr rfl
  | save ok =>
    obtain ⟨tasks, rfl, ⟨rfl, hsave, -⟩ | ⟨-, rfl, -⟩⟩ := Run.step_save h
    · exact .inl hsave
    · exact .inr rfl

theorem Follows.peerStep {x x' : Peer} {e : PeerEvent} (h : Follows log x.machine)
    (hok : Logged x e) (hs : x.step log e = some x') : Follows log x'.machine := by
  cases e with
  | machine e =>
    rw [Peer.step] at hs
    split at hs
    · rename_i hone
      obtain ⟨m, hm, rfl⟩ := Option.map_eq_some_iff.mp hs
      refine h.step hone ?_ hm
      cases e with
      | push si ok => exact hok
      | _ => trivial
    · simp at hs
  | feed scheduled =>
    obtain rfl := Option.some.inj hs
    exact h
  | read i now =>
    obtain ⟨d, -, rfl⟩ := Option.map_eq_some_iff.mp hs
    exact h
  | run i k e =>
    obtain ⟨d, hd, hs⟩ := Option.bind_eq_some_iff.mp hs
    obtain ⟨r, hr, hs⟩ := Option.bind_eq_some_iff.mp hs
    obtain ⟨⟨o, db⟩, ho, rfl⟩ := Option.map_eq_some_iff.mp hs
    refine h.of_settled fun key hkey hbuf ↦ ?_
    obtain hsave | rfl := step_writeBack ho
    · refine getElem?_saveAll_of_forall_ne hsave hkey fun t ht hrec ↦ ?_
      obtain ⟨a, ha, hak⟩ := hok d hd r hr t ht
      exact hbuf a ha (hak.trans hrec)
    · rfl

end

/-! ## The cluster -/

variable [DecidableEq ι] {log : List LogEntry}

theorem follows_of_logged {es : List (ι × PeerEvent)} {c : ι → Peer}
    (hok : Runs.Meets (step log) (fun c e ↦ Logged (c e.1) e.2) (fun _ ↦ {}) es)
    (hrun : Runs.run (step log) (fun _ ↦ {}) es = some c) (p : ι) : Follows log (c p).machine := by
  refine Runs.Meets.invariant (P := fun c ↦ ∀ p, Follows log (c p).machine) ?_
    (fun _ ↦ follows_start log) hok hrun p
  intro c e c' h hok hs p
  obtain ⟨x, hx, rfl⟩ := Option.map_eq_some_iff.mp hs
  by_cases hp : p = e.1
  · rw [hp, Function.update_self]
    exact (h e.1).peerStep hok hx
  · rw [Function.update_of_ne hp]
    exact h p

/-- **Replicas agree.** In every run in which task records are written only as the log says, two
peers that have applied the same entries and have empty ack buffers hold the same task records. -/
theorem agree_of_logged {es : List (ι × PeerEvent)} {c : ι → Peer}
    (hok : Runs.Meets (step log) (fun c e ↦ Logged (c e.1) e.2) (fun _ ↦ {}) es)
    (hrun : Runs.run (step log) (fun _ ↦ {}) es = some c) (p q : ι)
    (happlied : (c p).machine.applied = (c q).machine.applied)
    (hp : (c p).machine.size = 0 ∧ (c p).machine.ackBuffer = [])
    (hq : (c q).machine.size = 0 ∧ (c q).machine.ackBuffer = []) (k : Key) (hk : IsTaskKey k) :
    (c p).machine.db[k]? = (c q).machine.db[k]? := by
  have hrecord : ∀ p, (c p).machine.size = 0 ∧ (c p).machine.ackBuffer = [] →
      (c p).machine.db[k]? = recordAt (log.take (c p).machine.applied) k := by
    rintro p ⟨hsize, hbuf⟩
    have h := follows_of_logged hok hrun p
    obtain ⟨-, htasks, hacks⟩ := h.idle hsize
    have hset := h.settled_eq k hk
    rw [hsize, Nat.add_zero] at hset
    rw [← hset, settled, htasks, hacks, hbuf]
    simp
  rw [hrecord p hp, hrecord q hq, happlied]

/-- Two peers apply a push, one of them with a feed open. -/
def pushOnBoth : List (Bool × PeerEvent) :=
  [(true, .machine (.applyBatch 1)), (true, .machine (.push false true)), (true, .machine .reply),
    (false, .machine (.applyBatch 1)), (false, .machine (.push true true)),
    (false, .machine .reply), (true, .feed false), (true, .read 0 (.ofUnix 86400 0)),
    (true, .run 0 0 (.executeQuery (defaultConfig (lit "q")) (.ofUnix 86400 0) (.ofUnix 86400 0)))]

/-- The run goes on to push the task again and to write its retry time back. -/
def retryOnOne : List (Bool × PeerEvent) :=
  [(true, .run 0 0 (.visit .ok (.ofUnix 86401 0))),
    (true, .run 0 0 (.visit .ok (.ofUnix 86401 0))), (true, .run 0 0 (.save true))]

theorem agree_of_logged_pushOnBoth :
    ∃ c, Runs.run (step [.command (.task firstTask)]) (fun _ ↦ {}) pushOnBoth = some c ∧
      ∀ k, IsTaskKey k → (c true).machine.db[k]? = (c false).machine.db[k]? := by
  have h : (Runs.run (step [.command (.task firstTask)]) (fun _ ↦ {}) pushOnBoth).map
      (fun c ↦ decide ((c true).machine.applied = (c false).machine.applied ∧
        ((c true).machine.size = 0 ∧ (c true).machine.ackBuffer = []) ∧
        ((c false).machine.size = 0 ∧ (c false).machine.ackBuffer = []))) = some true := by
    decide +kernel
  obtain ⟨c, hrun, hc⟩ := Option.map_eq_some_iff.mp h
  obtain ⟨happlied, hp, hq⟩ := of_decide_eq_true hc
  exact ⟨c, hrun, agree_of_logged (by decide +kernel) hrun true false happlied hp hq⟩

theorem disagree_after_retryOnOne :
    ∃ c, Runs.run (step [.command (.task firstTask)]) (fun _ ↦ {}) (pushOnBoth ++ retryOnOne)
        = some c ∧
      (c true).machine.applied = (c false).machine.applied ∧
      ((c true).machine.size = 0 ∧ (c true).machine.ackBuffer = []) ∧
      ((c false).machine.size = 0 ∧ (c false).machine.ackBuffer = []) ∧
      ∃ k, IsTaskKey k ∧ (c true).machine.db[k]? ≠ (c false).machine.db[k]? := by
  have h : (Runs.run (step [.command (.task firstTask)]) (fun _ ↦ {})
      (pushOnBoth ++ retryOnOne)).map
      (fun c ↦ decide ((c true).machine.applied = (c false).machine.applied ∧
        ((c true).machine.size = 0 ∧ (c true).machine.ackBuffer = []) ∧
        ((c false).machine.size = 0 ∧ (c false).machine.ackBuffer = []) ∧
        ∃ k ∈ recordKey firstTask, (c true).machine.db[k]? ≠ (c false).machine.db[k]?))
      = some true := by decide +kernel
  obtain ⟨c, hrun, hc⟩ := Option.map_eq_some_iff.mp h
  obtain ⟨happlied, hp, hq, k, hk, hne⟩ := of_decide_eq_true hc
  exact ⟨c, hrun, happlied, hp, hq, k, isTaskKey_recordKey hk, hne⟩

end Z4.Agreement
