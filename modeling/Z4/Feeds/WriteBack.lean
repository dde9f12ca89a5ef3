import Z4.Feeds.Redelivery

/-!
# Acked tasks and the write-back

A redelivery run pushes tasks first and writes them back at its end, outside the Raft log and
without looking whether they are still there. In between, consumers ack what they were pushed and a
flush deletes it.

What a run can still write is `Run.pending`: the tasks it has pushed and the due tasks its iterator
has yet to reach, which lie in the snapshot the iterator was opened on. A flush that deletes none
of them is harmless, and then what was deleted stays deleted, `StaysGone`.
-/

namespace Z4.Redelivery

open KeyValue

variable {ι : Type}

/-! ## What a run may write -/

/-- The tasks an iterator has ahead of it that are to be retried. -/
def dueTasks (it : TaskIterator) (watermark : Time) : List Task :=
  ((it.it.filter (within it.pre it.stop)).filterMap TaskIterator.taskOf).filter
    (retryTask · watermark)

/-- The tasks a run has pushed or may still push: they are what it writes back. -/
def Run.pending : Run → List Task
  | .started => []
  | .scanning it watermark tasks => tasks ++ dueTasks it watermark
  | .saving tasks => tasks

/-- No run under way holds a task that the step deletes. -/
def Undisturbed (s : System ι) (e : Event ι) : Prop :=
  ∀ i, ∀ r ∈ (s.readers i).runs, ∀ t ∈ r.pending, ∀ k ∈ ackKeys (flushed s e),
    recordKey t ≠ some k

instance [Fintype ι] (s : System ι) (e : Event ι) : Decidable (Undisturbed s e) :=
  inferInstanceAs (Decidable (∀ i, ∀ r ∈ (s.readers i).runs, _))

theorem dueTasks_of_next {it it' : TaskIterator} {t : Task} (h : it.next = (it', .ok t))
    (watermark : Time) : dueTasks it watermark
      = (if retryTask t watermark then [t] else []) ++ dueTasks it' watermark := by
  obtain ⟨e, rest, hit, rfl, hin, htask⟩ := TaskIterator.next_eq_ok h
  rw [dueTasks, hit, List.filter_cons_of_pos hin, List.filterMap_cons_some htask, List.filter_cons,
    dueTasks]
  split <;> rfl

theorem mem_dueTasks_new {db : DB} {query : TaskRange} {watermark : Time} {t : Task}
    (h : t ∈ dueTasks (newTaskIterator db query) watermark) :
    ∃ k, IsTaskKey k ∧ db[k]? = some (.task t) := by
  obtain ⟨⟨k, v⟩, he, htask⟩ := List.mem_filterMap.mp (List.mem_filter.mp h).1
  obtain ⟨hseek, hin⟩ := List.mem_filter.mp he
  rw [newTaskIterator, seekGE_eq_filter] at hseek
  rw [within, Bool.and_eq_true, List.isPrefixOf_iff_prefix] at hin
  have hget := mem_toList.mp (List.mem_filter.mp hseek).1
  refine ⟨k, TaskRange.isTaskKey_of_prefix hin.1, ?_⟩
  rw [TaskIterator.taskOf] at htask
  split at htask
  · rename_i u hu
    rw [← Option.some.inj htask, ← hu]
    exact hget
  · simp at htask

/-- What a step of a run writes and holds: either it writes back what it held, or it writes nothing
and holds tasks it held before, up to their retry time, or tasks it has just read. -/
theorem Run.step_cases {qf : QueueConfig → Time → Option TaskRange} {db db' : DB} {r : Run}
    {e : RunEvent} {o : RunResult} (h : r.step qf db e = some (o, db')) :
    o = .returned true ∧ saveAll r.pending false db = some db' ∨
      db' = db ∧ ∀ r', o = .running r' → ∀ t ∈ r'.pending,
        (∃ u ∈ r.pending, recordKey u = recordKey t) ∨
          ∃ k, IsTaskKey k ∧ db[k]? = some (.task t) := by
  cases e with
  | executeQuery settings now now' =>
    obtain ⟨query, -, rfl, rfl, rfl⟩ := Run.step_executeQuery h
    refine .inr ⟨rfl, fun r' hr' t ht ↦ .inr ?_⟩
    rw [← RunResult.running.inj hr', Run.pending, List.nil_append] at ht
    exact mem_dueTasks_new ht
  | visit push now =>
    obtain ⟨it, watermark, tasks, rfl, rfl, hround⟩ := Run.step_visit h
    refine .inr ⟨rfl, fun r' hr' t ht ↦ .inl ?_⟩
    subst hr'
    generalize ho : RunResult.running r' = o at hround
    cases hround with
    | skip hnext hdue =>
      obtain rfl := RunResult.running.inj ho
      refine ⟨t, ?_, rfl⟩
      rwa [Run.pending, dueTasks_of_next hnext, if_neg (by simp [hdue]), List.nil_append]
    | @handOver it' task hnext hdue hpush =>
      obtain rfl := RunResult.running.inj ho
      rw [Run.pending, List.append_assoc, List.mem_append, List.mem_append,
        List.mem_singleton] at ht
      rw [Run.pending, dueTasks_of_next hnext, if_pos hdue]
      rcases ht with ht | rfl | ht
      · exact ⟨t, by simp [ht], rfl⟩
      · exact ⟨task, by simp, rfl⟩
      · exact ⟨t, by simp [ht], rfl⟩
    | ended hend =>
      rcases afterQuery_cases tasks with hsaving | ⟨-, hreturned⟩
      · rw [hsaving] at ho
        obtain rfl := RunResult.running.inj ho
        exact ⟨t, List.mem_append_left _ ht, rfl⟩
      · simp [hreturned] at ho
    | failed herr => simp at ho
  | save ok =>
    obtain ⟨tasks, rfl, ⟨-, hsave, rfl⟩ | ⟨-, rfl, rfl⟩⟩ := Run.step_save h
    · exact .inl ⟨rfl, hsave⟩
    · exact .inr ⟨rfl, fun r' hr' ↦ by simp at hr'⟩

/-- No run of the reader holds a task with one of the keys. -/
def Reader.Clear (keys : List Key) (d : Reader) : Prop :=
  ∀ r ∈ d.runs, ∀ t ∈ r.pending, ∀ k ∈ keys, recordKey t ≠ some k

/-- What was deleted is absent, and no run can bring it back. -/
structure StaysGone (s : System ι) : Prop where
  filed : Filed s.db
  isTaskKey : ∀ k ∈ s.gone, IsTaskKey k
  absent : ∀ k ∈ s.gone, s.db[k]? = none
  clear : ∀ i, (s.readers i).Clear s.gone

section

variable {s s' : System ι}

theorem StaysGone.saveAll (h : StaysGone s) {tasks : List Task} {si : Bool} {db : DB}
    (hsave : saveAll tasks si s.db = some db)
    (hne : ∀ t ∈ tasks, ∀ k ∈ s.gone, recordKey t ≠ some k) : StaysGone { s with db } where
  filed := h.filed.saveAll hsave
  isTaskKey := h.isTaskKey
  absent k hk := (getElem?_saveAll_of_forall_ne hsave (h.isTaskKey k hk)
    fun t ht ↦ hne t ht k hk).trans (h.absent k hk)
  clear := h.clear

theorem StaysGone.deleteAll (h : StaysGone s) {acks buffer : List Ack}
    (hne : ∀ i, (s.readers i).Clear (ackKeys acks)) :
    StaysGone { s with ackBuffer := buffer, db := deleteAll acks s.db,
                       gone := s.gone ++ ackKeys acks } where
  filed := h.filed.deleteAll acks
  isTaskKey k hk := by
    rcases List.mem_append.mp hk with hk | hk
    · exact h.isTaskKey k hk
    · obtain ⟨a, -, ha⟩ := List.mem_filterMap.mp hk
      exact isTaskKey_ackKey ha
  absent k hk := by
    rw [getElem?_deleteAll]
    split
    · rfl
    · rename_i hnone
      rcases List.mem_append.mp hk with hk | hk
      · exact h.absent k hk
      · exact absurd (List.mem_filterMap.mp hk) hnone
  clear i r hr t ht k hk := by
    rcases List.mem_append.mp hk with hk | hk
    · exact h.clear i r hr t ht k hk
    · exact hne i r hr t ht k hk

variable [DecidableEq ι]

theorem StaysGone.setReader (h : StaysGone s) (i : ι) {d : Reader} (hd : d.Clear s.gone) :
    StaysGone (s.setReader i d) where
  filed := h.filed
  isTaskKey := h.isTaskKey
  absent := h.absent
  clear := forall_setReader h.clear hd

/-- A step of a run writes back only what it held, and holds only what is still there. -/
theorem StaysGone.run (h : StaysGone s) {i : ι} {k : ℕ} {r : Run} {e : RunEvent} {o : RunResult}
    {db : DB} (hr : (s.readers i).runs[k]? = some r)
    (hs : r.step (s.readers i).qf s.db e = some (o, db)) :
    StaysGone { s.setReader i ((s.readers i).advance k o) with db } := by
  have hmem : r ∈ (s.readers i).runs := List.mem_of_getElem? hr
  obtain ⟨rfl, hsave⟩ | ⟨rfl, hheld⟩ := Run.step_cases hs
  · refine (h.setReader i ?_).saveAll hsave (h.clear i r hmem)
    exact fun r' hr' ↦ h.clear i r' (List.eraseIdx_subset hr')
  · refine h.setReader i ?_
    cases o with
    | running r' =>
      intro r'' hr'' t ht key hkey
      rcases List.mem_or_eq_of_mem_set hr'' with hold | rfl
      · exact h.clear i r'' hold t ht key hkey
      · rcases hheld r'' rfl t ht with ⟨u, hu, hut⟩ | ⟨key', htask, hget⟩
        · exact hut ▸ h.clear i r hmem u hu key hkey
        · -- a task read from the store is filed under its key, and that is not a deleted one
          obtain ⟨u, hu, hrec⟩ := h.filed key' _ htask hget
          obtain rfl : t = u := by simpa using hu
          rintro heq
          obtain rfl : key' = key := Option.some.inj (hrec.symm.trans heq)
          rw [h.absent key' hkey] at hget
          simp at hget
    | returned lowered => exact fun r' hr' ↦ h.clear i r' (List.eraseIdx_subset hr')

theorem StaysGone.step {e : Event ι} (h : StaysGone s) (hok : Undisturbed s e)
    (hs : step s e = some s') : StaysGone s' := by
  cases e with
  | read i now =>
    obtain rfl := Option.some.inj hs
    refine h.setReader i fun r hr t ht ↦ ?_
    rcases List.mem_append.mp hr with hr | hr
    · exact h.clear i r hr t ht
    · rw [List.mem_singleton.mp hr] at ht
      simp [Run.pending] at ht
  | run i k e =>
    rw [Redelivery.step] at hs
    split at hs
    · simp at hs
    · rename_i r hr
      obtain ⟨⟨o, db⟩, ho, rfl⟩ := Option.map_eq_some_iff.mp hs
      exact h.run hr ho
  | saveTasks tasks si =>
    rw [Redelivery.step] at hs
    split at hs
    · rename_i hne
      obtain ⟨db, hdb, rfl⟩ := Option.map_eq_some_iff.mp hs
      exact h.saveAll hdb hne
    · simp at hs
  | ack acks ok =>
    rw [Redelivery.step, snd_acknowledge] at hs
    obtain rfl := Option.some.inj hs
    exact h.deleteAll hok
  | tick ok =>
    rw [Redelivery.step, snd_flushTick] at hs
    obtain rfl := Option.some.inj hs
    exact h.deleteAll hok

end

variable [DecidableEq ι]

/-- **What was acked stays gone**, as long as no flush deletes a task that a run under way has
pushed or has yet to push. -/
theorem absent_of_undisturbed {s₀ s : System ι} {es : List (Event ι)} (hfiled : Filed s₀.db)
    (hruns : ∀ i, (s₀.readers i).runs = []) (hgone : s₀.gone = [])
    (hok : Runs.Meets step Undisturbed s₀ es) (hrun : Runs.run step s₀ es = some s) :
    ∀ k ∈ s.gone, s.db[k]? = none := by
  have h₀ : StaysGone s₀ :=
    ⟨hfiled, by simp [hgone], by simp [hgone], fun i r hr ↦ by simp [hruns i] at hr⟩
  exact (Runs.Meets.invariant (fun s e s' ↦ StaysGone.step) h₀ hok hrun).absent

/-- The ack of the task in the old store. -/
def oldAck : Ack := ⟨firstTask.reference⟩

theorem filed_oldStore : Filed oldStore := by
  have hsome : (saveAll [firstTask] false ∅).isSome := by decide +kernel
  obtain ⟨db, hdb⟩ := Option.isSome_iff_exists.mp hsome
  have hstore : oldStore = db := by rw [oldStore, hdb, Option.getD_some]
  exact hstore ▸ filed_empty.saveAll hdb

/-- Another task of the queue. -/
def otherTask : Task := makeTask { queue := lit "q" } (.ofUnix 0 0) (.ofUnix 0 0) 2

/-- The first task is acked and flushed before the scan begins, which pushes the other and writes it
back. -/
def otherScan : List (Event Unit) :=
  [.saveTasks [otherTask] true, .ack [oldAck] true, .tick true] ++ dailyScan ++
    [.run () 0 (.visit .ok (.ofUnix 86402 0)), .run () 0 (.save true)]

theorem absent_of_undisturbed_otherScan : ∃ s,
    Runs.run step { db := oldStore, readers := fun _ ↦ fifoReader } otherScan = some s ∧
      s.gone.length = 1 ∧
      s.db[getFifoTaskKey (lit "q") (.new .zero 2)]?
        = some (.task { otherTask with lastRetry := some (.new (.ofUnix 86401 0)) }) ∧
      ∀ k ∈ s.gone, s.db[k]? = none := by
  have hend : (Runs.run step { db := oldStore, readers := fun _ ↦ fifoReader } otherScan).map
      (fun s ↦ (s.gone.length, s.db[getFifoTaskKey (lit "q") (.new .zero 2)]?))
      = some (1, some (.task { otherTask with lastRetry := some (.new (.ofUnix 86401 0)) })) := by
    decide +kernel
  obtain ⟨s, hs, heq⟩ := Option.map_eq_some_iff.mp hend
  obtain ⟨hgone, hback⟩ := Prod.mk.inj heq
  exact ⟨s, hs, hgone, hback,
    absent_of_undisturbed filed_oldStore (fun _ ↦ rfl) rfl (by decide +kernel) hs⟩

/-- Acked and flushed between the push and the write-back, the task is stored again. -/
theorem present_after_flush_in_dailyScan : ∃ s,
    Runs.run step { db := oldStore, readers := fun _ ↦ fifoReader }
      (dailyScan ++ [.ack [oldAck] true, .tick true, .run () 0 (.visit .ok (.ofUnix 86402 0)),
        .run () 0 (.save true)]) = some s ∧ ¬∀ k ∈ s.gone, s.db[k]? = none := by
  have h : (Runs.run step { db := oldStore, readers := fun _ ↦ fifoReader }
      (dailyScan ++ [.ack [oldAck] true, .tick true, .run () 0 (.visit .ok (.ofUnix 86402 0)),
        .run () 0 (.save true)])).map (fun s ↦ decide (∀ k ∈ s.gone, s.db[k]? = none))
      = some false := by decide +kernel
  obtain ⟨s, hs, hd⟩ := Option.map_eq_some_iff.mp h
  exact ⟨s, hs, of_decide_eq_false hd⟩

end Z4.Redelivery
