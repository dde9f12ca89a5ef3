import Z4.Feeds.Undelivered
import Z4.Foundations.Runs
import Z4.Storage.Sequence

/-!
# First delivery in order

Pushes to one queue run concurrently on the leader. Each takes its index from the sequence and is
then committed, in whatever order the pushes reach Raft; the leader saves what is committed in
batches. Meanwhile the FIFO `undeliveredReader` of the queue's feed is called again and again.

The reader resumes after the last index it pushed. A push that took its index early and is saved
late lies behind that index, and the reader never returns to it. `InOrder` excludes exactly such
batches: what is saved lies past everything the reader has pushed or has ahead. Then the pushed
tasks are an initial piece of the saved ones at any time, and one more call of `Read` pushes the
rest.
-/

namespace Z4.Delivery

open KeyValue
open scoped List

/-! ## The leader and the reader -/

structure State where
  db : DB := ∅
  cache : SeqCache := ∅
  /-- Tasks with an index that are not committed yet. -/
  waiting : List Task := []
  /-- Committed tasks that are not saved yet, in the order of the log. -/
  committed : List Task := []
  saved : List Task := []
  reader : UndeliveredReader
  /-- What the reader has pushed into the feed. -/
  pushed : List Task := []

/-- A queue that has not been used. -/
def State.init (q : GoString) : State where
  reader := { settings := defaultConfig q }

inductive Event where
  /-- `makeTask` for a request without a schedule, with the outcomes of the storage writes. -/
  | take (req : PushTaskRequest) (created now : Time) (loadOk nextOk : Bool)
  /-- A waiting push is committed. -/
  | commit (k : ℕ)
  /-- The next `n` committed tasks are saved as one batch. -/
  | apply (n : ℕ)
  /-- `Read` is called. -/
  | query
  /-- One round of the loop in `Read`. -/
  | visit

/-- One step on the leader of the queue `q`, which saves tasks without their indexes. -/
def step (q : GoString) (s : State) : Event → Option State
  | .take req created now loadOk nextOk =>
    if req.queue = q ∧ (getRunTime req now).isZero = true then
      let r := indexStoreNext s.cache s.db req.queue loadOk nextOk
      let s := { s with cache := r.1, db := r.2.1 }
      match r.2.2 with
      | none => some s
      | some i => some { s with waiting := s.waiting ++ [makeTask req created now i] }
    else none
  | .commit k =>
    match s.waiting[k]? with
    | none => none
    | some t =>
      some { s with waiting := s.waiting.eraseIdx k, committed := s.committed ++ [t] }
  | .apply n =>
    (saveAll (s.committed.take n) false s.db).map fun db ↦
      { s with db, committed := s.committed.drop n, saved := s.saved ++ s.committed.take n }
  | .query => (s.reader.query s.db).map fun reader ↦ { s with reader }
  | .visit =>
    match s.reader.visit with
    | none => none
    | some (reader, none) => some { s with reader }
    | some (reader, some t) => some { s with reader, pushed := s.pushed ++ [t] }

/-- The index the sequence of the queue stands at. -/
def State.position (s : State) (q : GoString) : ℕ := (counter s.cache s.db q).toNat

/-- Batches are saved in order, as far as the reader has got: a task that is saved lies past all
that the reader has pushed or has ahead. Indexes stay below the largest one. -/
def InOrder (q : GoString) (s : State) : Event → Prop
  | .take _ _ _ _ _ => s.position q + 2 < 2 ^ 64
  | .apply n => ∀ t ∈ s.committed.take n, ∀ u ∈ s.pushed ++ s.reader.ahead,
      taskIndex u < taskIndex t
  | _ => True

instance (q : GoString) (s : State) : (e : Event) → Decidable (InOrder q s e)
  | .take _ _ _ _ _ => inferInstanceAs (Decidable (_ < _))
  | .apply _ => inferInstanceAs (Decidable (∀ t ∈ _, ∀ u ∈ _, _ < _))
  | .commit _ | .query | .visit => .isTrue trivial

/-! ## The invariant -/

/-- All tasks that have an index. -/
def State.tasks (s : State) : List Task := s.waiting ++ s.committed ++ s.saved

/-- Indexes are given out once, in increasing order, and the store has the saved tasks. -/
structure Issued (q : GoString) (s : State) : Prop where
  filed : s.cache.WellFiled
  room : s.position q + 1 < 2 ^ 64
  fifo : ∀ t ∈ s.tasks, IsFifo q t
  le_position : ∀ t ∈ s.tasks, taskIndex t ≤ s.position q
  distinct : (s.tasks.map taskIndex).Nodup
  only : OnlyQueue q s.db
  stored : ∀ t, Stored s.db t ↔ t ∈ s.saved

/-- The pushed tasks are those saved below `next`, and the reader goes on from there. -/
structure Delivering (q : GoString) (s : State) (next : ℕ) : Prop where
  reads : Reads q s.db s.reader next
  sorted : s.pushed.Pairwise fun t u ↦ taskIndex t < taskIndex u
  from_saved : ∀ t ∈ s.pushed ++ s.reader.ahead, t ∈ s.saved
  behind : ∀ t ∈ s.pushed, taskIndex t < next
  rest : ∀ t ∈ s.saved, t ∈ s.pushed ∨ next ≤ taskIndex t
  reached : next = 0 ∨ ∃ t ∈ s.pushed, next = taskIndex t + 1

def Inv (q : GoString) (s : State) : Prop := Issued q s ∧ ∃ next, Delivering q s next

section

variable {q : GoString} {s s' : State} {next : ℕ}

theorem inv_init (q : GoString) : Inv q (.init q) := by
  refine ⟨⟨?_, ?_, ?_, ?_, ?_, onlyQueue_empty q, ?_⟩, 0,
    ⟨reads_default q ∅, .nil, ?_, ?_, ?_, .inl rfl⟩⟩
  · intro r x hx
    simp [State.init] at hx
  · have hzero : (State.init q).position q = 0 := by
      simp [State.position, State.init, counter, storedIndex]
    omega
  all_goals simp [State.init, State.tasks, Stored, UndeliveredReader.ahead]

theorem Issued.small (h : Issued q s) {t : Task} (ht : Stored s.db t) :
    taskIndex t + 1 < 2 ^ 64 := by
  have hle := h.le_position t (List.mem_append_right _ ((h.stored t).mp ht))
  have hroom := h.room
  omega

theorem Issued.eq_of_taskIndex_eq (h : Issued q s) {t u : Task} (ht : t ∈ s.tasks)
    (hu : u ∈ s.tasks) (heq : taskIndex t = taskIndex u) : t = u :=
  List.inj_on_of_nodup_map h.distinct ht hu heq

theorem Issued.move (h : Issued q s) (hperm : s'.tasks ~ s.tasks) (hcache : s'.cache = s.cache)
    (hcount : s'.db[getSeqKey q]? = s.db[getSeqKey q]?) (honly : OnlyQueue q s'.db)
    (hstored : ∀ t, Stored s'.db t ↔ t ∈ s'.saved) : Issued q s' := by
  have hpos : s'.position q = s.position q := by
    rw [State.position, State.position, hcache, counter_congr hcount]
  refine ⟨hcache ▸ h.filed, hpos ▸ h.room, fun t ht ↦ h.fifo t (hperm.mem_iff.mp ht),
    fun t ht ↦ hpos ▸ h.le_position t (hperm.mem_iff.mp ht), ?_, honly, hstored⟩
  exact (hperm.map taskIndex).nodup_iff.mpr h.distinct

/-! ### Taking an index -/

theorem Delivering.cast (h : Delivering q s next) (hdb : ∀ t, Stored s'.db t ↔ Stored s.db t)
    (hsaved : s'.saved = s.saved) (hreader : s'.reader = s.reader)
    (hpushed : s'.pushed = s.pushed) : Delivering q s' next := by
  refine ⟨?_, hpushed ▸ h.sorted, ?_, hpushed ▸ h.behind, ?_, hpushed ▸ h.reached⟩
  · rw [hreader]
    exact h.reads.store fun t ht hfifo _ ↦ .inl ⟨t, (hdb t).mp ht, hfifo, rfl⟩
  · rw [hpushed, hreader, hsaved]
    exact h.from_saved
  · rw [hpushed, hsaved]
    exact h.rest

/-- A new task goes behind the others, with the index above all of them. -/
theorem Issued.issue (h : Issued q s) {t : Task} {cache : SeqCache} {db : DB}
    (hfiled : cache.WellFiled) (honly : OnlyQueue q db)
    (hstored : ∀ t, Stored db t ↔ Stored s.db t) (hok : s.position q + 2 < 2 ^ 64)
    (hpos : (counter cache db q).toNat = s.position q + 1) (hfifo : IsFifo q t)
    (hidx : taskIndex t = s.position q + 1) :
    Issued q { s with cache, db, waiting := s.waiting ++ [t] } := by
  have hperm : State.tasks { s with cache, db, waiting := s.waiting ++ [t] } ~ t :: s.tasks := by
    rw [State.tasks, State.tasks, List.append_assoc, List.append_assoc, List.append_assoc]
    exact List.perm_middle
  have hnew : taskIndex t ∉ s.tasks.map taskIndex := by
    rw [List.mem_map]
    rintro ⟨u, hu, heq⟩
    have := h.le_position u hu
    omega
  refine ⟨hfiled, ?_, ?_, ?_, ?_, honly, fun t ↦ (hstored t).trans (h.stored t)⟩
  · rw [State.position, hpos]
    omega
  · intro u hu
    rcases List.mem_cons.mp (hperm.mem_iff.mp hu) with rfl | hu
    · exact hfifo
    · exact h.fifo u hu
  · intro u hu
    rw [State.position, hpos]
    rcases List.mem_cons.mp (hperm.mem_iff.mp hu) with rfl | hu
    · exact hidx.le
    · exact (h.le_position u hu).trans (by omega)
  · rw [(hperm.map taskIndex).nodup_iff, List.map_cons, List.nodup_cons]
    exact ⟨hnew, h.distinct⟩

theorem Inv.take {req : PushTaskRequest} (created : Time) {now : Time} {loadOk nextOk : Bool}
    (h : Inv q s) (hok : s.position q + 2 < 2 ^ 64) (hq : req.queue = q)
    (htime : (getRunTime req now).isZero = true) {cache : SeqCache} {db : DB} {idx : Option UInt64}
    (hnext : indexStoreNext s.cache s.db req.queue loadOk nextOk = (cache, db, idx)) :
    Inv q { s with cache, db, waiting := s.waiting ++
      (idx.map (makeTask req created now)).toList } := by
  obtain ⟨hissued, next, hdel⟩ := h
  have hframe : ∀ k, IsTaskKey k → db[k]? = s.db[k]? := fun k hk ↦
    getElem?_indexStoreNext_of_ne hissued.filed (fun hc ↦ not_isTaskKey_seq _ (hc ▸ hk)) hnext
  have hstored : ∀ t, Stored db t ↔ Stored s.db t := fun t ↦ stored_congr hframe
  have honly := hissued.only.congr hframe
  have hfiled := hissued.filed.indexStoreNext hnext
  refine ⟨?_, next, hdel.cast hstored rfl rfl rfl⟩
  subst hq
  cases idx with
  | none =>
    have hcount := indexStoreNext_eq_none hissued.filed hnext
    refine ⟨hfiled, ?_, ?_, ?_, ?_, honly, fun t ↦ (hstored t).trans (hissued.stored t)⟩
    · rw [State.position, hcount]
      exact hissued.room
    · simpa [State.tasks] using hissued.fifo
    · simpa [State.tasks, State.position, hcount] using hissued.le_position
    · simpa [State.tasks] using hissued.distinct
  | some i =>
    -- the index is one past the position, below which all tasks so far have theirs
    obtain ⟨hi, hcount⟩ := indexStoreNext_eq_some hissued.filed hnext
    have hpos : i.toNat = s.position req.queue + 1 := by
      rw [hi, UInt64.toNat_add, UInt64.toNat_one]
      exact Nat.mod_eq_of_lt (by rw [← State.position]; omega)
    have hns : ¬Push.Scheduled ⟨req, created, now, i⟩ := by
      rw [Push.Scheduled, Push.runTime, htime]
      simp
    have hidx : taskIndex (makeTask req created now i) = i.toNat :=
      Push.taskIndex_task ⟨req, created, now, i⟩ (Push.le_toNat_id_of_not_scheduled _ hns)
    exact hissued.issue hfiled honly hstored hok (hcount ▸ hpos) (isFifo_task hns)
      (hidx.trans hpos)

/-! ### Committing and saving -/

theorem Inv.commit (h : Inv q s) {k : ℕ} {t : Task} (ht : s.waiting[k]? = some t) :
    Inv q { s with waiting := s.waiting.eraseIdx k, committed := s.committed ++ [t] } := by
  obtain ⟨hissued, next, hdel⟩ := h
  obtain ⟨hk, rfl⟩ := List.getElem?_eq_some_iff.mp ht
  refine ⟨hissued.move ?_ rfl rfl hissued.only hissued.stored, next,
    hdel.cast (fun _ ↦ Iff.rfl) rfl rfl rfl⟩
  have herase : s.waiting[k] :: s.waiting.eraseIdx k ~ s.waiting :=
    List.getElem_cons_eraseIdx_perm hk
  have hmove : s.waiting.eraseIdx k ++ (s.committed ++ [s.waiting[k]])
      ~ s.waiting ++ s.committed :=
    calc s.waiting.eraseIdx k ++ (s.committed ++ [s.waiting[k]])
      _ ~ s.waiting.eraseIdx k ++ (s.waiting[k] :: s.committed) :=
        (List.perm_append_singleton _ _).append_left _
      _ ~ s.waiting[k] :: (s.waiting.eraseIdx k ++ s.committed) := List.perm_middle
      _ ~ s.waiting ++ s.committed := herase.append_right _
  exact hmove.append_right _

theorem Inv.apply (h : Inv q s) {n : ℕ} {db : DB}
    (hok : ∀ t ∈ s.committed.take n, ∀ u ∈ s.pushed ++ s.reader.ahead, taskIndex u < taskIndex t)
    (hsave : saveAll (s.committed.take n) false s.db = some db) :
    Inv q { s with db, committed := s.committed.drop n,
                   saved := s.saved ++ s.committed.take n } := by
  obtain ⟨hissued, next, hdel⟩ := h
  have hbatch : ∀ t ∈ s.committed.take n, t ∈ s.tasks := fun t ht ↦
    List.mem_append_left _ (List.mem_append_right _ (List.mem_of_mem_take ht))
  have hsaved : ∀ t, Stored s.db t → t ∈ s.tasks := fun t ht ↦
    List.mem_append_right _ ((hissued.stored t).mp ht)
  have hkey : ∀ t ∈ s.tasks, ∀ u ∈ s.tasks, recordKey t = recordKey u → t = u := by
    intro t ht u hu heq
    exact hissued.eq_of_taskIndex_eq ht hu
      (((hissued.fifo t ht).recordKey_eq_iff (hissued.fifo u hu)).mp heq)
  have hstored : ∀ t, Stored db t ↔ t ∈ s.saved ++ s.committed.take n := by
    intro t
    rw [List.mem_append, ← hissued.stored, or_comm]
    refine ⟨mem_or_stored_of_saveAll hsave, fun ht ↦ ?_⟩
    have htask : t ∈ s.tasks := ht.elim (hbatch t) (hsaved t)
    exact (stored_saveAll hsave fun u hu heq ↦ hkey u (hbatch u hu) t htask heq).mpr ht
  have hnext : ∀ t ∈ s.committed.take n, next ≤ taskIndex t := by
    intro t ht
    rcases hdel.reached with h0 | ⟨u, hu, hun⟩
    · omega
    · exact hun ▸ hok t ht u (List.mem_append_left _ hu)
  refine ⟨hissued.move ?_ rfl ?_ ?_ hstored, next, ⟨?_, hdel.sorted, ?_, hdel.behind, ?_,
    hdel.reached⟩⟩
  · have hsplit : s.committed.drop n ++ (s.saved ++ s.committed.take n)
        ~ s.committed ++ s.saved :=
      calc s.committed.drop n ++ (s.saved ++ s.committed.take n)
        _ ~ s.saved ++ s.committed.take n ++ s.committed.drop n := List.perm_append_comm
        _ = s.saved ++ s.committed := by rw [List.append_assoc, List.take_append_drop]
        _ ~ s.committed ++ s.saved := List.perm_append_comm
    rw [State.tasks, State.tasks, List.append_assoc, List.append_assoc]
    exact hsplit.append_left _
  · rw [getElem?_saveAll_seq hsave, if_neg (by simp)]
  · exact hissued.only.saveAll (fun t ht ↦ (hissued.fifo t (hbatch t ht)).queue_eq) hsave
  · -- what is saved now lies past everything that a read under way has ahead of it
    refine hdel.reads.store fun t ht hfifo _ ↦ ?_
    rcases List.mem_append.mp ((hstored t).mp ht) with hold | hnew
    · exact .inl ⟨t, (hissued.stored t).mpr hold, hfifo, rfl⟩
    · exact .inr fun u hu ↦ hok t hnew u (List.mem_append_right _ hu)
  · exact fun t ht ↦ List.mem_append_left _ (hdel.from_saved t ht)
  · intro t ht
    rcases List.mem_append.mp ht with hold | hnew
    · exact hdel.rest t hold
    · exact .inr (hnext t hnew)

/-! ### Reading -/

theorem Inv.query (h : Inv q s) {reader : UndeliveredReader}
    (hr : s.reader.query s.db = some reader) :
    Inv q { s with reader } ∧ ∀ t ∈ s.saved, t ∈ s.pushed ++ reader.ahead := by
  obtain ⟨hissued, next, hdel⟩ := h
  obtain ⟨hreads, hmem⟩ := hdel.reads.query hissued.only (fun _ ht _ ↦ hissued.small ht) hr
  refine ⟨⟨hissued.move .rfl rfl rfl hissued.only hissued.stored, next,
    ⟨hreads, hdel.sorted, ?_, hdel.behind, hdel.rest, hdel.reached⟩⟩, ?_⟩
  · intro t ht
    rcases List.mem_append.mp ht with ht | ht
    · exact hdel.from_saved t (List.mem_append_left _ ht)
    · exact (hissued.stored t).mp ((hmem t).mp ht).1
  · intro t ht
    rcases hdel.rest t ht with hpushed | hle
    · exact List.mem_append_left _ hpushed
    · exact List.mem_append_right _ ((hmem t).mpr ⟨(hissued.stored t).mpr ht,
        hissued.fifo t (List.mem_append_right _ ht), hle⟩)

theorem Inv.visit (h : Inv q s) {reader : UndeliveredReader} {t : Task}
    (hr : s.reader.visit = some (reader, some t)) :
    Inv q { s with reader, pushed := s.pushed ++ [t] } ∧ s.reader.ahead = t :: reader.ahead := by
  obtain ⟨hissued, next, hdel⟩ := h
  obtain ⟨hcons, hreads⟩ := hdel.reads.visit hr
  have hhead : t ∈ s.reader.ahead := hcons ▸ List.mem_cons_self
  have hnext := hdel.reads.from_next t hhead
  have htsaved := hdel.from_saved t (List.mem_append_right _ hhead)
  refine ⟨⟨hissued.move .rfl rfl rfl hissued.only hissued.stored, taskIndex t + 1,
    ⟨hreads, ?_, ?_, ?_, ?_, .inr ⟨t, List.mem_append_right _ List.mem_cons_self, rfl⟩⟩⟩, hcons⟩
  · rw [List.pairwise_append]
    refine ⟨hdel.sorted, List.pairwise_singleton _ _, fun u hu v hv ↦ ?_⟩
    rw [List.mem_singleton.mp hv]
    exact (hdel.behind u hu).trans_le hnext
  · intro u hu
    rw [List.append_assoc, List.singleton_append, ← hcons] at hu
    exact hdel.from_saved u hu
  · intro u hu
    rcases List.mem_append.mp hu with hu | hu
    · exact (hdel.behind u hu).trans_le (by omega)
    · rw [List.mem_singleton.mp hu]
      omega
  · intro u hu
    rcases hdel.rest u hu with hpushed | hle
    · exact .inl (List.mem_append_left _ hpushed)
    · have hutask : u ∈ s.tasks := List.mem_append_right _ hu
      rcases hdel.reads.le_or_eq hr ((hissued.stored u).mpr hu) (hissued.fifo u hutask) hle with
        heq | hlt
      · obtain rfl := hissued.eq_of_taskIndex_eq hutask (List.mem_append_right _ htsaved) heq
        exact .inl (List.mem_append_right _ List.mem_cons_self)
      · exact .inr hlt

theorem Inv.visit_none (h : Inv q s) {reader : UndeliveredReader}
    (hr : s.reader.visit = some (reader, none)) :
    Inv q { s with reader } ∧ s.reader.ahead = [] ∧ reader.reading = none := by
  obtain ⟨hissued, next, hdel⟩ := h
  obtain ⟨hnil, hidle, hreads⟩ := hdel.reads.visit_none hr
  refine ⟨⟨hissued.move .rfl rfl rfl hissued.only hissued.stored, next,
    ⟨hreads, hdel.sorted, ?_, hdel.behind, hdel.rest, hdel.reached⟩⟩, hnil, hidle⟩
  intro t ht
  rw [UndeliveredReader.ahead, hidle, List.append_nil] at ht
  exact hdel.from_saved t (List.mem_append_left _ ht)

theorem Inv.step {e : Event} (h : Inv q s) (hok : InOrder q s e)
    (hs : Delivery.step q s e = some s') : Inv q s' := by
  cases e with
  | take req created now loadOk nextOk =>
    simp only [Delivery.step] at hs
    split at hs
    · rename_i hreq
      obtain ⟨cache, db, idx, hnext⟩ :
          ∃ cache db idx, indexStoreNext s.cache s.db req.queue loadOk nextOk = (cache, db, idx) :=
        ⟨_, _, _, rfl⟩
      rw [hnext] at hs
      have htake := h.take created hok hreq.1 hreq.2 hnext
      cases idx with
      | none =>
        rw [← Option.some.inj hs]
        simpa using htake
      | some i =>
        rw [← Option.some.inj hs]
        exact htake
    · simp at hs
  | commit k =>
    simp only [Delivery.step] at hs
    split at hs
    · simp at hs
    · rename_i t ht
      exact Option.some.inj hs ▸ h.commit ht
  | apply n =>
    obtain ⟨db, hdb, rfl⟩ := Option.map_eq_some_iff.mp hs
    exact h.apply hok hdb
  | query =>
    obtain ⟨reader, hr, rfl⟩ := Option.map_eq_some_iff.mp hs
    exact (h.query hr).1
  | visit =>
    simp only [Delivery.step] at hs
    split at hs
    · simp at hs
    · rename_i reader hr
      exact Option.some.inj hs ▸ (h.visit_none hr).1
    · rename_i reader t hr
      exact Option.some.inj hs ▸ (h.visit hr).1

/-! ## Calls run to their end -/

theorem Inv.run_visits (h : Inv q s) (hne : s.reader.reading ≠ none) : ∃ n s',
    Runs.run (Delivery.step q) s (.replicate n .visit) = some s' ∧ Inv q s' ∧
      s'.reader.reading = none ∧ s'.saved = s.saved ∧ s'.pushed = s.pushed ++ s.reader.ahead := by
  generalize hahead : s.reader.ahead = ahead
  induction ahead generalizing s with
  | nil =>
    rcases UndeliveredReader.visit_cases hne with ⟨reader, t, hr, -⟩ | ⟨reader, hr⟩
    · rw [(h.visit hr).2] at hahead
      simp at hahead
    · obtain ⟨hinv, -, hidle⟩ := h.visit_none hr
      exact ⟨1, _, by simp [Delivery.step, hr], hinv, hidle, rfl, by simp⟩
  | cons u ahead ih =>
    rcases UndeliveredReader.visit_cases hne with ⟨reader, t, hr, hgo⟩ | ⟨reader, hr⟩
    · obtain ⟨hinv, hcons⟩ := h.visit hr
      obtain ⟨rfl, rfl⟩ := List.cons.inj (hcons.symm.trans hahead)
      obtain ⟨n, s', hrun, hinv', hidle, hsaved, hpushed⟩ := ih hinv hgo rfl
      refine ⟨n + 1, s', ?_, hinv', hidle, hsaved, by rw [hpushed]; simp⟩
      rw [List.replicate_succ, Runs.run_cons_eq_some]
      exact ⟨_, by simp only [Delivery.step, hr], hrun⟩
    · rw [(h.visit_none hr).2.1] at hahead
      simp at hahead

/-- A call of an idle reader pushes all that is saved and not yet pushed. -/
theorem Inv.run_read (h : Inv q s) (hidle : s.reader.reading = none) : ∃ n s',
    Runs.run (Delivery.step q) s (.query :: .replicate n .visit) = some s' ∧ Inv q s' ∧
      s'.saved = s.saved ∧ ∀ t ∈ s.saved, t ∈ s'.pushed := by
  obtain ⟨reader, hr, hgo⟩ := h.2.choose_spec.reads.exists_query hidle
  obtain ⟨hinv, hall⟩ := h.query hr
  obtain ⟨n, s', hrun, hinv', -, hsaved, hpushed⟩ := hinv.run_visits hgo
  refine ⟨n, s', Runs.run_cons_eq_some.mpr ⟨_, by simp only [Delivery.step, hr, Option.map_some],
    hrun⟩, hinv', hsaved, fun t ht ↦ ?_⟩
  rw [hpushed]
  exact hall t ht

/-- The tasks pushed are the tasks saved, once each is pushed. -/
theorem Inv.perm (h : Inv q s) (hall : ∀ t ∈ s.saved, t ∈ s.pushed) : s.pushed ~ s.saved := by
  obtain ⟨hissued, next, hdel⟩ := h
  have hnd : s.pushed.Nodup := hdel.sorted.imp fun hlt heq ↦ by
    rw [heq] at hlt
    exact lt_irrefl _ hlt
  have hnd' : s.saved.Nodup := (List.nodup_append.mp hissued.distinct.of_map).2.1
  rw [List.perm_ext_iff_of_nodup hnd hnd']
  exact fun t ↦ ⟨fun ht ↦ hdel.from_saved t (List.mem_append_left _ ht), hall t⟩

end

/-- **First delivery skips nothing when batches are saved in order.** At any time the pushed tasks
are saved tasks in increasing order of their indexes. When the call under way has run to its end,
one more call brings the pushed tasks to all saved ones, each of them once, still in that order. -/
theorem delivered_of_inOrder {q : GoString} {es : List Event} {s : State}
    (hok : Runs.Meets (step q) (InOrder q) (.init q) es)
    (hrun : Runs.run (step q) (.init q) es = some s) :
    s.pushed.Pairwise (fun t u ↦ taskIndex t < taskIndex u) ∧ (∀ t ∈ s.pushed, t ∈ s.saved) ∧
    ∃ m n s', Runs.run (step q) s (.replicate m .visit ++ .query :: .replicate n .visit) = some s' ∧
      s'.saved = s.saved ∧ s'.pushed ~ s.saved ∧
      s'.pushed.Pairwise (fun t u ↦ taskIndex t < taskIndex u) := by
  have hinv : Inv q s := Runs.Meets.invariant (P := Inv q) (fun _ _ _ h hok hs ↦ h.step hok hs)
    (inv_init q) hok hrun
  have hidle : ∃ m s₁, Runs.run (step q) s (.replicate m .visit) = some s₁ ∧ Inv q s₁ ∧
      s₁.reader.reading = none ∧ s₁.saved = s.saved := by
    by_cases hreading : s.reader.reading = none
    · exact ⟨0, s, rfl, hinv, hreading, rfl⟩
    · obtain ⟨m, s₁, h1, h2, h3, h4, -⟩ := hinv.run_visits hreading
      exact ⟨m, s₁, h1, h2, h3, h4⟩
  obtain ⟨m, s₁, hrun₁, hinv₁, hreading, hsaved₁⟩ := hidle
  obtain ⟨n, s', hrun', hinv', hsaved', hall⟩ := hinv₁.run_read hreading
  obtain ⟨next, hdel⟩ := hinv.2
  obtain ⟨next', hdel'⟩ := hinv'.2
  refine ⟨hdel.sorted, fun t ht ↦ hdel.from_saved t (List.mem_append_left _ ht), m, n, s', ?_,
    hsaved'.trans hsaved₁, ?_, hdel'.sorted⟩
  · rw [Runs.run_append, hrun₁]
    exact hrun'
  · rw [← hsaved₁, ← hsaved']
    exact hinv'.perm (hsaved' ▸ hall)

/-- Two pushes take the indexes 1 and 2. -/
def bothTaken : List Event :=
  let req : PushTaskRequest := { queue := lit "q" }
  [.take req (.ofUnix 0 0) (.ofUnix 0 0) true true, .take req (.ofUnix 0 0) (.ofUnix 0 0) true true]

/-- The second is committed first, but both are saved in one batch. -/
theorem delivered_of_inOrder_bothTaken : ∃ s,
    Runs.run (step (lit "q")) (.init (lit "q")) (bothTaken ++ [.commit 1, .commit 0, .apply 2])
      = some s ∧ s.saved.length = 2 ∧
    ∃ m n s', Runs.run (step (lit "q")) s (.replicate m .visit ++ .query :: .replicate n .visit)
      = some s' ∧ s'.pushed ~ s.saved := by
  have hok : Runs.Meets (step (lit "q")) (InOrder (lit "q")) (.init (lit "q"))
      (bothTaken ++ [.commit 1, .commit 0, .apply 2]) := by decide +kernel
  have hlen : (Runs.run (step (lit "q")) (.init (lit "q"))
      (bothTaken ++ [.commit 1, .commit 0, .apply 2])).map (·.saved.length) = some 2 := by
    decide +kernel
  obtain ⟨s, hrun, hlen⟩ := Option.map_eq_some_iff.mp hlen
  obtain ⟨-, -, m, n, s', hread, -, hperm, -⟩ := delivered_of_inOrder hok hrun
  exact ⟨s, hrun, hlen, m, n, s', hread, hperm⟩

/-- The second is saved and read before the first is committed. -/
def secondFirst : List Event :=
  bothTaken ++ [.commit 1, .apply 1, .query, .visit, .visit, .commit 0, .apply 1]

/-- The first task is saved behind the checkpoint: however often the reader is called, it does not
push it. -/
theorem firstTask_skipped_secondFirst : ∃ s,
    Runs.run (step (lit "q")) (.init (lit "q")) secondFirst = some s ∧
    firstTask ∈ s.saved ∧ firstTask ∉ s.pushed ∧
    Runs.run (step (lit "q")) s [.query, .visit] = some s := by
  have hrun : (Runs.run (step (lit "q")) (.init (lit "q")) secondFirst).map (fun s ↦
      decide (firstTask ∈ s.saved ∧ firstTask ∉ s.pushed ∧ s.reader.reading = none ∧
        (s.reader.query s.db).map (·.visit.map (·.2)) = some (some none))) = some true := by
    decide +kernel
  obtain ⟨s, hrun, hs⟩ := Option.map_eq_some_iff.mp hrun
  obtain ⟨hsaved, hpushed, hidle, hread⟩ := of_decide_eq_true hs
  obtain ⟨r, hquery, hread⟩ := Option.map_eq_some_iff.mp hread
  obtain ⟨⟨r', -⟩, hvisit, rfl⟩ := Option.map_eq_some_iff.mp hread
  refine ⟨s, hrun, hsaved, hpushed, ?_⟩
  obtain rfl := UndeliveredReader.eq_of_visit_query hidle hquery hvisit
  simp [step, hquery, hvisit]

end Z4.Delivery
