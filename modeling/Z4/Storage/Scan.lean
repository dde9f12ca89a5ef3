import Z4.Storage.Iterator
import Z4.Storage.KeySpace

/-!
# Complete scans

`mem_handedOut` says in terms of keys what a scan visits. Here the same is said in terms of tasks,
and for every content the operations of the stores can build: a scan visits each stored task that
its range asks for, once, in ascending order of indexes or of ids. What the handler answers decides
only where the scan ends.

Records of other queues can lie between the ends of a range (`handedOut_isolated_iff`). They are
visited as well, and none of them ends the scan.
-/

namespace Z4

open KeyValue Runs

/-! ## The tasks of a range -/

/-- The tasks a range asks for: those of its queue and kind whose index, or whose id in the order of
its bytes, is between the ends. -/
def TaskRange.Wants : TaskRange → Task → Prop
  | .fifo q startIndex endIndex, t => t.queue = q ∧ t.scheduleTime = none ∧
      ∃ id ∈ mustParseString t.id, startIndex ≤ id.index ∧ id.index ≤ endIndex
  | .scheduled q startID endID, t => t.queue = q ∧ t.scheduleTime ≠ none ∧
      ∃ id ∈ mustParseString t.id,
        (compare startID.bytes id.bytes).isLE ∧ (compare id.bytes endID.bytes).isLE

/-- The order of the tasks of a range. -/
def TaskRange.Precedes : TaskRange → Task → Task → Prop
  | .fifo .., t, u => ∃ i ∈ mustParseString t.id, ∃ j ∈ mustParseString u.id, i.index < j.index
  | .scheduled .., t, u =>
      ∃ i ∈ mustParseString t.id, ∃ j ∈ mustParseString u.id, compare i.bytes j.bytes = .lt

section

variable {r : TaskRange} {t u : Task} {k l : Key}

private theorem recordKey_cases (hk : recordKey t = some k) :
    ∃ id, mustParseString t.id = some id ∧
      (t.scheduleTime = none ∧ k = getFifoTaskKey t.queue id ∨
        t.scheduleTime ≠ none ∧ k = getScheduledTaskKey t.queue id) := by
  obtain ⟨id, hid, rfl⟩ := Option.map_eq_some_iff.mp hk
  refine ⟨id, hid, ?_⟩
  rw [getTaskKey]
  cases hs : t.scheduleTime with
  | none => exact .inl ⟨rfl, rfl⟩
  | some ts => exact .inr ⟨by simp, rfl⟩

/-- The key of a task of the queue is between the ends of the range exactly when the range asks for
the task. -/
theorem contains_iff_wants (hk : recordKey t = some k) (hq : t.queue = r.getQueue) :
    r.Contains k ↔ r.Wants t := by
  obtain ⟨id, hid, ⟨hs, rfl⟩ | ⟨hs, rfl⟩⟩ := recordKey_cases hk
  · cases r with
    | fifo q a b =>
      obtain rfl : t.queue = q := hq
      rw [TaskRange.contains_fifo_iff]
      simp [TaskRange.Wants, hs, hid]
    | scheduled q a b =>
      exact iff_of_false TaskRange.not_contains_scheduled fun h ↦ h.2.1 hs
  · cases r with
    | fifo q a b => exact iff_of_false TaskRange.not_contains_fifo fun h ↦ hs h.2.1
    | scheduled q a b =>
      obtain rfl : t.queue = q := hq
      rw [TaskRange.contains_scheduled_iff, ← Nat.isLE_compare, ← Nat.isLE_compare,
        ← TaskID.compare_bytes, ← TaskID.compare_bytes]
      simp [TaskRange.Wants, hs, hid]

theorem precedes_of_compare (hk : recordKey t = some k) (hl : recordKey u = some l)
    (ht : r.Wants t) (hu : r.Wants u) (h : compare k l = .lt) : r.Precedes t u := by
  obtain ⟨i, hi, hk⟩ := recordKey_cases hk
  obtain ⟨j, hj, hl⟩ := recordKey_cases hl
  cases r with
  | fifo q a b =>
    obtain ⟨-, rfl⟩ := hk.resolve_right fun hc ↦ hc.1 ht.2.1
    obtain ⟨-, rfl⟩ := hl.resolve_right fun hc ↦ hc.1 hu.2.1
    rw [ht.1, hu.1, TaskRange.compare_getFifoTaskKey, Nat.compare_eq_lt] at h
    exact ⟨i, hi, j, hj, UInt64.lt_iff_toNat_lt.mpr h⟩
  | scheduled q a b =>
    obtain ⟨-, rfl⟩ := hk.resolve_left fun hc ↦ ht.2.1 hc.1
    obtain ⟨-, rfl⟩ := hl.resolve_left fun hc ↦ hu.2.1 hc.1
    rw [ht.1, hu.1, getScheduledTaskKey, getScheduledTaskKey, BigEndian.compare_append_left] at h
    exact ⟨i, hi, j, hj, h⟩

/-! ## Scans of a filed store -/

variable {db : DB}

/-- Of its own queue a scan visits the stored tasks that the range asks for. -/
theorem mem_filter_handedOut (hdb : Filed db) :
    t ∈ (handedOut db r).filter (·.queue = r.getQueue) ↔ Stored db t ∧ r.Wants t := by
  rw [List.mem_filter, decide_eq_true_eq, mem_handedOut hdb]
  constructor
  · rintro ⟨⟨k, hin, hget⟩, hq⟩
    have hk := hdb.recordKey_eq (TaskRange.isTaskKey_of_contains hin) hget
    exact ⟨⟨k, hk, hget⟩, (contains_iff_wants hk hq).mp hin⟩
  · rintro ⟨⟨k, hk, hget⟩, hwants⟩
    have hq : t.queue = r.getQueue := by cases r <;> exact hwants.1
    exact ⟨⟨k, (contains_iff_wants hk hq).mpr hwants, hget⟩, hq⟩

theorem pairwise_filter_handedOut (hdb : Filed db) (r : TaskRange) :
    ((handedOut db r).filter (·.queue = r.getQueue)).Pairwise r.Precedes := by
  refine ((pairwise_handedOut hdb r).filter _).imp_of_mem fun {t u} ht hu h ↦ ?_
  obtain ⟨k, l, hk, hl, hlt⟩ := h
  exact precedes_of_compare hk hl ((mem_filter_handedOut hdb).mp ht).2
    ((mem_filter_handedOut hdb).mp hu).2 hlt

end

/-! ## What the handler decides -/

/-- A handler that notes its calls. What it answers may depend on all of them. -/
def calling {ε : Type} (answer : List Task → Task → Option ε) (calls : List Task) (t : Task) :
    List Task × Option ε := (calls ++ [t], answer calls t)

section

variable {ε : Type} {answer : List Task → Task → Option ε}

theorem feed_calling_append {ts : List Task} (us acc : List Task)
    (h : ∀ j t, ts[j]? = some t → answer (acc ++ ts.take j) t = none) :
    TaskIterator.feed (calling answer) (ts ++ us) acc
      = TaskIterator.feed (calling answer) us (acc ++ ts) := by
  induction ts generalizing acc with
  | nil => rw [List.append_nil, List.nil_append]
  | cons t ts ih =>
    have hnone : answer acc t = none := by simpa using h 0 t rfl
    have hrest : ∀ j u, ts[j]? = some u → answer (acc ++ [t] ++ ts.take j) u = none := by
      intro j u hu
      simpa using h (j + 1) u (by simpa using hu)
    rw [List.cons_append, TaskIterator.feed, calling, hnone]
    simpa using ih (acc ++ [t]) hrest

theorem forEach_calling {db : DB} (hdb : Filed db) (r : TaskRange) :
    (newTaskIterator db r).forEach (calling answer) []
      = (TaskIterator.feed (calling answer) (handedOut db r) []).map id (Option.map .inr) := by
  rw [TaskIterator.forEach, TaskIterator.forEachFrom_eq_feed _ (hdb.sound r),
    ← ahead_newTaskIterator hdb]
  rfl

theorem forEach_calling_of_none {db : DB} (hdb : Filed db) (r : TaskRange)
    (h : ∀ calls t, answer calls t = none) :
    (newTaskIterator db r).forEach (calling answer) [] = (handedOut db r, none) := by
  have hfeed := feed_calling_append [] [] fun j t (_ : (handedOut db r)[j]? = some t) ↦ h _ t
  rw [List.append_nil] at hfeed
  rw [forEach_calling hdb, hfeed]
  rfl

/-- A handler that fails is not called again, and its error is returned. -/
theorem forEach_calling_of_some {db : DB} (hdb : Filed db) (r : TaskRange) {i : ℕ} {u : Task}
    {err : ε}
    (hnone : ∀ j < i, ∀ t, (handedOut db r)[j]? = some t →
      answer ((handedOut db r).take j) t = none)
    (hu : (handedOut db r)[i]? = some u)
    (hsome : answer ((handedOut db r).take i) u = some err) :
    (newTaskIterator db r).forEach (calling answer) []
      = ((handedOut db r).take (i + 1), some (.inr err)) := by
  obtain ⟨hi, rfl⟩ := List.getElem?_eq_some_iff.mp hu
  have hbefore : ∀ j t, ((handedOut db r).take i)[j]? = some t →
      answer ([] ++ ((handedOut db r).take i).take j) t = none := by
    intro j t ht
    rw [List.getElem?_take] at ht
    split at ht
    · rename_i hj
      rw [List.nil_append, List.take_take, min_eq_left hj.le]
      exact hnone j hj t ht
    · simp at ht
  have hsplit := List.take_append_drop i (handedOut db r)
  rw [List.drop_eq_getElem_cons hi] at hsplit
  have hfeed := feed_calling_append ((handedOut db r)[i] :: (handedOut db r).drop (i + 1)) []
    hbefore
  rw [hsplit, List.nil_append, TaskIterator.feed, calling, hsome] at hfeed
  rw [forEach_calling hdb, hfeed, List.take_succ_eq_append_getElem hi]
  rfl

end

/-! ## Every store content -/

/-- The records are in their place, and the open sequences write to other keys. -/
def Stores.Kept (c : Stores) : Prop := Filed c.db ∧ ∀ q ∈ c.seqs, ¬IsTaskKey q.key

theorem Stores.Kept.step {c c' : Stores} (h : c.Kept) {op : StoreOp} (hs : c.step op = some c') :
    c'.Kept := by
  obtain ⟨hfiled, hseqs⟩ := h
  have hne : ∀ {q : Sequence} {k : Key}, q ∈ c.seqs → IsTaskKey k → q.key ≠ k :=
    fun hq hk hc ↦ hseqs _ hq (hc ▸ hk)
  cases op with
  | saveAll tasks saveIndex =>
    obtain ⟨db, hdb, rfl⟩ := Option.map_eq_some_iff.mp hs
    exact ⟨hfiled.saveAll hdb, hseqs⟩
  | deleteAll acks =>
    obtain rfl := Option.some.inj hs
    exact ⟨hfiled.deleteAll acks, hseqs⟩
  | save settings =>
    obtain rfl := Option.some.inj hs
    refine ⟨hfiled.congr fun k hk ↦ ?_, hseqs⟩
    rw [getElem?_saveSettings, if_neg]
    exact fun hc ↦ not_isTaskKey_config settings.id (hc ▸ hk)
  | newSequence queue lease =>
    -- counters have keys of their own, and so leave the task records alone
    obtain rfl := Option.some.inj hs
    refine ⟨hfiled.congr fun k hk ↦ ?_, fun q hq ↦ ?_⟩
    · have hk' : getSeqKey queue ≠ k := fun hc ↦ not_isTaskKey_seq queue (hc ▸ hk)
      exact Sequence.getElem?_reserve_of_ne (s := ⟨_, _, _, getSeqKey queue⟩) c.db true hk'
    · rcases List.mem_append.mp hq with hq | hq
      · exact hseqs q hq
      · rw [List.mem_singleton.mp hq]
        exact not_isTaskKey_seq queue
  | next seq =>
    obtain ⟨q, hq, rfl⟩ := Option.map_eq_some_iff.mp hs
    have hmem := List.mem_of_getElem? hq
    refine ⟨hfiled.congr fun k hk ↦ Sequence.getElem?_next_of_ne _ true (hne hmem hk), ?_⟩
    intro u hu
    rcases List.mem_or_eq_of_mem_set hu with hu | rfl
    · exact hseqs u hu
    · rw [Sequence.next_key]
      exact hseqs q hmem
  | close seq =>
    obtain ⟨q, hq, rfl⟩ := Option.map_eq_some_iff.mp hs
    refine ⟨hfiled.congr fun k hk ↦ ?_, hseqs⟩
    rw [Sequence.getElem?_close, if_neg (hne (List.mem_of_getElem? hq) hk)]

theorem filed_of_run {ops : List StoreOp} {c : Stores} (hrun : run Stores.step {} ops = some c) :
    Filed c.db := by
  have h0 : Stores.Kept {} := ⟨filed_empty, by simp⟩
  exact (Runs.invariant (fun _ _ _ h hs ↦ Stores.Kept.step h hs) h0 hrun).1

/-- **Scans are complete and in order.** For every content the stores can build and every range,
the tasks handed out to a handler that never fails include each stored task the range asks for
exactly once, in ascending order, and the scan ends without an error. A handler that first fails at
some call is called exactly up to there, and its error is returned. -/
theorem forEach_complete {ops : List StoreOp} {c : Stores}
    (hrun : run Stores.step {} ops = some c) (r : TaskRange) :
    ∃ calls : List Task,
      (∀ t, t ∈ calls.filter (·.queue = r.getQueue) ↔ Stored c.db t ∧ r.Wants t) ∧
      (calls.filter (·.queue = r.getQueue)).Pairwise r.Precedes ∧
      (calls.filter (·.queue = r.getQueue)).Nodup ∧
      ∀ {ε : Type} (answer : List Task → Task → Option ε),
        ((∀ ts t, answer ts t = none) →
          (newTaskIterator c.db r).forEach (calling answer) [] = (calls, none)) ∧
        ∀ i u err, (∀ j < i, ∀ t, calls[j]? = some t → answer (calls.take j) t = none) →
          calls[i]? = some u → answer (calls.take i) u = some err →
          (newTaskIterator c.db r).forEach (calling answer) []
            = (calls.take (i + 1), some (.inr err)) := by
  have hdb := filed_of_run hrun
  have hsorted := pairwise_filter_handedOut hdb r
  refine ⟨handedOut c.db r, fun t ↦ mem_filter_handedOut hdb, hsorted,
    (nodup_handedOut hdb r).filter _, fun answer ↦ ⟨forEach_calling_of_none hdb r, ?_⟩⟩
  intro i u err hnone hu hsome
  exact forEach_calling_of_some hdb r hnone hu hsome

/-- A store with a task of the queue `a`, one of the queue `a#b`, a counter and a config. -/
def mixedStore : List StoreOp :=
  [.saveAll [nestedTask, { nestedTask with queue := lit "a" }] true, .newSequence (lit "a") 3,
    .save { id := lit "a", lastDeliveredScheduledTask := [], lastDeliveredQueuedTask := [],
            ackDeadlineSeconds := 300 }]

/-- The task of the queue is among the calls, and a handler that fails at once is called once. -/
theorem forEach_complete_mixedStore : ∃ c, run Stores.step {} mixedStore = some c ∧
    ∃ (calls : List Task) (u : Task), { nestedTask with queue := lit "a" } ∈ calls ∧
      calls[0]? = some u ∧
      (newTaskIterator c.db (.fifo (lit "a") 0 maxUint64)).forEach
        (calling fun _ _ ↦ (none : Option Unit)) [] = (calls, none) ∧
      (newTaskIterator c.db (.fifo (lit "a") 0 maxUint64)).forEach
        (calling fun _ _ ↦ some ()) [] = ([u], some (.inr ())) := by
  have hend : (run Stores.step {} mixedStore).map
      (fun c ↦ decide (Stored c.db { nestedTask with queue := lit "a" })) = some true := by
    decide +kernel
  obtain ⟨c, hrun, hstored⟩ := Option.map_eq_some_iff.mp hend
  obtain ⟨calls, hmem, -, -, hcalls⟩ := forEach_complete hrun (.fifo (lit "a") 0 maxUint64)
  have hwants : (TaskRange.fifo (lit "a") 0 maxUint64).Wants
      { nestedTask with queue := lit "a" } := ⟨rfl, rfl, by decide +kernel⟩
  have hcalled := List.mem_of_mem_filter ((hmem _).mpr ⟨of_decide_eq_true hstored, hwants⟩)
  obtain ⟨u, rest, rfl⟩ := List.exists_cons_of_ne_nil (List.ne_nil_of_mem hcalled)
  exact ⟨c, hrun, u :: rest, u, hcalled, rfl, (hcalls _).1 fun _ _ ↦ rfl,
    (hcalls fun _ _ ↦ some ()).2 0 u () nofun rfl rfl⟩

end Z4
