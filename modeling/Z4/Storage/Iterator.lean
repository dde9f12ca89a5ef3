import Z4.Storage.TaskStore

/-!
# Range iteration

A `TaskIterator` walks the key space from the first key of a range, over the snapshot of the store
that was current when it was opened. It stops at the first key without the queue's prefix or past
the last key of the range.

The prefix is the queue name up to its separator, and names are not escaped, so the keys of a queue
whose name itself contains the separator can carry the prefix of another. What a scan visits is read
off in `mem_handedOut`: every record between the two ends of the range, whichever queue it is of.
-/

namespace Z4

open KeyValue

/-! ## Ranges -/

/-- `TaskRange`, with a case for each of its two implementations. -/
inductive TaskRange where
  /-- `ScheduledRange`. -/
  | scheduled (queue : GoString) (startID endID : TaskID)
  /-- `FifoRange`. -/
  | fifo (queue : GoString) (startIndex endIndex : UInt64)

namespace TaskRange

/-- `GetQueue`. -/
def getQueue : TaskRange → GoString
  | scheduled q _ _ => q
  | fifo q _ _ => q

/-- `GetPrefix`. -/
def getPrefix : TaskRange → Key
  | scheduled q _ _ => getSchedPrefix q
  | fifo q _ _ => getFifoPrefix q

/-- `GetStart`. -/
def getStart : TaskRange → Key
  | scheduled q startID _ => getScheduledTaskKey q startID
  | fifo q startIndex _ => getFifoTaskKey q (.new .zero startIndex)

/-- `GetEnd`. -/
def getEnd : TaskRange → Key
  | scheduled q _ endID => getScheduledTaskKey q endID
  | fifo q _ endIndex => getFifoTaskKey q (.new .zero endIndex)

/-- The key lies between the two ends of the range. -/
def Contains (r : TaskRange) (k : Key) : Prop :=
  (compare r.getStart k).isLE ∧ (compare k r.getEnd).isLE

instance (r : TaskRange) (k : Key) : Decidable (r.Contains k) := inferInstanceAs (Decidable (_ ∧ _))

theorem prefix_getStart (r : TaskRange) : r.getPrefix <+: r.getStart := by
  cases r <;> exact List.prefix_append _ _

theorem prefix_getEnd (r : TaskRange) : r.getPrefix <+: r.getEnd := by
  cases r <;> exact List.prefix_append _ _

theorem isTaskKey_of_prefix {r : TaskRange} {k : Key} (h : r.getPrefix <+: k) : IsTaskKey k := by
  cases r with
  | scheduled q _ _ => exact (show lit "task#" <+: getSchedPrefix q from
      (by decide : lit "task#" <+: lit "task#sched#").trans (List.prefix_append _ _)).trans h
  | fifo q _ _ => exact (show lit "task#" <+: getFifoPrefix q from
      (by decide : lit "task#" <+: lit "task#fifo#").trans (List.prefix_append _ _)).trans h

theorem prefix_of_contains {r : TaskRange} {k : Key} (h : r.Contains k) : r.getPrefix <+: k :=
  prefix_of_between r.prefix_getStart r.prefix_getEnd h.1 h.2

theorem isTaskKey_of_contains {r : TaskRange} {k : Key} (h : r.Contains k) : IsTaskKey k :=
  isTaskKey_of_prefix (prefix_of_contains h)

/-- On scheduled keys of its own queue a range is an interval of ids. -/
theorem contains_scheduled_iff {q : GoString} {a b id : TaskID} :
    (scheduled q a b).Contains (getScheduledTaskKey q id) ↔
      a.toNat ≤ id.toNat ∧ id.toNat ≤ b.toNat := by
  rw [Contains, getStart, getEnd, getScheduledTaskKey, getScheduledTaskKey, getScheduledTaskKey,
    BigEndian.compare_append_left, BigEndian.compare_append_left, TaskID.compare_bytes,
    TaskID.compare_bytes, Nat.isLE_compare, Nat.isLE_compare]

theorem compare_getFifoTaskKey (q : GoString) (i j : TaskID) :
    compare (getFifoTaskKey q i) (getFifoTaskKey q j)
      = compare i.index.toNat j.index.toNat := by
  have hi := i.index.toNat_lt
  have hj := j.index.toNat_lt
  rw [getFifoTaskKey, getFifoTaskKey, BigEndian.compare_append_left,
    BigEndian.compare_eq_compare_value (by simp), BigEndian.value_bytes_of_lt (by omega),
    BigEndian.value_bytes_of_lt (by omega)]

/-- On unscheduled keys of its own queue a range is an interval of indexes. -/
theorem contains_fifo_iff {q : GoString} {a b : UInt64} {id : TaskID} :
    (fifo q a b).Contains (getFifoTaskKey q id) ↔ a ≤ id.index ∧ id.index ≤ b := by
  rw [Contains, getStart, getEnd, compare_getFifoTaskKey, compare_getFifoTaskKey,
    TaskID.index_new, TaskID.index_new, Nat.isLE_compare, Nat.isLE_compare,
    UInt64.le_iff_toNat_le, UInt64.le_iff_toNat_le]

theorem not_contains_scheduled {q r : GoString} {a b id : TaskID} :
    ¬(scheduled q a b).Contains (getFifoTaskKey r id) := fun h ↦
  not_startsWith_getSchedPrefix q r id (prefix_of_contains h)

theorem not_contains_fifo {q r : GoString} {a b : UInt64} {id : TaskID} :
    ¬(fifo q a b).Contains (getScheduledTaskKey r id) := fun h ↦
  not_startsWith_getFifoPrefix q r id (prefix_of_contains h)

end TaskRange

/-! ## The iterator -/

/-- `io.EOF`, a value that is no task, and "invalid task: empty id". -/
inductive IterError where
  | eof
  | unmarshal
  | emptyID
deriving DecidableEq

/-- `TaskIterator`: the entries the pebble iterator has still ahead of it, and the limits. -/
structure TaskIterator where
  it : List (Key × Value)
  stop : Key
  pre : Key

/-- `NewTaskIterator`. -/
def newTaskIterator (db : DB) (query : TaskRange) : TaskIterator :=
  ⟨seekGE db query.getStart, query.getEnd, query.getPrefix⟩

namespace TaskIterator

/-- `peek` at an entry that carries the prefix. -/
def peek (stop : Key) (e : Key × Value) : Except IterError Task :=
  if compare e.1 stop = .gt then .error .eof
  else match e.2 with
    | .task t => if t.id = [] then .error .emptyID else .ok t
    | _ => .error .unmarshal

/-- `TaskIterator.Next`, which moves on unless it is at the end. -/
def next (ti : TaskIterator) : TaskIterator × Except IterError Task :=
  match ti.it with
  | [] => (ti, .error .eof)
  | e :: rest =>
    if ti.pre.isPrefixOf e.1 then
      match peek ti.stop e with
      | .error .eof => (ti, .error .eof)
      | r => ({ ti with it := rest }, r)
    else (ti, .error .eof)

/-- The loop of `TaskIterator.ForEach`, with the state of the handler passed along. The handler's
error ends the loop and is returned, as is an error of `Next` other than the end. -/
def forEachFrom {σ ε : Type} (handle : σ → Task → σ × Option ε) (stop pre : Key) :
    List (Key × Value) → σ → σ × Option (IterError ⊕ ε)
  | [], s => (s, none)
  | e :: rest, s =>
    match (next ⟨e :: rest, stop, pre⟩).2 with
    | .error .eof => (s, none)
    | .error err => (s, some (.inl err))
    | .ok t =>
      match handle s t with
      | (s, some err) => (s, some (.inr err))
      | (s, none) => forEachFrom handle stop pre rest s

/-- `TaskIterator.ForEach`. -/
def forEach {σ ε : Type} (ti : TaskIterator) (handle : σ → Task → σ × Option ε) (s : σ) :
    σ × Option (IterError ⊕ ε) := forEachFrom handle ti.stop ti.pre ti.it s

/-- The task of an entry. -/
def taskOf (e : Key × Value) : Option Task :=
  match e.2 with
  | .task t => some t
  | _ => none

/-- An entry the iterator can hand out. -/
def Readable (e : Key × Value) : Prop := ∃ t, e.2 = .task t ∧ t.id ≠ []

/-- Every entry within the limits can be handed out. -/
def Sound (ti : TaskIterator) : Prop := ∀ e ∈ ti.it, within ti.pre ti.stop e → Readable e

variable {stop pre : Key}

theorem next_of_within {e : Key × Value} {t : Task} {rest : List (Key × Value)}
    (he : within pre stop e) (ht : e.2 = .task t) (hid : t.id ≠ []) :
    next ⟨e :: rest, stop, pre⟩ = (⟨rest, stop, pre⟩, .ok t) := by
  rw [within, Bool.and_eq_true] at he
  have hle : compare e.1 stop ≠ .gt := by
    intro hgt
    rw [hgt] at he
    exact absurd he.2 (by decide)
  have hpeek : peek stop e = .ok t := by
    rw [peek, if_neg hle, ht]
    exact if_neg hid
  simp only [next, he.1, if_true, hpeek]

theorem next_of_not_within {e : Key × Value} {rest : List (Key × Value)}
    (he : ¬within pre stop e) : (next ⟨e :: rest, stop, pre⟩).2 = .error .eof := by
  rw [next]
  split
  · rename_i hnil
    simp at hnil
  · rename_i e' rest' hcons
    obtain ⟨rfl, rfl⟩ := List.cons.inj hcons
    split
    · rename_i hpre
      have hgt : compare e.1 stop = .gt := by
        rw [within, Bool.and_eq_true, not_and] at he
        have := he hpre
        cases hc : compare e.1 stop <;> simp_all
      have hpeek : peek stop e = .error .eof := by rw [peek, if_pos hgt]
      simp only [hpeek]
    · rfl

theorem next_eq_ok {ti ti' : TaskIterator} {t : Task} (h : ti.next = (ti', .ok t)) :
    ∃ e rest, ti.it = e :: rest ∧ ti' = { ti with it := rest } ∧ within ti.pre ti.stop e ∧
      taskOf e = some t := by
  rw [next] at h
  split at h
  · simp at h
  · rename_i e rest hit
    split at h
    · rename_i hpre
      split at h
      · simp at h
      · obtain ⟨rfl, hpeek⟩ := Prod.mk.inj h
        rw [peek] at hpeek
        split at hpeek
        · simp at hpeek
        · rename_i hgt
          refine ⟨e, rest, hit, rfl, ?_, ?_⟩
          · rw [within, hpre, Bool.true_and]
            cases hc : compare e.1 ti.stop <;> simp_all
          · rw [taskOf]
            split at hpeek
            · split at hpeek
              · simp at hpeek
              · exact congrArg some (Except.ok.inj hpeek)
            · simp at hpeek
    · simp at h

/-- The handler on one task after the other, up to its first error. -/
def feed {σ ε : Type} (handle : σ → Task → σ × Option ε) : List Task → σ → σ × Option ε
  | [], s => (s, none)
  | t :: ts, s =>
    match handle s t with
    | (s, some err) => (s, some err)
    | (s, none) => feed handle ts s

/-- The loop feeds the handler the tasks of the entries up to the end of the range. -/
theorem forEachFrom_eq_feed {σ ε : Type} (handle : σ → Task → σ × Option ε)
    {entries : List (Key × Value)} (h : ∀ e ∈ entries, within pre stop e → Readable e) (s : σ) :
    forEachFrom handle stop pre entries s
      = (feed handle ((entries.takeWhile (within pre stop)).filterMap taskOf) s).map id
          (Option.map .inr) := by
  induction entries generalizing s with
  | nil => rfl
  | cons e rest ih =>
    have ih := fun s ↦ ih (fun e he ↦ h e (List.mem_cons_of_mem _ he)) s
    by_cases he : within pre stop e
    · obtain ⟨t, ht, hid⟩ := h e List.mem_cons_self he
      have htask : taskOf e = some t := by rw [taskOf, ht]
      rw [forEachFrom, next_of_within he ht hid, List.takeWhile_cons_of_pos he,
        List.filterMap_cons_some htask, feed]
      dsimp only
      rcases handle s t with ⟨s', _ | err⟩
      · exact ih s'
      · rfl
    · rw [forEachFrom, next_of_not_within he, List.takeWhile_cons_of_neg he]
      rfl

end TaskIterator

/-! ## What a scan hands out -/

/-- A handler that notes the tasks it is called on and never fails. -/
def collect (acc : List Task) (t : Task) : List Task × Option Empty := (acc ++ [t], none)

/-- The tasks `ForEach` hands to a handler that never fails. -/
def handedOut (db : DB) (query : TaskRange) : List Task :=
  ((newTaskIterator db query).forEach collect []).1

private theorem feed_collect (ts acc : List Task) :
    TaskIterator.feed collect ts acc = (acc ++ ts, none) := by
  induction ts generalizing acc with
  | nil => simp [TaskIterator.feed]
  | cons t ts ih => simp [TaskIterator.feed, collect, ih]

private theorem id_ne_nil {t : Task} {k : Key} (h : recordKey t = some k) : t.id ≠ [] := by
  intro hid
  have hparse : mustParseString [] = none := rfl
  rw [recordKey, hid, hparse] at h
  simp at h

theorem Filed.sound {db : DB} (hdb : Filed db) (query : TaskRange) :
    (newTaskIterator db query).Sound := by
  intro e he hin
  rw [newTaskIterator, seekGE_eq_filter] at he
  rw [newTaskIterator, within, Bool.and_eq_true, List.isPrefixOf_iff_prefix] at hin
  have hget := mem_toList.mp (List.mem_filter.mp he).1
  obtain ⟨t, ht, hkey⟩ := hdb e.1 e.2 (TaskRange.isTaskKey_of_prefix hin.1) hget
  exact ⟨t, ht, id_ne_nil hkey⟩

/-- **What a scan hands out**: every record between the ends of the range. -/
theorem mem_handedOut {db : DB} (hdb : Filed db) {query : TaskRange} {t : Task} :
    t ∈ handedOut db query ↔ ∃ k, query.Contains k ∧ db[k]? = some (.task t) := by
  rw [handedOut, TaskIterator.forEach, TaskIterator.forEachFrom_eq_feed _ (hdb.sound query),
    feed_collect, newTaskIterator, takeWhile_seekGE db query.prefix_getStart]
  simp only [Prod.map_fst, id_eq, List.nil_append, List.mem_filterMap, List.mem_filter]
  constructor
  · rintro ⟨⟨k, v⟩, ⟨hmem, hin⟩, ht⟩
    rw [within, Bool.and_eq_true, Bool.and_eq_true] at hin
    cases v with
    | task u => exact ⟨k, ⟨hin.1, hin.2.2⟩, Option.some.inj ht ▸ mem_toList.mp hmem⟩
    | config c => simp [TaskIterator.taskOf] at ht
    | index i => simp [TaskIterator.taskOf] at ht
  · rintro ⟨k, hk, hdbk⟩
    refine ⟨(k, .task t), ⟨mem_toList.mpr hdbk, ?_⟩, rfl⟩
    rw [within, Bool.and_eq_true, Bool.and_eq_true, List.isPrefixOf_iff_prefix]
    exact ⟨hk.1, TaskRange.prefix_of_contains hk, hk.2⟩

theorem stored_of_mem_handedOut {db : DB} (hdb : Filed db) {query : TaskRange} {t : Task}
    (ht : t ∈ handedOut db query) : Stored db t := by
  obtain ⟨k, hin, hget⟩ := (mem_handedOut hdb).mp ht
  exact ⟨k, hdb.recordKey_eq (TaskRange.isTaskKey_of_contains hin) hget, hget⟩

/-! ## A scan step by step -/

namespace TaskIterator

/-- The tasks an iterator has ahead of it. -/
def ahead (ti : TaskIterator) : List Task :=
  (ti.it.takeWhile (within ti.pre ti.stop)).filterMap taskOf

variable {ti ti' : TaskIterator} {t : Task}

theorem ahead_of_next (h : ti.next = (ti', .ok t)) : ti.ahead = t :: ti'.ahead := by
  obtain ⟨e, rest, hit, rfl, hin, htask⟩ := next_eq_ok h
  rw [ahead, hit, List.takeWhile_cons_of_pos hin, List.filterMap_cons_some htask]
  rfl

theorem Sound.next (hti : ti.Sound) (h : ti.next = (ti', .ok t)) : ti'.Sound := by
  obtain ⟨e, rest, hit, rfl, -, -⟩ := next_eq_ok h
  exact fun e' he' ↦ hti e' (hit ▸ List.mem_cons_of_mem e he')

theorem Sound.next_cases (hti : ti.Sound) :
    (∃ ti' t, ti.next = (ti', .ok t)) ∨ ti.next.2 = .error .eof ∧ ti.ahead = [] := by
  obtain ⟨it, stop, pre⟩ := ti
  cases it with
  | nil => exact .inr ⟨rfl, rfl⟩
  | cons e rest =>
    by_cases he : within pre stop e
    · obtain ⟨t, ht, hid⟩ := hti e List.mem_cons_self he
      exact .inl ⟨_, t, next_of_within he ht hid⟩
    · exact .inr ⟨next_of_not_within he, by rw [ahead, List.takeWhile_cons_of_neg he]; rfl⟩

end TaskIterator

theorem ahead_newTaskIterator {db : DB} (hdb : Filed db) (query : TaskRange) :
    (newTaskIterator db query).ahead = handedOut db query := by
  rw [handedOut, TaskIterator.forEach, TaskIterator.forEachFrom_eq_feed _ (hdb.sound query),
    feed_collect]
  rfl

theorem Filed.recordKey_of_taskOf {db : DB} (hdb : Filed db) {e : Key × Value} {t : Task}
    (he : e ∈ db.toList) (hk : IsTaskKey e.1) (ht : TaskIterator.taskOf e = some t) :
    recordKey t = some e.1 := by
  obtain ⟨u, hu, hku⟩ := hdb e.1 e.2 hk (mem_toList.mp he)
  rw [TaskIterator.taskOf, hu] at ht
  exact Option.some.inj ht ▸ hku

theorem pairwise_handedOut {db : DB} (hdb : Filed db) (query : TaskRange) :
    (handedOut db query).Pairwise fun t u ↦ ∃ k l, recordKey t = some k ∧ recordKey u = some l ∧
      compare k l = .lt := by
  rw [← ahead_newTaskIterator hdb, TaskIterator.ahead, newTaskIterator,
    takeWhile_seekGE db query.prefix_getStart, List.pairwise_filterMap]
  refine ((pairwise_toList db).filter _).imp_of_mem fun {a b} ha hb hab t ht u hu ↦ ?_
  have hkey : ∀ {e : Key × Value} {t : Task}, e ∈ db.toList.filter (fun e ↦
      (compare query.getStart e.1).isLE && within query.getPrefix query.getEnd e) →
      TaskIterator.taskOf e = some t → recordKey t = some e.1 := by
    intro e t he ht
    obtain ⟨he, hin⟩ := List.mem_filter.mp he
    rw [within, Bool.and_eq_true, Bool.and_eq_true, List.isPrefixOf_iff_prefix] at hin
    exact hdb.recordKey_of_taskOf he (TaskRange.isTaskKey_of_prefix hin.2.1) ht
  exact ⟨a.1, b.1, hkey ha ht, hkey hb hu, hab⟩

theorem recordKey_ne_of_lt {t u : Task} {k l : Key} (hk : recordKey t = some k)
    (hl : recordKey u = some l) (hlt : compare k l = .lt) : recordKey t ≠ recordKey u := by
  intro heq
  obtain rfl : k = l := Option.some.inj (hk.symm.trans (heq.trans hl))
  rw [(Std.ReflCmp.compare_self : compare k k = .eq)] at hlt
  cases hlt

theorem nodup_handedOut {db : DB} (hdb : Filed db) (query : TaskRange) :
    (handedOut db query).Nodup :=
  (pairwise_handedOut hdb query).imp fun ⟨_, _, hk, hl, hlt⟩ ↦
    ne_of_apply_ne recordKey (recordKey_ne_of_lt hk hl hlt)

/-! ## Isolation of queues -/

/-- A store as a sequence of `SaveAll` calls leaves it. -/
def saves (batches : List (List Task × Bool)) : Option DB :=
  batches.foldlM (fun db b ↦ saveAll b.1 b.2 db) ∅

section

variable {batches : List (List Task × Bool)} {db : DB}

theorem saves_concat {b : List Task × Bool} :
    saves (batches ++ [b]) = (saves batches).bind fun db ↦ saveAll b.1 b.2 db := by
  rw [saves, List.foldlM_append, ← saves]
  simp

theorem filed_saves (h : saves batches = some db) : Filed db := by
  induction batches using List.reverseRecOn generalizing db with
  | nil => exact Option.some.inj h ▸ filed_empty
  | append_singleton batches b ih =>
    rw [saves_concat, Option.bind_eq_some_iff] at h
    obtain ⟨db₀, h₀, h⟩ := h
    exact (ih h₀).saveAll h

theorem mem_of_saves (h : saves batches = some db) {k : Key} (hk : IsTaskKey k) {t : Task}
    (ht : db[k]? = some (.task t)) : t ∈ batches.flatMap (·.1) := by
  induction batches using List.reverseRecOn generalizing db with
  | nil =>
    rw [← Option.some.inj h] at ht
    simp at ht
  | append_singleton batches b ih =>
    rw [saves_concat, Option.bind_eq_some_iff] at h
    obtain ⟨db₀, h₀, h⟩ := h
    rw [List.flatMap_append, List.mem_append]
    obtain ⟨u, hu, hut, -⟩ | ht := record_of_saveAll h hk ht
    · obtain rfl : t = u := Value.task.inj hut
      exact .inr (by simpa using hu)
    · exact .inl (ih h₀ ht)

/-- The key of a saved task still holds a task of its queue: only a task with the same key can have
replaced it, and the key determines the queue. -/
theorem queue_of_saves (h : saves batches = some db) {t : Task} (ht : t ∈ batches.flatMap (·.1))
    {k : Key} (hk : recordKey t = some k) : ∃ u, db[k]? = some (.task u) ∧ u.queue = t.queue := by
  induction batches using List.reverseRecOn generalizing db with
  | nil => simp at ht
  | append_singleton batches b ih =>
    rw [saves_concat, Option.bind_eq_some_iff] at h
    obtain ⟨db₀, h₀, h⟩ := h
    rw [getElem?_saveAll_task h (isTaskKey_recordKey hk)]
    cases hlast : (b.1.filter (recordKey · = some k)).getLast? with
    | some u =>
      have hu := (List.mem_filter.mp (List.mem_of_getLast? hlast)).2
      exact ⟨u, rfl, queue_eq_of_recordKey_eq (by simpa using hu) hk⟩
    | none =>
      rw [List.getLast?_eq_none_iff, List.filter_eq_nil_iff] at hlast
      rw [List.flatMap_append, List.mem_append] at ht
      rcases ht with ht | ht
      · exact ih h₀ ht
      · exact absurd (decide_eq_true hk) (hlast t (by simpa using ht))

private theorem eq_of_prefix_separator {q r x : GoString} (hq : 35 ∉ q) (hr : 35 ∉ r)
    (h : q ++ lit "#" <+: r ++ lit "#" ++ x) : q = r := by
  obtain ⟨y, hy⟩ := h
  have hsep : lit "#" = [35] := by decide
  rw [hsep, List.append_assoc, List.append_assoc] at hy
  have hcut : ∀ s z : GoString, 35 ∉ s → (s ++ ([35] ++ z)).takeWhile (· ≠ 35) = s := by
    intro s z hs
    have hne : ∀ b ∈ s, decide (b ≠ 35) = true := fun b hb ↦
      decide_eq_true fun hc ↦ hs (hc ▸ hb)
    rw [List.takeWhile_append_of_pos hne]
    simp
  rw [← hcut q y hq, hy, hcut r x hr]

/-- A key between the ends of a range is of the range's queue, if neither name has a separator. -/
theorem queue_eq_of_contains {query : TaskRange} {t : Task} {k : Key} (hin : query.Contains k)
    (hk : recordKey t = some k) (hq : 35 ∉ query.getQueue) (ht : 35 ∉ t.queue) :
    t.queue = query.getQueue := by
  have hpre := TaskRange.prefix_of_contains hin
  obtain ⟨id, -, rfl⟩ := Option.map_eq_some_iff.mp hk
  rw [getTaskKey] at hpre
  cases query with
  | scheduled q _ _ =>
    split at hpre
    · exact absurd hpre (not_startsWith_getSchedPrefix _ _ _)
    · rw [TaskRange.getPrefix, getScheduledTaskKey, getSchedPrefix, getSchedPrefix,
        List.append_assoc, List.prefix_append_right_inj] at hpre
      exact (eq_of_prefix_separator hq ht hpre).symm
  | fifo q _ _ =>
    split at hpre
    · rw [TaskRange.getPrefix, getFifoTaskKey, getFifoPrefix, getFifoPrefix,
        List.append_assoc, List.prefix_append_right_inj] at hpre
      exact (eq_of_prefix_separator hq ht hpre).symm
    · exact absurd hpre (not_startsWith_getFifoPrefix _ _ _)

/-- **When a scan stays in its queue.** It does so exactly if the key of no saved task of another
queue lies between the ends of the range, and so always if no name has the separator in it. -/
theorem handedOut_isolated_iff (h : saves batches = some db) (query : TaskRange) :
    ((∀ t ∈ handedOut db query, t.queue = query.getQueue) ↔
      ∀ t ∈ batches.flatMap (·.1), t.queue ≠ query.getQueue →
        ∀ k, recordKey t = some k → ¬query.Contains k) ∧
    (35 ∉ query.getQueue → (∀ t ∈ batches.flatMap (·.1), 35 ∉ t.queue) →
      ∀ t ∈ handedOut db query, t.queue = query.getQueue) := by
  have hfiled := filed_saves h
  have hiff : (∀ t ∈ handedOut db query, t.queue = query.getQueue) ↔
      ∀ t ∈ batches.flatMap (·.1), t.queue ≠ query.getQueue →
        ∀ k, recordKey t = some k → ¬query.Contains k := by
    constructor
    · intro hiso t ht hq k hk hin
      obtain ⟨u, hu, huq⟩ := queue_of_saves h ht hk
      exact hq (huq ▸ hiso u ((mem_handedOut hfiled).mpr ⟨k, hin, hu⟩))
    · intro hout t ht
      obtain ⟨k, hin, hk⟩ := (mem_handedOut hfiled).mp ht
      by_contra hq
      have htask := TaskRange.isTaskKey_of_contains hin
      exact hout t (mem_of_saves h htask hk) hq k (hfiled.recordKey_eq htask hk) hin
  refine ⟨hiff, fun hq hts ↦ hiff.mpr fun t ht hne k hk hin ↦ ?_⟩
  exact hne (queue_eq_of_contains hin hk hq (hts t ht))

/-- A task of the queue `a#b`, whose key carries the prefix of the queue `a`. -/
def nestedTask : Task := { id := (TaskID.new .zero 1).string, queue := lit "a#b" }

/-- A scan of another queue next to it hands out the task of that queue alone. -/
theorem handedOut_isolated_iff_nestedTask :
    ∃ db, saves [([nestedTask, { nestedTask with queue := lit "c" }], true)] = some db ∧
      (∀ t ∈ handedOut db (.fifo (lit "c") 0 1), t.queue = lit "c") ∧
      handedOut db (.fifo (lit "c") 0 1) = [{ nestedTask with queue := lit "c" }] := by
  have hend : (saves [([nestedTask, { nestedTask with queue := lit "c" }], true)]).map
      (handedOut · (.fifo (lit "c") 0 1)) = some [{ nestedTask with queue := lit "c" }] := by
    decide +kernel
  obtain ⟨db, hdb, hout⟩ := Option.map_eq_some_iff.mp hend
  refine ⟨db, hdb, (handedOut_isolated_iff hdb (.fifo (lit "c") 0 1)).1.mpr ?_, hout⟩
  have hkey : ∀ k ∈ recordKey nestedTask, ¬(TaskRange.fifo (lit "c") 0 1).Contains k := by
    decide +kernel
  intro t ht hq k hk
  rcases List.mem_cons.mp ht with rfl | ht
  · exact hkey k hk
  · exact absurd (congrArg Task.queue (List.mem_singleton.mp ht)) hq

theorem handedOut_nestedTask_crosses : ∃ db, saves [([nestedTask], true)] = some db ∧
    ¬∀ t ∈ handedOut db (.fifo (lit "a") 0 maxUint64), t.queue = lit "a" := by
  have h : (saves [([nestedTask], true)]).map (fun db ↦ decide
      (∀ t ∈ handedOut db (.fifo (lit "a") 0 maxUint64), t.queue = lit "a"))
      = some false := by decide +kernel
  obtain ⟨db, hdb, hd⟩ := Option.map_eq_some_iff.mp h
  exact ⟨db, hdb, of_decide_eq_false hd⟩

end

end Z4
