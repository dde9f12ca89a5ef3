import Z4.Storage.Keys

/-!
# The task and setting stores

`TaskStore.SaveAll` and `TaskStore.DeleteAll` build one batch each and commit it atomically;
`SettingStore.Save` is a single put. A stored value is kept as the message it encodes, marshalling
being a constructor of `Value` and unmarshalling its match: nothing here looks at the bytes of a
payload.

`SaveAll` parses the id of every task with `MustParseString`, whose panic takes the process down.
The panic is `none`. A storage error is the caller's label: the batch is then dropped and the store
is as before.

The lookups after a save are stated once per kind of key, `getElem?_saveAll_task`,
`getElem?_saveAll_seq` and `getElem?_saveAll_config`, and no later proof unfolds `saveAll`.
-/

namespace Z4

open KeyValue

/-- What a stored payload decodes to. -/
inductive Value where
  | task (t : Task)
  | config (c : QueueConfig)
  | index (i : UInt64)
deriving DecidableEq

/-- The pebble database. -/
abbrev DB := Store Value

/-- `iden.MustParseString`; `none` is its panic. -/
def mustParseString (v : GoString) : Option TaskID := (parseString v).toOption

/-! ## SaveAll -/

/-- The batch under construction and the largest index seen in each queue. -/
structure SaveBatch where
  writes : List (Write Value) := []
  maxIndexes : Store UInt64 := ∅

/-- One round of the loop of `SaveAll`. -/
def saveTask (saveIndex : Bool) (b : SaveBatch) (task : Task) : Option SaveBatch :=
  (mustParseString task.id).map fun id ↦
    { writes := b.writes ++ [.set (getTaskKey task id) (.task task)]
      maxIndexes :=
        if saveIndex && b.maxIndexes.getD task.queue 0 < id.index then
          b.maxIndexes.insert task.queue id.index
        else b.maxIndexes }

/-- `TaskStore.SaveAll`, when the storage operations succeed. -/
def saveAll (tasks : List Task) (saveIndex : Bool) (db : DB) : Option DB :=
  (tasks.foldlM (saveTask saveIndex) {}).map fun b ↦
    commit db (b.writes ++ if saveIndex then
      b.maxIndexes.toList.map fun e ↦ .set (getSeqKey e.1) (.index e.2) else [])

/-! ## DeleteAll and Save -/

/-- `TaskStore.DeleteAll`, when the storage operations succeed. Acks that do not parse are logged
and skipped. -/
def deleteAll (acks : List Ack) (db : DB) : DB :=
  commit db (acks.filterMap fun a ↦ (getAckKey a).toOption.map Write.delete)

/-- `SettingStore.Save`, when the storage operation succeeds. -/
def saveSettings (settings : QueueConfig) (db : DB) : DB :=
  db.insert (getConfigKey settings.id) (.config settings)

/-! ## The key and the index of a task -/

/-- The key under which `SaveAll` stores a task; `none` where it panics. -/
def recordKey (t : Task) : Option Key := (mustParseString t.id).map (getTaskKey t)

/-- The index in the parsed id of a task. -/
def taskIndex (t : Task) : ℕ := ((mustParseString t.id).map fun id ↦ id.index.toNat).getD 0

/-- The key an ack deletes; `none` where it is skipped. -/
def ackKey (a : Ack) : Option Key := (getAckKey a).toOption

/-- The store has the task's record. -/
def Stored (db : DB) (t : Task) : Prop := ∃ k ∈ recordKey t, db[k]? = some (.task t)

instance (db : DB) (t : Task) : Decidable (Stored db t) :=
  inferInstanceAs (Decidable (∃ k ∈ recordKey t, db[k]? = some (.task t)))

theorem isTaskKey_recordKey {t : Task} {k : Key} (h : recordKey t = some k) : IsTaskKey k := by
  obtain ⟨id, -, rfl⟩ := Option.map_eq_some_iff.mp h
  exact isTaskKey_getTaskKey t id

theorem ackKey_eq_some {a : Ack} {k : Key} : ackKey a = some k ↔
    ∃ id, mustParseString a.reference.taskId = some id ∧ ackKeyOf a.reference.queue id = k := by
  rw [ackKey, getAckKey, mustParseString]
  cases parseString a.reference.taskId with
  | error e => simp [Except.map, Except.toOption]
  | ok id => simp [Except.map, Except.toOption]

theorem isTaskKey_ackKey {a : Ack} {k : Key} (h : ackKey a = some k) : IsTaskKey k := by
  obtain ⟨id, -, rfl⟩ := ackKey_eq_some.mp h
  exact isTaskKey_ackKeyOf _ id

theorem queue_eq_of_recordKey_eq {t u : Task} {k : Key} (ht : recordKey t = some k)
    (hu : recordKey u = some k) : t.queue = u.queue := by
  obtain ⟨i, -, rfl⟩ := Option.map_eq_some_iff.mp ht
  obtain ⟨j, -, h⟩ := Option.map_eq_some_iff.mp hu
  exact queue_eq_of_getTaskKey_eq h.symm

/-- The largest index among the tasks of a queue. -/
def maxIndex (q : GoString) (tasks : List Task) : ℕ :=
  tasks.foldl (fun m t ↦ if t.queue = q then max m (taskIndex t) else m) 0

theorem maxIndex_concat (q : GoString) (ts : List Task) (t : Task) :
    maxIndex q (ts ++ [t])
      = if t.queue = q then max (maxIndex q ts) (taskIndex t) else maxIndex q ts := by
  rw [maxIndex, List.foldl_append]
  rfl

theorem le_maxIndex {ts : List Task} {t : Task} (h : t ∈ ts) :
    taskIndex t ≤ maxIndex t.queue ts := by
  induction ts using List.reverseRecOn with
  | nil => simp at h
  | append_singleton ts u ih =>
    rw [maxIndex_concat]
    rcases List.mem_append.mp h with h | h
    · split
      · exact (ih h).trans (le_max_left _ _)
      · exact ih h
    · rw [List.mem_singleton.mp h, if_pos rfl]
      exact le_max_right _ _

theorem exists_of_maxIndex_ne_zero {q : GoString} {ts : List Task} (h : maxIndex q ts ≠ 0) :
    ∃ t ∈ ts, t.queue = q ∧ taskIndex t = maxIndex q ts := by
  induction ts using List.reverseRecOn with
  | nil => exact absurd rfl h
  | append_singleton ts u ih =>
    rw [maxIndex_concat] at h ⊢
    by_cases hq : u.queue = q
    · rw [if_pos hq] at h ⊢
      rcases le_total (taskIndex u) (maxIndex q ts) with hle | hle
      · rw [max_eq_left hle] at h ⊢
        obtain ⟨t, ht, htq⟩ := ih h
        exact ⟨t, List.mem_append_left _ ht, htq⟩
      · rw [max_eq_right hle]
        exact ⟨u, List.mem_append_right _ List.mem_cons_self, hq, rfl⟩
    · rw [if_neg hq] at h ⊢
      obtain ⟨t, ht, htq⟩ := ih h
      exact ⟨t, List.mem_append_left _ ht, htq⟩

theorem taskIndex_lt (t : Task) : taskIndex t < 2 ^ 64 := by
  rw [taskIndex]
  cases mustParseString t.id with
  | none => exact Nat.two_pow_pos 64
  | some id => exact id.index.toNat_lt

theorem maxIndex_lt (q : GoString) (ts : List Task) : maxIndex q ts < 2 ^ 64 := by
  induction ts using List.reverseRecOn with
  | nil => exact Nat.two_pow_pos 64
  | append_singleton ts t ih =>
    rw [maxIndex_concat]
    split
    · exact max_lt ih (taskIndex_lt t)
    · exact ih

/-! ## What a save leaves behind -/

/-- The write a task contributes to the batch. -/
private def taskWrite (t : Task) : Option (Write Value) :=
  (recordKey t).map fun k ↦ .set k (.task t)

/-- The loop in one go: every id parses, and the batch holds the writes in order and the largest
indexes. -/
private theorem foldlM_saveTask {si : Bool} {ts : List Task} {b : SaveBatch}
    (h : ts.foldlM (saveTask si) {} = some b) :
    (∀ t ∈ ts, (recordKey t).isSome) ∧ b.writes = ts.filterMap taskWrite ∧
      (si = true → ∀ q, b.maxIndexes[q]?
        = if maxIndex q ts = 0 then none else some (UInt64.ofNat (maxIndex q ts))) := by
  induction ts using List.reverseRecOn generalizing b with
  | nil =>
    obtain rfl : ({} : SaveBatch) = b := Option.some.inj h
    exact ⟨by simp, rfl, fun _ q ↦ by simp [maxIndex]⟩
  | append_singleton ts t ih =>
    rw [List.foldlM_append, Option.bind_eq_bind, Option.bind_eq_some_iff] at h
    obtain ⟨b', hb', hb⟩ := h
    have hstep : saveTask si b' t = some b := by simpa using hb
    obtain ⟨hall, hwrites, hmax⟩ := ih hb'
    obtain ⟨id, hid, rfl⟩ := Option.map_eq_some_iff.mp hstep
    have hkey : recordKey t = some (getTaskKey t id) := by rw [recordKey, hid, Option.map_some]
    have hidx : taskIndex t = id.index.toNat := by rw [taskIndex, hid]; rfl
    have hlt := maxIndex_lt t.queue ts
    refine ⟨?_, ?_, ?_⟩
    · intro u hu
      rcases List.mem_append.mp hu with hu | hu
      · exact hall u hu
      · rw [List.mem_singleton.mp hu, hkey]
        rfl
    · simp [List.filterMap_append, taskWrite, hkey, hwrites]
    · intro hsi q
      have hget : (b'.maxIndexes.getD t.queue 0).toNat = maxIndex t.queue ts := by
        rw [Std.ExtTreeMap.getD_eq_getD_getElem?, hmax hsi]
        split
        · rename_i h0
          rw [h0]
          rfl
        · rw [Option.getD_some, UInt64.toNat_ofNat', Nat.mod_eq_of_lt hlt]
      -- the running maximum moves exactly when the code's strict comparison says so
      simp only [hsi, Bool.true_and, decide_eq_true_eq, UInt64.lt_iff_toNat_lt, hget]
      rw [maxIndex_concat, hidx]
      by_cases hq : t.queue = q
      · subst hq
        by_cases hnew : maxIndex t.queue ts < id.index.toNat
        · rw [if_pos hnew, Std.ExtTreeMap.getElem?_insert, if_pos Std.ReflCmp.compare_self,
            if_pos rfl, max_eq_right hnew.le, if_neg (by omega), UInt64.ofNat_toNat]
        · rw [if_neg hnew, hmax hsi, if_pos rfl, max_eq_left (by omega)]
      · rw [if_neg hq]
        split
        · rw [Std.ExtTreeMap.getElem?_insert, if_neg, hmax hsi]
          exact fun hc ↦ hq (Std.LawfulEqCmp.eq_of_compare hc)
        · exact hmax hsi q

/-- A save succeeds exactly when every id parses. -/
theorem saveAll_isSome_iff {ts : List Task} {si : Bool} {db : DB} :
    (saveAll ts si db).isSome ↔ ∀ t ∈ ts, (recordKey t).isSome := by
  rw [saveAll, Option.isSome_map]
  constructor
  · intro h
    obtain ⟨b, hb⟩ := Option.isSome_iff_exists.mp h
    exact (foldlM_saveTask hb).1
  · intro h
    have hall : ∀ b : SaveBatch, (ts.foldlM (saveTask si) b).isSome := by
      induction ts with
      | nil => exact fun _ ↦ rfl
      | cons t ts ih =>
        intro b
        have ht := h t List.mem_cons_self
        rw [recordKey, Option.isSome_map] at ht
        obtain ⟨id, hid⟩ := Option.isSome_iff_exists.mp ht
        rw [List.foldlM_cons, saveTask, hid]
        exact ih (fun u hu ↦ h u (List.mem_cons_of_mem t hu)) _
    exact hall _

section

variable {ts : List Task} {si : Bool} {db db' : DB}

private theorem saveAll_eq_commit (h : saveAll ts si db = some db') :
    ∃ m : Store UInt64, (si = true → ∀ q, m[q]?
        = if maxIndex q ts = 0 then none else some (UInt64.ofNat (maxIndex q ts))) ∧
      db' = commit db (ts.filterMap taskWrite ++ if si then
        m.toList.map fun e ↦ .set (getSeqKey e.1) (.index e.2) else []) := by
  obtain ⟨b, hb, rfl⟩ := Option.map_eq_some_iff.mp h
  obtain ⟨-, hwrites, hmax⟩ := foldlM_saveTask hb
  exact ⟨b.maxIndexes, hmax, by rw [hwrites]⟩

private theorem key_of_mem_indexWrites {m : Store UInt64} {w : Write Value}
    (h : w ∈ if si then m.toList.map fun e ↦ Write.set (getSeqKey e.1) (Value.index e.2) else []) :
    ∃ q, w.key = getSeqKey q := by
  split at h
  · obtain ⟨e, -, rfl⟩ := List.mem_map.mp h
    exact ⟨e.1, rfl⟩
  · simp at h

private theorem isTaskKey_of_mem_taskWrites {w : Write Value} (h : w ∈ ts.filterMap taskWrite) :
    IsTaskKey w.key := by
  obtain ⟨t, -, ht⟩ := List.mem_filterMap.mp h
  obtain ⟨k, hk, rfl⟩ := Option.map_eq_some_iff.mp ht
  exact isTaskKey_recordKey hk

private theorem filter_taskWrites (ts : List Task) (k : Key) :
    (ts.filterMap taskWrite).filter (·.key = k)
      = (ts.filter (recordKey · = some k)).map fun t ↦ .set k (.task t) := by
  induction ts with
  | nil => rfl
  | cons t ts ih =>
    cases ht : recordKey t with
    | none => simpa [taskWrite, ht] using ih
    | some k' =>
      by_cases hkk : k' = k
      · subst hkk
        simpa [taskWrite, ht, Write.key] using ih
      · simpa [taskWrite, ht, Write.key, hkk] using ih

/-- Task records after a save: the last saved task with that key, else what was there. -/
theorem getElem?_saveAll_task (h : saveAll ts si db = some db') {k : Key} (hk : IsTaskKey k) :
    db'[k]? = ((ts.filter (recordKey · = some k)).getLast?.map Value.task).or db[k]? := by
  obtain ⟨m, -, rfl⟩ := saveAll_eq_commit h
  rw [commit_append, getElem?_commit_of_forall_ne]
  · rw [getElem?_commit, filter_taskWrites, List.getLast?_map, Option.map_map]
    cases (ts.filter (recordKey · = some k)).getLast? <;> rfl
  · intro w hw
    obtain ⟨q, hq⟩ := key_of_mem_indexWrites hw
    rw [hq]
    exact fun hc ↦ not_isTaskKey_seq q (hc ▸ hk)

theorem getElem?_saveAll_of_forall_ne (h : saveAll ts si db = some db') {k : Key}
    (hk : IsTaskKey k) (hne : ∀ t ∈ ts, recordKey t ≠ some k) : db'[k]? = db[k]? := by
  have hnil : ts.filter (recordKey · = some k) = [] := by simpa using hne
  rw [getElem?_saveAll_task h hk, hnil]
  rfl

theorem getElem?_saveAll_of_ne (h : saveAll ts si db = some db') {k : Key}
    (htask : ∀ t ∈ ts, recordKey t ≠ some k) (hseq : ∀ q, getSeqKey q ≠ k) : db'[k]? = db[k]? := by
  obtain ⟨m, -, rfl⟩ := saveAll_eq_commit h
  refine getElem?_commit_of_forall_ne fun w hw ↦ ?_
  rcases List.mem_append.mp hw with hw | hw
  · obtain ⟨t, ht, htw⟩ := List.mem_filterMap.mp hw
    obtain ⟨k', hk', rfl⟩ := Option.map_eq_some_iff.mp htw
    rintro rfl
    exact htask t ht hk'
  · obtain ⟨r, hr⟩ := key_of_mem_indexWrites hw
    rw [hr]
    exact hseq r

theorem getElem?_saveAll_config (h : saveAll ts si db = some db') (q : GoString) :
    db'[getConfigKey q]? = db[getConfigKey q]? :=
  getElem?_saveAll_of_ne h
    (fun _ _ hk ↦ not_isTaskKey_config q (isTaskKey_recordKey hk))
    fun r ↦ getSeqKey_ne_getConfigKey r q

/-- The counter of a queue after a save: overwritten, not raised, by the largest index saved. -/
theorem getElem?_saveAll_seq (h : saveAll ts si db = some db') (q : GoString) :
    db'[getSeqKey q]? = if si = true ∧ maxIndex q ts ≠ 0 then
      some (.index (UInt64.ofNat (maxIndex q ts))) else db[getSeqKey q]? := by
  obtain ⟨m, hm, rfl⟩ := saveAll_eq_commit h
  have htasks : (commit db (ts.filterMap taskWrite))[getSeqKey q]? = db[getSeqKey q]? :=
    getElem?_commit_of_forall_ne fun w hw hc ↦
      not_isTaskKey_seq q (hc ▸ isTaskKey_of_mem_taskWrites hw)
  rw [commit_append]
  cases si with
  | false => simpa using htasks
  | true =>
    have hmem : ∀ w ∈ m.toList.map fun e ↦ Write.set (getSeqKey e.1) (Value.index e.2),
        w.key = getSeqKey q → maxIndex q ts ≠ 0 ∧
          w.result = some (.index (UInt64.ofNat (maxIndex q ts))) := by
      intro w hw hkey
      obtain ⟨e, he, rfl⟩ := List.mem_map.mp hw
      obtain rfl : e.1 = q := getSeqKey_inj.mp hkey
      rw [mem_toList, hm rfl] at he
      split at he
      · simp at he
      · rename_i hne
        exact ⟨hne, by rw [Write.result, ← Option.some.inj he]⟩
    by_cases hz : maxIndex q ts = 0
    · simp only [if_true, hz, ne_eq, not_true_eq_false, and_false, if_false]
      rw [getElem?_commit_of_forall_ne, htasks]
      exact fun w hw hc ↦ (hmem w hw hc).1 hz
    · simp only [if_true, ne_eq, hz, not_false_eq_true, and_self]
      refine getElem?_commit_of_forall_eq ?_ fun w hw hc ↦ (hmem w hw hc).2
      have hq := hm rfl q
      rw [if_neg hz] at hq
      exact ⟨_, List.mem_map.mpr ⟨(q, _), mem_toList.mpr hq, rfl⟩, rfl⟩

end

/-! ## What a delete and a put leave behind -/

theorem getElem?_deleteAll (acks : List Ack) (db : DB) (k : Key) :
    (deleteAll acks db)[k]? = if ∃ a ∈ acks, ackKey a = some k then none else db[k]? := by
  have hmem : ∀ w ∈ acks.filterMap fun a ↦ (getAckKey a).toOption.map (Write.delete (V := Value)),
      w.result = none ∧ ∃ a ∈ acks, ackKey a = some w.key := by
    intro w hw
    obtain ⟨a, ha, hw⟩ := List.mem_filterMap.mp hw
    obtain ⟨k', hk', rfl⟩ := Option.map_eq_some_iff.mp hw
    exact ⟨rfl, a, ha, hk'⟩
  rw [deleteAll]
  split
  · rename_i hex
    obtain ⟨a, ha, hk⟩ := hex
    refine getElem?_commit_of_forall_eq ⟨.delete k, ?_, rfl⟩ fun w hw _ ↦ (hmem w hw).1
    exact List.mem_filterMap.mpr ⟨a, ha, Option.map_eq_some_iff.mpr ⟨k, hk, rfl⟩⟩
  · rename_i hex
    exact getElem?_commit_of_forall_ne fun w hw hc ↦ hex (hc ▸ (hmem w hw).2)

theorem getElem?_deleteAll_of_not_isTaskKey (acks : List Ack) (db : DB) {k : Key}
    (hk : ¬IsTaskKey k) : (deleteAll acks db)[k]? = db[k]? := by
  rw [getElem?_deleteAll, if_neg]
  rintro ⟨a, -, ha⟩
  exact hk (isTaskKey_ackKey ha)

theorem getElem?_saveSettings (c : QueueConfig) (db : DB) (k : Key) :
    (saveSettings c db)[k]? = if getConfigKey c.id = k then some (.config c) else db[k]? :=
  getElem?_apply db (.set (getConfigKey c.id) (.config c)) k

/-! ## Stores whose task records are where they belong -/

/-- Under a task key lies a task, and it is the task's own key. -/
def Filed (db : DB) : Prop :=
  ∀ k v, IsTaskKey k → db[k]? = some v → ∃ t, v = .task t ∧ recordKey t = some k

theorem filed_empty : Filed ∅ := fun k v _ h ↦ by simp at h

theorem Filed.recordKey_eq {db : DB} (h : Filed db) {k : Key} {t : Task} (hk : IsTaskKey k)
    (hget : db[k]? = some (.task t)) : recordKey t = some k := by
  obtain ⟨u, hu, hkey⟩ := h k _ hk hget
  obtain rfl : t = u := by simpa using hu
  exact hkey

section

variable {ts : List Task} {si : Bool} {db db' : DB}

/-- A record after a save is of the save, under its own key, or was there before. -/
theorem record_of_saveAll (hsave : saveAll ts si db = some db') {k : Key} {v : Value}
    (hk : IsTaskKey k) (hv : db'[k]? = some v) :
    (∃ t ∈ ts, v = .task t ∧ recordKey t = some k) ∨ db[k]? = some v := by
  rw [getElem?_saveAll_task hsave hk, Option.or_eq_some_iff] at hv
  rcases hv with hv | ⟨-, hv⟩
  · obtain ⟨t, ht, rfl⟩ := Option.map_eq_some_iff.mp hv
    obtain ⟨hmem, hkey⟩ := List.mem_filter.mp (List.mem_of_getLast? ht)
    exact .inl ⟨t, hmem, rfl, by simpa using hkey⟩
  · exact .inr hv

theorem Filed.saveAll (h : Filed db) (hsave : saveAll ts si db = some db') : Filed db' := by
  intro k v hk hv
  obtain ⟨t, -, hrecord⟩ | hv := record_of_saveAll hsave hk hv
  · exact ⟨t, hrecord⟩
  · exact h k v hk hv

theorem Filed.deleteAll (h : Filed db) (acks : List Ack) : Filed (deleteAll acks db) := by
  intro k v hk hv
  rw [getElem?_deleteAll] at hv
  split at hv
  · simp at hv
  · exact h k v hk hv

theorem Filed.congr (h : Filed db) (hdb : ∀ k, IsTaskKey k → db'[k]? = db[k]?) : Filed db' :=
  fun k v hk hv ↦ h k v hk (hdb k hk ▸ hv)

/-! ## Which tasks are stored -/

theorem stored_congr {t : Task} (hdb : ∀ k, IsTaskKey k → db'[k]? = db[k]?) :
    Stored db' t ↔ Stored db t := by
  refine exists_congr fun k ↦ and_congr_right fun hk ↦ ?_
  rw [hdb k (isTaskKey_recordKey hk)]

theorem mem_or_kept_of_saveAll {t : Task} (hsave : saveAll ts si db = some db')
    (h : Stored db' t) : t ∈ ts ∨ Stored db t ∧ ∀ u ∈ ts, recordKey u ≠ recordKey t := by
  obtain ⟨k, hk, hget⟩ := h
  rw [getElem?_saveAll_task hsave (isTaskKey_recordKey hk), Option.or_eq_some_iff] at hget
  rcases hget with hget | ⟨hnone, hget⟩
  · obtain ⟨u, hu, heq⟩ := Option.map_eq_some_iff.mp hget
    obtain rfl : u = t := by simpa using heq
    exact .inl (List.mem_filter.mp (List.mem_of_getLast? hu)).1
  · rw [Option.map_eq_none_iff, List.getLast?_eq_none_iff, List.filter_eq_nil_iff] at hnone
    refine .inr ⟨⟨k, hk, hget⟩, fun u hu heq ↦ hnone u hu ?_⟩
    rw [heq, show recordKey t = some k from hk]
    exact decide_eq_true rfl

theorem mem_or_stored_of_saveAll {t : Task} (hsave : saveAll ts si db = some db')
    (h : Stored db' t) : t ∈ ts ∨ Stored db t :=
  (mem_or_kept_of_saveAll hsave h).imp_right And.left

theorem stored_saveAll {t : Task} (hsave : saveAll ts si db = some db')
    (hown : ∀ u ∈ ts, recordKey u = recordKey t → u = t) :
    Stored db' t ↔ t ∈ ts ∨ Stored db t := by
  refine ⟨mem_or_stored_of_saveAll hsave, fun h ↦ ?_⟩
  have hsome : (recordKey t).isSome := by
    rcases h with ht | ⟨k, hk, -⟩
    · exact saveAll_isSome_iff.mp (Option.isSome_iff_exists.mpr ⟨_, hsave⟩) t ht
    · exact Option.isSome_iff_exists.mpr ⟨k, hk⟩
  obtain ⟨k, hk⟩ := Option.isSome_iff_exists.mp hsome
  refine ⟨k, hk, ?_⟩
  by_cases ht : t ∈ ts
  · have hmem : t ∈ ts.filter fun v ↦ recordKey v = some k :=
      List.mem_filter.mpr ⟨ht, by simpa using hk⟩
    obtain ⟨u, hu⟩ := Option.isSome_iff_exists.mp
      (List.getLast?_isSome.mpr (List.ne_nil_of_mem hmem))
    obtain ⟨humem, hukey⟩ := List.mem_filter.mp (List.mem_of_getLast? hu)
    rw [getElem?_saveAll_task hsave (isTaskKey_recordKey hk), hu,
      hown u humem ((by simpa using hukey : recordKey u = some k).trans hk.symm)]
    rfl
  · obtain ⟨l, hl, hget⟩ := h.resolve_left ht
    obtain rfl : k = l := Option.some.inj (hk.symm.trans hl)
    rwa [getElem?_saveAll_of_forall_ne hsave (isTaskKey_recordKey hk)]
    exact fun u hu hc ↦ ht (hown u hu (hc.trans hk.symm) ▸ hu)

theorem stored_of_deleteAll {t : Task} {acks : List Ack} (h : Stored (deleteAll acks db) t) :
    Stored db t := by
  obtain ⟨k, hk, hget⟩ := h
  rw [getElem?_deleteAll] at hget
  split at hget
  · simp at hget
  · exact ⟨k, hk, hget⟩

end

end Z4
