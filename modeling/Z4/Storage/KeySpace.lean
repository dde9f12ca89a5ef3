import Z4.Storage.Sequence
import Z4.Foundations.Runs

/-!
# The key space as four maps

The stores share one byte-ordered key space, and queue names and id bytes go into its keys as they
are. What they are meant to keep is four maps: the FIFO tasks by queue and index, the scheduled
tasks by queue and id, the counters and the configs by queue. `Maps` is that meaning, with the
operations as plain updates, and knows nothing of keys.

A `Slot` names an entry of one of the maps and `Slot.key` is where it is kept. That the layouts are
injective and disjoint is `Slot.key_inj`. `Encodes` says that a store holds exactly the entries of
the maps, each under its key, and every operation of the stores keeps it. The reads of the stores
are then reads of the maps: for a point read this is the encoding, for `GetAll` it takes the
argument that only configs have the prefix it scans.
-/

namespace Z4

open KeyValue

/-! ## The maps -/

/-- What the key space stands for. -/
structure Maps where
  fifo : GoString → UInt64 → Option Task := fun _ _ ↦ none
  sched : GoString → TaskID → Option Task := fun _ _ ↦ none
  counter : GoString → Option UInt64 := fun _ ↦ none
  config : GoString → Option QueueConfig := fun _ ↦ none

namespace Maps

/-- Put a task into the FIFO map if it has no schedule time, else into the scheduled map. -/
def putTask (m : Maps) (t : Task) (id : TaskID) : Maps :=
  match t.scheduleTime with
  | none =>
    { m with fifo := fun q i ↦ if t.queue = q ∧ id.index = i then some t else m.fifo q i }
  | some _ =>
    { m with sched := fun q i ↦ if t.queue = q ∧ id = i then some t else m.sched q i }

/-- Put a counter. -/
def putCounter (m : Maps) (queue : GoString) (v : UInt64) : Maps :=
  { m with counter := fun q ↦ if queue = q then some v else m.counter q }

/-- Put a config under its queue. -/
def putConfig (m : Maps) (c : QueueConfig) : Maps :=
  { m with config := fun q ↦ if c.id = q then some c else m.config q }

/-- Save tasks, in order, and with `saveIndex` the largest index of every queue among them. -/
def saveAll (tasks : List Task) (saveIndex : Bool) (m : Maps) : Option Maps :=
  (tasks.foldlM (fun m t ↦ (mustParseString t.id).map (m.putTask t)) m).map fun m ↦
    if saveIndex then
      { m with counter := fun q ↦
          if maxIndex q tasks = 0 then m.counter q else some (UInt64.ofNat (maxIndex q tasks)) }
    else m

/-- Delete the task of an ack from the map that the time component of its id selects. -/
def deleteTask (m : Maps) (a : Ack) : Maps :=
  match mustParseString a.reference.taskId with
  | none => m
  | some id =>
    match id.time with
    | .error _ => { m with fifo := fun q i ↦
        if a.reference.queue = q ∧ id.index = i then none else m.fifo q i }
    | .ok _ => { m with sched := fun q i ↦
        if a.reference.queue = q ∧ id = i then none else m.sched q i }

def deleteAll (acks : List Ack) (m : Maps) : Maps := acks.foldl deleteTask m

end Maps

/-! ## Slots and their keys -/

/-- An entry of one of the maps. -/
inductive Slot where
  | fifo (queue : GoString) (index : UInt64)
  | sched (queue : GoString) (id : TaskID)
  | counter (queue : GoString)
  | config (queue : GoString)
deriving DecidableEq

/-- Where an entry is kept. -/
def Slot.key : Slot → Key
  | .fifo q i => getFifoPrefix q ++ BigEndian.bytes 8 i.toNat
  | .sched q id => getScheduledTaskKey q id
  | .counter q => getSeqKey q
  | .config q => getConfigKey q

/-- What is kept there. -/
def Maps.lookup (m : Maps) : Slot → Option Value
  | .fifo q i => (m.fifo q i).map .task
  | .sched q id => (m.sched q id).map .task
  | .counter q => (m.counter q).map .index
  | .config q => (m.config q).map .config

/-- The slot of a task with a parsed id. -/
def Task.slot (t : Task) (id : TaskID) : Slot :=
  match t.scheduleTime with
  | none => .fifo t.queue id.index
  | some _ => .sched t.queue id

/-- The slot an ack deletes. -/
def Ack.slot (a : Ack) (id : TaskID) : Slot :=
  match id.time with
  | .error _ => .fifo a.reference.queue id.index
  | .ok _ => .sched a.reference.queue id

theorem Task.key_slot (t : Task) (id : TaskID) : (t.slot id).key = getTaskKey t id := by
  simp only [Task.slot, getTaskKey]
  cases t.scheduleTime <;> rfl

theorem Ack.key_slot (a : Ack) (id : TaskID) : (a.slot id).key = ackKeyOf a.reference.queue id := by
  simp only [Ack.slot, ackKeyOf]
  cases id.time <;> rfl

private theorem key_fifo (q : GoString) (i : UInt64) :
    ∃ id : TaskID, id.index = i ∧ (Slot.fifo q i).key = getFifoTaskKey q id := by
  refine ⟨TaskID.new .zero i, TaskID.index_new _ _, ?_⟩
  rw [Slot.key, getFifoTaskKey, TaskID.index_new]

theorem Slot.isTaskKey_fifo (q : GoString) (i : UInt64) : IsTaskKey (Slot.fifo q i).key := by
  obtain ⟨id, -, h⟩ := key_fifo q i
  rw [h]
  exact Z4.isTaskKey_fifo q id

theorem Slot.isTaskKey_sched (q : GoString) (id : TaskID) : IsTaskKey (Slot.sched q id).key :=
  Z4.isTaskKey_sched q id

/-- **No two entries share a key.** -/
theorem Slot.key_inj {s s' : Slot} : s.key = s'.key ↔ s = s' := by
  refine ⟨fun h ↦ ?_, congrArg Slot.key⟩
  have hseq : ∀ {k : Key} {r : GoString}, IsTaskKey k → k ≠ getSeqKey r :=
    fun hk heq ↦ not_isTaskKey_seq _ (heq ▸ hk)
  have hconfig : ∀ {k : Key} {r : GoString}, IsTaskKey k → k ≠ getConfigKey r :=
    fun hk heq ↦ not_isTaskKey_config _ (heq ▸ hk)
  cases s with
  | fifo q i =>
    obtain ⟨id, rfl, hid⟩ := key_fifo q i
    rw [hid] at h
    cases s' with
    | fifo r j =>
      obtain ⟨id', rfl, hid'⟩ := key_fifo r j
      rw [hid', getFifoTaskKey_inj] at h
      rw [h.1, h.2]
    | sched r id' => exact absurd h (getFifoTaskKey_ne_getScheduledTaskKey _ _ _ _)
    | counter r => exact absurd h (hseq (Z4.isTaskKey_fifo q id))
    | config r => exact absurd h (hconfig (Z4.isTaskKey_fifo q id))
  | sched q id =>
    cases s' with
    | fifo r j =>
      obtain ⟨id', -, hid'⟩ := key_fifo r j
      rw [hid'] at h
      exact absurd h.symm (getFifoTaskKey_ne_getScheduledTaskKey _ _ _ _)
    | sched r id' =>
      obtain ⟨rfl, rfl⟩ := getScheduledTaskKey_inj.mp h
      rfl
    | counter r => exact absurd h (hseq (Slot.isTaskKey_sched q id))
    | config r => exact absurd h (hconfig (Slot.isTaskKey_sched q id))
  | counter q =>
    cases s' with
    | fifo r j => exact absurd h.symm (hseq (Slot.isTaskKey_fifo r j))
    | sched r id => exact absurd h.symm (hseq (Slot.isTaskKey_sched r id))
    | counter r => rw [getSeqKey_inj.mp h]
    | config r => exact absurd h (getSeqKey_ne_getConfigKey q r)
  | config q =>
    cases s' with
    | fifo r j => exact absurd h.symm (hconfig (Slot.isTaskKey_fifo r j))
    | sched r id => exact absurd h.symm (hconfig (Slot.isTaskKey_sched r id))
    | counter r => exact absurd h.symm (getSeqKey_ne_getConfigKey r q)
    | config r => rw [getConfigKey_inj.mp h]

/-! ## The updates, slot by slot -/

section

variable {m m' : Maps} {t : Task} {id : TaskID}

theorem Maps.lookup_putTask (m : Maps) (t : Task) (id : TaskID) (s : Slot) :
    (m.putTask t id).lookup s = if t.slot id = s then some (.task t) else m.lookup s := by
  rw [Maps.putTask, Task.slot]
  split <;> cases s <;> simp only [Maps.lookup, Slot.fifo.injEq, Slot.sched.injEq, reduceCtorEq,
    if_false] <;> split <;> rfl

theorem Maps.lookup_putCounter (m : Maps) (q : GoString) (v : UInt64) (s : Slot) :
    (m.putCounter q v).lookup s = if Slot.counter q = s then some (.index v) else m.lookup s := by
  cases s with
  | counter r =>
    simp only [Maps.lookup, Maps.putCounter, Slot.counter.injEq]
    split <;> rfl
  | _ => rfl

theorem Maps.lookup_putConfig (m : Maps) (c : QueueConfig) (s : Slot) :
    (m.putConfig c).lookup s = if Slot.config c.id = s then some (.config c) else m.lookup s := by
  cases s with
  | config r =>
    simp only [Maps.lookup, Maps.putConfig, Slot.config.injEq]
    split <;> rfl
  | _ => rfl

theorem Maps.lookup_deleteTask (m : Maps) (a : Ack) (s : Slot) :
    (m.deleteTask a).lookup s = if ackKey a = some s.key then none else m.lookup s := by
  have hkey : ackKey a = some s.key ↔ ∃ id, mustParseString a.reference.taskId = some id ∧
      a.slot id = s := by
    simp only [ackKey_eq_some, ← Ack.key_slot, Slot.key_inj]
  simp only [hkey]
  rw [Maps.deleteTask]
  cases hid : mustParseString a.reference.taskId with
  | none => simp
  | some id =>
    simp only [Option.some.injEq, exists_eq_left', Ack.slot]
    cases id.time <;> cases s <;> simp only [Maps.lookup, Slot.fifo.injEq, Slot.sched.injEq,
      reduceCtorEq, if_false] <;> split <;> rfl

theorem Maps.lookup_deleteAll (acks : List Ack) (m : Maps) (s : Slot) :
    (Maps.deleteAll acks m).lookup s
      = if ∃ a ∈ acks, ackKey a = some s.key then none else m.lookup s := by
  induction acks using List.reverseRecOn with
  | nil => simp [Maps.deleteAll]
  | append_singleton acks a ih =>
    have hconcat : Maps.deleteAll (acks ++ [a]) m = (Maps.deleteAll acks m).deleteTask a := by
      rw [Maps.deleteAll, List.foldl_append]
      rfl
    simp only [hconcat, Maps.lookup_deleteTask, ih, List.mem_append, List.mem_singleton,
      or_and_right, exists_or, exists_eq_left]
    by_cases ha : ackKey a = some s.key
    · simp [ha]
    · simp [ha]

/-- The tasks of a save, in order: the last one with the slot's key decides it. -/
private theorem lookup_foldlM_putTask {ts : List Task}
    (h : ts.foldlM (fun m t ↦ (mustParseString t.id).map (m.putTask t)) m = some m') (s : Slot) :
    m'.lookup s
      = ((ts.filter (recordKey · = some s.key)).getLast?.map Value.task).or (m.lookup s) := by
  induction ts using List.reverseRecOn generalizing m' with
  | nil =>
    obtain rfl : m = m' := Option.some.inj h
    rfl
  | append_singleton ts t ih =>
    rw [List.foldlM_append, Option.bind_eq_bind, Option.bind_eq_some_iff] at h
    obtain ⟨m₁, hm₁, h⟩ := h
    have hstep : (mustParseString t.id).map (m₁.putTask t) = some m' := by simpa using h
    obtain ⟨id, hid, rfl⟩ := Option.map_eq_some_iff.mp hstep
    have hkey : recordKey t = some s.key ↔ t.slot id = s := by
      rw [recordKey, hid, Option.map_some, Option.some.injEq, ← Task.key_slot, Slot.key_inj]
    rw [Maps.lookup_putTask, ih hm₁, List.filter_append]
    by_cases hs : t.slot id = s
    · simp [hs, hkey.mpr hs]
    · simp [hs, mt hkey.mp hs]

theorem Maps.isSome_saveAll (ts : List Task) (si : Bool) (m : Maps) (db : DB) :
    (Maps.saveAll ts si m).isSome = (Z4.saveAll ts si db).isSome := by
  rw [Bool.eq_iff_iff, saveAll_isSome_iff, Maps.saveAll, Option.isSome_map]
  induction ts generalizing m with
  | nil => simp
  | cons t ts ih =>
    rw [List.foldlM_cons, List.forall_mem_cons, recordKey, Option.isSome_map]
    cases hid : mustParseString t.id with
    | none => simp
    | some id => simpa using ih (m.putTask t id)

end

/-! ## The encoding -/

/-- The store holds exactly the entries of the maps, each under its key. -/
structure Encodes (db : DB) (m : Maps) : Prop where
  lookup : ∀ s : Slot, db[s.key]? = m.lookup s
  only : ∀ k : Key, (∀ s : Slot, s.key ≠ k) → db[k]? = none

section

variable {db db' : DB} {m m' : Maps}

theorem encodes_empty : Encodes ∅ {} where
  lookup s := by cases s <;> simp [Maps.lookup]
  only k _ := by simp

theorem Encodes.saveAll {ts : List Task} {si : Bool} (h : Encodes db m)
    (hdb : saveAll ts si db = some db') (hm : Maps.saveAll ts si m = some m') :
    Encodes db' m' := by
  obtain ⟨m₁, hm₁, rfl⟩ := Option.map_eq_some_iff.mp hm
  have htask := lookup_foldlM_putTask hm₁
  have hnone : ∀ k, ¬IsTaskKey k → ts.filter (recordKey · = some k) = [] := by
    intro k hk
    rw [List.filter_eq_nil_iff]
    intro t _ ht
    exact hk (isTaskKey_recordKey (by simpa using ht))
  have hold : ∀ s, ¬IsTaskKey s.key → m₁.lookup s = m.lookup s := by
    intro s hs
    rw [htask, hnone _ hs]
    rfl
  refine ⟨fun s ↦ ?_, fun k hk ↦ ?_⟩
  · -- the two kinds of task records take the last task of the call, the rest only its indexes
    cases s with
    | fifo q i =>
      rw [getElem?_saveAll_task hdb (Slot.isTaskKey_fifo q i), h.lookup, ← htask]
      cases si <;> rfl
    | sched q id =>
      rw [getElem?_saveAll_task hdb (Slot.isTaskKey_sched q id), h.lookup, ← htask]
      cases si <;> rfl
    | counter q =>
      have hold := hold (.counter q) (not_isTaskKey_seq q)
      rw [Slot.key, getElem?_saveAll_seq hdb, show getSeqKey q = (Slot.counter q).key from rfl,
        h.lookup, ← hold]
      cases si with
      | false => simp
      | true =>
        by_cases hz : maxIndex q ts = 0
        · simp [hz, Maps.lookup]
        · simp [hz, Maps.lookup]
    | config q =>
      have hold := hold (.config q) (not_isTaskKey_config q)
      rw [Slot.key, getElem?_saveAll_config hdb, show getConfigKey q = (Slot.config q).key from rfl,
        h.lookup, ← hold]
      cases si <;> rfl
  · rw [getElem?_saveAll_of_ne hdb ?_ fun q ↦ hk (.counter q), h.only k hk]
    intro t _ ht
    obtain ⟨id, -, rfl⟩ := Option.map_eq_some_iff.mp ht
    exact hk (t.slot id) (t.key_slot id)

theorem Encodes.deleteAll (h : Encodes db m) (acks : List Ack) :
    Encodes (deleteAll acks db) (Maps.deleteAll acks m) := by
  refine ⟨fun s ↦ ?_, fun k hk ↦ ?_⟩
  · rw [getElem?_deleteAll, Maps.lookup_deleteAll, h.lookup]
  · rw [getElem?_deleteAll, h.only k hk, ite_self]

private theorem Encodes.put (h : Encodes db m) {s : Slot} {v : Value}
    (hm : ∀ s', m'.lookup s' = if s = s' then some v else m.lookup s') :
    Encodes (db.insert s.key v) m' := by
  refine ⟨fun s' ↦ ?_, fun k hk ↦ ?_⟩
  · rw [getElem?_insert, hm, h.lookup]
    simp only [Slot.key_inj]
  · rw [getElem?_insert, if_neg (hk s), h.only k hk]

theorem Encodes.saveSettings (h : Encodes db m) (c : QueueConfig) :
    Encodes (saveSettings c db) (m.putConfig c) :=
  h.put (s := .config c.id) (m.lookup_putConfig c)

theorem Encodes.putCounter (h : Encodes db m) (q : GoString) (v : UInt64) :
    Encodes (db.insert (getSeqKey q) (.index v)) (m.putCounter q v) :=
  h.put (s := .counter q) (m.lookup_putCounter q v)

theorem Encodes.storedIndex_eq (h : Encodes db m) (q : GoString) :
    storedIndex db (getSeqKey q) = (m.counter q).getD 0 := by
  rw [storedIndex, show getSeqKey q = (Slot.counter q).key from rfl, h.lookup, Maps.lookup]
  cases m.counter q <;> rfl

end

/-! ## The operations of the stores -/

/-- An operation on the stores. Sequences are referred to by the order in which they were opened. -/
inductive StoreOp where
  | saveAll (tasks : List Task) (saveIndex : Bool)
  | deleteAll (acks : List Ack)
  | save (settings : QueueConfig)
  | newSequence (queue : GoString) (lease : UInt64)
  | next (seq : ℕ)
  | close (seq : ℕ)

/-- The database and the sequences that were opened on it. -/
structure Stores where
  db : DB := ∅
  seqs : List Sequence := []

/-- Every storage write succeeds; what is undefined is the panic of a save and the use of a sequence
that was never opened. -/
def Stores.step (s : Stores) : StoreOp → Option Stores
  | .saveAll tasks saveIndex => (Z4.saveAll tasks saveIndex s.db).map fun db ↦ { s with db }
  | .deleteAll acks => some { s with db := Z4.deleteAll acks s.db }
  | .save settings => some { s with db := saveSettings settings s.db }
  | .newSequence queue lease =>
    match Sequence.new s.db (getSeqKey queue) lease true with
    | (some q, db) => some ⟨db, s.seqs ++ [q]⟩
    | (none, _) => none
  | .next seq => s.seqs[seq]?.map fun q ↦
    let (q', db, _) := q.next s.db true
    ⟨db, s.seqs.set seq q'⟩
  | .close seq => s.seqs[seq]?.map fun q ↦ { s with db := q.close s.db true }

/-- A sequence, with its queue in place of a key. -/
structure Counter where
  queue : GoString
  leaseSize : UInt64
  nextLease : UInt64
  i : UInt64

def Counter.sequence (c : Counter) : Sequence := ⟨c.leaseSize, c.nextLease, c.i, getSeqKey c.queue⟩

/-- The same operations on the maps. -/
structure StoreSpec where
  maps : Maps := {}
  counters : List Counter := []

def StoreSpec.step (s : StoreSpec) : StoreOp → Option StoreSpec
  | .saveAll tasks saveIndex => (Maps.saveAll tasks saveIndex s.maps).map fun maps ↦ { s with maps }
  | .deleteAll acks => some { s with maps := Maps.deleteAll acks s.maps }
  | .save settings => some { s with maps := s.maps.putConfig settings }
  | .newSequence queue lease =>
    let i := (s.maps.counter queue).getD 0
    some ⟨s.maps.putCounter queue (i + lease - 1), s.counters ++ [⟨queue, lease, i + lease - 1, i⟩]⟩
  | .next seq => s.counters[seq]?.map fun c ↦
    if c.i = c.nextLease then
      ⟨s.maps.putCounter c.queue (c.i + c.leaseSize - 1),
        s.counters.set seq { c with nextLease := c.i + c.leaseSize - 1, i := c.i + 1 }⟩
    else ⟨s.maps, s.counters.set seq { c with i := c.i + 1 }⟩
  | .close seq => s.counters[seq]?.map fun c ↦ { s with maps := s.maps.putCounter c.queue c.i }

/-- The entries an operation may change. -/
def StoreOp.Touches (s : StoreSpec) : StoreOp → Slot → Prop
  | .saveAll tasks saveIndex, slot => (∃ t ∈ tasks, recordKey t = some slot.key) ∨
      saveIndex = true ∧ ∃ t ∈ tasks, slot = .counter t.queue
  | .deleteAll acks, slot => ∃ a ∈ acks, ackKey a = some slot.key
  | .save settings, slot => slot = .config settings.id
  | .newSequence queue _, slot => slot = .counter queue
  | .next seq, slot => ∃ c ∈ s.counters[seq]?, slot = .counter c.queue
  | .close seq, slot => ∃ c ∈ s.counters[seq]?, slot = .counter c.queue

/-! ## The reads of the stores -/

/-- `TaskStore.Get`. Only scheduled tasks are looked for. -/
def taskStoreGet (db : DB) (queue : GoString) (id : TaskID) : Option Task :=
  match db[getScheduledTaskKey queue id]? with
  | some (.task t) => some t
  | _ => none

/-- `SettingStore.Get`. -/
def settingStoreGet (db : DB) (queue : GoString) : Option QueueConfig :=
  match db[getConfigKey queue]? with
  | some (.config c) => some c
  | _ => none

/-- The prefix of a `SettingStore`. -/
def settingPrefix : Key := lit "queue#config#"

/-- `SettingStore.GetAll`: values that do not decode are logged and skipped. -/
def settingStoreGetAll (db : DB) : List QueueConfig :=
  ((seekGE db settingPrefix).takeWhile fun e ↦ settingPrefix.isPrefixOf e.1).filterMap fun e ↦
    match e.2 with
    | .config c => some c
    | _ => none

section

variable {db : DB} {m : Maps}

theorem Encodes.taskStoreGet_eq (h : Encodes db m) (q : GoString) (id : TaskID) :
    taskStoreGet db q id = m.sched q id := by
  rw [taskStoreGet, show getScheduledTaskKey q id = (Slot.sched q id).key from rfl, h.lookup,
    Maps.lookup]
  cases m.sched q id <;> rfl

theorem Encodes.settingStoreGet_eq (h : Encodes db m) (q : GoString) :
    settingStoreGet db q = m.config q := by
  rw [settingStoreGet, show getConfigKey q = (Slot.config q).key from rfl, h.lookup, Maps.lookup]
  cases m.config q <;> rfl

/-- What the scan of `GetAll` visits: the configs, each under its queue's key. -/
private theorem Encodes.mem_scan (h : Encodes db m) {e : Key × Value} :
    e ∈ (seekGE db settingPrefix).takeWhile (fun e ↦ settingPrefix.isPrefixOf e.1) ↔
      ∃ q c, e = (getConfigKey q, .config c) ∧ m.config q = some c := by
  rw [takeWhile_seekGE_isPrefixOf, List.mem_filter, mem_toList, List.isPrefixOf_iff_prefix]
  constructor
  · rintro ⟨hlook, q, hq⟩
    have hkey : e.1 = (Slot.config q).key := hq.symm
    rw [hkey, h.lookup, Maps.lookup, Option.map_eq_some_iff] at hlook
    obtain ⟨c, hc, hv⟩ := hlook
    exact ⟨q, c, Prod.ext hkey hv.symm, hc⟩
  · rintro ⟨q, c, rfl, hc⟩
    refine ⟨?_, List.prefix_append _ _⟩
    show db[(Slot.config q).key]? = _
    rw [h.lookup, Maps.lookup, hc]
    rfl

theorem Encodes.settingStoreGetAll_eq (h : Encodes db m)
    (hid : ∀ q c, m.config q = some c → c.id = q) :
    (settingStoreGetAll db).Pairwise (fun a b ↦ compare a.id b.id = .lt) ∧
      ∀ c, c ∈ settingStoreGetAll db ↔ m.config c.id = some c := by
  refine ⟨?_, fun c ↦ ?_⟩
  · rw [settingStoreGetAll, List.pairwise_filterMap]
    have hsorted : ((seekGE db settingPrefix).takeWhile
        fun e ↦ settingPrefix.isPrefixOf e.1).Pairwise fun a b ↦ compare a.1 b.1 = .lt := by
      rw [takeWhile_seekGE_isPrefixOf]
      exact (pairwise_toList db).filter _
    refine hsorted.imp_of_mem fun {a b} ha hb hab c hc d hd ↦ ?_
    obtain ⟨q, c', rfl, hcq⟩ := h.mem_scan.mp ha
    obtain ⟨r, d', rfl, hdr⟩ := h.mem_scan.mp hb
    obtain rfl : c' = c := Option.some.inj hc
    obtain rfl : d' = d := Option.some.inj hd
    rw [hid q _ hcq, hid r _ hdr, ← hab]
    exact (BigEndian.compare_append_left (lit "queue#config#") q r).symm
  · rw [settingStoreGetAll, List.mem_filterMap]
    constructor
    · rintro ⟨e, he, hec⟩
      obtain ⟨q, c', rfl, hcq⟩ := h.mem_scan.mp he
      obtain rfl : c' = c := Option.some.inj hec
      rw [hid q _ hcq, hcq]
    · intro hc
      exact ⟨_, h.mem_scan.mpr ⟨c.id, c, rfl, hc⟩, rfl⟩

end

/-! ## The refinement -/

/-- The stores hold the maps, and their sequences are the counters that were opened. -/
structure StoreRefines (c : Stores) (a : StoreSpec) : Prop where
  encodes : Encodes c.db a.maps
  seqs : c.seqs = a.counters.map Counter.sequence
  ids : ∀ q s, a.maps.config q = some s → s.id = q

section

variable {c c' : Stores} {a a' : StoreSpec}

theorem Maps.config_saveAll {ts : List Task} {si : Bool} {m m' : Maps}
    (h : Maps.saveAll ts si m = some m') : m'.config = m.config := by
  obtain ⟨m₁, hm₁, rfl⟩ := Option.map_eq_some_iff.mp h
  have hfold : m₁.config = m.config := by
    clear h
    induction ts generalizing m with
    | nil => rw [Option.some.inj hm₁]
    | cons t ts ih =>
      rw [List.foldlM_cons, Option.bind_eq_bind, Option.bind_eq_some_iff] at hm₁
      obtain ⟨m₂, hm₂, hm₁⟩ := hm₁
      obtain ⟨id, -, rfl⟩ := Option.map_eq_some_iff.mp hm₂
      rw [ih hm₁, Maps.putTask]
      split <;> rfl
  cases si <;> exact hfold

theorem Maps.config_deleteAll (acks : List Ack) (m : Maps) :
    (Maps.deleteAll acks m).config = m.config := by
  induction acks generalizing m with
  | nil => rfl
  | cons b acks ih =>
    rw [Maps.deleteAll, List.foldl_cons, ← Maps.deleteAll, ih, Maps.deleteTask]
    split
    · rfl
    · split <;> rfl

theorem StoreRefines.saveAll (h : StoreRefines c a) (tasks : List Task) (si : Bool) :
    Option.Rel StoreRefines (c.step (.saveAll tasks si)) (a.step (.saveAll tasks si)) := by
  simp only [Stores.step, StoreSpec.step]
  -- the maps are saved to exactly when the store is
  have hsome := Maps.isSome_saveAll tasks si a.maps c.db
  cases hdb : Z4.saveAll tasks si c.db with
  | none =>
    rw [hdb, Option.isSome_none, Option.isSome_eq_false_iff, Option.isNone_iff_eq_none] at hsome
    rw [hsome]
    exact .none
  | some db =>
    rw [hdb, Option.isSome_some, Option.isSome_iff_exists] at hsome
    obtain ⟨m, hm⟩ := hsome
    rw [hm]
    refine .some ⟨h.encodes.saveAll hdb hm, h.seqs, ?_⟩
    show ∀ q s, m.config q = some s → _
    rw [Maps.config_saveAll hm]
    exact h.ids

theorem StoreRefines.next (h : StoreRefines c a) (seq : ℕ) :
    Option.Rel StoreRefines (c.step (.next seq)) (a.step (.next seq)) := by
  simp only [Stores.step, StoreSpec.step, h.seqs, List.getElem?_map]
  cases hc : a.counters[seq]? with
  | none => exact .none
  | some k =>
    by_cases hused : k.i = k.nextLease
    · have hnext : k.sequence.next c.db true
          = (Counter.sequence { k with nextLease := k.i + k.leaseSize - 1, i := k.i + 1 },
            c.db.insert (getSeqKey k.queue) (.index (k.i + k.leaseSize - 1)), some (k.i + 1)) :=
        if_pos hused
      simp only [Option.map_some, hnext, if_pos hused]
      exact .some ⟨h.encodes.putCounter k.queue _, by rw [List.map_set], h.ids⟩
    · have hnext : k.sequence.next c.db true
          = (Counter.sequence { k with i := k.i + 1 }, c.db, some (k.i + 1)) := if_neg hused
      simp only [Option.map_some, hnext, if_neg hused]
      exact .some ⟨h.encodes, by rw [List.map_set], h.ids⟩

/-- **Each operation of the stores does to the maps what it says.** Both sides are defined on the
same operations. -/
theorem StoreRefines.step (h : StoreRefines c a) (op : StoreOp) :
    Option.Rel StoreRefines (c.step op) (a.step op) := by
  cases op with
  | saveAll tasks si => exact h.saveAll tasks si
  | deleteAll acks =>
    refine .some ⟨h.encodes.deleteAll acks, h.seqs, ?_⟩
    show ∀ q s, (Maps.deleteAll acks a.maps).config q = some s → _
    rw [Maps.config_deleteAll]
    exact h.ids
  | save settings =>
    refine .some ⟨h.encodes.saveSettings settings, h.seqs, fun q s hs ↦ ?_⟩
    simp only [Maps.putConfig] at hs
    split at hs
    · rename_i hq
      rw [← Option.some.inj hs, hq]
    · exact h.ids q s hs
  | newSequence queue lease =>
    have hi := h.encodes.storedIndex_eq queue
    refine .some ⟨?_, ?_, h.ids⟩
    · show Encodes (c.db.insert (getSeqKey queue)
        (.index (storedIndex c.db (getSeqKey queue) + lease - 1))) _
      rw [hi]
      exact h.encodes.putCounter queue _
    · rw [List.map_append, ← h.seqs, ← hi]
      rfl
  | next seq => exact h.next seq
  | close seq =>
    simp only [Stores.step, StoreSpec.step, h.seqs, List.getElem?_map]
    cases hc : a.counters[seq]? with
    | none => exact .none
    | some k => exact .some ⟨h.encodes.putCounter k.queue k.i, rfl, h.ids⟩

theorem storeRefines_run (ops : List StoreOp) :
    Option.Rel StoreRefines (Runs.run Stores.step {} ops) (Runs.run StoreSpec.step {} ops) :=
  Runs.rel_run (fun _ _ op h ↦ h.step op) ⟨encodes_empty, rfl, by simp⟩ ops

theorem lookup_of_not_touches {op : StoreOp} (hs : a.step op = some a') {slot : Slot}
    (hslot : ¬op.Touches a slot) : a'.maps.lookup slot = a.maps.lookup slot := by
  cases op with
  | saveAll tasks si =>
    obtain ⟨m, hm, rfl⟩ := Option.map_eq_some_iff.mp hs
    obtain ⟨m₁, hm₁, rfl⟩ := Option.map_eq_some_iff.mp hm
    obtain ⟨htask, hcounter⟩ := not_or.mp hslot
    have hfold : m₁.lookup slot = a.maps.lookup slot := by
      have hnil : tasks.filter (recordKey · = some slot.key) = [] := by simpa using htask
      rw [lookup_foldlM_putTask hm₁, hnil]
      rfl
    rw [← hfold]
    cases si with
    | false => rfl
    | true =>
      cases slot with
      | counter q =>
        -- a counter is written only for a queue that has a task in the call
        have hz : maxIndex q tasks = 0 := by
          by_contra hz
          obtain ⟨t, ht, htq, -⟩ := exists_of_maxIndex_ne_zero hz
          exact hcounter ⟨rfl, t, ht, htq ▸ rfl⟩
        simp [Maps.lookup, hz]
      | _ => rfl
  | deleteAll acks =>
    obtain rfl := Option.some.inj hs
    exact (Maps.lookup_deleteAll acks a.maps slot).trans (if_neg hslot)
  | save settings =>
    obtain rfl := Option.some.inj hs
    exact (a.maps.lookup_putConfig settings slot).trans (if_neg (Ne.symm hslot))
  | newSequence queue lease =>
    obtain rfl := Option.some.inj hs
    exact (a.maps.lookup_putCounter queue _ slot).trans (if_neg (Ne.symm hslot))
  | next seq =>
    obtain ⟨k, hk, rfl⟩ := Option.map_eq_some_iff.mp hs
    have hne : Slot.counter k.queue ≠ slot := fun hc ↦ hslot ⟨k, hk, hc.symm⟩
    split
    · exact (a.maps.lookup_putCounter k.queue _ slot).trans (if_neg hne)
    · rfl
  | close seq =>
    obtain ⟨k, hk, rfl⟩ := Option.map_eq_some_iff.mp hs
    have hne : Slot.counter k.queue ≠ slot := fun hc ↦ hslot ⟨k, hk, hc.symm⟩
    exact (a.maps.lookup_putCounter k.queue _ slot).trans (if_neg hne)

/-- **The key space is four maps.** After any operations the store holds exactly the entries of the
maps after the same operations, the reads return the entries of the maps, and whatever operation
comes next leaves every entry alone that is not its own. -/
theorem keySpace_eq_maps (ops : List StoreOp) :
    Option.Rel
      (fun c a ↦ Encodes c.db a.maps ∧
        (∀ q id, taskStoreGet c.db q id = a.maps.sched q id) ∧
        (∀ q, settingStoreGet c.db q = a.maps.config q) ∧
        ((settingStoreGetAll c.db).Pairwise (fun s t ↦ compare s.id t.id = .lt) ∧
          (∀ s, s ∈ settingStoreGetAll c.db ↔ a.maps.config s.id = some s) ∧
          ∀ q s, a.maps.config q = some s → s.id = q) ∧
        ∀ op c', c.step op = some c' → ∀ slot : Slot, ¬op.Touches a slot →
          c'.db[slot.key]? = c.db[slot.key]?)
      (Runs.run Stores.step {} ops) (Runs.run StoreSpec.step {} ops) := by
  have hrun := storeRefines_run ops
  generalize Runs.run Stores.step {} ops = x at hrun
  generalize Runs.run StoreSpec.step {} ops = y at hrun
  cases hrun with
  | none => exact .none
  | @some c a h =>
    obtain ⟨hsorted, hall⟩ := h.encodes.settingStoreGetAll_eq h.ids
    refine .some ⟨h.encodes, h.encodes.taskStoreGet_eq, h.encodes.settingStoreGet_eq,
      ⟨hsorted, hall, h.ids⟩, fun op c' hc' slot hslot ↦ ?_⟩
    have hstep := h.step op
    rw [hc'] at hstep
    cases ha' : a.step op with
    | none => simp [ha'] at hstep
    | some a' =>
      rw [ha'] at hstep
      cases hstep with
      | some h' =>
        rw [h'.encodes.lookup, h.encodes.lookup, lookup_of_not_touches ha' hslot]

end

end Z4
