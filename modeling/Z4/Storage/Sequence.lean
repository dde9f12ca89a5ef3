import Z4.Storage.TaskStore

/-!
# Index sequences

A `Sequence` hands out the indexes of one queue. It leases them in blocks: the end of the lease is
stored under the queue's counter key before any index of the block is handed out, so that a restart
resumes past everything that was in use. An `IndexStore` keeps one open `Sequence` per queue in a
cache and closes it on eviction, which writes back the exact position.

Each storage write takes its outcome as an argument. A failed `reserve` has already moved
`nextLease`, as in the source.

## The position of a queue

`counter` is the position the peer would resume from: that of the cached sequence if there is one,
else the stored value. `counter_indexStoreNext` and its companions say how each operation moves it,
and nothing else about the cache matters to who gets which index.
-/

namespace Z4

open KeyValue

/-- `Sequence`, without its buffer and its mutex. -/
structure Sequence where
  leaseSize : UInt64
  nextLease : UInt64
  i : UInt64
  key : Key

/-- `SequenceLeaseSize`. -/
def sequenceLeaseSize : UInt64 := 10000

/-- The value under a counter key, zero when there is none. Only `Value.index` is ever stored
there. -/
def storedIndex (db : DB) (key : Key) : UInt64 :=
  match db[key]? with
  | some (.index v) => v
  | _ => 0

namespace Sequence

/-- `Sequence.reserve`; `ok` is the outcome of the write. -/
def reserve (s : Sequence) (db : DB) (ok : Bool) : Sequence × DB :=
  let s := { s with nextLease := s.i + s.leaseSize - 1 }
  (s, if ok then db.insert s.key (.index s.nextLease) else db)

/-- `NewSequence` and `Sequence.init`: no sequence when the reservation fails. -/
def new (db : DB) (key : Key) (lease : UInt64) (ok : Bool) : Option Sequence × DB :=
  let (s, db) := reserve ⟨lease, 0, storedIndex db key, key⟩ db ok
  (if ok then some s else none, db)

/-- `Sequence.Next`; `ok` is the outcome of the reservation, if one is made. -/
def next (s : Sequence) (db : DB) (ok : Bool) : Sequence × DB × Option UInt64 :=
  if s.i = s.nextLease then
    let (s, db) := s.reserve db ok
    if ok then ({ s with i := s.i + 1 }, db, some (s.i + 1)) else (s, db, none)
  else ({ s with i := s.i + 1 }, db, some (s.i + 1))

/-- `Sequence.Close`. -/
def close (s : Sequence) (db : DB) (ok : Bool) : DB :=
  if ok then db.insert s.key (.index s.i) else db

variable {s s' : Sequence} {db db' : DB} {ok : Bool}

@[simp] theorem next_key (s : Sequence) (db : DB) (ok : Bool) :
    (s.next db ok).1.key = s.key := by
  rw [next]
  split
  · cases ok <;> rfl
  · rfl

theorem next_eq_some {idx : UInt64} (h : s.next db ok = (s', db', some idx)) :
    idx = s.i + 1 ∧ s'.i = idx := by
  rw [next] at h
  split at h
  · cases ok with
    | false => simp at h
    | true =>
      simp only [if_true, Prod.mk.injEq, Option.some.injEq] at h
      obtain ⟨rfl, -, rfl⟩ := h
      exact ⟨rfl, rfl⟩
  · simp only [Prod.mk.injEq, Option.some.injEq] at h
    obtain ⟨rfl, -, rfl⟩ := h
    exact ⟨rfl, rfl⟩

/-- A failed `next` has moved the lease but not the position. -/
theorem next_eq_none (h : s.next db ok = (s', db', none)) : s'.i = s.i := by
  rw [next] at h
  split at h
  · cases ok with
    | false =>
      simp only [Bool.false_eq_true, if_false, Prod.mk.injEq] at h
      rw [← h.1]
      rfl
    | true => simp at h
  · simp at h

theorem getElem?_reserve_of_ne (db : DB) (ok : Bool) {k : Key} (hk : s.key ≠ k) :
    (s.reserve db ok).2[k]? = db[k]? := by
  rw [reserve]
  cases ok with
  | false => rfl
  | true => exact (getElem?_insert db s.key k _).trans (if_neg hk)

theorem getElem?_next_of_ne (db : DB) (ok : Bool) {k : Key} (hk : s.key ≠ k) :
    (s.next db ok).2.1[k]? = db[k]? := by
  rw [next]
  split
  · cases ok <;> exact getElem?_reserve_of_ne db _ hk
  · rfl

theorem getElem?_close (s : Sequence) (db : DB) (k : Key) :
    (s.close db true)[k]? = if s.key = k then some (.index s.i) else db[k]? :=
  getElem?_insert db s.key k _

end Sequence

/-! ## The cache -/

/-- The `seqCache` of an `IndexStore`: the open sequences by queue. -/
abbrev SeqCache := Store Sequence

/-- A cached sequence is filed under the queue whose counter it keeps. -/
def SeqCache.WellFiled (cache : SeqCache) : Prop := ∀ q s, cache[q]? = some s → s.key = getSeqKey q

/-- The cache's `Get` with the loader function `SettingStore.Sequence`: the cached sequence, or
one that is loaded and filed. -/
def seqCacheGet (cache : SeqCache) (db : DB) (queue : GoString) (ok : Bool) :
    Option Sequence × DB :=
  match cache[queue]? with
  | some s => (some s, db)
  | none => Sequence.new db (getSeqKey queue) sequenceLeaseSize ok

/-- `IndexStore.Next`; the outcomes are those of the load and of the reservation. -/
def indexStoreNext (cache : SeqCache) (db : DB) (queue : GoString) (loadOk nextOk : Bool) :
    SeqCache × DB × Option UInt64 :=
  match seqCacheGet cache db queue loadOk with
  | (none, db) => (cache, db, none)
  | (some s, db) =>
    let (s, db, idx) := s.next db nextOk
    (cache.insert queue s, db, idx)

/-! ## The position of a queue -/

/-- The index after which a peer resumes the count of a queue. -/
def counter (cache : SeqCache) (db : DB) (queue : GoString) : UInt64 :=
  match cache[queue]? with
  | some s => s.i
  | none => storedIndex db (getSeqKey queue)

theorem storedIndex_eq_of_getElem? {db db' : DB} {k : Key} (h : db'[k]? = db[k]?) :
    storedIndex db' k = storedIndex db k := by
  rw [storedIndex, storedIndex, h]

theorem counter_of_cached {cache : SeqCache} {db : DB} {q : GoString} {s : Sequence}
    (h : cache[q]? = some s) : counter cache db q = s.i := by
  rw [counter, h]

theorem counter_of_not_cached {cache : SeqCache} {db : DB} {q : GoString}
    (h : cache[q]? = none) : counter cache db q = storedIndex db (getSeqKey q) := by
  rw [counter, h]

theorem counter_congr {cache : SeqCache} {db db' : DB} {q : GoString}
    (h : db'[getSeqKey q]? = db[getSeqKey q]?) : counter cache db' q = counter cache db q := by
  rw [counter, counter, storedIndex_eq_of_getElem? h]

section

variable {cache cache' : SeqCache} {db db' : DB} {q : GoString} {idx : Option UInt64}
  {loadOk nextOk ok : Bool}

private theorem seqCacheGet_eq_some {s : Sequence} (hW : cache.WellFiled)
    (h : seqCacheGet cache db q ok = (some s, db')) :
    s.i = counter cache db q ∧ s.key = getSeqKey q := by
  rw [seqCacheGet] at h
  split at h
  · rename_i s' hs
    obtain ⟨rfl, -⟩ : s' = s ∧ db = db' := by simpa using h
    exact ⟨(counter_of_cached hs).symm, hW q s' hs⟩
  · rename_i hs
    rw [counter_of_not_cached hs]
    cases ok with
    | false => simp [Sequence.new] at h
    | true =>
      obtain ⟨rfl, -⟩ := by simpa [Sequence.new] using h
      exact ⟨rfl, rfl⟩

private theorem getElem?_seqCacheGet_of_ne (cache : SeqCache) (db : DB) (ok : Bool) {k : Key}
    (hk : getSeqKey q ≠ k) : (seqCacheGet cache db q ok).2[k]? = db[k]? := by
  rw [seqCacheGet]
  split
  · rfl
  · exact Sequence.getElem?_reserve_of_ne (s := ⟨_, _, _, getSeqKey q⟩) db ok hk

private theorem getElem?_seqCacheGet_eq_none {k : Key}
    (h : seqCacheGet cache db q ok = (none, db')) : db'[k]? = db[k]? := by
  rw [seqCacheGet] at h
  split at h
  · simp at h
  · cases ok with
    | false => rw [← (Prod.mk.inj h).2]; rfl
    | true => simp [Sequence.new] at h

private theorem indexStoreNext_cases
    (h : indexStoreNext cache db q loadOk nextOk = (cache', db', idx)) :
    (seqCacheGet cache db q loadOk = (none, db') ∧ cache' = cache ∧ idx = none) ∨
      ∃ s s' db₁, seqCacheGet cache db q loadOk = (some s, db₁) ∧
        s.next db₁ nextOk = (s', db', idx) ∧ cache' = cache.insert q s' := by
  rw [indexStoreNext] at h
  split at h
  · rename_i db₁ hs
    obtain ⟨rfl, rfl, rfl⟩ : cache = cache' ∧ db₁ = db' ∧ none = idx := by simpa using h
    exact .inl ⟨hs, rfl, rfl⟩
  · rename_i s db₁ hs
    obtain ⟨s', db₂, idx', hnext⟩ : ∃ s' db₂ idx', s.next db₁ nextOk = (s', db₂, idx') :=
      ⟨_, _, _, rfl⟩
    rw [hnext] at h
    obtain ⟨rfl, rfl, rfl⟩ : cache.insert q s' = cache' ∧ db₂ = db' ∧ idx' = idx := by
      simpa using h
    exact .inr ⟨s, s', db₁, hs, hnext, rfl⟩

theorem indexStoreNext_eq_some {idx : UInt64} (hW : cache.WellFiled)
    (h : indexStoreNext cache db q loadOk nextOk = (cache', db', some idx)) :
    idx = counter cache db q + 1 ∧ counter cache' db' q = idx := by
  obtain ⟨-, -, hidx⟩ | ⟨s, s', db₁, hs, hnext, rfl⟩ := indexStoreNext_cases h
  · simp at hidx
  · obtain ⟨h1, h2⟩ := Sequence.next_eq_some hnext
    rw [counter_of_cached (Std.ExtTreeMap.getElem?_insert_self), h2, h1,
      (seqCacheGet_eq_some hW hs).1]
    exact ⟨rfl, rfl⟩

theorem indexStoreNext_eq_none (hW : cache.WellFiled)
    (h : indexStoreNext cache db q loadOk nextOk = (cache', db', none)) :
    counter cache' db' q = counter cache db q := by
  obtain ⟨hs, rfl, -⟩ | ⟨s, s', db₁, hs, hnext, rfl⟩ := indexStoreNext_cases h
  · exact counter_congr (getElem?_seqCacheGet_eq_none hs)
  · rw [counter_of_cached (Std.ExtTreeMap.getElem?_insert_self), Sequence.next_eq_none hnext,
      (seqCacheGet_eq_some hW hs).1]

theorem getElem?_indexStoreNext_of_ne {k : Key} (hW : cache.WellFiled) (hk : getSeqKey q ≠ k)
    (h : indexStoreNext cache db q loadOk nextOk = (cache', db', idx)) : db'[k]? = db[k]? := by
  have hget := getElem?_seqCacheGet_of_ne cache db loadOk hk
  obtain ⟨hs, -, -⟩ | ⟨s, s', db₁, hs, hnext, -⟩ := indexStoreNext_cases h
  · rw [hs] at hget
    exact hget
  · rw [hs] at hget
    obtain ⟨-, hkey⟩ := seqCacheGet_eq_some hW hs
    have hlookup := Sequence.getElem?_next_of_ne db₁ nextOk (hkey ▸ hk)
    rw [hnext] at hlookup
    exact hlookup.trans hget

theorem SeqCache.WellFiled.indexStoreNext (hW : cache.WellFiled)
    (h : indexStoreNext cache db q loadOk nextOk = (cache', db', idx)) : cache'.WellFiled := by
  obtain ⟨-, rfl, -⟩ | ⟨s, s', db₁, hs, hnext, rfl⟩ := indexStoreNext_cases h
  · exact hW
  · intro r u hr
    rw [getElem?_insert] at hr
    split at hr
    · rename_i hqr
      have hkey := s.next_key db₁ nextOk
      rw [hnext] at hkey
      rw [← Option.some.inj hr, ← hqr, hkey]
      exact (seqCacheGet_eq_some hW hs).2
    · exact hW r u hr

end

end Z4
