import Z4.Storage.Sequence
import Z4.Foundations.Runs

/-!
# Concurrent calls of the index store

`IndexStore.Next` takes a `Sequence` from the cache and then calls `Next` on it. The cache holds a
hundred of them. Loading one more evicts another, which is closed. The two steps of a call are not
one: between them the sequence the caller holds may be evicted and closed, and a new one may be
loaded for the same queue from the value the first one stored. The two objects then count on their
own.

Sequences are therefore kept on a heap, `loaded`, in which a pointer is a position, and a call in
progress is the pointer it holds. Two objects for one queue are harmless as long as only the cached
one is held: `Linked.held` is the heart of the invariant and `Unheld` the condition that keeps it.
-/

namespace Z4.IndexStore

open KeyValue

/-- The size of the cache that `NewIndexStore` builds. -/
def seqCacheSize : ℕ := 100

structure State where
  db : DB := ∅
  /-- Every sequence that was ever loaded. -/
  loaded : List Sequence := []
  /-- The cached sequence of each queue. -/
  seqCache : Store ℕ := ∅
  /-- The calls that have taken a sequence and not yet called `Next` on it. -/
  calls : List (GoString × ℕ) := []
  /-- What the finished calls have returned, in order. -/
  returned : List (GoString × UInt64) := []

inductive Event where
  /-- A call takes its sequence; `victim` is the queue the cache drops if it is full. -/
  | get (queue victim : GoString)
  /-- A call in progress calls `Next` and returns. -/
  | next (call : ℕ)
deriving DecidableEq

/-- The cached sequence of a queue. -/
def State.sequence (s : State) (queue : GoString) : Option Sequence :=
  s.seqCache[queue]?.bind fun p ↦ s.loaded[p]?

/-- Eviction, with the cache's `EvictedFunc`; `ok` is the outcome of the write of `Close`. -/
def State.evict (s : State) (queue : GoString) (ok : Bool) : Option State :=
  (s.sequence queue).map fun u ↦
    { s with db := u.close s.db ok, seqCache := s.seqCache.erase queue }

/-- The cache's loader function: a new object on the heap, not filed yet. -/
def State.load (s : State) (queue : GoString) (ok : Bool) : Option State :=
  match Sequence.new s.db (getSeqKey queue) sequenceLeaseSize ok with
  | (some u, db) => some { s with db, loaded := s.loaded ++ [u] }
  | (none, _) => none

/-- File the sequence under its queue and hand it to the caller. -/
def State.file (s : State) (queue : GoString) (p : ℕ) : State :=
  { s with seqCache := s.seqCache.insert queue p, calls := s.calls ++ [(queue, p)] }

/-- `seqCache.Get` in a call of `Next`, with the outcomes of the load and of the eviction. -/
def State.get (s : State) (queue victim : GoString) (loadOk closeOk : Bool) : Option State :=
  match s.seqCache[queue]? with
  | some p => some { s with calls := s.calls ++ [(queue, p)] }
  | none =>
    match s.load queue loadOk with
    -- the call returns the error, and nothing was written
    | none => some s
    | some s' =>
      (if s.seqCache.size < seqCacheSize then some s' else s'.evict victim closeOk).map fun s' ↦
        s'.file queue s.loaded.length

/-- The rest of a call: it calls `Next` on the sequence it holds, whatever has become of that in the
cache, and returns what `Next` returns. -/
def State.next (s : State) (call : ℕ) (ok : Bool) : Option (State × Option UInt64) :=
  s.calls[call]?.bind fun c ↦ s.loaded[c.2]?.map fun u ↦
    let (u', db, idx) := u.next s.db ok
    ({ s with
        db, loaded := s.loaded.set c.2 u', calls := s.calls.eraseIdx call
        returned := s.returned ++ idx.toList.map (c.1, ·) }, idx)

/-- One step of one call. Storage writes succeed. -/
def step (s : State) : Event → Option State
  | .get queue victim => s.get queue victim true true
  | .next call => (s.next call true).map Prod.fst

/-- No two calls for one queue have returned the same index. -/
def OnceOnly (s : State) : Prop := s.returned.Pairwise fun a b ↦ a.1 = b.1 → a.2 ≠ b.2

/-- A sequence is evicted only while no call holds it, and no count reaches `2 ^ 64`. -/
def Unheld (s : State) : Event → Prop
  | .get queue victim => s.seqCache[queue]? = none → seqCacheSize ≤ s.seqCache.size →
      ∀ c ∈ s.calls, s.seqCache[victim]? ≠ some c.2
  | .next call => ∀ c ∈ s.calls[call]?, ∀ u ∈ s.loaded[c.2]?, u.i.toNat + 1 < 2 ^ 64

instance (s : State) (e : Event) : Decidable (Unheld s e) :=
  match e with
  | .get queue victim => inferInstanceAs (Decidable (s.seqCache[queue]? = none →
      seqCacheSize ≤ s.seqCache.size → ∀ c ∈ s.calls, s.seqCache[victim]? ≠ some c.2))
  | .next call => inferInstanceAs (Decidable (∀ c ∈ s.calls[call]?, ∀ u ∈ s.loaded[c.2]?,
      u.i.toNat + 1 < 2 ^ 64))

/-! ## The position of a queue -/

/-- The index after which the count of a queue goes on. -/
def position (s : State) (q : GoString) : UInt64 :=
  match s.sequence q with
  | some u => u.i
  | none => storedIndex s.db (getSeqKey q)

/-- Calls in progress hold cached sequences only. -/
structure Linked (s : State) : Prop where
  filed : ∀ q p, s.seqCache[q]? = some p → ∃ u, s.loaded[p]? = some u ∧ u.key = getSeqKey q
  held : ∀ c ∈ s.calls, s.seqCache[c.1]? = some c.2

/-- What a call asks of the cache it takes its sequence from: if another one has to go, then no call
holds that, and its position is written back. -/
def Spared (s : State) (queue victim : GoString) (closeOk : Bool) : Prop :=
  s.seqCache[queue]? = none → seqCacheSize ≤ s.seqCache.size →
    closeOk = true ∧ ∀ c ∈ s.calls, s.seqCache[victim]? ≠ some c.2

instance (s : State) (queue victim : GoString) (closeOk : Bool) :
    Decidable (Spared s queue victim closeOk) := inferInstanceAs (Decidable (_ → _ → _ ∧ _))

section

variable {s t : State} {q r victim : GoString} {p : ℕ} {u : Sequence} {loadOk closeOk : Bool}

theorem linked_init (db : DB) : Linked { db } := ⟨by simp, by simp⟩

theorem position_of_sequence (h : s.sequence q = some u) : position s q = u.i := by
  rw [position, h]

theorem sequence_of_not_cached (h : s.seqCache[q]? = none) : s.sequence q = none := by
  rw [State.sequence, h]
  rfl

theorem position_of_not_cached (h : s.seqCache[q]? = none) :
    position s q = storedIndex s.db (getSeqKey q) := by
  rw [position, sequence_of_not_cached h]

theorem position_congr (hseq : t.sequence q = s.sequence q)
    (hdb : t.db[getSeqKey q]? = s.db[getSeqKey q]?) : position t q = position s q := by
  rw [position, position, hseq, storedIndex_eq_of_getElem? hdb]

theorem Linked.setDB (h : Linked s) (db : DB) : Linked { s with db } := ⟨h.filed, h.held⟩

theorem Linked.sequence_eq_some (h : Linked s) (hp : s.seqCache[q]? = some p) :
    ∃ u, s.loaded[p]? = some u ∧ u.key = getSeqKey q ∧ s.sequence q = some u := by
  obtain ⟨u, hu, hk⟩ := h.filed q p hp
  exact ⟨u, hu, hk, by rw [State.sequence, hp]; exact hu⟩

/-- Two queues never share an object. -/
theorem Linked.pointer_ne (h : Linked s) {p' : ℕ} (hp : s.seqCache[q]? = some p)
    (hp' : s.seqCache[r]? = some p') (hqr : q ≠ r) : p ≠ p' := by
  rintro rfl
  obtain ⟨u, hu, hk⟩ := h.filed q p hp
  obtain ⟨u', hu', hk'⟩ := h.filed r p hp'
  rw [hu, Option.some.injEq] at hu'
  exact hqr (getSeqKey_inj.mp (hk.symm.trans (hu' ▸ hk')))

/-! ### Taking a sequence -/

theorem load_eq_some {ok : Bool} (h : s.load q ok = some t) : ∃ u,
    t = { s with db := t.db, loaded := s.loaded ++ [u] } ∧
      Sequence.new s.db (getSeqKey q) sequenceLeaseSize true = (some u, t.db) ∧
      ∀ k, getSeqKey q ≠ k → t.db[k]? = s.db[k]? := by
  cases ok with
  | false => simp [State.load, Sequence.new] at h
  | true =>
    rw [State.load, Sequence.new] at h
    obtain rfl := Option.some.inj h
    refine ⟨_, rfl, rfl, fun k hk ↦ ?_⟩
    exact Sequence.getElem?_reserve_of_ne (s := ⟨_, _, _, getSeqKey q⟩) s.db true hk

/-- What a call leaves that has loaded its sequence: an object at the end of the heap, filed under
the queue, and at most one other queue dropped, its position written back. -/
structure Loaded (s t : State) (q : GoString) (dropped : Option GoString) (u : Sequence) :
    Prop where
  loaded : t.loaded = s.loaded ++ [u]
  opened : ∃ db, Sequence.new s.db (getSeqKey q) sequenceLeaseSize true = (some u, db) ∧
    t.db[getSeqKey q]? = db[getSeqKey q]?
  cached_self : t.seqCache[q]? = some s.loaded.length
  cached_dropped : ∀ r ∈ dropped, r ≠ q ∧ t.seqCache[r]? = none ∧
    ∃ p, s.seqCache[r]? = some p ∧ storedIndex t.db (getSeqKey r) = position s r
  cached_other : ∀ r, r ≠ q → r ∉ dropped → t.seqCache[r]? = s.seqCache[r]? ∧
    t.db[getSeqKey r]? = s.db[getSeqKey r]?
  calls : t.calls = s.calls ++ [(q, s.loaded.length)]
  returned : t.returned = s.returned

section

variable {s' t' : State}

theorem file_seqCache_self (s : State) (q : GoString) (p : ℕ) :
    (s.file q p).seqCache[q]? = some p := by
  rw [State.file, getElem?_insert, if_pos rfl]

theorem file_seqCache_of_ne (s : State) (p : ℕ) (hr : r ≠ q) :
    (s.file q p).seqCache[r]? = s.seqCache[r]? := by
  rw [State.file, getElem?_insert, if_neg (Ne.symm hr)]

theorem loaded_of_room (hload : s.load q loadOk = some s') :
    ∃ u, Loaded s (s'.file q s.loaded.length) q none u := by
  obtain ⟨u, hs', hnew, hdb⟩ := load_eq_some hload
  refine ⟨u, ?_, ⟨_, hnew, rfl⟩, file_seqCache_self _ _ _, by simp, fun r hr _ ↦ ⟨?_, ?_⟩, ?_, ?_⟩
  · rw [hs']
    rfl
  · rw [file_seqCache_of_ne s' _ hr, hs']
  · exact hdb _ fun hc ↦ hr (getSeqKey_inj.mp hc).symm
  · rw [hs']
    rfl
  · rw [hs']
    rfl

/-- The cache is full. The victim is cached, so it is another queue, and its object is where it was
before the load. -/
theorem loaded_of_evict (h : Linked s) (hq : s.seqCache[q]? = none)
    (hload : s.load q loadOk = some s') (hevict : s'.evict victim true = some t') :
    ∃ u, Loaded s (t'.file q s.loaded.length) q (some victim) u := by
  obtain ⟨u, hs', hnew, hdb⟩ := load_eq_some hload
  have hcache : s'.seqCache = s.seqCache := by rw [hs']
  have hloaded : s'.loaded = s.loaded ++ [u] := by rw [hs']
  obtain ⟨v, hv, rfl⟩ := Option.map_eq_some_iff.mp hevict
  obtain ⟨p, hp, hvp⟩ := Option.bind_eq_some_iff.mp hv
  rw [hcache] at hp
  have hne : victim ≠ q := by
    rintro rfl
    simp [hq] at hp
  obtain ⟨v', hv', hvkey, hseq⟩ := h.sequence_eq_some hp
  obtain rfl : v' = v := by
    have hlt : p < s.loaded.length := (List.getElem?_eq_some_iff.mp hv').1
    rw [hloaded, List.getElem?_append_left hlt, hv'] at hvp
    exact Option.some.inj hvp
  have hself : (v'.close s'.db true)[getSeqKey q]? = s'.db[getSeqKey q]? := by
    rw [Sequence.getElem?_close, if_neg (hvkey ▸ fun hc ↦ hne (getSeqKey_inj.mp hc))]
  refine ⟨u, hloaded, ⟨_, hnew, hself⟩, file_seqCache_self _ _ _, fun r hr ↦ ?_, fun r hr hrv ↦ ?_,
    ?_, ?_⟩
  · obtain rfl : victim = r := Option.some.inj hr
    refine ⟨hne, ?_, p, hp, ?_⟩
    · rw [file_seqCache_of_ne _ _ hne, getElem?_erase, if_pos rfl]
    · show storedIndex (v'.close s'.db true) (getSeqKey victim) = _
      rw [position_of_sequence hseq, storedIndex, Sequence.getElem?_close, if_pos hvkey]
  · have hvr : victim ≠ r := fun hc ↦ hrv (hc ▸ rfl)
    refine ⟨?_, ?_⟩
    · rw [file_seqCache_of_ne _ _ hr, getElem?_erase, if_neg hvr, hcache]
    · show (v'.close s'.db true)[getSeqKey r]? = _
      rw [Sequence.getElem?_close, if_neg (hvkey ▸ fun hc ↦ hvr (getSeqKey_inj.mp hc)),
        hdb _ fun hc ↦ hr (getSeqKey_inj.mp hc).symm]
  · show s'.calls ++ _ = _
    rw [hs']
  · rw [hs']
    rfl

end

/-- A call takes the cached sequence, or fails to load one, or has loaded one. -/
theorem get_cases (h : Linked s) (hok : Spared s q victim closeOk)
    (hs : s.get q victim loadOk closeOk = some t) :
    (∃ p, s.seqCache[q]? = some p ∧ t = { s with calls := s.calls ++ [(q, p)] }) ∨ t = s ∨
      s.seqCache[q]? = none ∧
        ∃ u, Loaded s t q (if s.seqCache.size < seqCacheSize then none else some victim) u := by
  cases hq : s.seqCache[q]? with
  | some p =>
    rw [State.get, hq, Option.some.injEq] at hs
    exact .inl ⟨p, rfl, hs.symm⟩
  | none =>
    rw [State.get, hq] at hs
    cases hload : s.load q loadOk with
    | none =>
      rw [hload, Option.some.injEq] at hs
      exact .inr (.inl hs.symm)
    | some s' =>
      rw [hload] at hs
      obtain ⟨t', ht', rfl⟩ := Option.map_eq_some_iff.mp hs
      refine .inr (.inr ⟨rfl, ?_⟩)
      split at ht'
      · rename_i hroom
        rw [if_pos hroom, ← Option.some.inj ht']
        exact loaded_of_room hload
      · rename_i hfull
        rw [if_neg hfull]
        rw [(hok hq (not_lt.mp hfull)).1] at ht'
        exact loaded_of_evict h hq hload ht'

theorem Loaded.object_eq {dropped : Option GoString} (h : Loaded s t q dropped u) :
    u.key = getSeqKey q ∧ u.i = storedIndex s.db (getSeqKey q) := by
  obtain ⟨db, hnew, -⟩ := h.opened
  obtain rfl := Option.some.inj (Prod.mk.inj hnew).1
  exact ⟨rfl, rfl⟩

theorem Loaded.sequence_self {dropped : Option GoString} (h : Loaded s t q dropped u) :
    t.sequence q = some u := by
  rw [State.sequence, h.cached_self, h.loaded]
  exact List.getElem?_concat_length

theorem Loaded.sequence_other {dropped : Option GoString} (h : Loaded s t q dropped u)
    (hlinked : Linked s) (hr : r ≠ q) (hd : r ∉ dropped) : t.sequence r = s.sequence r := by
  rw [State.sequence, State.sequence, (h.cached_other r hr hd).1, h.loaded]
  cases hp : s.seqCache[r]? with
  | none => rfl
  | some p =>
    obtain ⟨v, hv, -⟩ := hlinked.filed r p hp
    exact List.getElem?_append_left (List.getElem?_eq_some_iff.mp hv).1

/-- Loading moves no position: the new object stands at the stored value, and the dropped one has
stored its own. -/
theorem Loaded.position_eq_position {dropped : Option GoString} (h : Loaded s t q dropped u)
    (hlinked : Linked s) (hq : s.seqCache[q]? = none) (r : GoString) :
    position t r = position s r := by
  by_cases hr : r = q
  · subst hr
    rw [position_of_sequence h.sequence_self, position_of_not_cached hq, h.object_eq.2]
  · by_cases hd : r ∈ dropped
    · obtain ⟨-, hnone, -, -, hstored⟩ := h.cached_dropped r hd
      rw [position_of_not_cached hnone, hstored]
    · exact position_congr (h.sequence_other hlinked hr hd) (h.cached_other r hr hd).2

theorem Loaded.linked {dropped : Option GoString} (h : Loaded s t q dropped u) (hlinked : Linked s)
    (hq : s.seqCache[q]? = none)
    (hspared : ∀ r ∈ dropped, ∀ c ∈ s.calls, s.seqCache[r]? ≠ some c.2) : Linked t := by
  constructor
  case filed =>
    intro r p hp
    by_cases hr : r = q
    · subst hr
      rw [h.cached_self, Option.some.injEq] at hp
      exact ⟨u, by rw [h.loaded, ← hp]; exact List.getElem?_concat_length, h.object_eq.1⟩
    · have hd : r ∉ dropped := by
        intro hd
        rw [(h.cached_dropped r hd).2.1] at hp
        simp at hp
      rw [(h.cached_other r hr hd).1] at hp
      obtain ⟨v, hv, hk⟩ := hlinked.filed r p hp
      refine ⟨v, ?_, hk⟩
      rw [h.loaded, List.getElem?_append_left (List.getElem?_eq_some_iff.mp hv).1, hv]
  case held =>
    intro c hc
    rw [h.calls] at hc
    rcases List.mem_append.mp hc with hc | hc
    · have hheld := hlinked.held c hc
      have hcq : c.1 ≠ q := by
        intro hcq
        rw [hcq, hq] at hheld
        simp at hheld
      rw [(h.cached_other c.1 hcq fun hd ↦ hspared c.1 hd c hc hheld).1, hheld]
    · rw [List.mem_singleton.mp hc]
      exact h.cached_self

/-- Taking a sequence keeps the links, and moves no position. -/
theorem Linked.get (h : Linked s) (hok : Spared s q victim closeOk)
    (hs : s.get q victim loadOk closeOk = some t) :
    Linked t ∧ (∀ r, position t r = position s r) ∧ t.returned = s.returned := by
  obtain ⟨p, hq, rfl⟩ | rfl | ⟨hq, u, hl⟩ := get_cases h hok hs
  · refine ⟨⟨h.filed, fun c hc ↦ ?_⟩, fun _ ↦ rfl, rfl⟩
    rcases List.mem_append.mp hc with hc | hc
    · exact h.held c hc
    · rw [List.mem_singleton.mp hc]
      exact hq
  · exact ⟨h, fun _ ↦ rfl, rfl⟩
  · refine ⟨hl.linked h hq fun r hr ↦ ?_, hl.position_eq_position h hq, hl.returned⟩
    split at hr
    · simp at hr
    · rename_i hfull
      obtain rfl : victim = r := Option.some.inj hr
      exact (hok hq (not_lt.mp hfull)).2

/-! ### Calling `Next` on it -/

/-- What a call leaves that has called `Next` on its object, the cached one of the queue. -/
structure Advanced (s t : State) (call : ℕ) (ok : Bool) (q : GoString) (p : ℕ) (u u' : Sequence)
    (idx : Option UInt64) : Prop where
  held : s.calls[call]? = some (q, p)
  cached : s.seqCache[q]? = some p
  loaded_self : s.loaded[p]? = some u
  key_eq : u.key = getSeqKey q
  next_eq : u.next s.db ok = (u', t.db, idx)
  loaded : t.loaded = s.loaded.set p u'
  seqCache : t.seqCache = s.seqCache
  calls : t.calls = s.calls.eraseIdx call
  returned : t.returned = s.returned ++ idx.toList.map (q, ·)

theorem advanced_of_next (h : Linked s) {call : ℕ} {ok : Bool} {idx : Option UInt64}
    (hs : s.next call ok = some (t, idx)) : ∃ q p u u', Advanced s t call ok q p u u' idx := by
  obtain ⟨⟨q, p⟩, hcall, hs⟩ := Option.bind_eq_some_iff.mp hs
  obtain ⟨u, hu, hs⟩ := Option.map_eq_some_iff.mp hs
  have hp := h.held (q, p) (List.mem_of_getElem? hcall)
  obtain ⟨v, hv, hkey, -⟩ := h.sequence_eq_some hp
  obtain rfl : v = u := Option.some.inj (hv.symm.trans hu)
  obtain ⟨u', db, idx', hnext⟩ : ∃ u' db idx', v.next s.db ok = (u', db, idx') := ⟨_, _, _, rfl⟩
  simp only [hnext, Prod.mk.injEq] at hs
  obtain ⟨rfl, rfl⟩ := hs
  exact ⟨q, p, v, u', hcall, hp, hu, hkey, hnext, rfl, rfl, rfl, rfl⟩

section

variable {call : ℕ} {ok : Bool} {u' : Sequence} {idx : Option UInt64}

theorem Advanced.key_eq' (h : Advanced s t call ok q p u u' idx) : u'.key = getSeqKey q := by
  have hkey := u.next_key s.db ok
  rw [h.next_eq] at hkey
  exact hkey.trans h.key_eq

theorem Advanced.db_other (h : Advanced s t call ok q p u u' idx) (hr : r ≠ q) :
    t.db[getSeqKey r]? = s.db[getSeqKey r]? := by
  have hdb := Sequence.getElem?_next_of_ne (s := u) s.db ok
    (h.key_eq ▸ fun hc ↦ hr (getSeqKey_inj.mp hc).symm)
  rwa [h.next_eq] at hdb

theorem Advanced.sequence_self (h : Advanced s t call ok q p u u' idx) :
    s.sequence q = some u ∧ t.sequence q = some u' := by
  constructor
  · rw [State.sequence, h.cached]
    exact h.loaded_self
  · rw [State.sequence, h.seqCache, h.cached, Option.bind_some, h.loaded,
      List.getElem?_set_self (List.getElem?_eq_some_iff.mp h.loaded_self).1]

theorem Advanced.sequence_other (h : Advanced s t call ok q p u u' idx) (hlinked : Linked s)
    (hr : r ≠ q) : t.sequence r = s.sequence r := by
  rw [State.sequence, State.sequence, h.seqCache, h.loaded]
  cases hp : s.seqCache[r]? with
  | none => rfl
  | some p' => exact List.getElem?_set_ne (hlinked.pointer_ne h.cached hp (Ne.symm hr))

theorem Advanced.linked (h : Advanced s t call ok q p u u' idx) (hlinked : Linked s) :
    Linked t := by
  constructor
  case filed =>
    intro r p' hp'
    rw [h.seqCache] at hp'
    rw [h.loaded]
    by_cases hr : r = q
    · subst hr
      obtain rfl : p = p' := Option.some.inj (h.cached.symm.trans hp')
      exact ⟨u', List.getElem?_set_self (List.getElem?_eq_some_iff.mp h.loaded_self).1, h.key_eq'⟩
    · obtain ⟨v, hv, hk⟩ := hlinked.filed r p' hp'
      exact ⟨v, by rw [List.getElem?_set_ne (hlinked.pointer_ne h.cached hp' (Ne.symm hr)), hv], hk⟩
  case held =>
    intro c hc
    rw [h.calls] at hc
    rw [h.seqCache]
    exact hlinked.held c (List.mem_of_mem_eraseIdx hc)

end

/-- The rest of a call keeps the links. It returns the index after the position of its queue, which
then stands there, or an error with the position where it was; no other position moves. -/
theorem Linked.next (h : Linked s) {call : ℕ} {ok : Bool} {idx : Option UInt64}
    (hcall : s.calls[call]? = some (q, p)) (hs : s.next call ok = some (t, idx)) :
    Linked t ∧ (∀ r, r ≠ q → position t r = position s r) ∧
      (idx = none → position t q = position s q) ∧
      (∀ i, idx = some i → i = position s q + 1 ∧ position t q = i) ∧
      t.returned = s.returned ++ idx.toList.map (q, ·) := by
  obtain ⟨q', p', u, u', ha⟩ := advanced_of_next h hs
  obtain ⟨rfl, rfl⟩ : q' = q ∧ p' = p := by simpa using ha.held.symm.trans hcall
  rw [position_of_sequence ha.sequence_self.1, position_of_sequence ha.sequence_self.2]
  refine ⟨ha.linked h, fun r hr ↦ ?_, ?_, ?_, ha.returned⟩
  · exact position_congr (ha.sequence_other h hr) (ha.db_other hr)
  · rintro rfl
    exact Sequence.next_eq_none ha.next_eq
  · rintro i rfl
    exact Sequence.next_eq_some ha.next_eq

/-! ### Each index once -/

/-- What was returned lies behind the position. -/
structure Inv (s : State) : Prop extends Linked s where
  once : OnceOnly s
  behind : ∀ r ∈ s.returned, r.2.toNat ≤ (position s r.1).toNat

theorem Inv.get (h : Inv s) (hok : Unheld s (.get q victim))
    (hs : step s (.get q victim) = some t) : Inv t := by
  have hspared : Spared s q victim true := fun hq hfull ↦ ⟨rfl, hok hq hfull⟩
  have hget : s.get q victim true true = some t := hs
  obtain ⟨hlinked, hpos, hret⟩ := h.toLinked.get hspared hget
  refine ⟨hlinked, ?_, fun r hr ↦ ?_⟩
  · rw [OnceOnly, hret]
    exact h.once
  · rw [hpos]
    exact h.behind r (hret ▸ hr)

theorem Inv.next (h : Inv s) {call : ℕ} (hok : Unheld s (.next call))
    (hs : step s (.next call) = some t) : Inv t := by
  obtain ⟨⟨t, idx⟩, hnext, rfl⟩ := Option.map_eq_some_iff.mp hs
  obtain ⟨q, p, u, u', ha⟩ := advanced_of_next h.toLinked hnext
  obtain ⟨hlinked, hother, hnone, hsome, hret⟩ := h.toLinked.next ha.held hnext
  cases idx with
  | none =>
    rw [Option.toList_none, List.map_nil, List.append_nil] at hret
    refine ⟨hlinked, ?_, fun a hmem ↦ ?_⟩
    · rw [OnceOnly, hret]
      exact h.once
    · have hpos : position t a.1 = position s a.1 := by
        by_cases hr : a.1 = q
        · rw [hr]
          exact hnone rfl
        · exact hother a.1 hr
      rw [hpos]
      exact h.behind a (hret ▸ hmem)
  | some i =>
    obtain ⟨hi, hpos⟩ := hsome i rfl
    have hlt : (position s q).toNat + 1 < 2 ^ 64 := by
      rw [position_of_sequence ha.sequence_self.1]
      exact hok (q, p) ha.held u ha.loaded_self
    have hsucc : i.toNat = (position s q).toNat + 1 := by
      rw [hi, UInt64.toNat_add, UInt64.toNat_one, Nat.mod_eq_of_lt hlt]
    rw [Option.toList_some, List.map_singleton] at hret
    refine ⟨hlinked, ?_, fun a hmem ↦ ?_⟩
    · rw [OnceOnly, hret, List.pairwise_append]
      -- indexes of the queue that were returned before are behind its position
      refine ⟨h.once, List.pairwise_singleton _ _, fun a hmem b hb hab ↦ ?_⟩
      rw [List.mem_singleton.mp hb] at hab ⊢
      have hle := h.behind a hmem
      rw [show a.1 = q from hab] at hle
      intro heq
      have hval : a.2.toNat = i.toNat := congrArg UInt64.toNat heq
      omega
    · rw [hret] at hmem
      rcases List.mem_append.mp hmem with hmem | hmem
      · have hle := h.behind a hmem
        by_cases hr : a.1 = q
        · rw [hr] at hle ⊢
          rw [hpos]
          omega
        · rw [hother a.1 hr]
          exact hle
      · rw [List.mem_singleton.mp hmem, hpos]

theorem Inv.step (h : Inv s) {e : Event} (hok : Unheld s e) (hs : step s e = some t) : Inv t := by
  cases e with
  | get queue victim => exact h.get hok hs
  | next call => exact h.next hok hs

/-- **Each index once.** As long as no sequence is evicted while a call holds it, no two calls for
one queue return the same index, whatever the store holds at first. -/
theorem onceOnly_of_unheld {db : DB} {es : List Event}
    (hok : Runs.Meets IndexStore.step Unheld { db } es)
    (hrun : Runs.run IndexStore.step { db } es = some s) : OnceOnly s := by
  have h0 : Inv { db } := ⟨linked_init db, .nil, by simp⟩
  exact (hok.invariant (fun _ _ _ h hok hs ↦ h.step hok hs) h0 hrun).once

end

/-- Two calls for one queue that overlap. -/
theorem onceOnly_of_unheld_overlapping :
    ∃ s, Runs.run step { db := ∅ }
      [.get (lit "q") [], .get (lit "q") [], .next 1, .next 0] = some s ∧
      s.returned = [(lit "q", 1), (lit "q", 2)] ∧ OnceOnly s := by
  have hret : (Runs.run step { db := ∅ }
      [.get (lit "q") [], .get (lit "q") [], .next 1, .next 0]).map (·.returned)
        = some [(lit "q", 1), (lit "q", 2)] := by decide +kernel
  have hok : Runs.Meets step Unheld { db := ∅ }
      [.get (lit "q") [], .get (lit "q") [], .next 1, .next 0] := by decide +kernel
  obtain ⟨s, hrun, hs⟩ := Option.map_eq_some_iff.mp hret
  exact ⟨s, hrun, hs, onceOnly_of_unheld hok hrun⟩

/-! ## A held sequence that is evicted -/

/-- The names of the other queues. -/
def filler (n : ℕ) : GoString := [UInt8.ofNat n]

/-- A call for `q` takes its sequence, a hundred other queues push it out of the cache, and a second
call for `q` loads it anew before the first goes on. -/
def overtaken : List Event :=
  .get (lit "q") [] :: (List.range 99).map (fun n ↦ .get (filler n) []) ++
    [.get (filler 99) (lit "q"), .get (lit "q") (filler 0), .next 101, .next 0]

theorem not_onceOnly_overtaken : ∃ s, Runs.run step {} overtaken = some s ∧ ¬OnceOnly s := by
  have h : (Runs.run step {} overtaken).map (·.returned) = some [(lit "q", 1), (lit "q", 1)] := by
    decide +kernel
  obtain ⟨s, hrun, hs⟩ := Option.map_eq_some_iff.mp h
  refine ⟨s, hrun, fun honce ↦ ?_⟩
  rw [OnceOnly, hs] at honce
  exact (List.pairwise_cons.mp honce).1 _ List.mem_cons_self rfl rfl

end Z4.IndexStore
