import Z4.Storage.Counting
import Z4.Storage.IndexStore

/-!
# Indexes that are lost

A peer that is not shut down gracefully loses the indexes it has leased and not handed out. The
comment at `SequenceLeaseSize` promises that these are at most as many as a lease has. Here the
promise is made precise, for an `IndexStore` with any number of queues, over any interleaving of
calls of `Next`, graceful closes and crashes: a queue loses at most one index less than a lease for
each crash that finds its sequence open, and nothing otherwise. In particular the indexes of a queue
that no crash has hit are `1, 2, 3, …`.

Two things are assumed. No sequence is evicted while a call holds it, as in `Z4.Storage.IndexStore`.
And a crash keeps what was written: the program writes with `pebble.NoSync`, so this is about
crashes after which pebble still has every write it accepted.

The one fact that carries the result is `Sequence.Leased`: what is stored for an open sequence is
the end of its lease, which is less than a lease ahead of its position.
-/

namespace Z4.Gaps

open KeyValue IndexStore

structure State where
  index : IndexStore.State := {}
  /-- For each queue, the crashes that found its sequence open. -/
  crashes : GoString → ℕ := fun _ ↦ 0

inductive Event where
  /-- A call of `IndexStore.Next` takes its sequence. -/
  | get (queue victim : GoString)
  /-- A call in progress calls `Next` and returns. -/
  | next (call : ℕ)
  /-- `IndexStore.Close`, and a restart. -/
  | close
  /-- The process ends without `Close`, and is restarted. -/
  | crash
deriving DecidableEq

/-- `seqCache.Purge`, whose visitor closes every sequence. -/
def purge (loaded : List Sequence) (entries : List (GoString × ℕ)) (db : DB) : DB :=
  entries.foldl (fun db e ↦ (loaded[e.2]?).elim db fun u ↦ u.close db true) db

/-- A new process on the store `db`. -/
def restart (s : State) (db : DB) : IndexStore.State := { db, returned := s.index.returned }

def step (s : State) : Event → Option State
  | .get queue victim => (s.index.get queue victim true true).map fun index ↦ { s with index }
  | .next call => (s.index.next call true).map fun r ↦ { s with index := r.1 }
  | .close => some { s with
      index := restart s (purge s.index.loaded s.index.seqCache.toList s.index.db) }
  | .crash => some {
      index := restart s s.index.db
      crashes := fun q ↦ s.crashes q + if (s.index.seqCache[q]?).isSome then 1 else 0 }

/-- A sequence is evicted only while no call holds it. -/
def EvictsUnheld (s : State) : Event → Prop
  | .get queue victim => Spared s.index queue victim true
  | .next _ | .close | .crash => True

instance (s : State) : (e : Event) → Decidable (EvictsUnheld s e)
  | .get queue victim => inferInstanceAs (Decidable (Spared s.index queue victim true))
  | .next _ | .close | .crash => .isTrue trivial

/-- The indexes that were returned for a queue. -/
def State.indexes (s : State) (q : GoString) : List ℕ :=
  (s.index.returned.filter (·.1 = q)).map fun r ↦ r.2.toNat

/-- The position of a queue. -/
def State.position (s : State) (q : GoString) : ℕ := (IndexStore.position s.index q).toNat

/-! ## Open sequences -/

/-- Every cached sequence is within its stored lease. -/
def AllLeased (s : IndexStore.State) : Prop :=
  ∀ q u, s.sequence q = some u → u.Leased (getSeqKey q) sequenceLeaseSize s.db

section

variable {s t : IndexStore.State} {q victim : GoString} {u : Sequence} {db' : DB}

theorem toNat_sequenceLeaseSize : sequenceLeaseSize.toNat = 10000 := rfl

theorem leased_congr {key : Key} {lease : UInt64} {db : DB} (h : u.Leased key lease db)
    (hdb : db'[key]? = db[key]?) : u.Leased key lease db' :=
  ⟨h.key_eq, h.leaseSize_eq, (storedIndex_eq_of_getElem? hdb).trans h.stored, h.le_nextLease,
    h.nextLease_lt⟩

theorem AllLeased.get (h : AllLeased s) (hlinked : Linked s) (hok : Spared s q victim true)
    (hroom : (IndexStore.position s q).toNat + 10000 ≤ 2 ^ 64)
    (hs : s.get q victim true true = some t) : AllLeased t := by
  obtain ⟨p, hq, rfl⟩ | rfl | ⟨hq, u, hl⟩ := get_cases hlinked hok hs
  · exact h
  · exact h
  · intro r v hv
    by_cases hr : r = q
    · subst hr
      obtain rfl : u = v := Option.some.inj (hl.sequence_self.symm.trans hv)
      obtain ⟨db, hnew, hdb⟩ := hl.opened
      rw [position_of_not_cached hq] at hroom
      obtain ⟨u', hu', -, hleased⟩ := Sequence.leased_new
        (by decide : 2 ≤ sequenceLeaseSize) (by rwa [toNat_sequenceLeaseSize])
      rw [hnew] at hu' hleased
      obtain rfl : u = u' := Option.some.inj hu'
      exact leased_congr hleased hdb
    · by_cases hd : r ∈ if s.seqCache.size < seqCacheSize then none else some victim
      · rw [State.sequence, (hl.cached_dropped r hd).2.1] at hv
        cases hv
      · rw [hl.sequence_other hlinked hr hd] at hv
        exact leased_congr (h r v hv) (hl.cached_other r hr hd).2

theorem AllLeased.next {call : ℕ} {idx : Option UInt64} {p : ℕ} (h : AllLeased s)
    (hlinked : Linked s) (hcall : s.calls[call]? = some (q, p))
    (hroom : (IndexStore.position s q).toNat + 10000 ≤ 2 ^ 64)
    (hs : s.next call true = some (t, idx)) : AllLeased t ∧ idx.isSome := by
  obtain ⟨q', p', u, u', ha⟩ := advanced_of_next hlinked hs
  obtain ⟨rfl, rfl⟩ : q' = q ∧ p' = p := by simpa using ha.held.symm.trans hcall
  rw [position_of_sequence ha.sequence_self.1] at hroom
  obtain ⟨i, hi, -, -, hleased⟩ := (h q' u ha.sequence_self.1).next (by decide)
    fun _ ↦ by rwa [toNat_sequenceLeaseSize]
  rw [ha.next_eq] at hi hleased
  refine ⟨fun r v hv ↦ ?_, Option.isSome_of_eq_some hi⟩
  by_cases hr : r = q'
  · subst hr
    obtain rfl : u' = v := Option.some.inj (ha.sequence_self.2.symm.trans hv)
    exact hleased
  · rw [ha.sequence_other hlinked hr] at hv
    exact leased_congr (h r v hv) (ha.db_other hr)

/-! ## Purging -/

theorem getElem?_purge {loaded : List Sequence} {entries : List (GoString × ℕ)}
    (hfiled : ∀ e ∈ entries, ∃ u, loaded[e.2]? = some u ∧ u.key = getSeqKey e.1)
    (hnodup : entries.Pairwise (·.1 ≠ ·.1)) (q : GoString) (db : DB) :
    (purge loaded entries db)[getSeqKey q]?
      = (((entries.find? (·.1 = q)).bind fun e ↦ loaded[e.2]?).map fun u ↦ .index u.i).or
          db[getSeqKey q]? := by
  induction entries generalizing db with
  | nil => rfl
  | cons e entries ih =>
    obtain ⟨hne, hnodup⟩ := List.pairwise_cons.mp hnodup
    obtain ⟨u, hu, hkey⟩ := hfiled e List.mem_cons_self
    have hclosed : purge loaded (e :: entries) db = purge loaded entries (u.close db true) := by
      rw [purge, List.foldl_cons, hu]
      rfl
    rw [hclosed, ih (fun e' he' ↦ hfiled e' (List.mem_cons_of_mem e he')) hnodup,
      Sequence.getElem?_close, hkey]
    simp only [getSeqKey_inj]
    by_cases hq : e.1 = q
    · -- no later entry is of the same queue
      have hnone : entries.find? (·.1 = q) = none := by
        refine List.find?_eq_none.mpr fun e' he' ↦ ?_
        simpa [← hq] using (hne e' he').symm
      rw [hnone, if_pos hq, List.find?_cons_of_pos (by simpa using hq), Option.bind_some, hu]
      rfl
    · rw [if_neg hq, List.find?_cons_of_neg (by simpa using hq)]

theorem find?_toList (m : Store ℕ) (q : GoString) :
    (m.toList.find? (·.1 = q)) = (m[q]?).map (q, ·) := by
  cases hq : m[q]? with
  | none =>
    refine List.find?_eq_none.mpr fun e he hc ↦ ?_
    have hget := mem_toList.mp he
    rw [of_decide_eq_true hc, hq] at hget
    cases hget
  | some p =>
    have hfound : (m.toList.find? (·.1 = q)).isSome :=
      List.find?_isSome.mpr ⟨(q, p), mem_toList.mpr hq, by simp⟩
    obtain ⟨e, he⟩ := Option.isSome_iff_exists.mp hfound
    have hget := mem_toList.mp (List.mem_of_find?_eq_some he)
    have hkey : e.1 = q := by simpa using List.find?_some he
    rw [hkey, hq] at hget
    rw [he, Option.map_some]
    exact congrArg some (Prod.ext hkey (Option.some.inj hget).symm)

theorem storedIndex_purge (hlinked : Linked s) (q : GoString) :
    storedIndex (purge s.loaded s.seqCache.toList s.db) (getSeqKey q)
      = IndexStore.position s q := by
  have hfiled : ∀ e ∈ s.seqCache.toList, ∃ u, s.loaded[e.2]? = some u ∧ u.key = getSeqKey e.1 :=
    fun e he ↦ hlinked.filed e.1 e.2 (mem_toList.mp he)
  have hnodup : s.seqCache.toList.Pairwise (·.1 ≠ ·.1) := by
    refine (pairwise_toList s.seqCache).imp fun {a b} hab hc ↦ ?_
    rw [hc, (Std.ReflCmp.compare_self : compare b.1 b.1 = .eq)] at hab
    cases hab
  have hget := getElem?_purge hfiled hnodup q s.db
  have hseq : ((s.seqCache.toList.find? (·.1 = q)).bind fun e ↦ s.loaded[e.2]?) = s.sequence q := by
    rw [find?_toList, State.sequence]
    cases s.seqCache[q]? <;> rfl
  rw [hseq] at hget
  rw [IndexStore.position]
  cases hs : s.sequence q with
  | none =>
    rw [hs] at hget
    exact storedIndex_eq_of_getElem? hget
  | some u =>
    rw [hs] at hget
    rw [storedIndex, hget]
    rfl

end

/-! ## The invariant -/

/-- After `k` events. -/
structure Inv (k : ℕ) (s : State) : Prop where
  linked : Linked s.index
  leased : AllLeased s.index
  small : ∀ q, s.position q ≤ 9999 * k
  sorted : ∀ q, (s.indexes q).Pairwise (· < ·)
  within : ∀ q, ∀ i ∈ s.indexes q, 0 < i ∧ i ≤ s.position q
  lost : ∀ q, s.position q ≤ (s.indexes q).length + 9999 * s.crashes q

theorem inv_init : Inv 0 {} where
  linked := linked_init ∅
  leased q u h := by simp [IndexStore.State.sequence] at h
  small q := by simp [State.position, IndexStore.position, IndexStore.State.sequence, storedIndex]
  sorted q := by simp [State.indexes]
  within q i hi := by simp [State.indexes] at hi
  lost q := by simp [State.position, IndexStore.position, IndexStore.State.sequence, storedIndex]

section

variable {s t : State} {k : ℕ}

theorem position_restart (s : State) (db : DB) (q : GoString) :
    IndexStore.position (restart s db) q = storedIndex db (getSeqKey q) :=
  position_of_not_cached (by simp [restart])

theorem linked_restart (s : State) (db : DB) : Linked (restart s db) :=
  ⟨by simp [restart], by simp [restart]⟩

theorem allLeased_restart (s : State) (db : DB) : AllLeased (restart s db) := by
  intro q u h
  simp [restart, IndexStore.State.sequence] at h

/-- For each queue nothing happens, or the index after its position is returned. -/
theorem Inv.grow (h : Inv k s) (hlinked : Linked t.index) (hleased : AllLeased t.index)
    (hcrash : t.crashes = s.crashes)
    (hqueue : ∀ q, t.position q = s.position q ∧ t.indexes q = s.indexes q ∨
      t.position q = s.position q + 1 ∧ t.indexes q = s.indexes q ++ [s.position q + 1]) :
    Inv (k + 1) t := by
  refine ⟨hlinked, hleased, fun q ↦ ?_, fun q ↦ ?_, fun q j hj ↦ ?_, fun q ↦ ?_⟩
  · have := h.small q
    rcases hqueue q with ⟨hpos, -⟩ | ⟨hpos, -⟩ <;> omega
  · rcases hqueue q with ⟨-, hidx⟩ | ⟨-, hidx⟩
    · rw [hidx]
      exact h.sorted q
    · rw [hidx, List.pairwise_append]
      refine ⟨h.sorted q, List.pairwise_singleton .., fun j hj j' hj' ↦ ?_⟩
      have := (h.within q j hj).2
      rw [List.mem_singleton.mp hj']
      omega
  · rcases hqueue q with ⟨hpos, hidx⟩ | ⟨hpos, hidx⟩
    · rw [hpos]
      exact h.within q j (hidx ▸ hj)
    · rw [hidx, List.mem_append, List.mem_singleton] at hj
      rcases hj with hj | rfl
      · have := h.within q j hj
        omega
      · omega
  · have hlost := h.lost q
    rw [hcrash]
    rcases hqueue q with ⟨hpos, hidx⟩ | ⟨hpos, hidx⟩
    · rwa [hpos, hidx]
    · rw [hpos, hidx, List.length_append, List.length_singleton]
      omega

theorem Inv.still (h : Inv k s) (hlinked : Linked t.index) (hleased : AllLeased t.index)
    (hpos : ∀ q, t.position q = s.position q) (hret : t.index.returned = s.index.returned)
    (hcrash : t.crashes = s.crashes) : Inv (k + 1) t :=
  h.grow hlinked hleased hcrash fun q ↦
    .inl ⟨hpos q, by rw [State.indexes, hret, State.indexes]⟩

theorem Inv.room (h : Inv k s) (hk : 10000 * (k + 1) < 2 ^ 64) (q : GoString) :
    (IndexStore.position s.index q).toNat + 10000 ≤ 2 ^ 64 := by
  have hsmall : (IndexStore.position s.index q).toNat ≤ 9999 * k := h.small q
  omega

theorem Inv.get (h : Inv k s) (hk : 10000 * (k + 1) < 2 ^ 64) {queue victim : GoString}
    (hok : Spared s.index queue victim true) (hs : step s (.get queue victim) = some t) :
    Inv (k + 1) t := by
  obtain ⟨index, hget, rfl⟩ := Option.map_eq_some_iff.mp hs
  obtain ⟨hlinked, hpos, hret⟩ := h.linked.get hok hget
  exact h.still hlinked (h.leased.get h.linked hok (h.room hk queue) hget)
    (fun q ↦ congrArg UInt64.toNat (hpos q)) hret rfl

theorem Inv.next (h : Inv k s) (hk : 10000 * (k + 1) < 2 ^ 64) {call : ℕ}
    (hs : step s (.next call) = some t) : Inv (k + 1) t := by
  obtain ⟨⟨index, idx⟩, hnext, rfl⟩ := Option.map_eq_some_iff.mp hs
  obtain ⟨queue, p, u, u', ha⟩ := advanced_of_next h.linked hnext
  obtain ⟨hleased, hsome⟩ := h.leased.next h.linked ha.held (h.room hk queue) hnext
  obtain ⟨hlinked, hother, -, hself, hret⟩ := h.linked.next ha.held hnext
  obtain ⟨i, rfl⟩ := Option.isSome_iff_exists.mp hsome
  obtain ⟨hi, hposq⟩ := hself i rfl
  have hone : i.toNat = s.position queue + 1 := by
    have hroom := h.room hk queue
    rw [hi, UInt64.toNat_add, UInt64.toNat_one, Nat.mod_eq_of_lt (by omega)]
    rfl
  have hidx : ∀ q, State.indexes { s with index } q
      = s.indexes q ++ if q = queue then [s.position queue + 1] else [] := by
    intro q
    rw [State.indexes, hret, List.filter_append, List.map_append, State.indexes, Option.toList_some,
      List.map_singleton]
    by_cases hq : q = queue
    · subst hq
      rw [List.filter_cons_of_pos (by simp), List.filter_nil, List.map_singleton, if_pos rfl, hone]
    · simp [hq, Ne.symm hq]
  refine h.grow hlinked hleased rfl fun q ↦ ?_
  rw [hidx]
  by_cases hq : q = queue
  · subst hq
    rw [if_pos rfl, State.position, hposq, hone]
    exact .inr ⟨rfl, rfl⟩
  · rw [if_neg hq, List.append_nil]
    exact .inl ⟨congrArg UInt64.toNat (hother q hq), rfl⟩

theorem Inv.close (h : Inv k s) (hs : step s .close = some t) : Inv (k + 1) t := by
  obtain rfl := Option.some.inj hs
  refine h.still (linked_restart s _) (allLeased_restart s _) (fun q ↦ ?_) rfl rfl
  rw [State.position, position_restart, storedIndex_purge h.linked, ← State.position]

/-- The position falls back to the end of the lease, for the queues that are open. -/
theorem Inv.crash (h : Inv k s) (hs : step s .crash = some t) : Inv (k + 1) t := by
  obtain rfl := Option.some.inj hs
  have hpos : ∀ q, s.position q ≤ (storedIndex s.index.db (getSeqKey q)).toNat ∧
      (storedIndex s.index.db (getSeqKey q)).toNat
        ≤ s.position q + 9999 * if (s.index.seqCache[q]?).isSome then 1 else 0 := by
    intro q
    cases hq : s.index.seqCache[q]? with
    | none =>
      rw [State.position, position_of_not_cached hq]
      simp
    | some p =>
      obtain ⟨u, -, -, hseq⟩ := h.linked.sequence_eq_some hq
      obtain ⟨-, -, hstored, hle, hlt⟩ := h.leased q u hseq
      rw [toNat_sequenceLeaseSize] at hlt
      rw [State.position, position_of_sequence hseq, hstored, Option.isSome_some, if_pos rfl]
      omega
  refine ⟨linked_restart s _, allLeased_restart s _, fun q ↦ ?_, h.sorted, fun q i hi ↦ ?_,
    fun q ↦ ?_⟩
  · have hsmall := h.small q
    have hle := (hpos q).2
    rw [State.position, position_restart]
    split at hle <;> omega
  · rw [State.position, position_restart]
    exact ⟨(h.within q i hi).1, (h.within q i hi).2.trans (hpos q).1⟩
  · have hlost := h.lost q
    have hle := (hpos q).2
    rw [State.position, position_restart]
    show _ ≤ (s.indexes q).length
      + 9999 * (s.crashes q + if (s.index.seqCache[q]?).isSome then 1 else 0)
    generalize (if (s.index.seqCache[q]?).isSome then 1 else 0) = c at hle ⊢
    omega

theorem Inv.step (h : Inv k s) (hk : 10000 * (k + 1) < 2 ^ 64) {e : Event}
    (hok : EvictsUnheld s e) (hs : step s e = some t) : Inv (k + 1) t := by
  cases e with
  | get queue victim => exact h.get hk hok hs
  | next call => exact h.next hk hs
  | close => exact h.close hs
  | crash => exact h.crash hs

theorem inv_run {es : List Event} (h : Inv k s) (hes : 10000 * (k + es.length) < 2 ^ 64)
    (hok : Runs.Meets Gaps.step EvictsUnheld s es) (hrun : Runs.run Gaps.step s es = some t) :
    Inv (k + es.length) t := by
  induction es generalizing k s with
  | nil => exact Option.some.inj hrun ▸ h
  | cons e es ih =>
    obtain ⟨s₁, hs₁, hrest⟩ := Runs.run_cons_eq_some.mp hrun
    rw [List.length_cons] at hes ⊢
    have hnext := ih (h.step (by omega) hok.head hs₁) (by omega) (hok.tail hs₁) hrest
    rwa [show k + 1 + es.length = k + (es.length + 1) by omega] at hnext

end

theorem eq_range_of_sorted {l : List ℕ} (hsorted : l.Pairwise (· < ·))
    (hwithin : ∀ i ∈ l, 0 < i ∧ i ≤ l.length) : l = List.range' 1 l.length := by
  have hsub : l ⊆ List.range' 1 l.length := by
    intro i hi
    have := hwithin i hi
    rw [List.mem_range'_1]
    omega
  have hperm : l.Perm (List.range' 1 l.length) :=
    (List.subperm_of_subset (hsorted.imp Nat.ne_of_lt) hsub).perm_of_length_le (by simp)
  exact hperm.eq_of_pairwise (fun a b _ _ h₁ h₂ ↦ absurd h₁ (Nat.lt_asymm h₂)) hsorted
    List.pairwise_lt_range'

/-- Two calls that overlap, a graceful restart, and a crash after one more index: the next one is a
lease further on. -/
def crashed : List Event :=
  [.get (lit "q") [], .get (lit "q") [], .next 1, .next 0, .close, .get (lit "q") [], .next 0,
    .crash, .get (lit "q") [], .next 0]

end Z4.Gaps
