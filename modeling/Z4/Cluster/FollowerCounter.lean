import Z4.Api.Push
import Z4.Storage.Counting

/-!
# Taking over from a follower's store

A follower does not open sequences. It keeps the counter of a queue up with the largest index of
each batch it saves, so that a sequence that is opened there later goes on where the leader stopped.
Two things can go wrong. A save overwrites the counter where it should raise it. And the index it
goes by is the one read back from the text of the id, which for run times in the first `2 ^ 56`
nanoseconds after the epoch (and their copies modulo `2 ^ 64`) is not the index that was assigned;
if all of a batch are read back as zero, nothing is written at all.

`counter_covers_saved_iff` says exactly when the counter still covers every assigned index.
-/

namespace Z4

open KeyValue Runs

/-- The tasks of a batch of pushes. -/
def tasksMade (ps : List Push) : List Task := ps.map Push.task

/-- A run of `SaveAll(tasks, true)` calls. -/
def saveCalls (calls : List (List Push)) (db : DB) : Option DB :=
  calls.foldlM (fun db ps ↦ saveAll (tasksMade ps) true db) db

/-- The largest index of a queue that is read back from the ids of a batch, or zero. -/
def readBack (q : GoString) (ps : List Push) : ℕ := maxIndex q (tasksMade ps)

/-- The counter is at least every index that was assigned. -/
def Covers (db : DB) (q : GoString) (saved : List Push) : Prop :=
  ∀ p ∈ saved, p.req.queue = q → p.index.toNat ≤ (storedIndex db (getSeqKey q)).toNat

/-- The count of a queue can be picked up: the counter covers every index assigned so far, and no
index a sequence returns from here on, over any number of incarnations, is one of them. -/
def CanPickUp (saved : List Push) (db : DB) (q : GoString) : Prop :=
  Covers db q saved ∧
    ∀ es s, Meets (Incarnations.step (getSeqKey q) sequenceLeaseSize)
        (Incarnations.Below (getSeqKey q) sequenceLeaseSize) { db } es →
      run (Incarnations.step (getSeqKey q) sequenceLeaseSize) { db } es = some s →
      ∀ i ∈ s.returned, ∀ p ∈ saved, p.req.queue = q → p.index ≠ i

/-- What a call asks of a queue, where `db` is the store before the call and `earlier` are the
pushes saved so far. -/
def CallCovers (db : DB) (q : GoString) (earlier b : List Push) : Prop :=
  if readBack q b = 0 then
    -- no counter is written
    Covers db q b
  else
    ∀ p ∈ earlier ++ b, p.req.queue = q → p.index.toNat ≤ readBack q b

section

variable {calls : List (List Push)} {b saved : List Push} {db₀ db : DB} {q : GoString}

theorem saveCalls_concat :
    saveCalls (calls ++ [b]) db₀ = (saveCalls calls db₀).bind (saveAll (tasksMade b) true) := by
  rw [saveCalls, List.foldlM_append, ← saveCalls]
  simp

theorem isSome_saveAll_tasksMade (b : List Push) (db : DB) :
    (saveAll (tasksMade b) true db).isSome := by
  rw [saveAll_isSome_iff]
  intro t ht
  obtain ⟨p, -, rfl⟩ := List.mem_map.mp ht
  exact p.isSome_recordKey_task

theorem isSome_saveCalls (calls : List (List Push)) (db : DB) : (saveCalls calls db).isSome := by
  induction calls using List.reverseRecOn with
  | nil => rfl
  | append_singleton calls b ih =>
    obtain ⟨db', hdb'⟩ := Option.isSome_iff_exists.mp ih
    rw [saveCalls_concat, hdb', Option.bind_some]
    exact isSome_saveAll_tasksMade b db'

theorem storedIndex_saveAll (h : saveAll (tasksMade b) true db₀ = some db) (q : GoString) :
    (storedIndex db (getSeqKey q)).toNat =
      if readBack q b = 0 then (storedIndex db₀ (getSeqKey q)).toNat else readBack q b := by
  rw [storedIndex, getElem?_saveAll_seq h, readBack]
  by_cases hz : maxIndex q (tasksMade b) = 0
  · simp only [hz, ne_eq, not_true_eq_false, and_false, if_false, if_true]
    rfl
  · simp only [hz, ne_eq, not_false_eq_true, and_self, if_true, if_false]
    exact UInt64.toNat_ofNat_of_lt' (maxIndex_lt q (tasksMade b))

/-- A counter that covers what was saved can be picked up. -/
theorem canPickUp_iff : CanPickUp saved db q ↔ Covers db q saved := by
  refine ⟨And.left, fun h ↦ ⟨h, fun es s hok hrun i hi p hp hq ↦ ?_⟩⟩
  obtain ⟨hlt, -⟩ := (Incarnations.counts_of_run (by decide) hok hrun).bounds i hi
  have hle := h p hp hq
  rintro rfl
  omega

/-- One call keeps a counter that covers what was saved before exactly if it covers what it saves
and does not fall below. -/
theorem covers_concat_iff (hsave : saveAll (tasksMade b) true db₀ = some db)
    (hold : Covers db₀ q saved) : Covers db q (saved ++ b) ↔ CallCovers db₀ q saved b := by
  rw [Covers, CallCovers, storedIndex_saveAll hsave]
  split
  · constructor
    · exact fun h p hp ↦ h p (List.mem_append_right _ hp)
    · intro h p hp
      exact (List.mem_append.mp hp).elim (hold p) (h p)
  · exact Iff.rfl

/-- After every call the count of every queue can be picked up. -/
def FollowerKeepsCount (db₀ : DB) (batches : List (List Push)) : Prop :=
  ∀ calls db, calls <+: batches → saveCalls calls db₀ = some db →
    ∀ q, CanPickUp calls.flatten db q

theorem followerKeepsCount_iff (db₀ : DB) (batches : List (List Push)) :
    FollowerKeepsCount db₀ batches ↔
      ∀ calls b db, calls ++ [b] <+: batches → saveCalls calls db₀ = some db →
        ∀ q, CallCovers db q calls.flatten b := by
  simp only [FollowerKeepsCount, canPickUp_iff]
  constructor
  · intro h calls b db hpre hdb q
    have hold := h calls db ((List.prefix_append calls [b]).trans hpre) hdb q
    obtain ⟨db', hsave⟩ := Option.isSome_iff_exists.mp (isSome_saveAll_tasksMade b db)
    have hcall : saveCalls (calls ++ [b]) db₀ = some db' := by
      rw [saveCalls_concat, hdb, Option.bind_some, hsave]
    have hnew := h (calls ++ [b]) db' hpre hcall q
    rw [List.flatten_append, List.flatten_singleton] at hnew
    exact (covers_concat_iff hsave hold).mp hnew
  · intro h calls
    induction calls using List.reverseRecOn with
    | nil => exact fun db _ _ q p hp ↦ by simp at hp
    | append_singleton calls b ih =>
      intro db hpre hdb q
      rw [saveCalls_concat, Option.bind_eq_some_iff] at hdb
      obtain ⟨db', hdb', hsave⟩ := hdb
      have hold := ih db' ((List.prefix_append calls [b]).trans hpre) hdb' q
      rw [List.flatten_append, List.flatten_singleton]
      exact (covers_concat_iff hsave hold).mpr (h calls b db' hpre hdb' q)

/-- Where every id is read back as it was written, a call covers what it saves, and only an earlier
index above its largest one can go wrong. -/
theorem callCovers_iff_of_le (htime : ∀ p ∈ b, 2 ^ 56 ≤ p.runTime.unixNano.toUInt64.toNat) :
    CallCovers db q saved b ↔
      (readBack q b ≠ 0 → ∀ p ∈ saved, p.req.queue = q → p.index.toNat ≤ readBack q b) := by
  have hself : ∀ p ∈ b, p.req.queue = q → p.index.toNat ≤ readBack q b := by
    rintro p hp rfl
    rw [← p.taskIndex_task (p.le_toNat_id (htime p hp))]
    exact le_maxIndex (List.mem_map_of_mem hp)
  rw [CallCovers]
  by_cases hz : readBack q b = 0
  · rw [if_pos hz]
    refine iff_of_true (fun p hp hq ↦ ?_) fun hne ↦ absurd hz hne
    have := hself p hp hq
    omega
  · rw [if_neg hz]
    refine ⟨fun h _ p hp ↦ h p (List.mem_append_left _ hp), fun h p hp ↦ ?_⟩
    exact (List.mem_append.mp hp).elim (h hz p) (hself p)

/-- **When a follower's counter covers its tasks.** After every call the count of every queue can be
picked up, exactly if for every call and queue: the largest index read back from the ids of the call
is not below an index assigned in the call or before it, or all are read back as zero and the
counter was not below the indexes assigned in the call. Where every id is read back as it was
written, this is: no call's largest index of a queue is below an index of an earlier call. -/
theorem counter_covers_saved_iff (db₀ : DB) (batches : List (List Push)) :
    (FollowerKeepsCount db₀ batches ↔
      ∀ calls b db, calls ++ [b] <+: batches → saveCalls calls db₀ = some db →
        ∀ q, CallCovers db q calls.flatten b) ∧
    ((∀ b ∈ batches, ∀ p ∈ b, 2 ^ 56 ≤ p.runTime.unixNano.toUInt64.toNat) →
      (FollowerKeepsCount db₀ batches ↔
        ∀ calls b, calls ++ [b] <+: batches → ∀ q, readBack q b ≠ 0 →
          ∀ p ∈ calls.flatten, p.req.queue = q → p.index.toNat ≤ readBack q b)) := by
  refine ⟨followerKeepsCount_iff db₀ batches, fun htime ↦ ?_⟩
  rw [followerKeepsCount_iff]
  refine forall₂_congr fun calls b ↦ ?_
  have hsome := isSome_saveCalls calls db₀
  obtain ⟨db, hdb⟩ := Option.isSome_iff_exists.mp hsome
  simp only [hdb, Option.some.injEq]
  constructor
  · intro h hpre q
    have hb : b ∈ batches := hpre.subset (List.mem_append_right _ List.mem_cons_self)
    exact (callCovers_iff_of_le (htime b hb)).mp (h db hpre rfl q)
  · rintro h _ hpre rfl q
    have hb : b ∈ batches := hpre.subset (List.mem_append_right _ List.mem_cons_self)
    exact (callCovers_iff_of_le (htime b hb)).mpr (h hpre q)

end

/-- An unscheduled push to the queue `q` with the given index. -/
def indexedPush (index : UInt64) : Push := ⟨{ queue := lit "q" }, .zero, .zero, index⟩

/-- Two pushes reach the log in the other order than they took their indexes. The counter goes back
to one, and the sequence opened there returns the index of the first task again. -/
theorem counter_falls_below_indexedPush :
    ∃ db s, saveCalls [[indexedPush 2], [indexedPush 1]] ∅ = some db ∧
      storedIndex db (getSeqKey (lit "q")) = 1 ∧
      run (Incarnations.step (getSeqKey (lit "q")) sequenceLeaseSize) { db } [.new, .next]
        = some s ∧
      s.returned = [2] ∧ ¬CanPickUp [indexedPush 2, indexedPush 1] db (lit "q") := by
  have h : ((saveCalls [[indexedPush 2], [indexedPush 1]] ∅).bind fun db ↦
      (run (Incarnations.step (getSeqKey (lit "q")) sequenceLeaseSize) { db } [.new, .next]).map
        fun s ↦ (storedIndex db (getSeqKey (lit "q")), s.returned)) = some (1, [2]) := by
    decide +kernel
  obtain ⟨db, hdb, hs⟩ := Option.bind_eq_some_iff.mp h
  obtain ⟨s, hrun, hs⟩ := Option.map_eq_some_iff.mp hs
  obtain ⟨hstored, hret⟩ := Prod.mk.inj hs
  refine ⟨db, s, hdb, hstored, hrun, hret, fun hc ↦ ?_⟩
  have hle := hc.1 (indexedPush 2) List.mem_cons_self rfl
  rw [hstored] at hle
  exact absurd hle (by decide)

/-- Pushes scheduled for the epoch: their ids are read back with index zero, and no counter is
written. -/
example : readBack (lit "q") [epochPush 1, epochPush 2, epochPush 3] = 0 := by decide +kernel

end Z4
