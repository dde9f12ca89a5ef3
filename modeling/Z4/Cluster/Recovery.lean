import Z4.Cluster.AckedLog

/-!
# Snapshots, restarts and restores

A snapshot is the content of the store, together with how much of the log it stands for. The acks in
the buffer are not part of it. Once it is persisted the log before it may be dropped: a peer that
comes back after a crash or a close keeps its store and re-applies the log from the snapshot on, and
a peer that restores the snapshot starts from the pairs in it.

So an ack from before the snapshot that was only buffered is gone for good, and its task stays. The
results below say when this does not happen, whatever batches, ticks, snapshots, restarts and
restores a cluster goes through: `Safe` lists the steps at which a buffered ack is dropped while its
task is still there.

That a peer keeps its store is an assumption. The program writes with `pebble.NoSync`, so this is
about crashes after which pebble still has every write it accepted.
-/

namespace Z4

open KeyValue

/-! ## Pairs -/

/-- `pebbleStore.DeleteAll`. -/
def deletePairs (db : DB) : DB :=
  deleteRange (lit "queue# ") (lit "queue#z") (deleteRange (lit "task# ") (lit "task#z") db)

/-- `SnapshotReader.Restore`, on the pairs that `loadData` reads. -/
def restorePairs (pairs : List (Key × Value)) (db : DB) : DB :=
  commit (deletePairs db) (pairs.map fun e ↦ .set e.1 e.2)

theorem getElem?_deletePairs_recordKey {t : Task} {k : Key} (h : recordKey t = some k) (db : DB) :
    (deletePairs db)[k]? = none := by
  have hin : ((compare (lit "task# ") k).isLE && (compare k (lit "task#z")).isLT) = true := by
    obtain ⟨id, -, rfl⟩ := Option.map_eq_some_iff.mp h
    rw [getTaskKey]
    split
    · rw [getFifoTaskKey, getFifoPrefix, List.append_assoc]
      rfl
    · rw [getScheduledTaskKey, getSchedPrefix, List.append_assoc]
      rfl
  rw [deletePairs, getElem?_deleteRange, getElem?_deleteRange, if_pos hin, ite_self]

theorem absent_restorePairs {t : Task} {pairs : List (Key × Value)}
    (h : ∀ k ∈ recordKey t, ∀ e ∈ pairs, e.1 ≠ k) (db : DB) : Absent (restorePairs pairs db) t := by
  intro k hk
  rw [restorePairs, getElem?_commit_of_forall_ne, getElem?_deletePairs_recordKey hk]
  intro w hw
  obtain ⟨e, he, rfl⟩ := List.mem_map.mp hw
  exact h k hk e he

namespace Recovery

/-! ## Peers -/

/-- A snapshot, as Raft keeps it. -/
structure Snapshot where
  /-- How many entries of the log it stands for. -/
  index : ℕ
  pairs : List (Key × Value)
  /-- The acks that were in the buffer when it was taken. They are not part of what is kept. -/
  pending : List Ack

/-- A snapshot of a state machine between two batches. -/
def Snapshot.of (s : StateMachine) : Snapshot := ⟨s.applied, s.db.toList, s.ackBuffer⟩

/-- The snapshot has no pair for the task. -/
def Snapshot.Lacks (snap : Snapshot) (t : Task) : Prop :=
  ∀ k ∈ recordKey t, ∀ e ∈ snap.pairs, e.1 ≠ k

instance (snap : Snapshot) (t : Task) : Decidable (snap.Lacks t) :=
  inferInstanceAs (Decidable (∀ k ∈ recordKey t, ∀ e ∈ snap.pairs, e.1 ≠ k))

structure Peer where
  machine : StateMachine := {}
  /-- Returned by `Snapshot`, and not yet persisted. -/
  taken : Option Snapshot := none
  /-- The last one that was persisted. -/
  persisted : Option Snapshot := none

/-- The peer comes up again. Its memory is lost, its store is not, and since
`NoSnapshotRestoreOnStart` is set the log is applied from the last snapshot on. -/
def Peer.restart (x : Peer) : Peer where
  machine := { db := x.machine.db, applied := (x.persisted.map Snapshot.index).getD 0 }
  persisted := x.persisted

/-- The peer installs a snapshot. Its ack buffer stays. -/
def Peer.restore (x : Peer) (snap : Snapshot) : Peer := { x with
  machine := { x.machine with db := restorePairs snap.pairs x.machine.db, applied := snap.index }
  persisted := some snap }

inductive Event (ι : Type) where
  | apply (p : ι) (e : StateMachine.Event)
  | snapshot (p : ι)
  | persist (p : ι)
  /-- `Server.Close`, which stops the ticker without a flush, and a restart. -/
  | close (p : ι)
  | crash (p : ι)
  /-- `p` is sent the snapshot of `q`. -/
  | restore (p q : ι)

variable {ι : Type}

section

variable [DecidableEq ι]

def step (cmds : List Command) (peers : ι → Peer) : Event ι → Option (ι → Peer)
  | .apply p e =>
    ((peers p).machine.step (StateMachine.logOf cmds) e).map fun machine ↦
      Function.update peers p { peers p with machine }
  | .snapshot p =>
    -- Raft calls `Snapshot` and `ApplyBatch` from one goroutine
    if (peers p).machine.size = 0 then
      some (Function.update peers p { peers p with taken := some (.of (peers p).machine) })
    else none
  | .persist p =>
    (peers p).taken.map fun snap ↦
      Function.update peers p { peers p with taken := none, persisted := some snap }
  | .close p | .crash p => some (Function.update peers p (peers p).restart)
  | .restore p q =>
    -- a snapshot is sent to a peer that is behind it
    match (peers q).persisted with
    | none => none
    | some snap =>
      if (peers p).machine.size = 0 ∧ (peers p).machine.applied ≤ snap.index then
        some (Function.update peers p ((peers p).restore snap))
      else none

end

/-! ## Where an ack can be lost -/

/-- No buffered ack is dropped while its task is still there: not by a flush that comes before the
save, not by a restart after a snapshot that the ack precedes, and not by a restore of a snapshot
that was taken while the ack was buffered, unless the restoring peer has it in its own buffer. -/
def Safe (cmds : List Command) (peers : ι → Peer) : Event ι → Prop
  | .apply p e => (peers p).machine.Ordered e
  | .close p | .crash p => ∀ snap ∈ (peers p).persisted, ∀ a ∈ (peers p).machine.ackBuffer,
      a ∈ acksOf (cmds.take snap.index) → ∀ t ∈ tasksOf cmds, a.reference = t.reference →
        Absent (peers p).machine.db t
  | .restore p q => ∀ snap ∈ (peers q).persisted, ∀ a ∈ snap.pending, ∀ t ∈ tasksOf cmds,
      a.reference = t.reference → snap.Lacks t ∨ a ∈ (peers p).machine.ackBuffer
  | .snapshot _ | .persist _ => True

instance (cmds : List Command) (peers : ι → Peer) : (e : Event ι) → Decidable (Safe cmds peers e)
  | .apply p e => inferInstanceAs (Decidable ((peers p).machine.Ordered e))
  | .close _ | .crash _ => inferInstanceAs (Decidable (∀ snap ∈ _, ∀ a ∈ _, _ → ∀ t ∈ _, _ → _))
  | .restore _ _ => inferInstanceAs (Decidable (∀ snap ∈ _, ∀ a ∈ _, ∀ t ∈ _, _ → _))
  | .snapshot _ | .persist _ => inferInstanceAs (Decidable True)

/-! ## The invariant -/

/-- An ack from before the snapshot was buffered when it was taken, or its task is not in it. -/
def Snapshot.Kept (cmds : List Command) (snap : Snapshot) : Prop :=
  ∀ a ∈ acksOf (cmds.take snap.index), ∀ t ∈ tasksOf cmds, a.reference = t.reference →
    snap.Lacks t ∨ a ∈ snap.pending

structure Peer.Kept (cmds : List Command) (x : Peer) : Prop where
  machine : x.machine.AcksKept cmds
  taken : ∀ snap ∈ x.taken, snap.Kept cmds ∧ snap.index ≤ x.machine.applied
  persisted : ∀ snap ∈ x.persisted, snap.Kept cmds ∧ snap.index ≤ x.machine.applied

theorem kept_init (cmds : List Command) : Peer.Kept cmds {} :=
  ⟨StateMachine.acksKept_init cmds, by simp, by simp⟩

section

variable {cmds : List Command} {x : Peer}

theorem mem_acksOf_take {i j : ℕ} (h : i ≤ j) {a : Ack} (ha : a ∈ acksOf (cmds.take i)) :
    a ∈ acksOf (cmds.take j) := by
  rw [← Nat.min_eq_left h, ← List.take_take] at ha
  exact StateMachine.mem_acksOf_of_take ha

theorem applied_le_of_step {log : List LogEntry} {s s' : StateMachine} {e : StateMachine.Event}
    (h : s.step log e = some s') : s.applied ≤ s'.applied := by
  cases e with
  | applyBatch n =>
    obtain ⟨-, -, rfl⟩ := StateMachine.step_applyBatch h
    rw [StateMachine.start]
    split <;> exact le_rfl
  | saveSetting ok =>
    obtain ⟨c, cs, -, ⟨-, rfl⟩ | ⟨-, rfl⟩⟩ := StateMachine.step_saveSetting h <;> exact le_rfl
  | push si ok =>
    obtain ⟨-, db, -, rfl⟩ | ⟨-, rfl⟩ := StateMachine.step_push h <;> exact le_rfl
  | acknowledge ok =>
    obtain ⟨buffer, -, rfl⟩ := StateMachine.step_acknowledge h
    exact le_rfl
  | flushTick ok =>
    obtain ⟨buffer, -, rfl⟩ := StateMachine.step_flushTick h
    exact le_rfl
  | reply =>
    obtain ⟨-, rfl⟩ := StateMachine.step_reply h
    exact Nat.le_add_right _ _

theorem Peer.Kept.apply (h : x.Kept cmds) (hlog : WellOrdered cmds) (hkeys : KeysFaithful cmds)
    {e : StateMachine.Event} {machine : StateMachine} (hord : x.machine.Ordered e)
    (hs : x.machine.step (StateMachine.logOf cmds) e = some machine) :
    Peer.Kept cmds { x with machine } where
  machine := h.machine.step hlog hkeys hord hs
  taken snap hsnap :=
    ⟨(h.taken snap hsnap).1, (h.taken snap hsnap).2.trans (applied_le_of_step hs)⟩
  persisted snap hsnap :=
    ⟨(h.persisted snap hsnap).1, (h.persisted snap hsnap).2.trans (applied_le_of_step hs)⟩

/-- What a machine has kept when a snapshot is taken, the snapshot has. -/
theorem Peer.Kept.snapshot (h : x.Kept cmds) :
    Peer.Kept cmds { x with taken := some (.of x.machine) } where
  machine := h.machine
  taken snap hsnap := by
    obtain rfl : Snapshot.of x.machine = snap := Option.some.inj hsnap
    refine ⟨fun a ha t ht hat ↦ ?_, le_rfl⟩
    refine (h.machine.applied a ha t ht hat).imp_left fun habs k hk e he hek ↦ ?_
    rw [Snapshot.of, mem_toList, hek, habs k hk] at he
    simp at he
  persisted := h.persisted

theorem Peer.Kept.persist (h : x.Kept cmds) {snap : Snapshot} (hsnap : x.taken = some snap) :
    Peer.Kept cmds { x with taken := none, persisted := some snap } where
  machine := h.machine
  taken := by simp
  persisted snap' hsnap' := Option.some.inj hsnap' ▸ h.taken snap hsnap

theorem acksKept_idle {s : StateMachine} (hsize : s.size = 0) (htasks : s.tasks = [])
    (h : ∀ a ∈ acksOf (cmds.take s.applied), ∀ t ∈ tasksOf cmds, a.reference = t.reference →
      Absent s.db t ∨ a ∈ s.ackBuffer) : s.AcksKept cmds where
  pending := by simp [htasks]
  applied := h
  current a ha := by simp [hsize, StateMachine.batch, acksOf] at ha
  current_pending a ha := by simp [hsize, StateMachine.batch, acksOf] at ha

theorem Peer.Kept.restart (h : x.Kept cmds)
    (hsafe : ∀ snap ∈ x.persisted, ∀ a ∈ x.machine.ackBuffer, a ∈ acksOf (cmds.take snap.index) →
      ∀ t ∈ tasksOf cmds, a.reference = t.reference → Absent x.machine.db t) :
    x.restart.Kept cmds := by
  refine ⟨acksKept_idle rfl rfl fun a ha t ht hat ↦ .inl ?_, by simp [Peer.restart],
    fun snap hsnap ↦ ?_⟩
  · cases hp : x.persisted with
    | none => simp [Peer.restart, hp, acksOf] at ha
    | some snap =>
      have ha' : a ∈ acksOf (cmds.take snap.index) := by simpa [Peer.restart, hp] using ha
      obtain ⟨-, hle⟩ := h.persisted snap hp
      rcases h.machine.applied a (mem_acksOf_take hle ha') t ht hat with habs | hbuf
      · exact habs
      · exact hsafe snap hp a hbuf ha' t ht hat
  · refine ⟨(h.persisted snap hsnap).1, ?_⟩
    have hp : x.persisted = some snap := hsnap
    simp [Peer.restart, hp]

theorem Peer.Kept.restore (h : x.Kept cmds) {snap : Snapshot} (hsnap : snap.Kept cmds)
    (hsize : x.machine.size = 0) (hle : x.machine.applied ≤ snap.index)
    (hsafe : ∀ a ∈ snap.pending, ∀ t ∈ tasksOf cmds, a.reference = t.reference →
      snap.Lacks t ∨ a ∈ x.machine.ackBuffer) : (x.restore snap).Kept cmds := by
  have htasks : x.machine.tasks = [] := by
    refine List.eq_nil_iff_forall_not_mem.mpr fun t ht ↦ ?_
    have := h.machine.pending t ht
    simp [hsize, StateMachine.batch, tasksOf] at this
  refine ⟨acksKept_idle hsize htasks fun a ha t ht hat ↦ ?_, fun snap' hsnap' ↦ ?_,
    fun snap' hsnap' ↦ ?_⟩
  · have hlacks : snap.Lacks t ∨ a ∈ x.machine.ackBuffer :=
      (hsnap a ha t ht hat).elim .inl fun hin ↦ hsafe a hin t ht hat
    exact hlacks.imp_left fun hl ↦ absent_restorePairs hl _
  · exact ⟨(h.taken snap' hsnap').1, (h.taken snap' hsnap').2.trans hle⟩
  · obtain rfl := Option.some.inj hsnap'
    exact ⟨hsnap, le_rfl⟩

end

variable [DecidableEq ι]

section

variable {cmds : List Command} {peers peers' : ι → Peer}

theorem kept_update (h : ∀ p, (peers p).Kept cmds) {p : ι} {x : Peer} (hx : x.Kept cmds) (r : ι) :
    (Function.update peers p x r).Kept cmds := by
  by_cases hr : r = p
  · rw [hr, Function.update_self]
    exact hx
  · rw [Function.update_of_ne hr]
    exact h r

theorem kept_step (hlog : WellOrdered cmds) (hkeys : KeysFaithful cmds) {e : Event ι}
    (h : ∀ p, (peers p).Kept cmds) (hsafe : Safe cmds peers e)
    (hs : step cmds peers e = some peers') : ∀ p, (peers' p).Kept cmds := by
  cases e with
  | apply p e =>
    obtain ⟨machine, hm, rfl⟩ := Option.map_eq_some_iff.mp hs
    exact kept_update h ((h p).apply hlog hkeys hsafe hm)
  | snapshot p =>
    rw [step] at hs
    split at hs
    · obtain rfl := Option.some.inj hs
      exact kept_update h (h p).snapshot
    · simp at hs
  | persist p =>
    obtain ⟨snap, hsnap, rfl⟩ := Option.map_eq_some_iff.mp hs
    exact kept_update h ((h p).persist hsnap)
  | close p =>
    obtain rfl := Option.some.inj hs
    exact kept_update h ((h p).restart hsafe)
  | crash p =>
    obtain rfl := Option.some.inj hs
    exact kept_update h ((h p).restart hsafe)
  | restore p q =>
    rw [step] at hs
    split at hs
    · simp at hs
    · rename_i snap hsnap
      split at hs
      · rename_i hc
        obtain rfl := Option.some.inj hs
        exact kept_update h
          ((h p).restore ((h q).persisted snap hsnap).1 hc.1 hc.2 (hsafe snap hsnap))
      · simp at hs

end

/-- **No committed ack is lost**, in a run all of whose steps are safe: once the buffer is flushed,
no task is in the store whose ack was applied, and every entry before the peer's snapshot counts as
applied. -/
theorem absent_of_safe {cmds : List Command} {peers : ι → Peer} {es : List (Event ι)}
    (hlog : WellOrdered cmds) (hkeys : KeysFaithful cmds)
    (hok : Runs.Meets (step cmds) (Safe cmds) (fun _ ↦ {}) es)
    (hrun : Runs.run (step cmds) (fun _ ↦ {}) es = some peers) (p : ι) :
    (∀ snap ∈ (peers p).persisted, snap.index ≤ (peers p).machine.applied) ∧
      ∀ a ∈ acksOf (cmds.take (peers p).machine.applied), ∀ t ∈ tasksOf cmds,
        a.reference = t.reference →
          Absent (flushTick (peers p).machine.ackBuffer (peers p).machine.db true).2 t := by
  have hkept : (peers p).Kept cmds :=
    Runs.Meets.invariant (fun _ _ _ h hok hs ↦ kept_step hlog hkeys h hok hs)
      (fun _ ↦ kept_init cmds) hok hrun p
  refine ⟨fun snap hsnap ↦ (hkept.persisted snap hsnap).2, fun a ha t ht hat ↦ ?_⟩
  rw [snd_flushTick, ticked, if_pos rfl]
  rcases hkept.machine.applied a ha t ht hat with habs | hin
  · exact StateMachine.absent_deleteAll _ habs
  · exact StateMachine.absent_deleteAll_of_mem hkeys hin (StateMachine.mem_acksOf_of_take ha) ht hat

/-- The task is saved, then acked, in two batches. -/
def saveThenAck : List (Event Unit) :=
  [.apply () (.applyBatch 1), .apply () (.push true true), .apply () .reply,
    .apply () (.applyBatch 1), .apply () (.acknowledge true), .apply () .reply]

/-- With a flush before the snapshot the ack survives a crash. -/
theorem absent_of_safe_flushed : ∃ peers,
    Runs.run (step pushAndAck) (fun _ ↦ {}) (saveThenAck ++
      [.apply () (.flushTick true), .snapshot (), .persist (), .crash ()]) = some peers ∧
    (∀ snap ∈ (peers ()).persisted, snap.index ≤ (peers ()).machine.applied) ∧
      ∀ a ∈ acksOf (pushAndAck.take (peers ()).machine.applied), ∀ t ∈ tasksOf pushAndAck,
        a.reference = t.reference →
          Absent (flushTick (peers ()).machine.ackBuffer (peers ()).machine.db true).2 t := by
  have hsome : (Runs.run (step pushAndAck) (fun _ ↦ {}) (saveThenAck ++
      [.apply () (.flushTick true), .snapshot (), .persist (), .crash ()])).isSome := by
    decide +kernel
  obtain ⟨peers, hpeers⟩ := Option.isSome_iff_exists.mp hsome
  exact ⟨peers, hpeers,
    absent_of_safe wellOrdered_pushAndAck keysFaithful_pushAndAck (by decide +kernel) hpeers ()⟩

/-- Without it the snapshot stands for an ack that nothing remembers. -/
theorem present_after_close : WellOrdered pushAndAck ∧ KeysFaithful pushAndAck ∧ ∃ peers,
    Runs.run (step pushAndAck) (fun _ ↦ {}) (saveThenAck ++
      [.snapshot (), .persist (), .close ()]) = some peers ∧
    ∃ snap ∈ (peers ()).persisted, ∃ a ∈ acksOf (pushAndAck.take snap.index),
      ∃ t ∈ tasksOf pushAndAck, a.reference = t.reference ∧
        ¬Absent (flushTick (peers ()).machine.ackBuffer (peers ()).machine.db true).2 t := by
  refine ⟨wellOrdered_pushAndAck, keysFaithful_pushAndAck, ?_⟩
  have h : (Runs.run (step pushAndAck) (fun _ ↦ {}) (saveThenAck ++
      [.snapshot (), .persist (), .close ()])).map (fun peers ↦
        decide (∃ snap ∈ (peers ()).persisted, ∃ a ∈ acksOf (pushAndAck.take snap.index),
          ∃ t ∈ tasksOf pushAndAck, a.reference = t.reference ∧
            ¬Absent (flushTick (peers ()).machine.ackBuffer (peers ()).machine.db true).2 t))
      = some true := by decide +kernel
  obtain ⟨peers, hpeers, hd⟩ := Option.map_eq_some_iff.mp h
  exact ⟨peers, hpeers, of_decide_eq_true hd⟩

end Recovery

end Z4
