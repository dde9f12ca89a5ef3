import Z4.Cluster.Refinement
import Z4.Cluster.Recovery

/-!
# A peer that has caught up

A peer that comes back keeps its store and applies the log again from its last snapshot on. So it
applies entries to a store that has already seen them: a task may be saved a second time after its
ack deleted it, and the config of a queue goes back to an older one. Neither shows once the peer has
caught up. The results below extend the refinement of the sequential log by crashes at any point,
also in the middle of a batch, by restarts, and by snapshots restored from other peers.

## The invariant

`Carries` says what a store holds when part of the log has been applied to it, and perhaps more than
that part. It is stated so that it only gets weaker when the part shrinks, which is what a restart
does. For the configs this means that a store may be *ahead* for some queues and not for others, so
the point of the log that the config of a queue comes from is chosen for each queue.
-/

namespace Z4

open KeyValue

/-! ## Stores that are ahead -/

/-- The store holds what the tasks `done` and the configs `saved` of the log lead to, unless later
entries have been applied already. -/
structure Carries (cmds : List Command) (done : List Task) (saved : List QueueConfig) (db : DB) :
    Prop where
  stored : ∀ t ∈ done, ¬Acked cmds t → ∀ k ∈ recordKey t, db[k]? = some (.task t)
  known : ∀ k v, IsTaskKey k → db[k]? = some v →
    ∃ t ∈ tasksOf cmds, v = .task t ∧ recordKey t = some k
  configs : ∀ q, ∃ seen, saved <+: seen ∧ seen <+: configsOf cmds ∧
    db[getConfigKey q]? = (lastConfig seen q).map .config

theorem carries_empty (cmds : List Command) : Carries cmds [] [] ∅ where
  stored t ht := by simp at ht
  known k v _ h := by simp at h
  configs q := ⟨[], List.prefix_rfl, List.nil_prefix, by simp [lastConfig]⟩

section

variable {cmds : List Command} {done done' : List Task} {saved saved' : List QueueConfig}
  {db db' : DB}

theorem Carries.anti (h : Carries cmds done saved db) (hdone : ∀ t ∈ done', t ∈ done)
    (hsaved : saved' <+: saved) : Carries cmds done' saved' db where
  stored t ht := h.stored t (hdone t ht)
  known := h.known
  configs q := by
    obtain ⟨seen, hseen, hlog, hget⟩ := h.configs q
    exact ⟨seen, hsaved.trans hseen, hlog, hget⟩

theorem Carries.saveSettings (h : Carries cmds done saved db) {c : QueueConfig}
    (hc : saved ++ [c] <+: configsOf cmds) :
    Carries cmds done (saved ++ [c]) (saveSettings c db) := by
  have hget : ∀ {k : Key}, IsTaskKey k → (Z4.saveSettings c db)[k]? = db[k]? := by
    intro k hk
    rw [getElem?_saveSettings, if_neg]
    rintro rfl
    exact not_isTaskKey_config c.id hk
  refine ⟨fun t ht hack k hk ↦ ?_, fun k v hk hv ↦ ?_, fun q ↦ ?_⟩
  · rw [hget (isTaskKey_recordKey hk)]
    exact h.stored t ht hack k hk
  · rw [hget hk] at hv
    exact h.known k v hk hv
  · rw [getElem?_saveSettings_config]
    by_cases hq : c.id = q
    · refine ⟨saved ++ [c], List.prefix_rfl, hc, ?_⟩
      rw [if_pos hq, lastConfig_concat, if_pos hq]
      rfl
    · rw [if_neg hq]
      obtain ⟨seen, hseen, hlog, hget⟩ := h.configs q
      rw [hget]
      -- either the store is ahead for this queue, or the next config is not one of its own
      rcases hseen.length_le.lt_or_eq with hlt | heq
      · refine ⟨seen, List.prefix_of_prefix_length_le hc hlog ?_, hlog, rfl⟩
        simpa using hlt
      · obtain rfl := hseen.eq_of_length heq
        refine ⟨saved ++ [c], List.prefix_rfl, hc, ?_⟩
        rw [lastConfig_concat, if_neg hq]

theorem Carries.saveAll (h : Carries cmds done saved db) (hlog : WellOrdered cmds)
    (hkeys : KeysFaithful cmds) (hdone : ∀ t ∈ done, t ∈ tasksOf cmds) {ts : List Task}
    (hts : ∀ t ∈ ts, t ∈ tasksOf cmds) {si : Bool} (hsave : saveAll ts si db = some db') :
    Carries cmds (done ++ ts) saved db' := by
  refine ⟨fun t ht hack k hk ↦ ?_, fun k v hk hv ↦ ?_, fun q ↦ ?_⟩
  · have htc : t ∈ tasksOf cmds := (List.mem_append.mp ht).elim (hdone t) (hts t)
    rw [getElem?_saveAll_task hsave (isTaskKey_recordKey hk)]
    cases hlast : (ts.filter (recordKey · = some k)).getLast? with
    | none =>
      have hnot : t ∉ ts := by
        intro hin
        rw [List.getLast?_eq_none_iff] at hlast
        exact List.not_mem_nil (hlast ▸ List.mem_filter.mpr ⟨hin, by simpa using hk⟩)
      exact h.stored t ((List.mem_append.mp ht).resolve_right hnot) hack k hk
    | some u =>
      obtain ⟨hu, huk⟩ := List.mem_filter.mp (List.mem_of_getLast? hlast)
      have hut : u.reference = t.reference :=
        hkeys.task u (hts u hu) t htc k (by simpa using huk) hk
      rw [hlog.eq_of_reference_eq (hts u hu) htc hut]
      rfl
  · obtain ⟨u, hu, hrecord⟩ | hv := record_of_saveAll hsave hk hv
    · exact ⟨u, hts u hu, hrecord⟩
    · exact h.known k v hk hv
  · rw [getElem?_saveAll_config hsave]
    exact h.configs q

theorem Carries.deleteAll (h : Carries cmds done saved db) (hkeys : KeysFaithful cmds)
    (hdone : ∀ t ∈ done, t ∈ tasksOf cmds) {acks : List Ack} (hacks : ∀ a ∈ acks, a ∈ acksOf cmds) :
    Carries cmds done saved (deleteAll acks db) := by
  refine ⟨fun t ht hack k hk ↦ ?_, fun k v hk hv ↦ ?_, fun q ↦ ?_⟩
  · rw [getElem?_deleteAll, if_neg]
    · exact h.stored t ht hack k hk
    · rintro ⟨a, ha, hak⟩
      exact hack ⟨a, hacks a ha, (hkeys.ack a (hacks a ha) t (hdone t ht) k hk).mp hak⟩
  · rw [getElem?_deleteAll] at hv
    split at hv
    · simp at hv
    · exact h.known k v hk hv
  · rw [getElem?_deleteAll_of_not_isTaskKey _ _ (not_isTaskKey_config q)]
    exact h.configs q

theorem getElem?_deletePairs_config (q : GoString) (db : DB) :
    (deletePairs db)[getConfigKey q]? = none := by
  have hin : ((compare (lit "queue# ") (getConfigKey q)).isLE &&
      (compare (getConfigKey q) (lit "queue#z")).isLT) = true := rfl
  rw [deletePairs, getElem?_deleteRange, if_pos hin]

/-- What is restored is what the snapshot was taken of: no record of the old store is left. -/
theorem Carries.restorePairs {X : DB} (h : Carries cmds done saved X)
    (hold : Carries cmds done' saved' db) : Carries cmds done saved (restorePairs X.toList db) := by
  have hget : ∀ k : Key, (deletePairs db)[k]? = none →
      (Z4.restorePairs X.toList db)[k]? = X[k]? := by
    intro k hk
    rw [Z4.restorePairs, getElem?_commit_toList, hk, Option.or_none]
  have htask : ∀ k, IsTaskKey k → (deletePairs db)[k]? = none := by
    intro k hk
    cases hv : db[k]? with
    | none => rw [deletePairs, getElem?_deleteRange, getElem?_deleteRange, hv, ite_self, ite_self]
    | some v =>
      obtain ⟨t, -, -, htk⟩ := hold.known k v hk hv
      exact getElem?_deletePairs_recordKey htk db
  refine ⟨fun t ht hack k hk ↦ ?_, fun k v hk hv ↦ ?_, fun q ↦ ?_⟩
  · rw [hget k (htask k (isTaskKey_recordKey hk))]
    exact h.stored t ht hack k hk
  · rw [hget k (htask k hk)] at hv
    exact h.known k v hk hv
  · rw [hget _ (getElem?_deletePairs_config q db)]
    exact h.configs q

theorem Carries.realizes (h : Carries cmds (tasksOf cmds) (configsOf cmds) db)
    (hacked : ∀ t ∈ tasksOf cmds, Acked cmds t → Absent db t) : Realizes cmds db where
  tasks k v hk := by
    refine ⟨fun hv ↦ ?_, ?_⟩
    · obtain ⟨t, ht, rfl, htk⟩ := h.known k v hk hv
      refine ⟨t, ht, rfl, htk, fun hack ↦ ?_⟩
      rw [hacked t ht hack k htk] at hv
      simp at hv
    · rintro ⟨t, ht, rfl, htk, hack⟩
      exact h.stored t ht hack k htk
  configs q := by
    obtain ⟨seen, hseen, hlog, hget⟩ := h.configs q
    rw [hget, hseen.eq_of_length_le hlog.length_le]

end

/-! ## Machines -/

namespace StateMachine

/-- What the machine knows of the log, whatever it was restarted from. -/
structure Follows (cmds : List Command) (s : StateMachine) : Prop where
  idle : s.size = 0 → s.Done
  pending : ∀ t ∈ s.tasks, t ∈ tasksOf cmds
  buffered : ∀ a, a ∈ s.ackBuffer ∨ a ∈ s.acks → a ∈ acksOf cmds
  carries : ∃ done saved,
    (∀ t ∈ tasksOf (s.reached cmds), t ∈ done ∨ t ∈ s.tasks) ∧
    (∀ t ∈ tasksOf (cmds.take s.applied), t ∈ done) ∧ (∀ t ∈ done, t ∈ tasksOf cmds) ∧
    configsOf (s.reached cmds) = saved ++ s.settings ∧
    configsOf (cmds.take s.applied) <+: saved ∧ Carries cmds done saved s.db

section

variable {cmds : List Command} {s s' : StateMachine}

theorem configsOf_take_mono {i j : ℕ} (h : i ≤ j) :
    configsOf (cmds.take i) <+: configsOf (cmds.take j) := by
  obtain ⟨n, rfl⟩ := Nat.exists_eq_add_of_le h
  rw [List.take_add, configsOf_append]
  exact List.prefix_append _ _

theorem configsOf_take_log (i : ℕ) : configsOf (cmds.take i) <+: configsOf cmds := by
  conv_rhs => rw [← List.take_append_drop i cmds, configsOf_append]
  exact List.prefix_append _ _

theorem mem_tasksOf_take {i j : ℕ} (h : i ≤ j) {t : Task} (ht : t ∈ tasksOf (cmds.take i)) :
    t ∈ tasksOf (cmds.take j) := by
  obtain ⟨n, rfl⟩ := Nat.exists_eq_add_of_le h
  rw [List.take_add, tasksOf_append]
  exact List.mem_append_left _ ht

theorem follows_idle (hsize : s.size = 0) (hdone : s.Done)
    (hbuf : ∀ a ∈ s.ackBuffer, a ∈ acksOf cmds)
    (h : Carries cmds (tasksOf (cmds.take s.applied)) (configsOf (cmds.take s.applied)) s.db) :
    Follows cmds s := by
  obtain ⟨hset, htasks, hacks⟩ := hdone
  have hreach : s.reached cmds = cmds.take s.applied := by rw [reached, hsize, Nat.add_zero]
  refine ⟨fun _ ↦ ⟨hset, htasks, hacks⟩, by simp [htasks], fun a ha ↦ ?_,
    _, _, fun t ht ↦ .inl (hreach ▸ ht), fun t ht ↦ ht,
    fun t ht ↦ mem_tasksOf.mpr (List.mem_of_mem_take (mem_tasksOf.mp ht)), ?_, List.prefix_rfl, h⟩
  · exact ha.elim (hbuf a) (by simp [hacks])
  · rw [hreach, hset, List.append_nil]

theorem follows_init (cmds : List Command) : Follows cmds {} :=
  follows_idle rfl ⟨rfl, rfl, rfl⟩ (by simp) (carries_empty cmds)

theorem Follows.carries_applied (h : Follows cmds s) {n : ℕ} (hn : n ≤ s.applied) :
    Carries cmds (tasksOf (cmds.take n)) (configsOf (cmds.take n)) s.db := by
  obtain ⟨done, saved, -, hdone, -, -, hsaved, hc⟩ := h.carries
  exact hc.anti (fun t ht ↦ hdone t (mem_tasksOf_take hn ht))
    ((configsOf_take_mono hn).trans hsaved)

theorem Follows.flush (h : Follows cmds s) (hkeys : KeysFaithful cmds)
    {deleted buffer acks : List Ack} (hdel : ∀ a ∈ deleted, a ∈ s.ackBuffer ∨ a ∈ s.acks)
    (hbuf : ∀ a, a ∈ buffer ∨ a ∈ acks → a ∈ s.ackBuffer ∨ a ∈ s.acks)
    (hacks : s.acks = [] → acks = []) :
    Follows cmds { s with ackBuffer := buffer, acks, db := Z4.deleteAll deleted s.db } := by
  obtain ⟨done, saved, hreach, happ, hlog, hconf, hpre, hc⟩ := h.carries
  exact ⟨fun h0 ↦ ⟨(h.idle h0).1, (h.idle h0).2.1, hacks (h.idle h0).2.2⟩, h.pending,
    fun a ha ↦ h.buffered a (hbuf a ha), done, saved, hreach, happ, hlog, hconf, hpre,
    hc.deleteAll hkeys hlog fun a ha ↦ h.buffered a (hdel a ha)⟩

theorem Follows.applyBatch (h : Follows cmds s) (hsize : s.size = 0) {b : List Command}
    (hb : b = batch cmds s.applied b.length) :
    Follows cmds { s with
      size := b.length, settings := configsOf b, tasks := tasksOf b, acks := acksOf b
      groupErr := none, settingsErr := none, tasksErr := none } := by
  have hreach : reached cmds { s with
      size := b.length, settings := configsOf b, tasks := tasksOf b, acks := acksOf b
      groupErr := none, settingsErr := none, tasksErr := none } = s.reached cmds ++ b :=
    reached_append hsize hb
  obtain ⟨hset, htasks, hacks⟩ := h.idle hsize
  obtain ⟨done, saved, hdone, happ, hlog, hconf, hpre, hc⟩ := h.carries
  refine ⟨fun h0 ↦ ?_, fun t ht ↦ ?_, fun a ha ↦ ?_, done, saved, fun t ht ↦ ?_, happ, hlog, ?_,
    hpre, hc⟩
  · obtain rfl : b = [] := List.length_eq_zero_iff.mp h0
    exact ⟨rfl, rfl, rfl⟩
  · exact mem_tasksOf_of_drop (mem_tasksOf_of_batch (hb ▸ ht))
  · exact ha.elim (fun hin ↦ h.buffered a (.inl hin)) fun hin ↦ mem_acksOf_of_batch (hb ▸ hin)
  · rw [hreach, tasksOf_append, List.mem_append] at ht
    refine ht.imp_left fun hin ↦ (hdone t hin).resolve_right ?_
    simp [htasks]
  · rw [hreach, configsOf_append, hconf, hset, List.append_nil]

theorem Follows.saveSetting (h : Follows cmds s) {c : QueueConfig} {cs : List QueueConfig}
    (hcs : s.settings = c :: cs) :
    Follows cmds { s with db := saveSettings c s.db, settings := cs } := by
  obtain ⟨done, saved, hdone, happ, hlog, hconf, hpre, hc⟩ := h.carries
  have hconf' : configsOf (s.reached cmds) = (saved ++ [c]) ++ cs := by
    rw [hconf, hcs, List.append_assoc, List.singleton_append]
  refine ⟨fun h0 ↦ ?_, h.pending, h.buffered, done, saved ++ [c], hdone, happ, hlog, hconf',
    hpre.trans (List.prefix_append _ _), hc.saveSettings ?_⟩
  · have := (h.idle h0).1
    rw [hcs] at this
    simp at this
  · refine List.IsPrefix.trans ?_ (configsOf_take_log (s.applied + s.size))
    exact ⟨cs, hconf'.symm⟩

/-- **Every step follows the log.** The machine need not have started from an empty store. -/
theorem Follows.step (hlog : WellOrdered cmds) (hkeys : KeysFaithful cmds) {e : Event}
    (h : Follows cmds s) (hok : e.Succeeds) (hs : step (logOf cmds) s e = some s') :
    Follows cmds s' := by
  cases e with
  | applyBatch n =>
    obtain ⟨hsize, b, hb, rfl⟩ := step_applyBatch_logOf hs
    exact h.applyBatch hsize hb
  | saveSetting ok =>
    obtain rfl : ok = true := hok
    obtain ⟨c, cs, hcs, ⟨-, rfl⟩ | ⟨hc, -⟩⟩ := step_saveSetting hs
    · exact h.saveSetting hcs
    · simp at hc
  | push si ok =>
    obtain rfl : ok = true := hok
    obtain ⟨-, db, hdb, rfl⟩ | ⟨hc, -⟩ := step_push hs
    · obtain ⟨done, saved, hdone, happ, hin, hconf, hpre, hc⟩ := h.carries
      refine ⟨fun h0 ↦ ⟨(h.idle h0).1, rfl, (h.idle h0).2.2⟩, by simp, h.buffered,
        done ++ s.tasks, saved, fun t ht ↦ .inl (List.mem_append.mpr (hdone t ht)),
        fun t ht ↦ List.mem_append_left _ (happ t ht), fun t ht ↦ ?_, hconf, hpre,
        hc.saveAll hlog hkeys hin h.pending hdb⟩
      exact (List.mem_append.mp ht).elim (hin t) (h.pending t)
    · simp at hc
  | acknowledge ok =>
    obtain ⟨buffer, hsplit, rfl⟩ := step_acknowledge hs
    have hmem : ∀ a, a ∈ s.flushed (.acknowledge ok) ∨ a ∈ buffer → a ∈ s.ackBuffer ∨ a ∈ s.acks :=
      fun a ha ↦ by rwa [← List.mem_append, ← hsplit, List.mem_append]
    exact h.flush hkeys (fun a ha ↦ hmem a (.inl ha)) (fun a ha ↦ hmem a (.inr (by simpa using ha)))
      fun _ ↦ rfl
  | flushTick ok =>
    obtain ⟨buffer, hsplit, rfl⟩ := step_flushTick hs
    have hmem : ∀ a, a ∈ s.flushed (.flushTick ok) ∨ a ∈ buffer → a ∈ s.ackBuffer :=
      fun a ha ↦ by rwa [← List.mem_append, hsplit] at ha
    exact h.flush hkeys (fun a ha ↦ .inl (hmem a (.inl ha)))
      (fun a ha ↦ ha.imp_left fun hb ↦ hmem a (.inr hb)) id
  | reply =>
    obtain ⟨⟨hset, htasks, hacks⟩, rfl⟩ := step_reply hs
    obtain ⟨done, saved, hdone, -, hin, hconf, -, hc⟩ := h.carries
    refine follows_idle rfl ⟨hset, htasks, hacks⟩ (fun a ha ↦ h.buffered a (.inl ha))
      (hc.anti (fun t ht ↦ (hdone t ht).resolve_right (by simp [htasks])) ?_)
    rw [hset, List.append_nil] at hconf
    exact hconf ▸ List.prefix_rfl

end

end StateMachine

/-! ## Peers -/

namespace Recovery

/-- The pairs are the content of a store that carries the log up to the index. -/
def Snapshot.Carries (cmds : List Command) (snap : Snapshot) : Prop :=
  ∃ db : DB, snap.pairs = db.toList ∧
    Z4.Carries cmds (tasksOf (cmds.take snap.index)) (configsOf (cmds.take snap.index)) db

structure Peer.Follows (cmds : List Command) (x : Peer) : Prop where
  kept : x.Kept cmds
  machine : x.machine.Follows cmds
  taken : ∀ snap ∈ x.taken, snap.Carries cmds
  persisted : ∀ snap ∈ x.persisted, snap.Carries cmds

variable {ι : Type}

/-- The storage call of the step succeeds, and no buffered ack is dropped with its task there. -/
def Sound (cmds : List Command) (peers : ι → Peer) (e : Event ι) : Prop :=
  Safe cmds peers e ∧ match e with
    | .apply _ e => e.Succeeds
    | _ => True

instance (cmds : List Command) (peers : ι → Peer) : (e : Event ι) → Decidable (Sound cmds peers e)
  | .apply _ e => inferInstanceAs (Decidable (_ ∧ e.Succeeds))
  | .snapshot _ | .persist _ | .close _ | .crash _ | .restore _ _ =>
    inferInstanceAs (Decidable (_ ∧ True))

section

variable {cmds : List Command} {x : Peer}

theorem follows_init (cmds : List Command) : Peer.Follows cmds {} :=
  ⟨kept_init cmds, StateMachine.follows_init cmds, by simp, by simp⟩

theorem snapshot_carries {s : StateMachine} (h : s.Follows cmds) : (Snapshot.of s).Carries cmds :=
  ⟨s.db, rfl, h.carries_applied le_rfl⟩

/-- The store is at least as far as the snapshot the log is applied from. -/
theorem restart_follows (h : x.Follows cmds) : x.restart.machine.Follows cmds := by
  refine StateMachine.follows_idle rfl ⟨rfl, rfl, rfl⟩ (by simp [Peer.restart])
    (h.machine.carries_applied ?_)
  cases hp : x.persisted with
  | none => simp [Peer.restart, hp]
  | some snap => simpa [Peer.restart, hp] using (h.kept.persisted snap hp).2

theorem restore_follows (h : x.Follows cmds) {snap : Snapshot} (hsnap : snap.Carries cmds)
    (hsize : x.machine.size = 0) : (x.restore snap).machine.Follows cmds := by
  obtain ⟨db, hpairs, hcarries⟩ := hsnap
  refine StateMachine.follows_idle hsize (h.machine.idle hsize)
    (fun a ha ↦ h.machine.buffered a (.inl ha)) ?_
  have hold := h.machine.carries_applied (Nat.zero_le _)
  simpa [Peer.restore, hpairs] using hcarries.restorePairs hold

end

variable [DecidableEq ι]

section

variable {cmds : List Command} {peers peers' : ι → Peer}

theorem follows_step (hlog : WellOrdered cmds) (hkeys : KeysFaithful cmds) {e : Event ι}
    (h : ∀ p, (peers p).Follows cmds) (hok : Sound cmds peers e)
    (hs : step cmds peers e = some peers') : ∀ p, (peers' p).Follows cmds := by
  have hkept := kept_step hlog hkeys (fun p ↦ (h p).kept) hok.1 hs
  -- only the peer that takes the step changes
  have hupdate : ∀ {p : ι} {x : Peer}, peers' = Function.update peers p x →
      (x.machine.Follows cmds ∧ (∀ snap ∈ x.taken, snap.Carries cmds) ∧
        ∀ snap ∈ x.persisted, snap.Carries cmds) → ∀ r, (peers' r).Follows cmds := by
    rintro p x hx ⟨hm, ht, hp⟩ r
    by_cases hr : r = p
    · have hxr : peers' r = x := by rw [hx, hr, Function.update_self]
      exact ⟨hkept r, hxr ▸ hm, hxr ▸ ht, hxr ▸ hp⟩
    · have hxr : peers' r = peers r := by rw [hx, Function.update_of_ne hr]
      exact hxr ▸ h r
  cases e with
  | apply p e =>
    obtain ⟨machine, hm, rfl⟩ := Option.map_eq_some_iff.mp hs
    exact hupdate rfl
      ⟨(h p).machine.step hlog hkeys hok.2 hm, (h p).taken, (h p).persisted⟩
  | snapshot p =>
    rw [step] at hs
    split at hs
    · refine hupdate (Option.some.inj hs).symm ⟨(h p).machine, fun snap hsnap ↦ ?_, (h p).persisted⟩
      exact Option.some.inj hsnap ▸ snapshot_carries (h p).machine
    · simp at hs
  | persist p =>
    obtain ⟨snap, hsnap, rfl⟩ := Option.map_eq_some_iff.mp hs
    refine hupdate rfl ⟨(h p).machine, by simp, fun snap' hsnap' ↦ ?_⟩
    exact Option.some.inj hsnap' ▸ (h p).taken snap hsnap
  | close p | crash p =>
    exact hupdate (Option.some.inj hs).symm
      ⟨restart_follows (h p), by simp [Peer.restart], (h p).persisted⟩
  | restore p q =>
    rw [step] at hs
    split at hs
    · simp at hs
    · rename_i snap hsnap
      split at hs
      · rename_i hc
        have hcarries := (h q).persisted snap hsnap
        refine hupdate (Option.some.inj hs).symm
          ⟨restore_follows (h p) hcarries hc.1, (h p).taken, fun snap' hsnap' ↦ ?_⟩
        exact Option.some.inj hsnap' ▸ hcarries
      · simp at hs

end

/-- **Recovery refines the sequential log.** Whatever batches, crashes, restarts, snapshots and
restores the peers of a cluster go through, a peer that has caught up with the log holds, after a
last flush, what the log leads to. -/
theorem realizes_of_sound {cmds : List Command} {peers : ι → Peer} {es : List (Event ι)}
    (hlog : WellOrdered cmds) (hkeys : KeysFaithful cmds)
    (hok : Runs.Meets (step cmds) (Sound cmds) (fun _ ↦ {}) es)
    (hrun : Runs.run (step cmds) (fun _ ↦ {}) es = some peers) (p : ι)
    (happlied : (peers p).machine.applied = cmds.length) :
    Realizes cmds (flushTick (peers p).machine.ackBuffer (peers p).machine.db true).2 := by
  have h : (peers p).Follows cmds :=
    Runs.Meets.invariant (fun _ _ _ h hok hs ↦ follows_step hlog hkeys h hok hs)
      (fun _ ↦ follows_init cmds) hok hrun p
  have hcarries := h.machine.carries_applied le_rfl
  rw [happlied, List.take_length] at hcarries
  rw [snd_flushTick, ticked, if_pos rfl]
  refine (hcarries.deleteAll hkeys (fun t ht ↦ ht) fun a ha ↦
    h.machine.buffered a (.inl ha)).realizes ?_
  rintro t ht ⟨a, ha, hat⟩
  rcases h.kept.machine.applied a (by rwa [happlied, List.take_length]) t ht hat with habs | hin
  · exact StateMachine.absent_deleteAll _ habs
  · exact StateMachine.absent_deleteAll_of_mem hkeys hin ha ht hat

/-- A crash after the ack was flushed, with a snapshot from before the task: the task is saved again
and its ack applied again. A second peer starts from the snapshot. -/
theorem realizes_of_sound_replay : ∃ peers : Bool → Peer,
    Runs.run (step pushAndAck) (fun _ ↦ {})
      (([.snapshot true, .persist true] : List (Event Bool)) ++
      (saveThenAck.map fun | .apply _ e => (.apply true e : Event Bool) | _ => .crash true) ++
      ([.apply true (.flushTick true), .crash true, .restore false true,
        .apply true (.applyBatch 1), .apply true (.push true true), .apply true .reply,
        .apply true (.applyBatch 1), .apply true (.acknowledge true), .apply true .reply] :
        List (Event Bool)))
      = some peers ∧
    Realizes pushAndAck
      (flushTick (peers true).machine.ackBuffer (peers true).machine.db true).2 := by
  have hrealizes : ∀ es : List (Event Bool),
      Runs.Meets (step pushAndAck) (Sound pushAndAck) (fun _ ↦ {}) es →
      (Runs.run (step pushAndAck) (fun _ ↦ {}) es).map (fun peers ↦ (peers true).machine.applied)
        = some 2 →
      ∃ peers, Runs.run (step pushAndAck) (fun _ ↦ {}) es = some peers ∧ Realizes pushAndAck
        (flushTick (peers true).machine.ackBuffer (peers true).machine.db true).2 := by
    intro es hok happlied
    obtain ⟨peers, hrun, hlength⟩ := Option.map_eq_some_iff.mp happlied
    exact ⟨peers, hrun, realizes_of_sound wellOrdered_pushAndAck keysFaithful_pushAndAck hok hrun
      true hlength⟩
  exact hrealizes _ (by decide +kernel) (by decide +kernel)

end Recovery

end Z4
