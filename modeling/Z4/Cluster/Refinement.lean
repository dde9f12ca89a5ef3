import Z4.Cluster.AckedLog

/-!
# Batches refine the sequential log

Raft gives every peer the same log, but each peer cuts it into batches in its own way, and within a
batch the groups are applied concurrently. The log applied one entry at a time, with every ack
deleting at once, is `sequential`. What it leads to is described by `Realizes`: the task records are
the tasks that were saved and not acked, and the config of a queue is the last one saved.

A machine that applies the log in batches ends in the same place, after its buffer has been flushed,
provided that no step flushes an ack before its task is saved, `StateMachine.Ordered`. So two peers
that cut the log differently agree.

## The invariant

`AcksKept` says that no ack is forgotten, and `Tracks` the rest: only acked tasks are missing, only
tasks of the log are present, and the configs saved so far are the first ones of the log.
-/

namespace Z4

open KeyValue

/-! ## What a log leads to -/

/-- The last config for a queue. -/
def lastConfig (configs : List QueueConfig) (q : GoString) : Option QueueConfig :=
  (configs.filter (·.id = q)).getLast?

/-- The task has been acked. -/
def Acked (cmds : List Command) (t : Task) : Prop := ∃ a ∈ acksOf cmds, a.reference = t.reference

instance (cmds : List Command) (t : Task) : Decidable (Acked cmds t) :=
  inferInstanceAs (Decidable (∃ a ∈ acksOf cmds, a.reference = t.reference))

/-- The store holds what the log leads to. -/
structure Realizes (cmds : List Command) (db : DB) : Prop where
  tasks : ∀ k v, IsTaskKey k → (db[k]? = some v ↔
    ∃ t ∈ tasksOf cmds, v = .task t ∧ recordKey t = some k ∧ ¬Acked cmds t)
  configs : ∀ q, db[getConfigKey q]? = (lastConfig (configsOf cmds) q).map .config

/-- The outcome is determined: two stores that realize a log agree on every task and config. -/
theorem Realizes.agree {cmds : List Command} {db db' : DB} (h : Realizes cmds db)
    (h' : Realizes cmds db') :
    (∀ k, IsTaskKey k → db[k]? = db'[k]?) ∧ ∀ q, db[getConfigKey q]? = db'[getConfigKey q]? := by
  refine ⟨fun k hk ↦ Option.ext fun v ↦ ?_, fun q ↦ ?_⟩
  · rw [h.tasks k v hk, h'.tasks k v hk]
  · rw [h.configs, h'.configs]

theorem lastConfig_concat (cs : List QueueConfig) (c : QueueConfig) (q : GoString) :
    lastConfig (cs ++ [c]) q = if c.id = q then some c else lastConfig cs q := by
  rw [lastConfig, lastConfig, List.filter_append]
  by_cases hc : c.id = q <;> simp [hc]

theorem getElem?_saveSettings_config (c : QueueConfig) (db : DB) (q : GoString) :
    (saveSettings c db)[getConfigKey q]?
      = if c.id = q then some (.config c) else db[getConfigKey q]? := by
  rw [getElem?_saveSettings]
  simp only [getConfigKey_inj]

/-! ## The sequential log -/

section

variable {cmds : List Command} {c : Command} {si : Bool} {db db' : DB}

/-- One entry applied at once. -/
def applyEntry (saveIndex : Bool) (db : DB) : Command → Option DB
  | .task t => saveAll [t] saveIndex db
  | .ack a => some (deleteAll [a] db)
  | .queue c => some (saveSettings c db)

/-- The log applied to an empty store, entry by entry. -/
def sequential (saveIndex : Bool) (cmds : List Command) : Option DB :=
  cmds.foldlM (applyEntry saveIndex) ∅

theorem WellOrdered.of_append {l m : List Command} (h : WellOrdered (l ++ m)) : WellOrdered l where
  saved_once := by
    have := h.saved_once
    rw [tasksOf_append, List.map_append] at this
    exact this.of_append_left
  acked_later i hi a ha t ht := by
    refine h.reference_ne (i := i) ?_ ?_
    · rwa [List.take_append_of_le_length hi]
    · rw [List.drop_append_of_le_length hi, tasksOf_append]
      exact List.mem_append_left _ ht

theorem KeysFaithful.of_append {l m : List Command} (h : KeysFaithful (l ++ m)) :
    KeysFaithful l where
  task t ht u hu := h.task t (tasksOf_append l m ▸ List.mem_append_left _ ht) u
    (tasksOf_append l m ▸ List.mem_append_left _ hu)
  ack a ha t ht := h.ack a (acksOf_append l m ▸ List.mem_append_left _ ha) t
    (tasksOf_append l m ▸ List.mem_append_left _ ht)

theorem realizes_nil : Realizes [] ∅ where
  tasks k v _ := by simp [tasksOf]
  configs q := by simp [configsOf, lastConfig]

theorem getElem?_saveAll_singleton {t : Task} (h : saveAll [t] si db = some db') {k : Key}
    (hk : IsTaskKey k) :
    db'[k]? = if recordKey t = some k then some (.task t) else db[k]? := by
  rw [getElem?_saveAll_task h hk]
  by_cases ht : recordKey t = some k <;> simp [ht]

theorem Realizes.task {t : Task} (h : Realizes cmds db) (hlog : WellOrdered (cmds ++ [.task t]))
    (hkeys : KeysFaithful (cmds ++ [.task t])) (hsave : saveAll [t] si db = some db') :
    Realizes (cmds ++ [.task t]) db' := by
  have htasks : tasksOf (cmds ++ [.task t]) = tasksOf cmds ++ [t] := tasksOf_append ..
  have hacks : acksOf (cmds ++ [.task t]) = acksOf cmds := by
    rw [acksOf_append]
    exact List.append_nil _
  have hacked : ∀ u, Acked (cmds ++ [.task t]) u ↔ Acked cmds u := fun u ↦ by
    rw [Acked, hacks, Acked]
  have hnew : ¬Acked cmds t := by
    rintro ⟨a, ha, hat⟩
    refine hlog.reference_ne (i := cmds.length) ?_ ?_ hat
    · rwa [List.take_left]
    · rw [List.drop_left]
      exact List.mem_singleton_self t
  have hmem : t ∈ tasksOf (cmds ++ [.task t]) := htasks ▸ by simp
  refine ⟨fun k v hk ↦ ?_, fun q ↦ ?_⟩
  · rw [getElem?_saveAll_singleton hsave hk]
    simp only [hacked]
    split
    · rename_i htk
      rw [Option.some.injEq]
      refine ⟨fun hv ↦ ⟨t, hmem, hv.symm, htk, hnew⟩, ?_⟩
      rintro ⟨u, hu, rfl, huk, -⟩
      rw [hlog.eq_of_reference_eq hu hmem (hkeys.task u hu t hmem k huk htk)]
    · rename_i htk
      rw [h.tasks k v hk, htasks]
      refine exists_congr fun u ↦ and_congr_left fun ⟨_, huk, _⟩ ↦ ?_
      rw [List.mem_append, List.mem_singleton]
      exact ⟨.inl, fun hu ↦ hu.resolve_right fun hut ↦ htk (hut ▸ huk)⟩
  · rw [getElem?_saveAll_config hsave, h.configs, configsOf_append]
    exact congrArg (fun l ↦ (lastConfig l q).map Value.config) (List.append_nil _).symm

theorem Realizes.ack {a : Ack} (h : Realizes cmds db) (hkeys : KeysFaithful (cmds ++ [.ack a])) :
    Realizes (cmds ++ [.ack a]) (deleteAll [a] db) := by
  have htasks : tasksOf (cmds ++ [.ack a]) = tasksOf cmds := by
    rw [tasksOf_append]
    exact List.append_nil _
  have hacks : acksOf (cmds ++ [.ack a]) = acksOf cmds ++ [a] := acksOf_append ..
  have hacked : ∀ t, Acked (cmds ++ [.ack a]) t ↔ Acked cmds t ∨ a.reference = t.reference := by
    intro t
    simp only [Acked, hacks, List.mem_append, List.mem_singleton, or_and_right, exists_or,
      exists_eq_left]
  have hkey : ∀ t ∈ tasksOf cmds, ∀ k ∈ recordKey t,
      (ackKey a = some k ↔ a.reference = t.reference) :=
    fun t ht ↦ hkeys.ack a (hacks ▸ by simp) t (htasks ▸ ht)
  refine ⟨fun k v hk ↦ ?_, fun q ↦ ?_⟩
  · rw [getElem?_deleteAll]
    simp only [List.mem_singleton, exists_eq_left, hacked, htasks, not_or]
    split
    · rename_i hak
      refine iff_of_false (by simp) ?_
      rintro ⟨t, ht, -, htk, -, hne⟩
      exact hne ((hkey t ht k htk).mp hak)
    · rename_i hak
      rw [h.tasks k v hk]
      refine exists_congr fun t ↦ and_congr_right fun ht ↦ and_congr_right fun _ ↦
        and_congr_right fun htk ↦ ?_
      exact (and_iff_left fun hat ↦ hak ((hkey t ht k htk).mpr hat)).symm
  · rw [getElem?_deleteAll_of_not_isTaskKey _ _ (not_isTaskKey_config q), h.configs,
      configsOf_append]
    exact congrArg (fun l ↦ (lastConfig l q).map Value.config) (List.append_nil _).symm

theorem Realizes.queue {c : QueueConfig} (h : Realizes cmds db) :
    Realizes (cmds ++ [.queue c]) (saveSettings c db) := by
  have htasks : tasksOf (cmds ++ [.queue c]) = tasksOf cmds := by
    rw [tasksOf_append]
    exact List.append_nil _
  have hacks : acksOf (cmds ++ [.queue c]) = acksOf cmds := by
    rw [acksOf_append]
    exact List.append_nil _
  refine ⟨fun k v hk ↦ ?_, fun q ↦ ?_⟩
  · simp only [Acked, htasks, hacks]
    rw [getElem?_saveSettings, if_neg]
    · exact h.tasks k v hk
    · rintro rfl
      exact not_isTaskKey_config c.id hk
  · have hconfigs : configsOf (cmds ++ [.queue c]) = configsOf cmds ++ [c] := configsOf_append ..
    rw [getElem?_saveSettings_config, hconfigs, lastConfig_concat, h.configs]
    split <;> rfl

/-- The sequential log leads to what `Realizes` describes. -/
theorem realizes_sequential (hlog : WellOrdered cmds) (hkeys : KeysFaithful cmds)
    (h : sequential si cmds = some db) : Realizes cmds db := by
  induction cmds using List.reverseRecOn generalizing db with
  | nil => exact Option.some.inj h ▸ realizes_nil
  | append_singleton cmds c ih =>
    rw [sequential, List.foldlM_append, Option.bind_eq_bind, Option.bind_eq_some_iff] at h
    obtain ⟨db₁, h₁, h₂⟩ := h
    have hstep : applyEntry si db₁ c = some db := by simpa using h₂
    have hreal := ih hlog.of_append hkeys.of_append h₁
    cases c with
    | task t => exact hreal.task hlog hkeys hstep
    | ack a => exact Option.some.inj hstep ▸ hreal.ack hkeys
    | queue c => exact Option.some.inj hstep ▸ hreal.queue

end

namespace StateMachine

/-! ## The invariant -/

/-- How much of the log the machine has applied or begun to apply. -/
def reached (cmds : List Command) (s : StateMachine) : List Command :=
  cmds.take (s.applied + s.size)

/-- What the store holds of the log, apart from acks that were forgotten. -/
structure Tracks (cmds : List Command) (s : StateMachine) : Prop where
  idle : s.size = 0 → s.Done
  pending : ∀ t ∈ s.tasks, t ∈ tasksOf (s.reached cmds)
  buffered : ∀ a, a ∈ s.ackBuffer ∨ a ∈ s.acks → a ∈ acksOf (s.reached cmds)
  stored : ∀ t ∈ tasksOf (s.reached cmds), t ∉ s.tasks → ¬Acked (s.reached cmds) t →
    ∀ k ∈ recordKey t, s.db[k]? = some (.task t)
  known : ∀ k v, IsTaskKey k → s.db[k]? = some v →
    ∃ t ∈ tasksOf (s.reached cmds), v = .task t ∧ recordKey t = some k
  configs : ∃ saved, configsOf (s.reached cmds) = saved ++ s.settings ∧
    ∀ q, s.db[getConfigKey q]? = (lastConfig saved q).map .config

theorem tracks_init (cmds : List Command) : Tracks cmds {} where
  idle _ := ⟨rfl, rfl, rfl⟩
  pending t ht := by simp at ht
  buffered a ha := by simp at ha
  stored t ht := by simp [reached, tasksOf] at ht
  known k v _ h := by simp at h
  configs := ⟨[], by simp [reached, configsOf], fun q ↦ by simp [lastConfig]⟩

section

variable {cmds : List Command} {s s' : StateMachine}

theorem reached_append (h : s.size = 0) {b : List Command}
    (hb : b = batch cmds s.applied b.length) :
    cmds.take (s.applied + b.length) = s.reached cmds ++ b := by
  rw [reached, h, Nat.add_zero, List.take_add]
  exact congrArg _ hb.symm

theorem mem_of_reached {t : Task} (h : t ∈ tasksOf (s.reached cmds)) : t ∈ tasksOf cmds :=
  mem_tasksOf.mpr (List.mem_of_mem_take (mem_tasksOf.mp h))

theorem mem_acksOf_of_reached {a : Ack} (h : a ∈ acksOf (s.reached cmds)) : a ∈ acksOf cmds :=
  mem_acksOf_of_take h

theorem Tracks.applyBatch (h : Tracks cmds s) (hsize : s.size = 0) {b : List Command}
    (hb : b = batch cmds s.applied b.length) :
    Tracks cmds { s with
      size := b.length, settings := configsOf b, tasks := tasksOf b, acks := acksOf b
      groupErr := none, settingsErr := none, tasksErr := none } := by
  have hreach : reached cmds { s with
      size := b.length, settings := configsOf b, tasks := tasksOf b, acks := acksOf b
      groupErr := none, settingsErr := none, tasksErr := none } = s.reached cmds ++ b :=
    reached_append hsize hb
  obtain ⟨hset, htasks, hacks⟩ := h.idle hsize
  refine ⟨fun h0 ↦ ?_, fun t ht ↦ ?_, fun a ha ↦ ?_, fun t ht hnot hack ↦ ?_,
    fun k v hk hv ↦ ?_, ?_⟩
  · obtain rfl : b = [] := List.length_eq_zero_iff.mp h0
    exact ⟨rfl, rfl, rfl⟩
  · rw [hreach, tasksOf_append]
    exact List.mem_append_right _ ht
  · rw [hreach, acksOf_append, List.mem_append]
    exact ha.imp_left fun hin ↦ h.buffered a (.inl hin)
  · rw [hreach, tasksOf_append, List.mem_append] at ht
    refine h.stored t (ht.resolve_right hnot) (by simp [htasks])
      fun ⟨a, ha, hat⟩ ↦ hack ⟨a, ?_, hat⟩
    rw [hreach, acksOf_append]
    exact List.mem_append_left _ ha
  · obtain ⟨t, ht, hvt⟩ := h.known k v hk hv
    rw [hreach, tasksOf_append]
    exact ⟨t, List.mem_append_left _ ht, hvt⟩
  · obtain ⟨saved, hsaved, hget⟩ := h.configs
    refine ⟨saved, ?_, hget⟩
    rw [hreach, configsOf_append, hsaved, hset, List.append_nil]

theorem Tracks.saveSetting (h : Tracks cmds s) {c : QueueConfig} {cs : List QueueConfig}
    (hcs : s.settings = c :: cs) :
    Tracks cmds { s with db := saveSettings c s.db, settings := cs } := by
  have hget : ∀ {k : Key}, IsTaskKey k → (saveSettings c s.db)[k]? = s.db[k]? := by
    intro k hk
    rw [getElem?_saveSettings, if_neg]
    rintro rfl
    exact not_isTaskKey_config c.id hk
  refine ⟨fun h0 ↦ ?_, h.pending, h.buffered, fun t ht hnot hack k hk ↦ ?_, fun k v hk hv ↦ ?_, ?_⟩
  · have := (h.idle h0).1
    rw [hcs] at this
    simp at this
  · rw [hget (isTaskKey_recordKey hk)]
    exact h.stored t ht hnot hack k hk
  · rw [hget hk] at hv
    exact h.known k v hk hv
  · obtain ⟨saved, hsaved, hconf⟩ := h.configs
    refine ⟨saved ++ [c], ?_, fun q ↦ ?_⟩
    · rw [List.append_assoc, List.singleton_append, ← hcs]
      exact hsaved
    · rw [getElem?_saveSettings_config, lastConfig_concat, hconf]
      split <;> rfl

theorem Tracks.push (h : Tracks cmds s) (hlog : WellOrdered cmds) (hkeys : KeysFaithful cmds)
    {si : Bool} {db : DB} (hsave : saveAll s.tasks si s.db = some db) :
    Tracks cmds { s with db, tasks := [] } := by
  refine ⟨fun h0 ↦ ⟨(h.idle h0).1, rfl, (h.idle h0).2.2⟩, by simp, h.buffered,
    fun t ht _ hack k hk ↦ ?_, fun k v hk hv ↦ ?_, ?_⟩
  · rw [getElem?_saveAll_task hsave (isTaskKey_recordKey hk)]
    cases hlast : (s.tasks.filter (recordKey · = some k)).getLast? with
    | none =>
      have hnot : t ∉ s.tasks := by
        intro hin
        rw [List.getLast?_eq_none_iff] at hlast
        exact List.not_mem_nil (hlast ▸ List.mem_filter.mpr ⟨hin, by simpa using hk⟩)
      exact h.stored t ht hnot hack k hk
    | some u =>
      -- the saved task with this key is the one we are looking for: ids are saved once
      obtain ⟨hu, huk⟩ := List.mem_filter.mp (List.mem_of_getLast? hlast)
      have huc := mem_of_reached (h.pending u hu)
      have htc := mem_of_reached ht
      have hut : u.reference = t.reference := hkeys.task u huc t htc k (by simpa using huk) hk
      rw [hlog.eq_of_reference_eq huc htc hut]
      rfl
  · obtain ⟨u, hu, hrecord⟩ | hv := record_of_saveAll hsave hk hv
    · exact ⟨u, h.pending u hu, hrecord⟩
    · exact h.known k v hk hv
  · obtain ⟨saved, hsaved, hconf⟩ := h.configs
    refine ⟨saved, hsaved, fun q ↦ ?_⟩
    rw [getElem?_saveAll_config hsave]
    exact hconf q

theorem Tracks.flush (h : Tracks cmds s) (hkeys : KeysFaithful cmds)
    {deleted buffer acks : List Ack}
    (hdel : ∀ a ∈ deleted, a ∈ s.ackBuffer ∨ a ∈ s.acks)
    (hbuf : ∀ a, a ∈ buffer ∨ a ∈ acks → a ∈ s.ackBuffer ∨ a ∈ s.acks)
    (hacks : s.acks = [] → acks = []) :
    Tracks cmds { s with ackBuffer := buffer, acks, db := deleteAll deleted s.db } := by
  refine ⟨fun h0 ↦ ⟨(h.idle h0).1, (h.idle h0).2.1, hacks (h.idle h0).2.2⟩, h.pending,
    fun a ha ↦ h.buffered a (hbuf a ha), fun t ht hnot hack k hk ↦ ?_, fun k v hk hv ↦ ?_, ?_⟩
  · rw [getElem?_deleteAll, if_neg]
    · exact h.stored t ht hnot hack k hk
    · -- only acks of the task itself could delete it
      rintro ⟨a, ha, hak⟩
      have hin := h.buffered a (hdel a ha)
      exact hack ⟨a, hin,
        (hkeys.ack a (mem_acksOf_of_reached hin) t (mem_of_reached ht) k hk).mp hak⟩
  · rw [getElem?_deleteAll] at hv
    split at hv
    · simp at hv
    · exact h.known k v hk hv
  · obtain ⟨saved, hsaved, hconf⟩ := h.configs
    refine ⟨saved, hsaved, fun q ↦ ?_⟩
    rw [getElem?_deleteAll_of_not_isTaskKey _ _ (not_isTaskKey_config q)]
    exact hconf q

/-- The storage call of the step succeeds. -/
def Event.Succeeds : Event → Prop
  | .saveSetting ok | .push _ ok | .acknowledge ok | .flushTick ok => ok = true
  | .applyBatch _ | .reply => True

instance : (e : Event) → Decidable e.Succeeds
  | .saveSetting _ | .push _ _ | .acknowledge _ | .flushTick _ =>
    inferInstanceAs (Decidable (_ = _))
  | .applyBatch _ | .reply => inferInstanceAs (Decidable True)

theorem Tracks.step (hlog : WellOrdered cmds) (hkeys : KeysFaithful cmds) {e : Event}
    (h : Tracks cmds s) (hok : e.Succeeds) (hs : step (logOf cmds) s e = some s') :
    Tracks cmds s' := by
  cases e with
  | applyBatch n =>
    obtain ⟨hsize, b, hb, rfl⟩ := step_applyBatch_logOf hs
    exact h.applyBatch hsize hb
  | saveSetting ok =>
    obtain rfl : ok = true := hok
    obtain ⟨c, cs, hcs, ⟨-, rfl⟩ | ⟨hc, -⟩⟩ := step_saveSetting hs
    · exact h.saveSetting hcs
    · simp at hc
  | push si ok =>
    obtain rfl : ok = true := hok
    obtain ⟨-, db, hdb, rfl⟩ | ⟨hc, -⟩ := step_push hs
    · exact h.push hlog hkeys hdb
    · simp at hc
  | acknowledge ok =>
    obtain ⟨buffer, hsplit, rfl⟩ := step_acknowledge hs
    have hmem : ∀ a, a ∈ s.flushed (.acknowledge ok) ∨ a ∈ buffer → a ∈ s.ackBuffer ∨ a ∈ s.acks :=
      fun a ha ↦ by rwa [← List.mem_append, ← hsplit, List.mem_append]
    exact h.flush hkeys (fun a ha ↦ hmem a (.inl ha)) (fun a ha ↦ hmem a (.inr (by simpa using ha)))
      fun _ ↦ rfl
  | flushTick ok =>
    obtain ⟨buffer, hsplit, rfl⟩ := step_flushTick hs
    have hmem : ∀ a, a ∈ s.flushed (.flushTick ok) ∨ a ∈ buffer → a ∈ s.ackBuffer :=
      fun a ha ↦ by rwa [← List.mem_append, hsplit] at ha
    exact h.flush hkeys (fun a ha ↦ .inl (hmem a (.inl ha)))
      (fun a ha ↦ ha.imp_left fun hb ↦ hmem a (.inr hb)) id
  | reply =>
    obtain ⟨hdone, rfl⟩ := step_reply hs
    exact ⟨fun _ ↦ hdone, h.pending, h.buffered, h.stored, h.known, h.configs⟩

/-- A machine that has applied the whole log and lost no ack realizes it with its next flush. -/
theorem Tracks.realizes (hkeys : KeysFaithful cmds) (h : Tracks cmds s) (hkept : AcksKept cmds s)
    (happlied : s.applied = cmds.length) (hsize : s.size = 0) :
    Realizes cmds (Z4.flushTick s.ackBuffer s.db true).2 := by
  have hreach : s.reached cmds = cmds := by rw [reached, happlied, hsize, Nat.add_zero,
    List.take_length]
  obtain ⟨hset, htasks, hacks⟩ := h.idle hsize
  obtain ⟨-, -, hbuf, hstored, hknown, saved, hsaved, hconf⟩ := h
  rw [hreach] at hbuf hstored hknown hsaved
  rw [snd_flushTick, ticked, if_pos rfl]
  refine ⟨fun k v hk ↦ ⟨fun hv ↦ ?_, ?_⟩, fun q ↦ ?_⟩
  · rw [getElem?_deleteAll] at hv
    split at hv
    · simp at hv
    · rename_i hnone
      obtain ⟨t, ht, rfl, htk⟩ := hknown k v hk hv
      refine ⟨t, ht, rfl, htk, ?_⟩
      -- an acked task is gone already, or its ack is in the buffer and deletes it now
      rintro ⟨a, ha, hat⟩
      rcases hkept.applied a (by rwa [happlied, List.take_length]) t ht hat with habs | hin
      · rw [habs k htk] at hv
        simp at hv
      · exact hnone ⟨a, hin, (hkeys.ack a ha t ht k htk).mpr hat⟩
  · rintro ⟨t, ht, rfl, htk, hack⟩
    rw [getElem?_deleteAll, if_neg]
    · exact hstored t ht (by simp [htasks]) hack k htk
    · rintro ⟨a, ha, hak⟩
      have hin := hbuf a (.inl ha)
      exact hack ⟨a, hin, (hkeys.ack a hin t ht k htk).mp hak⟩
  · rw [getElem?_deleteAll_of_not_isTaskKey _ _ (not_isTaskKey_config q), hconf, hsaved, hset,
      List.append_nil]

/-- A run in which every storage call succeeds and no ack overtakes its task. -/
def InOrder (s : StateMachine) (e : Event) : Prop := e.Succeeds ∧ s.Ordered e

instance (s : StateMachine) (e : Event) : Decidable (s.InOrder e) :=
  inferInstanceAs (Decidable (_ ∧ _))

theorem Tracks.run (hlog : WellOrdered cmds) (hkeys : KeysFaithful cmds) {es : List Event}
    (hok : Runs.Meets (StateMachine.step (logOf cmds)) InOrder {} es)
    (hrun : Runs.run (StateMachine.step (logOf cmds)) {} es = some s) :
    Tracks cmds s ∧ AcksKept cmds s :=
  Runs.Meets.invariant (P := fun s ↦ Tracks cmds s ∧ AcksKept cmds s)
    (fun _ _ _ h hok hs ↦ ⟨h.1.step hlog hkeys hok.1 hs, h.2.step hlog hkeys hok.2 hs⟩)
    ⟨tracks_init cmds, acksKept_init cmds⟩ hok hrun

end

/-! ## The refinement -/

/-- **Batches refine the sequential log.** However the log is cut into batches and however the
goroutines and the ticks are scheduled, if the storage calls succeed and no ack is flushed before
its task is saved, then after a last flush the store holds what the log leads to. -/
theorem realizes_of_inOrder {cmds : List Command} {s : StateMachine} {es : List Event}
    (hlog : WellOrdered cmds) (hkeys : KeysFaithful cmds)
    (hok : Runs.Meets (StateMachine.step (logOf cmds)) InOrder {} es)
    (hrun : Runs.run (StateMachine.step (logOf cmds)) {} es = some s)
    (happlied : s.applied = cmds.length) (hsize : s.size = 0) :
    Realizes cmds (Z4.flushTick s.ackBuffer s.db true).2 := by
  obtain ⟨htracks, hkept⟩ := Tracks.run hlog hkeys hok hrun
  exact htracks.realizes hkeys hkept happlied hsize

/-- In two batches the ack comes second. -/
theorem realizes_of_inOrder_pushAndAck : ∃ s,
    Runs.run (StateMachine.step (logOf pushAndAck)) {} [.applyBatch 1, .push true true, .reply,
      .applyBatch 1, .acknowledge true, .reply] = some s ∧
    Realizes pushAndAck (Z4.flushTick s.ackBuffer s.db true).2 := by
  have h : (Runs.run (StateMachine.step (logOf pushAndAck)) {} [.applyBatch 1, .push true true,
      .reply, .applyBatch 1, .acknowledge true, .reply]).map (fun s ↦ (s.applied, s.size))
      = some (2, 0) := by decide +kernel
  obtain ⟨s, hs, hd⟩ := Option.map_eq_some_iff.mp h
  exact ⟨s, hs, realizes_of_inOrder wellOrdered_pushAndAck keysFaithful_pushAndAck
    (by decide +kernel) hs (Prod.mk.inj hd).1 (Prod.mk.inj hd).2⟩

/-- In one batch the ack may be flushed first, and then the task stays. -/
theorem not_realizes_overtaken : WellOrdered pushAndAck ∧ KeysFaithful pushAndAck ∧ ∃ s,
    Runs.run (StateMachine.step (logOf pushAndAck)) {} [.applyBatch 2, .acknowledge true,
      .flushTick true, .push true true, .reply] = some s ∧
    s.applied = pushAndAck.length ∧ s.size = 0 ∧
    ¬Realizes pushAndAck (Z4.flushTick s.ackBuffer s.db true).2 := by
  refine ⟨wellOrdered_pushAndAck, keysFaithful_pushAndAck, ?_⟩
  have h : (Runs.run (StateMachine.step (logOf pushAndAck)) {} [.applyBatch 2, .acknowledge true,
      .flushTick true, .push true true, .reply]).map (fun s ↦ decide (s.applied = 2 ∧ s.size = 0 ∧
        ∃ k ∈ recordKey firstTask,
          (Z4.flushTick s.ackBuffer s.db true).2[k]? = some (.task firstTask))) = some true := by
    decide +kernel
  obtain ⟨s, hs, hd⟩ := Option.map_eq_some_iff.mp h
  obtain ⟨happlied, hsize, k, hk, hget⟩ := of_decide_eq_true hd
  refine ⟨s, hs, happlied, hsize, fun hreal ↦ ?_⟩
  obtain ⟨t, -, ht, -, hack⟩ := (hreal.tasks k _ (isTaskKey_recordKey hk)).mp hget
  exact hack ⟨⟨firstTask.reference⟩, by simp [pushAndAck, acksOf, Command.ack?],
    congrArg Task.reference (Value.task.inj ht)⟩

/-- Two peers agree, whatever batches and schedules each of them had. -/
theorem agree_of_inOrder {cmds : List Command} {s s' : StateMachine} {es es' : List Event}
    (hlog : WellOrdered cmds) (hkeys : KeysFaithful cmds)
    (hok : Runs.Meets (StateMachine.step (logOf cmds)) InOrder {} es)
    (hrun : Runs.run (StateMachine.step (logOf cmds)) {} es = some s)
    (hok' : Runs.Meets (StateMachine.step (logOf cmds)) InOrder {} es')
    (hrun' : Runs.run (StateMachine.step (logOf cmds)) {} es' = some s')
    (hs : s.applied = cmds.length ∧ s.size = 0) (hs' : s'.applied = cmds.length ∧ s'.size = 0) :
    (∀ k, IsTaskKey k → (Z4.flushTick s.ackBuffer s.db true).2[k]?
        = (Z4.flushTick s'.ackBuffer s'.db true).2[k]?) ∧
      ∀ q, (Z4.flushTick s.ackBuffer s.db true).2[getConfigKey q]?
        = (Z4.flushTick s'.ackBuffer s'.db true).2[getConfigKey q]? := by
  obtain ⟨htracks, hkept⟩ := Tracks.run hlog hkeys hok hrun
  obtain ⟨htracks', hkept'⟩ := Tracks.run hlog hkeys hok' hrun'
  exact (htracks.realizes hkeys hkept hs.1 hs.2).agree
    (htracks'.realizes hkeys hkept' hs'.1 hs'.2)

end StateMachine

end Z4
