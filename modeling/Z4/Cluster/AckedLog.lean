import Z4.Cluster.StateMachine
import Z4.Api.Push

/-!
# Acks of the log and the store

An ack that has been applied is either in the buffer or has had its effect. `AcksKept` states this
for the part of the log that has been applied and for the batch under way. It is what both the
refinement of the sequential log and the recovery from a snapshot rest on.

## The one race

Within a batch the tasks and the acks are applied by different goroutines. If a task and its ack lie
in one batch, the ack may be flushed before the task is saved, and then the delete finds nothing and
the save comes last. `Ordered` excludes exactly this: no step flushes an ack of a task that the
batch under way has yet to save.
-/

namespace Z4

/-! ## The log -/

/-- Each task id is saved once, and acked only by later entries. -/
structure WellOrdered (cmds : List Command) : Prop where
  saved_once : ((tasksOf cmds).map Task.reference).Nodup
  acked_later : ∀ i ≤ cmds.length, ∀ a ∈ acksOf (cmds.take i), ∀ t ∈ tasksOf (cmds.drop i),
    a.reference ≠ t.reference

/-- The keys tell the tasks of the log apart, and an ack's key is that of the task it names. -/
structure KeysFaithful (cmds : List Command) : Prop where
  task : ∀ t ∈ tasksOf cmds, ∀ u ∈ tasksOf cmds, ∀ k ∈ recordKey t, recordKey u = some k →
    t.reference = u.reference
  ack : ∀ a ∈ acksOf cmds, ∀ t ∈ tasksOf cmds, ∀ k ∈ recordKey t,
    (ackKey a = some k ↔ a.reference = t.reference)

instance (cmds : List Command) : Decidable (WellOrdered cmds) :=
  decidable_of_iff (((tasksOf cmds).map Task.reference).Nodup ∧
      ∀ i ≤ cmds.length, ∀ a ∈ acksOf (cmds.take i), ∀ t ∈ tasksOf (cmds.drop i),
        a.reference ≠ t.reference)
    ⟨fun h ↦ ⟨h.1, h.2⟩, fun h ↦ ⟨h.1, h.2⟩⟩

instance (cmds : List Command) : Decidable (KeysFaithful cmds) :=
  decidable_of_iff ((∀ t ∈ tasksOf cmds, ∀ u ∈ tasksOf cmds, ∀ k ∈ recordKey t,
        recordKey u = some k → t.reference = u.reference) ∧
      ∀ a ∈ acksOf cmds, ∀ t ∈ tasksOf cmds, ∀ k ∈ recordKey t,
        (ackKey a = some k ↔ a.reference = t.reference))
    ⟨fun h ↦ ⟨h.1, h.2⟩, fun h ↦ ⟨h.1, h.2⟩⟩

section

variable {cmds : List Command}

theorem WellOrdered.eq_of_reference_eq (h : WellOrdered cmds) {t u : Task} (ht : t ∈ tasksOf cmds)
    (hu : u ∈ tasksOf cmds) (htu : t.reference = u.reference) : t = u :=
  List.inj_on_of_nodup_map h.saved_once ht hu htu

/-- At whatever point the log is cut, no ack in front names a task behind. -/
theorem WellOrdered.reference_ne (h : WellOrdered cmds) {i : ℕ} {a : Ack} {t : Task}
    (ha : a ∈ acksOf (cmds.take i)) (ht : t ∈ tasksOf (cmds.drop i)) :
    a.reference ≠ t.reference := by
  by_cases hi : i ≤ cmds.length
  · exact h.acked_later i hi a ha t ht
  · rw [List.drop_eq_nil_of_le (by omega)] at ht
    simp [tasksOf] at ht

theorem mem_tasksOf_of_batch {i n : ℕ} {t : Task}
    (h : t ∈ tasksOf (StateMachine.batch cmds i n)) : t ∈ tasksOf (cmds.drop i) :=
  mem_tasksOf.mpr (List.mem_of_mem_take (mem_tasksOf.mp h))

theorem mem_tasksOf_of_drop {i : ℕ} {t : Task} (h : t ∈ tasksOf (cmds.drop i)) :
    t ∈ tasksOf cmds :=
  mem_tasksOf.mpr (List.mem_of_mem_drop (mem_tasksOf.mp h))

end

/-- A task and its ack. -/
def pushAndAck : List Command := [.task firstTask, .ack ⟨firstTask.reference⟩]

theorem wellOrdered_pushAndAck : WellOrdered pushAndAck := by decide +kernel

theorem keysFaithful_pushAndAck : KeysFaithful pushAndAck := by decide +kernel

/-! ## Acks that have been applied -/

/-- The store has no record under the task's key. -/
def Absent (db : DB) (t : Task) : Prop := ∀ k ∈ recordKey t, db[k]? = none

instance (db : DB) (t : Task) : Decidable (Absent db t) :=
  inferInstanceAs (Decidable (∀ k ∈ recordKey t, db[k]? = none))

namespace StateMachine

/-- The step flushes no ack of a task that is yet to be saved. -/
def Ordered (s : StateMachine) (e : Event) : Prop :=
  ∀ a ∈ s.flushed e, ∀ t ∈ s.tasks, a.reference ≠ t.reference

instance (s : StateMachine) (e : Event) : Decidable (s.Ordered e) :=
  inferInstanceAs (Decidable (∀ a ∈ s.flushed e, ∀ t ∈ s.tasks, a.reference ≠ t.reference))

/-- An ack that has been applied is in the buffer or its task is absent. -/
structure AcksKept (cmds : List Command) (s : StateMachine) : Prop where
  pending : ∀ t ∈ s.tasks, t ∈ tasksOf (batch cmds s.applied s.size)
  applied : ∀ a ∈ acksOf (cmds.take s.applied), ∀ t ∈ tasksOf cmds, a.reference = t.reference →
    Absent s.db t ∨ a ∈ s.ackBuffer
  current : ∀ a ∈ acksOf (batch cmds s.applied s.size), ∀ t ∈ tasksOf cmds,
    a.reference = t.reference → Absent s.db t ∨ a ∈ s.ackBuffer ∨ a ∈ s.acks
  current_pending : ∀ a ∈ acksOf (batch cmds s.applied s.size), ∀ t ∈ s.tasks,
    a.reference = t.reference → a ∈ s.ackBuffer ∨ a ∈ s.acks

theorem acksKept_init (cmds : List Command) : AcksKept cmds {} where
  pending t ht := by simp at ht
  applied a ha := by simp [acksOf] at ha
  current a ha := by simp [acksOf, batch] at ha
  current_pending a ha := by simp [acksOf, batch] at ha

section

variable {cmds : List Command} {s s' : StateMachine}

theorem absent_saveSettings {db : DB} {t : Task} (c : QueueConfig) (h : Absent db t) :
    Absent (saveSettings c db) t := by
  intro k hk
  rw [getElem?_saveSettings, if_neg]
  · exact h k hk
  · rintro rfl
    exact not_isTaskKey_config c.id (isTaskKey_recordKey hk)

theorem absent_deleteAll {db : DB} {t : Task} (acks : List Ack) (h : Absent db t) :
    Absent (deleteAll acks db) t := by
  intro k hk
  rw [getElem?_deleteAll]
  split
  · rfl
  · exact h k hk

theorem absent_deleteAll_of_mem (hkeys : KeysFaithful cmds) {db : DB} {t : Task} {a : Ack}
    {acks : List Ack} (ha : a ∈ acks) (hlog : a ∈ acksOf cmds) (ht : t ∈ tasksOf cmds)
    (hat : a.reference = t.reference) : Absent (deleteAll acks db) t := by
  intro k hk
  rw [getElem?_deleteAll, if_pos]
  exact ⟨a, ha, (hkeys.ack a hlog t ht k hk).mpr hat⟩

theorem mem_acksOf_of_take {a : Ack} {i : ℕ} (h : a ∈ acksOf (cmds.take i)) : a ∈ acksOf cmds := by
  rw [← List.take_append_drop i cmds, acksOf_append]
  exact List.mem_append_left _ h

theorem mem_acksOf_of_batch {a : Ack} {i n : ℕ} (h : a ∈ acksOf (batch cmds i n)) :
    a ∈ acksOf cmds := by
  rw [← List.take_append_drop i cmds, acksOf_append, ← List.take_append_drop n (cmds.drop i),
    acksOf_append]
  exact List.mem_append_right _ (List.mem_append_left _ h)

theorem absent_saveAll (hkeys : KeysFaithful cmds) {ts : List Task} {si : Bool} {db db' : DB}
    (hsave : saveAll ts si db = some db') (hts : ∀ u ∈ ts, u ∈ tasksOf cmds) {t : Task}
    (ht : t ∈ tasksOf cmds) (h : Absent db t) :
    Absent db' t ∨ ∃ u ∈ ts, u.reference = t.reference := by
  by_cases hex : ∃ u ∈ ts, u.reference = t.reference
  · exact .inr hex
  · refine .inl fun k hk ↦ ?_
    rw [getElem?_saveAll_of_forall_ne hsave (isTaskKey_recordKey hk)]
    · exact h k hk
    · exact fun u hu huk ↦ hex ⟨u, hu, hkeys.task u (hts u hu) t ht k huk hk⟩

theorem AcksKept.flush (h : AcksKept cmds s) (hkeys : KeysFaithful cmds)
    (moved : List Ack) {deleted buffer acks : List Ack}
    (hsplit : deleted ++ buffer = s.ackBuffer ++ moved)
    (hmoved : ∀ a ∈ s.acks, a ∈ moved ∨ a ∈ acks)
    (hord : ∀ a ∈ deleted, ∀ t ∈ s.tasks, a.reference ≠ t.reference) :
    AcksKept cmds { s with ackBuffer := buffer, acks, db := deleteAll deleted s.db } := by
  have hmem : ∀ {a : Ack}, a ∈ s.ackBuffer ∨ a ∈ moved → a ∈ deleted ∨ a ∈ buffer := by
    intro a ha
    rwa [← List.mem_append, hsplit, List.mem_append]
  have habsent : ∀ {a : Ack} {t : Task}, a ∈ acksOf cmds → t ∈ tasksOf cmds →
      a.reference = t.reference → a ∈ s.ackBuffer ∨ a ∈ moved →
      Absent (deleteAll deleted s.db) t ∨ a ∈ buffer := by
    intro a t ha ht hat hin
    rcases hmem hin with hin | hin
    · exact .inl (absent_deleteAll_of_mem hkeys hin ha ht hat)
    · exact .inr hin
  refine ⟨h.pending, fun a ha t ht hat ↦ ?_, fun a ha t ht hat ↦ ?_, fun a ha t ht hat ↦ ?_⟩
  · rcases h.applied a ha t ht hat with habs | hin
    · exact .inl (absent_deleteAll _ habs)
    · exact habsent (mem_acksOf_of_take ha) ht hat (.inl hin)
  · have hlog := mem_acksOf_of_batch ha
    rcases h.current a ha t ht hat with habs | hin | hin
    · exact .inl (absent_deleteAll _ habs)
    · exact (habsent hlog ht hat (.inl hin)).imp_right .inl
    · rcases hmoved a hin with hin | hin
      · exact (habsent hlog ht hat (.inr hin)).imp_right .inl
      · exact .inr (.inr hin)
  · -- the task is still to be saved, so its ack must not be among the deleted ones
    have hbuf : ∀ {l : List Ack}, a ∈ deleted ∨ a ∈ buffer → a ∈ buffer ∨ a ∈ l :=
      fun hin ↦ hin.elim (fun hd ↦ absurd hat (hord a hd t ht)) .inl
    rcases h.current_pending a ha t ht hat with hin | hin
    · exact hbuf (hmem (.inl hin))
    · rcases hmoved a hin with hin | hin
      · exact hbuf (hmem (.inr hin))
      · exact .inr hin

/-- A save of the pending tasks: what it brings back has its ack still ahead. -/
theorem AcksKept.push (h : AcksKept cmds s) (hlog : WellOrdered cmds) (hkeys : KeysFaithful cmds)
    {si : Bool} {db : DB} (hsave : saveAll s.tasks si s.db = some db) :
    AcksKept cmds { s with db, tasks := [] } := by
  have hdrop : ∀ u ∈ s.tasks, u ∈ tasksOf (cmds.drop s.applied) :=
    fun u hu ↦ mem_tasksOf_of_batch (h.pending u hu)
  have hsaved := fun {t : Task} (ht : t ∈ tasksOf cmds) ↦
    absent_saveAll hkeys hsave (fun u hu ↦ mem_tasksOf_of_drop (hdrop u hu)) ht
  refine ⟨by simp, fun a ha t ht hat ↦ ?_, fun a ha t ht hat ↦ ?_, by simp⟩
  · rcases h.applied a ha t ht hat with habs | hin
    · rcases hsaved ht habs with habs | ⟨u, hu, hut⟩
      · exact .inl habs
      · exact absurd (hat.trans hut.symm) (hlog.reference_ne ha (hdrop u hu))
    · exact .inr hin
  · rcases h.current a ha t ht hat with habs | hin
    · rcases hsaved ht habs with habs | ⟨u, hu, hut⟩
      · exact .inl habs
      · exact .inr (h.current_pending a ha u hu (hat.trans hut.symm))
    · exact .inr hin

/-- **Every step keeps the acks**, unless it flushes one too early. -/
theorem AcksKept.step (hlog : WellOrdered cmds) (hkeys : KeysFaithful cmds) {e : Event}
    (h : AcksKept cmds s) (hord : s.Ordered e) (hs : step (logOf cmds) s e = some s') :
    AcksKept cmds s' := by
  cases e with
  | applyBatch n =>
    obtain ⟨-, b, hb, rfl⟩ := step_applyBatch_logOf hs
    refine ⟨?_, h.applied, ?_, ?_⟩
    · exact fun t ht ↦ hb ▸ ht
    · exact fun a ha t _ _ ↦ .inr (.inr (hb ▸ ha))
    · exact fun a ha t _ _ ↦ .inr (hb ▸ ha)
  | saveSetting ok =>
    obtain ⟨c, cs, -, ⟨-, rfl⟩ | ⟨-, rfl⟩⟩ := step_saveSetting hs
    · refine ⟨h.pending, fun a ha t ht hat ↦ ?_, fun a ha t ht hat ↦ ?_, h.current_pending⟩
      · exact (h.applied a ha t ht hat).imp_left (absent_saveSettings c)
      · exact (h.current a ha t ht hat).imp_left (absent_saveSettings c)
    · exact ⟨h.pending, h.applied, h.current, h.current_pending⟩
  | push si ok =>
    obtain ⟨-, db, hdb, rfl⟩ | ⟨-, rfl⟩ := step_push hs
    · exact h.push hlog hkeys hdb
    · exact ⟨by simp, h.applied, h.current, by simp⟩
  | acknowledge ok =>
    obtain ⟨buffer, hsplit, rfl⟩ := step_acknowledge hs
    exact h.flush hkeys s.acks hsplit (fun a ha ↦ .inl ha) hord
  | flushTick ok =>
    obtain ⟨buffer, hsplit, rfl⟩ := step_flushTick hs
    exact h.flush hkeys [] (by rw [hsplit, List.append_nil]) (fun a ha ↦ .inr ha) hord
  | reply =>
    obtain ⟨⟨-, htasks, hacks⟩, rfl⟩ := step_reply hs
    refine ⟨by simp [htasks], fun a ha t ht hat ↦ ?_, ?_, by simp [htasks]⟩
    · rw [List.take_add, acksOf_append, List.mem_append] at ha
      rcases ha with ha | ha
      · exact h.applied a ha t ht hat
      · have := h.current a ha t ht hat
        simpa [hacks] using this
    · intro a ha
      simp [batch, acksOf] at ha

end

end StateMachine

end Z4
