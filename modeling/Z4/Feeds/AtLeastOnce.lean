import Z4.Feeds.Deadline
import Z4.Feeds.Undelivered
import Z4.Feeds.Windows

/-!
# Every task is handed over

`Z4.Feeds.Deadline` says that no task is handed over too early. Here is the other half, in the same
system of feeds, redelivery runs and a changing store: a task that stays stored is handed over.

For an unscheduled task it takes one call of the undelivered reader and one redelivery run. The two
read the same checkpoint, and the call moves it while the run is waiting for its turn, so neither
range alone is sure to have the task. What holds is that a task which the call does not have ahead
lies behind the checkpoint from then on: the checkpoint only moves forward (`Reads.visit`), and the
run finds the task whenever it comes to execute its query. A scheduled task needs the run alone, as
the delivered range of scheduled tasks goes up to the watermark, wherever the checkpoint is.

In both cases the task is owed by one goroutine or another until it is handed over, and no step
loses it while no push fails (`Owed.step`).
-/

namespace Z4.Deadline

open KeyValue Redelivery

deriving instance DecidableEq for TaskIterator, Run, Redelivering

/-! ## What a step does -/

/-- The ways of a step. -/
inductive Moves (q : GoString) (s : State) : Event → State → Prop where
  | arrive {tasks : List Task} {saveIndex : Bool} {db : DB} (hnew : ∀ t ∈ tasks, t.queue = q)
      (hdb : saveAll tasks saveIndex s.db = some db) :
      Moves q s (.arrive tasks saveIndex) { s with db }
  | delete (acks : List Ack) : Moves q s (.delete acks) { s with db := deleteAll acks s.db }
  | openFeed {settings : QueueConfig} (hid : settings.id = q) :
      Moves q s (.openFeed settings) { s with feeds := s.feeds ++ [{ settings }] }
  | update {i : ℕ} {f : Feed} (hf : s.feeds[i]? = some f) (secs : Int32) :
      Moves q s (.update i secs)
        { s with feeds := s.feeds.set i { f with settings := updateQueue f.settings secs } }
  | query {i : ℕ} {kind : Kind} {now : Time} {f : Feed} {range : TaskRange}
      (hf : s.feeds[i]? = some f) (hidle : f.reading kind = none)
      (hrange : kind.undelivered f.settings now = some range) :
      Moves q s (.query i kind now) { s with
        clock := now
        feeds := s.feeds.set i { f with
          reading := Function.update f.reading kind (some (newTaskIterator s.db range)) } }
  | first {i : ℕ} {kind : Kind} {now : Time} {f : Feed} {it it' : TaskIterator} {t : Task}
      (hf : s.feeds[i]? = some f) (hit : f.reading kind = some it)
      (hnext : it.next = (it', .ok t)) :
      Moves q s (.visit i kind true now) { s with
        clock := now
        feeds := s.feeds.set i
          ⟨kind.checkpoint f.settings t, Function.update f.reading kind (some it')⟩
        handed := ⟨recordKey t, now, i, none⟩ :: s.handed }
  | endCall {i : ℕ} {kind : Kind} {ok : Bool} {now : Time} {f : Feed} {it : TaskIterator}
      (hf : s.feeds[i]? = some f) (hit : f.reading kind = some it)
      (hend : ok = true → ∀ t, it.next.2 ≠ .ok t) :
      Moves q s (.visit i kind ok now) { s with
        clock := now
        feeds := s.feeds.set i { f with reading := Function.update f.reading kind none } }
  | read {i : ℕ} {kind : Kind} :
      Moves q s (.read i kind) { s with runs := s.runs ++ [{ feed := i, kind }] }
  | executeQuery {i : ℕ} {now now' : Time} {x : Redelivering} {c : QueueConfig} {range : TaskRange}
      (hat : s.runAt i = some (x, .started, c)) (hrange : x.kind.delivered c now' = some range) :
      Moves q s (.executeQuery i now now') { s with
        clock := now'
        runs := s.runs.set i { x with
          run := some (.scanning (newTaskIterator s.db range) (c.watermark now) []) } }
  | redeliver {i : ℕ} {push : PushOutcome} {pushed now : Time} {x : Redelivering} {c : QueueConfig}
      {it : TaskIterator} {watermark : Time} {tasks : List Task} {o : RunResult}
      (hat : s.runAt i = some (x, .scanning it watermark tasks, c))
      (hround : Round it watermark tasks push now o) :
      Moves q s (.redeliver i push pushed now) { s with
        clock := now
        runs := s.runs.set i { x with run := advance o }
        handed := ((handsOver (.scanning it watermark tasks) push).map
          (⟨recordKey ·, pushed, x.feed, some i⟩)).toList ++ s.handed }
  | save {i : ℕ} {ok : Bool} {x : Redelivering} {c : QueueConfig} {tasks : List Task} {db : DB}
      (hat : s.runAt i = some (x, .saving tasks, c))
      (hdb : saveAll tasks false s.db = some db ∨ db = s.db) :
      Moves q s (.save i ok) { s with db, runs := s.runs.set i { x with run := none } }

section

variable {q : GoString} {s s' : State} {e : Event}

theorem moves_visit {i : ℕ} {kind : Kind} {ok : Bool} {now : Time}
    (h : step q s (.visit i kind ok now) = some s') : Moves q s (.visit i kind ok now) s' := by
  simp only [step] at h
  split at h
  · obtain ⟨f, hf, hvisit⟩ := Option.bind_eq_some_iff.mp h
    obtain ⟨it, hit, rfl⟩ := Option.map_eq_some_iff.mp hvisit
    clear h hvisit
    split
    · rename_i it' t hnext
      exact .first hf hit hnext
    · rename_i hother
      refine .endCall hf hit fun hok t ht ↦ ?_
      exact hother it.next.1 t (Prod.ext rfl ht) hok
  · simp at h

theorem moves_redeliver {i : ℕ} {push : PushOutcome} {pushed now : Time}
    (h : step q s (.redeliver i push pushed now) = some s') :
    Moves q s (.redeliver i push pushed now) s' := by
  simp only [step] at h
  split at h
  · obtain ⟨s₁, hs₁, rfl⟩ := Option.map_eq_some_iff.mp h
    obtain ⟨x, r, c, o, db, hat, hstep, rfl⟩ := stepRun_eq_some hs₁
    obtain ⟨it, watermark, tasks, rfl, rfl, hround⟩ := Run.step_visit hstep
    have hmove : Moves q s (.redeliver i push pushed now) _ := .redeliver hat hround
    rw [hat, Option.bind_some]
    dsimp only
    cases hhand : handsOver (.scanning it watermark tasks) push with
    | none =>
      rw [hhand] at hmove
      exact hmove
    | some t =>
      rw [hhand] at hmove
      exact hmove
  · simp at h

theorem moves_of_step (h : step q s e = some s') : Moves q s e s' := by
  cases e with
  | arrive tasks si =>
    simp only [step] at h
    split at h
    · rename_i hnew
      obtain ⟨db, hdb, rfl⟩ := Option.map_eq_some_iff.mp h
      exact .arrive (fun t ht ↦ (hnew t ht).1) hdb
    · simp at h
  | delete acks => exact Option.some.inj h ▸ .delete acks
  | openFeed settings =>
    simp only [step] at h
    split at h
    · rename_i hid
      exact Option.some.inj h ▸ .openFeed hid
    · simp at h
  | update i secs =>
    obtain ⟨f, hf, rfl⟩ := Option.map_eq_some_iff.mp h
    exact .update hf secs
  | query i kind now =>
    simp only [step] at h
    split at h
    · obtain ⟨f, hf, h⟩ := Option.bind_eq_some_iff.mp h
      split at h
      · simp at h
      · rename_i hidle
        obtain ⟨range, hrange, rfl⟩ := Option.map_eq_some_iff.mp h
        exact .query hf hidle hrange
    · simp at h
  | visit i kind ok now => exact moves_visit h
  | read i kind =>
    simp only [step] at h
    split at h
    · exact Option.some.inj h ▸ .read
    · simp at h
  | executeQuery i now now' =>
    simp only [step] at h
    split at h
    · obtain ⟨s₁, hs₁, rfl⟩ := Option.map_eq_some_iff.mp h
      obtain ⟨x, r, c, o, db, hat, hstep, rfl⟩ := stepRun_eq_some hs₁
      obtain ⟨range, hrange, rfl, rfl, rfl⟩ := Run.step_executeQuery hstep
      exact .executeQuery hat hrange
    · simp at h
  | redeliver i push pushed now => exact moves_redeliver h
  | save i ok =>
    have hrun : s.stepRun i (fun _ ↦ .save ok) = some s' := h
    obtain ⟨x, r, c, o, db, hat, hstep, rfl⟩ := stepRun_eq_some hrun
    obtain ⟨tasks, rfl, ⟨-, hdb, rfl⟩ | ⟨-, rfl, rfl⟩⟩ := Run.step_save hstep
    · exact .save hat (.inl hdb)
    · exact .save hat (.inr rfl)

end

/-! ## The tasks of the queue -/

/-- A task of the queue whose index is not the largest. -/
def Own (q : GoString) (t : Task) : Prop := t.queue = q ∧ taskIndex t + 1 < 2 ^ 64

/-- The tasks a run has seen and still sees are of the queue, and its iterator finds tasks only. -/
def RunOwn (q : GoString) : Run → Prop
  | .started => True
  | .scanning it _ tasks => it.Sound ∧ (∀ t ∈ it.ahead, Own q t) ∧ ∀ t ∈ tasks, Own q t
  | .saving tasks => ∀ t ∈ tasks, Own q t

/-- Everything stored, read and pushed is of the queue. -/
structure Indexed (q : GoString) (s : State) : Prop where
  only : OnlyQueue q s.db
  stored : ∀ t, Stored s.db t → Own q t
  feeds : ∀ f ∈ s.feeds, f.settings.id = q
  runs : ∀ x ∈ s.runs, ∀ r ∈ x.run, RunOwn q r

/-- No task arrives with the largest index. -/
def Numbered : Event → Prop
  | .arrive tasks _ => ∀ t ∈ tasks, taskIndex t + 1 < 2 ^ 64
  | _ => True

instance : (e : Event) → Decidable (Numbered e)
  | .arrive tasks _ => inferInstanceAs (Decidable (∀ t ∈ tasks, _))
  | .delete _ | .openFeed _ | .update _ _ | .query _ _ _ | .visit _ _ _ _ | .read _ _
  | .executeQuery _ _ _ | .redeliver _ _ _ _ | .save _ _ => .isTrue trivial

section

variable {q : GoString} {s s' : State} {e : Event}

theorem indexed_init (q : GoString) (start : Time) : Indexed q (.init q start) where
  only := onlyQueue_empty q
  stored := by simp [State.init, Stored]
  feeds := by simp [State.init, defaultConfig]
  runs := by simp [State.init]

theorem own_of_lastRetry {t : Task} (h : Own q t) (ts : Option Timestamp) :
    Own q { t with lastRetry := ts } := h

theorem forall_mem_set {α : Type} {P : α → Prop} {l : List α} {i : ℕ} {a : α}
    (h : ∀ b ∈ l, P b) (ha : P a) : ∀ b ∈ l.set i a, P b := by
  intro b hb
  rcases List.mem_or_eq_of_mem_set hb with hb | rfl
  · exact h b hb
  · exact ha

theorem Indexed.id_eq (h : Indexed q s) {i : ℕ} {f : Feed} (hf : s.feeds[i]? = some f) :
    f.settings.id = q := h.feeds f (List.mem_of_getElem? hf)

theorem Indexed.isFifo (h : Indexed q s) {t : Task} (ht : Stored s.db t)
    (hfifo : t.scheduleTime = none) : IsFifo q t := by
  refine ⟨(h.stored t ht).1, hfifo, ?_⟩
  obtain ⟨key, hkey, -⟩ := ht
  obtain ⟨id, hid, -⟩ := Option.map_eq_some_iff.mp hkey
  rw [hid]
  rfl

theorem Indexed.saveAll (h : Indexed q s) {tasks : List Task} {si : Bool} {db : DB}
    (hown : ∀ t ∈ tasks, Own q t) (hdb : saveAll tasks si s.db = some db) :
    OnlyQueue q db ∧ ∀ t, Stored db t → Own q t := by
  refine ⟨h.only.saveAll (fun t ht ↦ (hown t ht).1) hdb, fun t ht ↦ ?_⟩
  rcases mem_or_stored_of_saveAll hdb ht with hmem | hold
  · exact hown t hmem
  · exact h.stored t hold

theorem Indexed.runOwn (h : Indexed q s) {i : ℕ} {x : Redelivering} {r : Run} {c : QueueConfig}
    (hat : s.runAt i = some (x, r, c)) : RunOwn q r := by
  obtain ⟨hx, hr, -⟩ := runAt_eq_some.mp hat
  exact h.runs x (List.mem_of_getElem? hx) r hr

theorem RunOwn.round {it : TaskIterator} {watermark : Time} {tasks : List Task}
    {push : PushOutcome} {now : Time} {o : RunResult} (h : RunOwn q (.scanning it watermark tasks))
    (hround : Round it watermark tasks push now o) : ∀ r ∈ advance o, RunOwn q r := by
  obtain ⟨hsound, hahead, htasks⟩ := h
  cases hround with
  | skip hnext hdue =>
    rintro r ⟨⟩
    exact ⟨hsound.next hnext, fun t ht ↦ hahead t
      (TaskIterator.ahead_of_next hnext ▸ List.mem_cons_of_mem _ ht), htasks⟩
  | @handOver it' t hnext hdue hpush =>
    rintro r ⟨⟩
    refine ⟨hsound.next hnext, fun u hu ↦ hahead u
      (TaskIterator.ahead_of_next hnext ▸ List.mem_cons_of_mem _ hu), fun u hu ↦ ?_⟩
    rcases List.mem_append.mp hu with hu | hu
    · exact htasks u hu
    · rw [List.mem_singleton.mp hu]
      exact own_of_lastRetry
        (hahead t (TaskIterator.ahead_of_next hnext ▸ List.mem_cons_self)) _
  | ended hend =>
    rcases afterQuery_cases tasks with hsaving | ⟨-, hreturned⟩
    · rw [hsaving]
      rintro r ⟨⟩
      exact htasks
    · rw [hreturned]
      rintro r ⟨⟩
  | failed herr => rintro r ⟨⟩

theorem Indexed.step (h : Indexed q s) (hnum : Numbered e) (hs : step q s e = some s') :
    Indexed q s' := by
  cases moves_of_step hs with
  | arrive hnew hdb =>
    obtain ⟨honly, hstored⟩ := h.saveAll (fun t ht ↦ ⟨hnew t ht, hnum t ht⟩) hdb
    exact ⟨honly, hstored, h.feeds, h.runs⟩
  | delete acks =>
    refine ⟨fun k v hk hv ↦ ?_, fun t ht ↦ h.stored t (stored_of_deleteAll ht), h.feeds, h.runs⟩
    rw [getElem?_deleteAll] at hv
    split at hv
    · simp at hv
    · exact h.only k v hk hv
  | openFeed hid =>
    refine ⟨h.only, h.stored, fun f hf ↦ ?_, h.runs⟩
    rcases List.mem_append.mp hf with hf | hf
    · exact h.feeds f hf
    · rw [List.mem_singleton.mp hf]
      exact hid
  | update hf secs =>
    refine ⟨h.only, h.stored, forall_mem_set h.feeds ?_, h.runs⟩
    have hid := h.id_eq hf
    rw [updateQueue]
    split <;> exact hid
  | query hf hidle hrange =>
    have hid := h.id_eq hf
    exact ⟨h.only, h.stored, forall_mem_set h.feeds hid, h.runs⟩
  | @first i kind now f it it' t hf hit hnext =>
    refine ⟨h.only, h.stored, forall_mem_set h.feeds ?_, h.runs⟩
    have hid := h.id_eq hf
    cases kind <;> exact hid
  | endCall hf hit hend =>
    have hid := h.id_eq hf
    exact ⟨h.only, h.stored, forall_mem_set h.feeds hid, h.runs⟩
  | read =>
    refine ⟨h.only, h.stored, h.feeds, fun x hx ↦ ?_⟩
    rcases List.mem_append.mp hx with hx | hx
    · exact h.runs x hx
    · rw [List.mem_singleton.mp hx]
      rintro r ⟨⟩
      trivial
  | @executeQuery i now now' x c range hat hrange =>
    refine ⟨h.only, h.stored, h.feeds, forall_mem_set h.runs ?_⟩
    rintro r ⟨⟩
    refine ⟨h.only.filed.sound range, fun t ht ↦ ?_, by simp⟩
    rw [ahead_newTaskIterator h.only.filed] at ht
    exact h.stored t (stored_of_mem_handedOut h.only.filed ht)
  | redeliver hat hround =>
    exact ⟨h.only, h.stored, h.feeds, forall_mem_set h.runs ((h.runOwn hat).round hround)⟩
  | @save i ok x c tasks db hat hdb =>
    have hruns := forall_mem_set (i := i) (a := { x with run := none }) h.runs (by simp)
    rcases hdb with hdb | rfl
    · obtain ⟨honly, hstored⟩ := h.saveAll (h.runOwn hat) hdb
      exact ⟨honly, hstored, h.feeds, hruns⟩
    · exact ⟨h.only, h.stored, h.feeds, hruns⟩

theorem Indexed.run (h : Indexed q s) {es : List Event} (hnum : ∀ e ∈ es, Numbered e)
    (hrun : Runs.run (Deadline.step q) s es = some s') : Indexed q s' := by
  have hstep : ∀ s e s', Indexed q s → Numbered e → Deadline.step q s e = some s' →
      Indexed q s' := fun s e s' h hnum hs ↦ h.step hnum hs
  exact Runs.Meets.invariant hstep h (Runs.meets_of_forall_mem hnum) hrun

end

/-! ## What a run owes -/

/-- There was such a hand-over after the hand-overs `before`. -/
def Since (before : List HandOver) (P : HandOver → Prop) (s : State) : Prop :=
  ∃ new, s.handed = new ++ before ∧ ∃ h ∈ new, P h

/-- The record was handed over to the feed. -/
def HandOver.To (r : Option Key) (j : ℕ) (h : HandOver) : Prop := h.record = r ∧ h.feed = j

/-- The run has the record still to push. -/
def Holds (r : Option Key) (x : Redelivering) : Prop :=
  ∃ u ∈ x.run.elim [] dueAhead, recordKey u = r

/-- The run of the feed has yet to execute its query, or has the record to push. -/
def Awaits (k j : ℕ) (kind : Kind) (r : Option Key) (s : State) : Prop :=
  ∃ x, s.runs[k]? = some x ∧ x.feed = j ∧ (x = { feed := j, kind } ∨ Holds r x)

section

variable {q : GoString} {s s' : State} {e : Event} {before : List HandOver}
  {P : HandOver → Prop} {r : Option Key} {k j : ℕ} {kind : Kind}

theorem Moves.handed (h : Moves q s e s') : ∃ new, s'.handed = new ++ s.handed := by
  cases h with
  | first hf hit hnext => exact ⟨[_], rfl⟩
  | redeliver hat hround => exact ⟨_, rfl⟩
  | _ => exact ⟨[], rfl⟩

theorem Moves.suffix (h : Moves q s e s') (hs : before <:+ s.handed) : before <:+ s'.handed := by
  obtain ⟨new, hnew⟩ := h.handed
  rw [hnew]
  exact hs.trans (List.suffix_append _ _)

theorem Since.step (h : Since before P s) (hm : Moves q s e s') : Since before P s' := by
  obtain ⟨old, hold, h₀, hmem, hP⟩ := h
  obtain ⟨new, hnew⟩ := hm.handed
  exact ⟨new ++ old, by rw [hnew, hold, List.append_assoc], h₀, List.mem_append_right _ hmem, hP⟩

theorem since_of_cons {h₀ : HandOver} (hs : before <:+ s.handed)
    (h : s'.handed = h₀ :: s.handed) (hP : P h₀) : Since before P s' := by
  obtain ⟨old, hold⟩ := hs
  exact ⟨h₀ :: old, by rw [h, ← hold]; rfl, h₀, List.mem_cons_self, hP⟩

/-- A round pushes the record or leaves it ahead, unless the push fails. -/
theorem Holds.round {it : TaskIterator} {watermark : Time} {tasks : List Task} {now : Time}
    {o : RunResult} {x : Redelivering} (hsound : it.Sound)
    (hx : x.run = some (.scanning it watermark tasks)) (h : Holds r x)
    (hround : Round it watermark tasks .ok now o) :
    Holds r { x with run := advance o } ∨
      (handsOver (.scanning it watermark tasks) .ok).map recordKey = some r := by
  obtain ⟨u, hu, rfl⟩ := h
  rw [hx, Option.elim_some] at hu
  -- the iterator is not at its end, as the record is ahead
  have hmore : ∀ err, it.next.2 ≠ .error err := by
    intro err herr
    rcases hsound.next_cases with ⟨it', t, hnext⟩ | ⟨-, hnil⟩
    · rw [hnext] at herr
      simp at herr
    · rw [dueAhead, hnil] at hu
      simp at hu
  cases hround with
  | skip hnext hdue =>
    rw [dueAhead_of_next hnext, hdue, if_neg (by decide), List.nil_append] at hu
    exact .inl ⟨u, hu, rfl⟩
  | @handOver it' t hnext hdue hpush =>
    rw [dueAhead_of_next hnext, hdue, if_pos rfl, List.singleton_append, List.mem_cons] at hu
    rcases hu with rfl | hu
    · rw [handsOver_of_due hnext hdue]
      exact .inr rfl
    · exact .inl ⟨u, hu, rfl⟩
  | ended hend =>
    rcases hend with hend | hend
    · exact absurd hend (hmore _)
    · simp at hend
  | failed herr =>
    rcases herr with herr | herr | herr
    · exact absurd herr (hmore _)
    · exact absurd herr (hmore _)
    · simp at herr

/-- **What a run owes it pushes.** A run that has yet to execute its query, and will find the record
due, or has the record still to push, keeps it so until it hands it over. -/
theorem Awaits.step (h : Awaits k j kind r s) (hidx : Indexed q s) (hm : Moves q s e s')
    (hpush : ∀ push pushed now, e = .redeliver k push pushed now → push = .ok)
    (hquery : ∀ now now' c range, e = .executeQuery k now now' →
      s.runAt k = some ({ feed := j, kind }, .started, c) → kind.delivered c now' = some range →
      ∃ u ∈ handedOut s.db range, recordKey u = r ∧ retryTask u (c.watermark now) = true) :
    Awaits k j kind r s' ∨ ∃ time, s'.handed = ⟨r, time, j, some k⟩ :: s.handed := by
  obtain ⟨x, hx, hfeed, howed⟩ := h
  have hlt := (List.getElem?_eq_some_iff.mp hx).1
  -- steps of other goroutines leave the run where it is
  have hother : s'.runs[k]? = some x → Awaits k j kind r s' := fun hx' ↦ ⟨x, hx', hfeed, howed⟩
  cases hm with
  | @executeQuery i now now' y c range hat hrange =>
    obtain ⟨hy, hrun, -⟩ := runAt_eq_some.mp hat
    by_cases hik : i = k
    · subst hik
      obtain rfl : x = y := Option.some.inj (hx.symm.trans hy)
      refine .inl ⟨_, List.getElem?_set_self hlt, hfeed, .inr ?_⟩
      rcases howed with rfl | ⟨u, hu, -⟩
      · obtain ⟨u, hu, hkey, hdue⟩ := hquery now now' c range rfl hat hrange
        refine ⟨u, ?_, hkey⟩
        rw [Option.elim_some, dueAhead, ahead_newTaskIterator hidx.only.filed]
        exact List.mem_filter.mpr ⟨hu, hdue⟩
      · rw [hrun] at hu
        simp [dueAhead] at hu
    · exact .inl (hother (by rw [List.getElem?_set_ne hik, hx]))
  | @redeliver i push pushed now y c it watermark tasks o hat hround =>
    obtain ⟨hy, hrun, -⟩ := runAt_eq_some.mp hat
    by_cases hik : i = k
    · subst hik
      obtain rfl : x = y := Option.some.inj (hx.symm.trans hy)
      obtain rfl := hpush push pushed now rfl
      rcases howed with rfl | hholds
      · simp at hrun
      · rcases hholds.round (hidx.runOwn hat).1 hrun hround with hholds | hhand
        · exact .inl ⟨_, List.getElem?_set_self hlt, hfeed, .inr hholds⟩
        · obtain ⟨t, ht, rfl⟩ := Option.map_eq_some_iff.mp hhand
          exact .inr ⟨pushed, by rw [ht, ← hfeed]; rfl⟩
    · exact .inl (hother (by rw [List.getElem?_set_ne hik, hx]))
  | @save i ok y c tasks db hat hdb =>
    obtain ⟨hy, hrun, -⟩ := runAt_eq_some.mp hat
    by_cases hik : i = k
    · subst hik
      obtain rfl : x = y := Option.some.inj (hx.symm.trans hy)
      rcases howed with rfl | ⟨u, hu, -⟩
      · simp at hrun
      · rw [hrun] at hu
        simp [dueAhead] at hu
    · exact .inl (hother (by rw [List.getElem?_set_ne hik, hx]))
  | read => exact .inl (hother (by rw [List.getElem?_append_left hlt, hx]))
  | _ => exact .inl (hother hx)

theorem not_awaits_of_returned (h : s.runs[k]? = some { feed := j, kind, run := none }) :
    ¬Awaits k j kind r s := by
  rintro ⟨x, hx, -, rfl | ⟨u, hu, -⟩⟩
  · rw [h] at hx
    simp at hx
  · obtain rfl := Option.some.inj (h.symm.trans hx)
    simp at hu

end

/-! ## What the undelivered reader owes -/

/-- The undelivered reader of unscheduled tasks. -/
def Feed.fifo (f : Feed) : UndeliveredReader := ⟨f.settings, f.reading .fifo⟩

/-- The feed `f` is the `j`-th, and its reader goes on from the index `next`. The store only matters
when a call begins. -/
def ReadsOn (q : GoString) (j : ℕ) (f : Feed) (next : ℕ) (s : State) : Prop :=
  s.feeds[j]? = some f ∧ Reads q ∅ f.fifo next

/-- What the reader had ahead in `s` it still has ahead, or has just pushed. -/
def Follows (q : GoString) (j : ℕ) (f : Feed) (next : ℕ) (s s' : State) : Prop :=
  ∃ f' next', ReadsOn q j f' next' s' ∧ next ≤ next' ∧
    ∀ u ∈ f.fifo.ahead, u ∈ f'.fifo.ahead ∨
      ∃ time, s'.handed = ⟨recordKey u, time, j, none⟩ :: s.handed

section

variable {q : GoString} {s s' : State} {e : Event} {f : Feed} {j next : ℕ}

theorem Indexed.query (h : Indexed q s) {range : TaskRange} (hf : s.feeds[j]? = some f)
    (hrange : fifoUndeliveredQuery f.settings = some range) :
    ∃ next, (nextIndex f.settings).map UInt64.toNat = some next ∧
      Reads q ∅ ⟨f.settings, some (newTaskIterator s.db range)⟩ next ∧
      ∀ t, Stored s.db t → IsFifo q t →
        t ∈ (newTaskIterator s.db range).ahead ∨ taskIndex t < next := by
  obtain ⟨n, hn, -⟩ := Option.map_eq_some_iff.mp (fifoUndeliveredQuery_eq f.settings ▸ hrange)
  have hnext : (nextIndex f.settings).map UInt64.toNat = some n.toNat := by rw [hn]; rfl
  have hidleReads : Reads q s.db ⟨f.settings, none⟩ n.toNat := .idle (h.id_eq hf) hnext
  have hcall : UndeliveredReader.query ⟨f.settings, none⟩ s.db
      = some ⟨f.settings, some (newTaskIterator s.db range)⟩ := by
    rw [UndeliveredReader.query, hrange]
    rfl
  obtain ⟨hreads, hmem⟩ := hidleReads.query h.only (fun t ht _ ↦ (h.stored t ht).2) hcall
  refine ⟨n.toNat, hnext, hreads.forget, fun t ht hfifo ↦ ?_⟩
  rcases Nat.lt_or_ge (taskIndex t) n.toNat with hlt | hle
  · exact .inr hlt
  · exact .inl ((hmem t).mpr ⟨ht, hfifo, hle⟩)

/-- **What a call owes it pushes**, and the checkpoint moves forward only, unless a push fails. -/
theorem ReadsOn.step (h : ReadsOn q j f next s) (hidx : Indexed q s) (hm : Moves q s e s')
    (hpush : ∀ ok now, e = .visit j .fifo ok now → ok = true) : Follows q j f next s s' := by
  obtain ⟨hf, hreads⟩ := h
  have hlt := (List.getElem?_eq_some_iff.mp hf).1
  -- steps of other goroutines leave the feed as it is
  have hsame : s'.feeds[j]? = some f → Follows q j f next s s' := fun hf' ↦
    ⟨f, next, ⟨hf', hreads⟩, le_rfl, fun u hu ↦ .inl hu⟩
  cases hm with
  | openFeed hid => exact hsame (by rw [List.getElem?_append_left hlt, hf])
  | @update i g hg secs =>
    by_cases hij : i = j
    · subst hij
      obtain rfl : f = g := Option.some.inj (hf.symm.trans hg)
      refine ⟨_, next, ⟨List.getElem?_set_self hlt, ?_⟩, le_rfl, fun u hu ↦ .inl hu⟩
      refine hreads.withSettings ?_ ?_
      · rw [← hidx.id_eq hf, updateQueue]
        split <;> rfl
      · rw [updateQueue]
        split <;> rfl
    · exact hsame (by rw [List.getElem?_set_ne hij, hf])
  | @query i kind now g range hg hidle hrange =>
    by_cases hij : i = j
    · subst hij
      obtain rfl : f = g := Option.some.inj (hf.symm.trans hg)
      cases kind with
      | sched => exact ⟨_, next, ⟨List.getElem?_set_self hlt, hreads⟩, le_rfl, fun u hu ↦ .inl hu⟩
      | fifo =>
        obtain ⟨n, hn, hcall, -⟩ := hidx.query hf hrange
        obtain rfl : next = n := Option.some.inj (hreads.next_eq.symm.trans hn)
        refine ⟨_, next, ⟨List.getElem?_set_self hlt, hcall⟩, le_rfl, fun u hu ↦ ?_⟩
        rw [Feed.fifo, UndeliveredReader.ahead, hidle] at hu
        simp at hu
    · exact hsame (by rw [List.getElem?_set_ne hij, hf])
  | @first i kind now g it it' t hg hit hnext =>
    by_cases hij : i = j
    · subst hij
      obtain rfl : f = g := Option.some.inj (hf.symm.trans hg)
      cases kind with
      | sched =>
        exact ⟨_, next, ⟨List.getElem?_set_self hlt, hreads.withSettings hreads.id_eq rfl⟩, le_rfl,
          fun u hu ↦ .inl hu⟩
      | fifo =>
        have hvisit : f.fifo.visit
            = some (⟨fifoCheckpointerSet f.settings t, some it'⟩, some t) := by
          simp only [Feed.fifo, UndeliveredReader.visit, hit, hnext]
        obtain ⟨hahead, hreads'⟩ := hreads.visit hvisit
        have hle := hreads.from_next t (hahead ▸ List.mem_cons_self)
        refine ⟨_, taskIndex t + 1, ⟨List.getElem?_set_self hlt, hreads'⟩, by omega, fun u hu ↦ ?_⟩
        rw [hahead, List.mem_cons] at hu
        rcases hu with rfl | hu
        · exact .inr ⟨now, rfl⟩
        · exact .inl hu
    · exact hsame (by rw [List.getElem?_set_ne hij, hf])
  | @endCall i kind ok now g it hg hit hend =>
    by_cases hij : i = j
    · subst hij
      obtain rfl : f = g := Option.some.inj (hf.symm.trans hg)
      cases kind with
      | sched => exact ⟨_, next, ⟨List.getElem?_set_self hlt, hreads⟩, le_rfl, fun u hu ↦ .inl hu⟩
      | fifo =>
        refine ⟨_, next, ⟨List.getElem?_set_self hlt, .idle hreads.id_eq hreads.next_eq⟩, le_rfl,
          fun u hu ↦ ?_⟩
        -- the call has nothing ahead, or it would have pushed it
        rcases (hreads.sound it hit).next_cases with ⟨it', t, hnext⟩ | ⟨-, hnil⟩
        · exact absurd (by rw [hnext]) (hend (hpush ok now rfl) t)
        · rw [Feed.fifo, UndeliveredReader.ahead, hit] at hu
          simp [hnil] at hu
    · exact hsame (by rw [List.getElem?_set_ne hij, hf])
  | _ => exact hsame hf

end

/-! ## Unscheduled tasks -/

/-- No push of the feed `j`'s call or of the run `k` fails, and when the run executes its query the
record is still stored and its ack deadline has passed. -/
def Unhindered (j k : ℕ) (r : Option Key) (s : State) : Event → Prop
  | .visit i kind ok _ => i = j → kind = .fifo → ok = true
  | .executeQuery i now _ => i = k → ∀ y ∈ s.runAt k,
      ∃ u ∈ recordOf s.db r, retryTask u (y.2.2.watermark now) = true
  | .redeliver i push _ _ => i = k → push = .ok
  | _ => True

instance (j k : ℕ) (r : Option Key) (s : State) : (e : Event) → Decidable (Unhindered j k r s e)
  | .visit _ _ _ _ => inferInstanceAs (Decidable (_ → _ → _ = true))
  | .executeQuery _ _ _ => inferInstanceAs (Decidable (_ → ∀ y ∈ _, ∃ u ∈ _, _))
  | .redeliver _ _ _ _ => inferInstanceAs (Decidable (_ → _))
  | .arrive _ _ | .delete _ | .openFeed _ | .update _ _ | .query _ _ _ | .read _ _ | .save _ _ =>
    .isTrue trivial

/-- Until the task is handed over, the call has it ahead, or it lies behind the checkpoint and the
run is to find it or has found it. -/
def Owed (q : GoString) (j k : ℕ) (before : List HandOver) (t : Task) (s : State) : Prop :=
  ∃ f next, ReadsOn q j f next s ∧ (Since before (HandOver.To (recordKey t) j) s ∨
    t ∈ f.fifo.ahead ∨ taskIndex t < next ∧ Awaits k j .fifo (recordKey t) s)

section

variable {q : GoString} {s s' : State} {e : Event} {j k : ℕ} {t : Task}
  {before : List HandOver}

theorem eq_of_mem_recordOf {db : DB} {key : Key} {u : Task} (h : u ∈ recordOf db (some key)) :
    db[key]? = some (.task u) := by
  rw [recordOf, Option.bind_some] at h
  split at h
  · rename_i v hget
    rw [hget, Option.mem_some_iff.mp h]
  · simp at h

theorem Indexed.mem_handedOut_fifo (h : Indexed q s) {c : QueueConfig} {next : ℕ}
    {range : TaskRange} {u : Task} (hid : c.id = q)
    (hnext : (nextIndex c).map UInt64.toNat = some next)
    (hrange : fifoDeliveredQuery c = some range) (ht : IsFifo q t) (hlt : taskIndex t < next)
    (hu : u ∈ recordOf s.db (recordKey t)) :
    u ∈ handedOut s.db range ∧ recordKey u = recordKey t := by
  obtain ⟨id, -, hkey, hindex⟩ := ht.exists_id
  obtain ⟨last, hlast, rfl⟩ := Option.map_eq_some_iff.mp hrange
  rw [nextIndex, hlast, Option.map_some, Option.map_some, Option.some.injEq, UInt64.toNat_add,
    UInt64.toNat_one] at hnext
  rw [hkey] at hu ⊢
  have hget := eq_of_mem_recordOf hu
  -- the index after the checkpoint has not wrapped around, as an index lies before it
  have hin : (TaskRange.fifo c.id 0 last.index).Contains (getFifoTaskKey q id) := by
    have := last.index.toNat_lt
    rw [hid, TaskRange.contains_fifo_iff, UInt64.le_iff_toNat_le, UInt64.le_iff_toNat_le]
    exact ⟨Nat.zero_le _, by omega⟩
  exact ⟨(mem_handedOut h.only.filed).mpr ⟨_, hin, hget⟩,
    h.only.filed.recordKey_eq (isTaskKey_recordKey hkey) hget⟩

theorem ReadsOn.finds {f : Feed} {next : ℕ} {now now' : Time} {c : QueueConfig} {range : TaskRange}
    (h : ReadsOn q j f next s) (hidx : Indexed q s) (ht : IsFifo q t) (hlt : taskIndex t < next)
    (hok : Unhindered j k (recordKey t) s (.executeQuery k now now'))
    (hat : s.runAt k = some ({ feed := j, kind := .fifo }, .started, c))
    (hrange : Kind.fifo.delivered c now' = some range) :
    ∃ u ∈ handedOut s.db range, recordKey u = recordKey t ∧
      retryTask u (c.watermark now) = true := by
  obtain ⟨hf, hreads⟩ := h
  obtain ⟨-, -, hc⟩ := runAt_eq_some.mp hat
  obtain rfl : f.settings = c := by
    rw [State.settings, hf] at hc
    simpa using hc
  obtain ⟨u, hu, hdue⟩ := hok rfl _ hat
  obtain ⟨hmem, hkey⟩ :=
    hidx.mem_handedOut_fifo (hidx.id_eq hf) hreads.next_eq hrange ht hlt hu
  exact ⟨u, hmem, hkey, hdue⟩

/-- No step loses what is owed. -/
theorem Owed.step (h : Owed q j k before t s) (hidx : Indexed q s) (hsuffix : before <:+ s.handed)
    (ht : IsFifo q t) (hok : Unhindered j k (recordKey t) s e) (hm : Moves q s e s') :
    Owed q j k before t s' := by
  obtain ⟨f, next, hreads, howed⟩ := h
  obtain ⟨f', next', hreads', hle, hahead⟩ := hreads.step hidx hm fun ok now he ↦ by
    subst he
    exact hok rfl rfl
  refine ⟨f', next', hreads', ?_⟩
  rcases howed with hsince | hcall | ⟨hlt, hawaits⟩
  · exact .inl (hsince.step hm)
  · rcases hahead t hcall with hcall | ⟨time, hhanded⟩
    · exact .inr (.inl hcall)
    · exact .inl (since_of_cons hsuffix hhanded ⟨rfl, rfl⟩)
  · have hstep := hawaits.step hidx hm
      (fun push pushed now he ↦ by
        subst he
        exact hok rfl)
      (fun now now' c range he hat hrange ↦ by
        subst he
        exact hreads.finds hidx ht hlt hok hat hrange)
    rcases hstep with hawaits | ⟨time, hhanded⟩
    · exact .inr (.inr ⟨by omega, hawaits⟩)
    · exact .inl (since_of_cons hsuffix hhanded ⟨rfl, rfl⟩)

theorem Owed.since (h : Owed q j k before t s)
    (hidle : ∀ f ∈ s.feeds[j]?, f.reading .fifo = none)
    (hreturned : s.runs[k]? = some { feed := j, kind := .fifo, run := none }) :
    Since before (HandOver.To (recordKey t) j) s := by
  obtain ⟨f, next, hreads, hsince | hcall | ⟨-, hawaits⟩⟩ := h
  · exact hsince
  · rw [Feed.fifo, UndeliveredReader.ahead, hidle f hreads.1] at hcall
    simp at hcall
  · exact absurd hawaits (not_awaits_of_returned hreturned)

theorem owed_of_query {now : Time} (hidx : Indexed q s) (ht : Stored s.db t) (hfifo : IsFifo q t)
    (hk : s.runs[k]? = some { feed := j, kind := .fifo })
    (hs : step q s (.query j .fifo now) = some s') : Owed q j k s.handed t s' := by
  cases moves_of_step hs with
  | @query _ _ _ f range hf hidle hrange =>
    obtain ⟨next, -, hreads, hmem⟩ := hidx.query hf hrange
    have hlt := (List.getElem?_eq_some_iff.mp hf).1
    refine ⟨_, next, ⟨List.getElem?_set_self hlt, hreads⟩, .inr ?_⟩
    rcases hmem t ht hfifo with hmem | hlt
    · exact .inl hmem
    · exact .inr ⟨hlt, _, hk, rfl, .inl rfl⟩

end

/-- A task that was handed over at its first second lies behind the checkpoint, and a run is about
to begin. -/
def handedOnce : List Event :=
  [.arrive [firstTask] false, .query 0 .fifo (.ofUnix 1 0), .visit 0 .fifo true (.ofUnix 1 0),
    .visit 0 .fifo true (.ofUnix 1 0), .read 0 .fifo]

/-- The next call finds nothing, and the run hands the task over again. -/
def handedAgain : List Event :=
  [.visit 0 .fifo true (.ofUnix 400 0), .executeQuery 0 (.ofUnix 400 0) (.ofUnix 400 0),
    .redeliver 0 .ok (.ofUnix 401 0) (.ofUnix 401 0),
    .redeliver 0 .ok (.ofUnix 401 0) (.ofUnix 401 0), .save 0 true]

/-- No push of the run fails, and when it executes its query the record of the push is still stored,
its ack deadline has passed, and it is due. -/
def OnSchedule (k : ℕ) (p : Push) (s : State) : Event → Prop
  | .executeQuery i now now' => i = k → ∀ y ∈ s.runAt k,
      (∃ u ∈ recordOf s.db (recordKey p.task), retryTask u (y.2.2.watermark now) = true) ∧
      0 ≤ y.2.2.ackDeadlineSeconds.toInt ∧ now'.nanos < 2 ^ 64 ∧ Due y.2.2 now' p.task
  | .redeliver i push _ _ => i = k → push = .ok
  | _ => True

instance (k : ℕ) (p : Push) (s : State) : (e : Event) → Decidable (OnSchedule k p s e)
  | .executeQuery _ _ _ => inferInstanceAs (Decidable (_ → ∀ y ∈ _, (∃ u ∈ _, _) ∧ _))
  | .redeliver _ _ _ _ => inferInstanceAs (Decidable (_ → _))
  | .arrive _ _ | .delete _ | .openFeed _ | .update _ _ | .query _ _ _ | .visit _ _ _ _
  | .read _ _ | .save _ _ => .isTrue trivial

section

variable {s : State} {k j : ℕ} {p : Push}

/-- From `2 ^ 56` nanoseconds on, the delivered range has every push that is due. -/
theorem contains_schedDelivered_of_due {c : QueueConfig} {now : Time} (hp : p.Scheduled)
    (hid : c.id = p.req.queue) (hdeadline : 0 ≤ c.ackDeadlineSeconds.toInt)
    (hnow : now.nanos < 2 ^ 64) (hdue : Due c now p.task) (hle : 2 ^ 56 ≤ p.runTime.nanos) :
    (schedDeliveredQuery c now).Contains (getScheduledTaskKey p.req.queue p.id.reparsed) := by
  rw [Push.due_iff hp] at hdue
  have hwater := nanos_watermark c now (by omega) (by omega)
  have hw := toNat_unixNano (c.watermark now) (by omega) (by omega)
  have hrun := toNat_unixNano p.runTime (by omega) (by omega)
  have hindex := p.index.toNat_lt
  rw [← hid, contains_schedDelivered_iff, TaskID.reparsed_of_le (p.le_toNat_id (by omega)),
    Push.id, TaskID.toNat_new]
  omega

theorem Indexed.finds_scheduled {now now' : Time} {c : QueueConfig} {range : TaskRange}
    (h : Indexed p.req.queue s) (hp : p.Scheduled) (hle : 2 ^ 56 ≤ p.runTime.nanos)
    (hok : OnSchedule k p s (.executeQuery k now now'))
    (hat : s.runAt k = some ({ feed := j, kind := .sched }, .started, c))
    (hrange : Kind.sched.delivered c now' = some range) :
    ∃ u ∈ handedOut s.db range, recordKey u = recordKey p.task ∧
      retryTask u (c.watermark now) = true := by
  obtain ⟨-, -, hc⟩ := runAt_eq_some.mp hat
  obtain ⟨f, hf, rfl⟩ := Option.map_eq_some_iff.mp hc
  obtain rfl : schedDeliveredQuery f.settings now' = range := Option.some.inj hrange
  obtain ⟨⟨u, hu, hretry⟩, hdeadline, hnow, hdue⟩ := hok rfl _ hat
  have hin := contains_schedDelivered_of_due hp (h.id_eq hf) hdeadline hnow hdue hle
  rw [p.recordKey_of_scheduled hp] at hu ⊢
  have hget := eq_of_mem_recordOf hu
  exact ⟨u, (mem_handedOut h.only.filed).mpr ⟨_, hin, hget⟩,
    h.only.filed.recordKey_eq (TaskRange.isTaskKey_of_contains hin) hget, hretry⟩

end

/-- **A scheduled task is handed over.** From any reachable state in which a redelivery run is about
to execute its query, wherever the checkpoint is and whatever else goes on, once the run has
returned it has handed over the task of a push that runs `2 ^ 56` nanoseconds past the epoch or
later, if the task was stored and due, and its ack deadline passed, when the run executed its query,
and no push of the run failed. -/
theorem handed_over_of_scheduled {p : Push} {start : Time} {es es' : List Event}
    {s s' : State} {j k : ℕ}
    (hrun : Runs.run (step p.req.queue) (.init p.req.queue start) es = some s)
    (hrun' : Runs.run (step p.req.queue) s es' = some s') (hnum : ∀ e ∈ es ++ es', Numbered e)
    (hp : p.Scheduled) (hle : 2 ^ 56 ≤ p.runTime.nanos)
    (hk : s.runs[k]? = some { feed := j, kind := .sched })
    (hok : Runs.Meets (step p.req.queue) (OnSchedule k p) s es')
    (hreturned : s'.runs[k]? = some { feed := j, kind := .sched, run := none }) :
    Since s.handed (fun h ↦ h.To (recordKey p.task) j ∧ h.run = some k) s' := by
  obtain ⟨hnum, hnum'⟩ := List.forall_mem_append.mp hnum
  have hidx : Indexed p.req.queue s := (indexed_init p.req.queue start).run hnum hrun
  have hinv : Indexed p.req.queue s' ∧ s.handed <:+ s'.handed ∧
      (Since s.handed (fun h ↦ h.To (recordKey p.task) j ∧ h.run = some k) s' ∨
        Awaits k j .sched (recordKey p.task) s') := by
    refine Runs.Meets.invariant (P := fun s' ↦ Indexed p.req.queue s' ∧ s.handed <:+ s'.handed ∧
      (Since s.handed (fun h ↦ h.To (recordKey p.task) j ∧ h.run = some k) s' ∨
        Awaits k j .sched (recordKey p.task) s')) ?_
      ⟨hidx, List.suffix_rfl, .inr ⟨_, hk, rfl, .inl rfl⟩⟩
      ((Runs.meets_of_forall_mem hnum').and hok) hrun'
    rintro s₂ e s₃ ⟨hidx, hsuffix, howed⟩ ⟨hnum, hok⟩ hs
    have hm := moves_of_step hs
    refine ⟨hidx.step hnum hs, hm.suffix hsuffix, ?_⟩
    rcases howed with hsince | hawaits
    · exact .inl (hsince.step hm)
    · have hstep := hawaits.step hidx hm
        (fun push pushed now he ↦ by
          subst he
          exact hok rfl)
        (fun now now' c range he hat hrange ↦ by
          subst he
          exact hidx.finds_scheduled hp hle hok hat hrange)
      rcases hstep with hawaits | ⟨time, hhanded⟩
      · exact .inr hawaits
      · exact .inl (since_of_cons hsuffix hhanded ⟨⟨rfl, rfl⟩, rfl⟩)
  exact hinv.2.2.resolve_right (not_awaits_of_returned hreturned)

/-- A task that is to run at the first second of the year 2000. -/
def newYear : Push :=
  ⟨{ queue := lit "q", schedule := .scheduleTime ⟨946684800, 0⟩ }, .ofUnix 946000000 0,
    .ofUnix 946000000 0, 1⟩

/-- A run begins after the first second of the year, and the reader of scheduled tasks is not
called. -/
def afterNewYear : List Event :=
  [.executeQuery 0 (.ofUnix 946685200 0) (.ofUnix 946685200 0),
    .redeliver 0 .ok (.ofUnix 946685201 0) (.ofUnix 946685201 0),
    .redeliver 0 .ok (.ofUnix 946685201 0) (.ofUnix 946685201 0), .save 0 true]

theorem handed_over_of_scheduled_newYear : ∃ s s',
    Runs.run (step (lit "q")) (.init (lit "q") (.ofUnix 946000000 0))
        [.arrive [newYear.task] false, .read 0 .sched] = some s ∧
      Runs.run (step (lit "q")) s afterNewYear = some s' ∧
      Since s.handed (fun h ↦ h.To (recordKey newYear.task) 0 ∧ h.run = some 0) s' := by
  have heval : ((Runs.run (step (lit "q")) (.init (lit "q") (.ofUnix 946000000 0))
        [.arrive [newYear.task] false, .read 0 .sched]).bind
      fun s ↦ (Runs.run (step (lit "q")) s afterNewYear).map fun s' ↦ decide
        (s.runs[0]? = some { feed := 0, kind := .sched } ∧
          Runs.Meets (step (lit "q")) (OnSchedule 0 newYear) s afterNewYear ∧
          s'.runs[0]? = some { feed := 0, kind := .sched, run := none })) = some true := by
    decide +kernel
  obtain ⟨s, hrun, heval⟩ := Option.bind_eq_some_iff.mp heval
  obtain ⟨s', hrun', heval⟩ := Option.map_eq_some_iff.mp heval
  obtain ⟨hk, hok, hreturned⟩ := of_decide_eq_true heval
  exact ⟨s, s', hrun, hrun', handed_over_of_scheduled (p := newYear) hrun hrun'
    (by decide +kernel) (by decide +kernel) (by decide +kernel) hk hok hreturned⟩

end Z4.Deadline
