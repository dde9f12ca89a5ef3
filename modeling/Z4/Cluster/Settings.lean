import Z4.Feeds.Queries
import Z4.Foundations.Runs

/-!
# The config of a queue across leaders

An open feed keeps a copy of its queue's config, loaded from the store of its peer when the feed was
opened. `UpdateQueue` and the checkpoints change the copy, and once a second `trySave` proposes the
whole of it to the Raft log if it differs from what was saved last. Feeds stay open when their peer
loses the leadership. A copy that was made before another leader's update is then older than what
the log holds, and it is proposed again as a whole once its peer is back in the lead.

## Which update a deadline is from

A config is kept together with the number of the `UpdateQueue` call that set its deadline. The
program has no such number; it tells an older deadline from a newer one, which the values alone do
not.

## The log

`log` has the queue's commands that make it into the log, in its order. A command gets its place
while its proposer leads. Whether the proposer learns of it is another matter: `Apply` can return an
error for a command that is committed all the same.
-/

namespace Z4.Settings

open Runs

variable {ι : Type}

/-! ## The system -/

/-- A config, and which `UpdateQueue` call set its deadline, counted from one; zero when none. -/
structure Version where
  config : QueueConfig
  setBy : ℕ := 0
deriving DecidableEq

def Version.deadline (v : Version) : Int32 := v.config.ackDeadlineSeconds

/-- A proposal that `trySave` waits for. -/
structure Saving where
  snapshot : Version
  logged : Bool := false

/-- Where a `SyncedSettings` stands. -/
inductive Phase where
  /-- In `load`, with the default config to be saved first. -/
  | loading
  | running
  /-- In the `trySave` of `Close`. -/
  | closing
deriving DecidableEq

/-- `SyncedSettings`, of an open feed. -/
structure Synced where
  S : Version
  lastSaved : Option QueueConfig := none
  saving : Option Saving := none
  phase : Phase := .running

structure Cluster (ι : Type) where
  log : List Version := []
  leader : Option ι := none
  /-- How many of the queue's commands each peer has applied. -/
  applied : ι → ℕ := fun _ ↦ 0
  feeds : ι → Option Synced := fun _ ↦ none
  /-- The deadlines that `UpdateQueue` calls have set, in their order. -/
  updates : List Int32 := []

/-- What `trySave` does up to its proposal. -/
def Synced.trySave (f : Synced) : Synced :=
  if some f.S.config = f.lastSaved then f else { f with saving := some { snapshot := f.S } }

inductive Event (ι : Type) where
  | elect (p : ι)
  | stepDown
  /-- The peer applies the next command. -/
  | apply (p : ι)
  /-- The feed of the queue is opened, and its settings are loaded. -/
  | openFeed (p : ι)
  /-- `UpdateQueue`. -/
  | update (p : ι) (ackDeadlineSeconds : Int32)
  | fifoCheckpoint (p : ι) (task : Task)
  | schedCheckpoint (p : ι) (task : Task)
  | tick (p : ι)
  /-- The proposal of the peer gets its place in the log. -/
  | commit (p : ι)
  /-- `Apply` returns. -/
  | saved (p : ι) (ok : Bool)
  /-- The feed is closed. -/
  | close (p : ι)

/-- The config that the store of the peer has. -/
def Cluster.stored (s : Cluster ι) (p : ι) : Option Version := (s.log.take (s.applied p)).getLast?

/-- What `load` makes of it. -/
def load (queue : GoString) : Option Version → Synced
  | some v => { S := v }
  | none =>
    { S := { config := defaultConfig queue }
      saving := some { snapshot := { config := defaultConfig queue } }
      phase := .loading }

variable [DecidableEq ι]

def Cluster.setFeed (s : Cluster ι) (p : ι) (f : Option Synced) : Cluster ι :=
  { s with feeds := Function.update s.feeds p f }

/-- The feed after `Apply` has returned. -/
def Synced.afterApply (f : Synced) (x : Saving) (ok : Bool) : Option Synced :=
  let f := { f with
    saving := none
    lastSaved := if ok then some x.snapshot.config else f.lastSaved }
  match f.phase with
  | .loading => if ok then some { f with phase := .running } else none
  | .running => some f
  | .closing => none

def step (queue : GoString) (s : Cluster ι) : Event ι → Option (Cluster ι)
  | .elect p => some { s with leader := some p }
  | .stepDown => some { s with leader := none }
  | .apply p =>
    if s.applied p < s.log.length then
      some { s with applied := Function.update s.applied p (s.applied p + 1) }
    else none
  | .openFeed p =>
    match s.feeds p with
    | some _ => none
    | none => some (s.setFeed p (some (load queue (s.stored p))))
  | .update p secs =>
    match s.feeds p with
    | none => none
    | some f =>
      if s.leader = some p ∧ f.phase = .running then
        -- a request without a deadline is served and changes nothing
        if secs ≠ 0 then
          some { s.setFeed p (some { f with
              S := { config := updateQueue f.S.config secs, setBy := s.updates.length + 1 } }) with
            updates := s.updates ++ [secs] }
        else some s
      else none
  | .fifoCheckpoint p task => (s.feeds p).map fun f ↦
    s.setFeed p (some { f with S := { f.S with config := fifoCheckpointerSet f.S.config task } })
  | .schedCheckpoint p task => (s.feeds p).map fun f ↦
    s.setFeed p (some { f with S := { f.S with config := schedCheckpointerSet f.S.config task } })
  | .tick p =>
    match s.feeds p with
    | none => none
    | some f =>
      if f.phase = .running ∧ f.saving.isNone then some (s.setFeed p (some f.trySave)) else none
  | .commit p =>
    match s.feeds p with
    | none => none
    | some f =>
      match f.saving with
      | none => none
      | some x =>
        if s.leader = some p ∧ x.logged = false then
          some { s.setFeed p (some { f with saving := some { x with logged := true } }) with
            log := s.log ++ [x.snapshot] }
        else none
  | .saved p ok =>
    match s.feeds p with
    | none => none
    | some f =>
      match f.saving with
      | none => none
      | some x =>
        -- an error may be returned for a command that is in the log all the same
        if ok = true → x.logged = true then some (s.setFeed p (f.afterApply x ok)) else none
  | .close p =>
    match s.feeds p with
    | none => none
    | some f =>
      if f.phase = .running ∧ f.saving.isNone then
        if some f.S.config = f.lastSaved then some (s.setFeed p none)
        else some (s.setFeed p (some { f.trySave with phase := .closing }))
      else none

/-! ## Reverting an update -/

/-- The deadline of the last command of the log. -/
def deadlineOf (log : List Version) : Int32 :=
  (log.getLast?.map Version.deadline).getD (defaultConfig []).ackDeadlineSeconds

/-- After a command with a deadline that an `UpdateQueue` call has set, every command has the same
deadline or one that a later call has set. -/
def NotReverted (s : Cluster ι) : Prop :=
  s.log.Pairwise fun a b ↦ a.setBy ≠ 0 →
    b.deadline = a.deadline ∨ b.deadline ∈ s.updates.drop a.setBy

instance (s : Cluster ι) : Decidable (NotReverted s) :=
  inferInstanceAs (Decidable (List.Pairwise _ s.log))

/-- The version has the deadline of the last command of the log, or one that was set after every
deadline of the log. -/
def Fresh (log : List Version) (v : Version) : Prop :=
  v.deadline = deadlineOf log ∨ ∀ e ∈ log, e.setBy < v.setBy

instance (log : List Version) (v : Version) : Decidable (Fresh log v) :=
  inferInstanceAs (Decidable (_ ∨ ∀ e ∈ log, _))

/-- The copy is fresh, and so is what it has proposed. -/
def Synced.Fresh (log : List Version) (f : Synced) : Prop :=
  Settings.Fresh log f.S ∧ ∀ x ∈ f.saving, x.logged = false → Settings.Fresh log x.snapshot

instance (log : List Version) (f : Synced) : Decidable (f.Fresh log) :=
  inferInstanceAs (Decidable (_ ∧ ∀ x ∈ f.saving, _))

/-- Who becomes leader has no copy that is out of date, and a leader that opens a feed loads
none. -/
def Current (queue : GoString) (s : Cluster ι) : Event ι → Prop
  | .elect p => ∀ f ∈ s.feeds p, f.Fresh s.log
  | .openFeed p => s.leader = some p → (load queue (s.stored p)).Fresh s.log
  | _ => True

instance (queue : GoString) (s : Cluster ι) : (e : Event ι) → Decidable (Current queue s e)
  | .elect p => inferInstanceAs (Decidable (∀ f ∈ s.feeds p, _))
  | .openFeed _ => inferInstanceAs (Decidable (_ → _))
  | .stepDown | .apply _ | .update _ _ | .fifoCheckpoint _ _ | .schedCheckpoint _ _ | .tick _
  | .commit _ | .saved _ _ | .close _ => .isTrue trivial

/-! ## Versions -/

/-- The deadline is the one that the call in question has set. -/
def Known (updates : List Int32) (v : Version) : Prop :=
  v.setBy ≤ updates.length ∧ (v.setBy ≠ 0 → updates[v.setBy - 1]? = some v.deadline)

section

variable {log : List Version} {updates : List Int32} {v w : Version} {f f' : Synced}

theorem Known.append (h : Known updates v) (secs : Int32) : Known (updates ++ [secs]) v := by
  refine ⟨h.1.trans (by simp), fun hne ↦ ?_⟩
  rw [List.getElem?_append_left (by have := h.1; omega)]
  exact h.2 hne

theorem Known.mem_drop (h : Known updates v) {n : ℕ} (hlt : n < v.setBy) :
    v.deadline ∈ updates.drop n := by
  refine List.mem_of_getElem? (i := v.setBy - 1 - n) ?_
  rw [List.getElem?_drop, show n + (v.setBy - 1 - n) = v.setBy - 1 by omega]
  exact h.2 (by omega)

theorem deadlineOf_concat : deadlineOf (log ++ [v]) = v.deadline := by
  simp [deadlineOf]

/-- The snapshot of an older copy: the copy has the same deadline, or one that was set later. -/
def Older (v w : Version) : Prop := v.deadline = w.deadline ∨ v.setBy < w.setBy

/-- A copy stays fresh when a fresh snapshot of it gets into the log. -/
theorem Fresh.concat (hw : Fresh log w) (hv : Fresh log v) (hold : Older v w) :
    Fresh (log ++ [v]) w := by
  rw [Fresh, deadlineOf_concat]
  rcases hold with heq | hlt
  · exact .inl heq.symm
  · have hmem : (∀ e ∈ log, e.setBy < w.setBy) → ∀ e ∈ log ++ [v], e.setBy < w.setBy := by
      intro h e he
      rcases List.mem_append.mp he with he | he
      · exact h e he
      · rwa [List.mem_singleton.mp he]
    rcases hw with hw | hw
    · rcases hv with hv | hv
      · exact .inl (hw.trans hv.symm)
      · exact .inr (hmem fun e he ↦ (hv e he).trans hlt)
    · exact .inr (hmem hw)

/-- A fresh version reverts nothing. -/
theorem pairwise_concat_of_fresh
    (h : log.Pairwise fun a b ↦ a.setBy ≠ 0 →
      b.deadline = a.deadline ∨ b.deadline ∈ updates.drop a.setBy)
    (hv : Fresh log v) (hknown : Known updates v) :
    (log ++ [v]).Pairwise fun a b ↦ a.setBy ≠ 0 →
      b.deadline = a.deadline ∨ b.deadline ∈ updates.drop a.setBy := by
  refine List.pairwise_append.mpr ⟨h, List.pairwise_singleton _ _, fun a ha b hb hne ↦ ?_⟩
  rw [List.mem_singleton.mp hb]
  rcases hv with hv | hv
  · -- the deadline is that of the last command, which has been compared with the others
    cases hlast : log.getLast? with
    | none =>
      rw [List.getLast?_eq_none_iff.mp hlast] at ha
      exact absurd ha List.not_mem_nil
    | some e =>
      have he : v.deadline = e.deadline := by rw [hv, deadlineOf, hlast]; rfl
      obtain ⟨init, rfl⟩ := List.getLast?_eq_some_iff.mp hlast
      rw [he]
      rcases List.mem_append.mp ha with ha | ha
      · exact (List.pairwise_append.mp h).2.2 a ha e List.mem_cons_self hne
      · exact .inl (by rw [List.mem_singleton.mp ha])
  · exact .inr (hknown.mem_drop (hv a ha))

/-! ## Copies -/

/-- What is known of an open feed on any peer. -/
def Synced.Consistent (updates : List Int32) (f : Synced) : Prop :=
  Known updates f.S ∧ ∀ x ∈ f.saving, Known updates x.snapshot ∧ Older x.snapshot f.S

theorem Synced.Consistent.append (h : f.Consistent updates) (secs : Int32) :
    f.Consistent (updates ++ [secs]) :=
  ⟨h.1.append secs, fun x hx ↦ ⟨(h.2 x hx).1.append secs, (h.2 x hx).2⟩⟩

/-- The deadlines and their origins stay: what is proposed was proposed before, or is the copy. -/
structure Synced.Keeps (f f' : Synced) : Prop where
  deadline : f'.S.deadline = f.S.deadline
  setBy : f'.S.setBy = f.S.setBy
  saving : ∀ x ∈ f'.saving, x.snapshot = f.S ∨ ∃ y ∈ f.saving, y = x

theorem Synced.Keeps.consistent (hk : f.Keeps f') (h : f.Consistent updates) :
    f'.Consistent updates := by
  obtain ⟨hd, hs, hsaving⟩ := hk
  refine ⟨?_, fun x hx ↦ ?_⟩
  · rw [Known, hd, hs]
    exact h.1
  · rw [Older, hd, hs]
    rcases hsaving x hx with heq | ⟨y, hy, rfl⟩
    · rw [heq]
      exact ⟨h.1, .inl rfl⟩
    · exact h.2 y hy

theorem Synced.Keeps.fresh (hk : f.Keeps f') (h : f.Fresh log) : f'.Fresh log := by
  obtain ⟨hd, hs, hsaving⟩ := hk
  refine ⟨?_, fun x hx hlogged ↦ ?_⟩
  · rw [Settings.Fresh, hd, hs]
    exact h.1
  · rcases hsaving x hx with heq | ⟨y, hy, rfl⟩
    · rw [heq]
      exact h.1
    · exact h.2 y hy hlogged

theorem Synced.keeps_trySave (f : Synced) : f.Keeps f.trySave := by
  rw [Synced.trySave]
  split
  · exact ⟨rfl, rfl, fun x hx ↦ .inr ⟨x, hx, rfl⟩⟩
  · exact ⟨rfl, rfl, fun x hx ↦ .inl (by rw [← Option.some.inj hx])⟩

theorem Synced.keeps_afterApply {x : Saving} {ok : Bool} (h : f.afterApply x ok = some f') :
    f.Keeps f' := by
  rw [Synced.afterApply] at h
  have hkeeps : ∀ g : Synced, g.S = f.S → g.saving = none → f.Keeps g := fun g hS hsaving ↦
    ⟨by rw [hS], by rw [hS], fun x hx ↦ absurd hx (by simp [hsaving])⟩
  split at h
  · split at h
    · exact hkeeps f' (by rw [← Option.some.inj h]) (by rw [← Option.some.inj h])
    · simp at h
  · exact hkeeps f' (by rw [← Option.some.inj h]) (by rw [← Option.some.inj h])
  · simp at h

end

/-! ## Runs of the cluster -/

structure Inv (s : Cluster ι) : Prop where
  notReverted : NotReverted s
  known : ∀ v ∈ s.log, Known s.updates v
  consistent : ∀ p f, s.feeds p = some f → f.Consistent s.updates
  fresh : ∀ p f, s.leader = some p → s.feeds p = some f → f.Fresh s.log

omit [DecidableEq ι] in
theorem inv_init : Inv ({} : Cluster ι) :=
  ⟨.nil, by simp, by simp, by simp⟩

section

variable {queue : GoString} {s t : Cluster ι} {p r : ι} {f f' : Synced} {o : Option Synced}

theorem feeds_setFeed (h : (s.setFeed p o).feeds r = some f) :
    r = p ∧ o = some f ∨ s.feeds r = some f := by
  by_cases hrp : r = p
  · subst hrp
    exact .inl ⟨rfl, by simpa [Cluster.setFeed] using h⟩
  · exact .inr (by simpa [Cluster.setFeed, hrp] using h)

theorem Inv.setFeed (h : Inv s) (hconsistent : ∀ f ∈ o, f.Consistent s.updates)
    (hfresh : ∀ f ∈ o, s.leader = some p → f.Fresh s.log) : Inv (s.setFeed p o) := by
  refine ⟨h.notReverted, h.known, fun r f hr ↦ ?_, fun r f hl hr ↦ ?_⟩
  · rcases feeds_setFeed hr with ⟨-, hf⟩ | hr
    · exact hconsistent f hf
    · exact h.consistent r f hr
  · rcases feeds_setFeed hr with ⟨rfl, hf⟩ | hr
    · exact hfresh f hf hl
    · exact h.fresh r f hl hr

theorem Inv.keeps (h : Inv s) (hf : s.feeds p = some f) (hkeeps : ∀ f' ∈ o, f.Keeps f') :
    Inv (s.setFeed p o) :=
  h.setFeed (fun f' hf' ↦ (hkeeps f' hf').consistent (h.consistent p f hf))
    fun f' hf' hl ↦ (hkeeps f' hf').fresh (h.fresh p f hl hf)

theorem Inv.openFeed (h : Inv s) (hok : Current queue s (.openFeed p))
    (hs : step queue s (.openFeed p) = some t) : Inv t := by
  rw [step] at hs
  split at hs
  · simp at hs
  · obtain rfl := Option.some.inj hs
    refine h.setFeed (fun f hf ↦ ?_) fun f hf hl ↦ Option.some.inj hf ▸ hok hl
    obtain rfl := Option.some.inj hf
    cases hstored : s.stored p with
    | none =>
      have hzero : Known s.updates { config := defaultConfig queue } :=
        ⟨Nat.zero_le _, fun hne ↦ absurd rfl hne⟩
      refine ⟨hzero, fun x hx ↦ ?_⟩
      obtain rfl := Option.some.inj hx
      exact ⟨hzero, .inl rfl⟩
    | some v =>
      have hmem := List.mem_of_mem_take (List.mem_of_getLast? hstored)
      exact ⟨h.known v hmem, by simp [load]⟩

theorem Inv.update {secs : Int32} (h : Inv s) (hs : step queue s (.update p secs) = some t) :
    Inv t := by
  rw [step] at hs
  split at hs
  · simp at hs
  · rename_i f hf
    split at hs
    · rename_i hlead
      split at hs
      · rename_i hsecs
        obtain rfl := Option.some.inj hs
        obtain ⟨hknown, hsaving⟩ := h.consistent p f hf
        have hdeadline : (updateQueue f.S.config secs).ackDeadlineSeconds = secs := by
          rw [updateQueue, if_pos hsecs]
        refine ⟨?_, fun v hv ↦ (h.known v hv).append secs, fun r g hr ↦ ?_, fun r g hl hr ↦ ?_⟩
        · refine h.notReverted.imp fun hab hne ↦ (hab hne).imp_right fun hmem ↦ ?_
          rw [List.drop_append]
          exact List.mem_append_left _ hmem
        · rcases feeds_setFeed hr with ⟨-, hg⟩ | hr
          · obtain rfl := Option.some.inj hg
            refine ⟨⟨by simp, fun _ ↦ ?_⟩, fun x hx ↦ ?_⟩
            · simp [Version.deadline, hdeadline]
            · obtain ⟨hx', -⟩ := hsaving x hx
              exact ⟨hx'.append secs, .inr (Nat.lt_succ_of_le hx'.1)⟩
          · exact (h.consistent r g hr).append secs
        · rcases feeds_setFeed hr with ⟨rfl, hg⟩ | hr
          · -- the call is later than every one whose deadline is in the log
            obtain rfl := Option.some.inj hg
            refine ⟨.inr fun e he ↦ Nat.lt_succ_of_le (h.known e he).1, ?_⟩
            exact (h.fresh r f hl hf).2
          · exact h.fresh r g hl hr
      · obtain rfl := Option.some.inj hs
        exact h
    · simp at hs

theorem Inv.commit (h : Inv s) (hs : step queue s (.commit p) = some t) : Inv t := by
  rw [step] at hs
  split at hs
  · simp at hs
  · rename_i f hf
    split at hs
    · simp at hs
    · rename_i x hx
      split at hs
      · rename_i hcond
        obtain ⟨hlead, hlogged⟩ := hcond
        obtain rfl := Option.some.inj hs
        obtain ⟨hknown, hsaving⟩ := h.consistent p f hf
        obtain ⟨hS, hsnap⟩ := h.fresh p f hlead hf
        obtain ⟨hxknown, hxolder⟩ := hsaving x hx
        have hxfresh := hsnap x hx hlogged
        refine ⟨pairwise_concat_of_fresh h.notReverted hxfresh hxknown, fun v hv ↦ ?_,
          fun r g hr ↦ ?_, fun r g hl hr ↦ ?_⟩
        · rcases List.mem_append.mp hv with hv | hv
          · exact h.known v hv
          · rw [List.mem_singleton.mp hv]
            exact hxknown
        · rcases feeds_setFeed hr with ⟨-, hg⟩ | hr
          · obtain rfl := Option.some.inj hg
            refine ⟨hknown, fun y hy ↦ ?_⟩
            obtain rfl := Option.some.inj hy
            exact ⟨hxknown, hxolder⟩
          · exact h.consistent r g hr
        · -- the leader is the proposer, and its copy is no older than the snapshot
          obtain rfl : p = r := Option.some.inj (hlead.symm.trans hl)
          rw [Cluster.setFeed] at hr
          obtain rfl := by simpa using hr
          refine ⟨hS.concat hxfresh hxolder, fun y hy hylogged ↦ ?_⟩
          obtain rfl := Option.some.inj hy
          simp at hylogged
      · simp at hs

theorem Inv.tick (h : Inv s) (hs : step queue s (.tick p) = some t) : Inv t := by
  rw [step] at hs
  split at hs
  · simp at hs
  · rename_i f hf
    split at hs
    · obtain rfl := Option.some.inj hs
      refine h.keeps hf fun f' hf' ↦ ?_
      obtain rfl := Option.some.inj hf'
      exact f.keeps_trySave
    · simp at hs

theorem Inv.saved {ok : Bool} (h : Inv s) (hs : step queue s (.saved p ok) = some t) : Inv t := by
  rw [step] at hs
  split at hs
  · simp at hs
  · rename_i f hf
    split at hs
    · simp at hs
    · split at hs
      · obtain rfl := Option.some.inj hs
        exact h.keeps hf fun f' hf' ↦ Synced.keeps_afterApply hf'
      · simp at hs

theorem Inv.close (h : Inv s) (hs : step queue s (.close p) = some t) : Inv t := by
  rw [step] at hs
  split at hs
  · simp at hs
  · rename_i f hf
    split at hs
    · split at hs
      · obtain rfl := Option.some.inj hs
        exact h.keeps hf (by simp)
      · obtain rfl := Option.some.inj hs
        refine h.keeps hf fun f' hf' ↦ ?_
        obtain rfl := Option.some.inj hf'
        obtain ⟨hd, hset, hsaving⟩ := f.keeps_trySave
        exact ⟨hd, hset, hsaving⟩
    · simp at hs

theorem Inv.checkpoint (h : Inv s) (hf : s.feeds p = some f) {c : QueueConfig}
    (hc : c.ackDeadlineSeconds = f.S.config.ackDeadlineSeconds) :
    Inv (s.setFeed p (some { f with S := { f.S with config := c } })) := by
  refine h.keeps hf fun f' hf' ↦ ?_
  obtain rfl := Option.some.inj hf'
  exact ⟨hc, rfl, fun x hx ↦ .inr ⟨x, hx, rfl⟩⟩

theorem Inv.step {e : Event ι} (h : Inv s) (hok : Current queue s e)
    (hs : step queue s e = some t) : Inv t := by
  cases e with
  | elect p =>
    obtain rfl := Option.some.inj hs
    refine ⟨h.notReverted, h.known, h.consistent, fun r f hl hr ↦ ?_⟩
    obtain rfl : p = r := Option.some.inj hl
    exact hok f hr
  | stepDown =>
    obtain rfl := Option.some.inj hs
    exact ⟨h.notReverted, h.known, h.consistent, by simp⟩
  | apply p =>
    rw [Settings.step] at hs
    split at hs
    · obtain rfl := Option.some.inj hs
      exact ⟨h.notReverted, h.known, h.consistent, h.fresh⟩
    · simp at hs
  | openFeed p => exact h.openFeed hok hs
  | update p secs => exact h.update hs
  | fifoCheckpoint p task =>
    obtain ⟨f, hf, rfl⟩ := Option.map_eq_some_iff.mp hs
    exact h.checkpoint hf rfl
  | schedCheckpoint p task =>
    obtain ⟨f, hf, rfl⟩ := Option.map_eq_some_iff.mp hs
    exact h.checkpoint hf rfl
  | tick p => exact h.tick hs
  | commit p => exact h.commit hs
  | saved p ok => exact h.saved hs
  | close p => exact h.close hs

/-- **When no update is reverted.** In every run in which no peer becomes leader with an open feed
whose copy of the deadline is out of date, and no leader loads one, an `UpdateQueue` that is in the
log is followed only by its own deadline and by those of later calls. -/
theorem notReverted_of_current {es : List (Event ι)}
    (hok : Meets (Settings.step queue) (Current queue) {} es)
    (hrun : run (Settings.step queue) {} es = some s) : NotReverted s :=
  (Meets.invariant (fun _ _ _ h hok hs ↦ Inv.step h hok hs) inv_init hok hrun).notReverted

end

/-- The leader opens the feed of a new queue, and the default config is committed. -/
def newQueue (p : ι) : List (Event ι) := [.elect p, .openFeed p, .commit p, .saved p true]

/-- The other peer, up to date, takes the lead and commits a deadline of one minute. -/
def updated (p : ι) : List (Event ι) :=
  [.apply p, .elect p, .openFeed p, .update p 60, .tick p, .commit p, .saved p true]

/-- A task is delivered, and the config is committed with the checkpoint. -/
def delivered (p : ι) : List (Event ι) := [.fifoCheckpoint p firstTask, .tick p, .commit p]

/-- The first leader is back with its feed reopened. -/
def reopened : List (Event Bool) :=
  newQueue false ++ updated true ++
    [.close false, .apply false, .apply false, .elect false, .openFeed false] ++ delivered false

theorem notReverted_reopened :
    ∃ s, run (step (lit "q")) {} reopened = some s ∧
      s.log.map Version.deadline = [300, 60, 60] ∧ NotReverted s := by
  have hlog : (run (step (lit "q")) {} reopened).map (fun s ↦ s.log.map Version.deadline)
      = some [300, 60, 60] := by decide +kernel
  have hok : Meets (step (lit "q")) (Current (lit "q")) {} reopened := by decide +kernel
  obtain ⟨s, hrun, hs⟩ := Option.map_eq_some_iff.mp hlog
  exact ⟨s, hrun, hs, notReverted_of_current hok hrun⟩

/-- The first leader is back with its feed still open. -/
def leftOpen : List (Event Bool) :=
  newQueue false ++ updated true ++ [.apply false, .apply false, .elect false] ++ delivered false

theorem reverted_leftOpen :
    ∃ s, run (step (lit "q")) {} leftOpen = some s ∧ s.updates = [60] ∧
      s.log.map Version.deadline = [300, 60, 300] ∧ ¬NotReverted s := by
  have h : (run (step (lit "q")) {} leftOpen).map
      (fun s ↦ (s.updates, s.log.map Version.deadline, decide (NotReverted s)))
      = some ([60], [300, 60, 300], false) := by decide +kernel
  obtain ⟨s, hrun, hs⟩ := Option.map_eq_some_iff.mp h
  obtain ⟨hupdates, hs⟩ := Prod.mk.inj hs
  obtain ⟨hlog, hnot⟩ := Prod.mk.inj hs
  exact ⟨s, hrun, hupdates, hlog, of_decide_eq_false hnot⟩

end Z4.Settings
