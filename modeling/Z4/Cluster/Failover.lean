import Z4.Api.Push
import Z4.Foundations.Runs
import Z4.Storage.IndexStore

/-!
# Indexes across failover

Any number of peers share one Raft log. The leader takes the index of a task from its own
`IndexStore`, writes the task into the log, and every peer applies the log to its own store, in
batches of its own choosing. A peer that is not leader also records the largest index of each queue
in the batch, so that it can pick up the count should it become leader.

A call of `IndexStore.Next` is two steps, as in `Z4.Storage.IndexStore`: it takes the sequence of
the queue from the cache, and later calls `Next` on what it holds. In between anything may happen,
a change of leadership included.

## The three copies of the counter

A peer's position in a queue is that of its cached `Sequence`, or else the stored counter. Applying
a batch never touches the cache, overwrites the stored counter where it should raise it, and leaves
it alone on a peer that already counts as leader. So a peer can be behind the log it has applied,
and as leader it then hands out indexes that are in use.

`Covering` spells out, step by step, when this does not happen, and `Inv` is what every such run
keeps: no peer is behind what it applied, and the leader is behind nothing at all.
-/

namespace Z4.Failover

open KeyValue

variable {ι : Type}

/-! ## The cluster -/

/-- A process: its `IndexStore` with the store under it, and how much of the log it has applied. -/
structure Peer where
  index : IndexStore.State := {}
  applied : ℕ := 0

/-- A push that has its index and is not in the log yet. -/
structure Waiting (ι : Type) where
  peer : ι
  /-- The leadership in which the index was taken. -/
  term : ℕ
  task : Task

structure Cluster (ι : Type) where
  peers : ι → Peer := fun _ ↦ {}
  /-- The committed entries. -/
  log : List Command := []
  leader : Option ι := none
  term : ℕ := 0
  /-- How much was committed when the leader was elected. -/
  electedAt : ℕ := 0
  waiting : List (Waiting ι) := []

inductive Event (ι : Type) where
  | elect (p : ι)
  | stepDown
  /-- A push on the leader takes the sequence of its queue, with the outcomes of the storage
  writes; `victim` is the queue the cache drops if it is full. -/
  | get (p : ι) (queue victim : GoString) (loadOk closeOk : Bool)
  /-- The push calls `Next` on the sequence it holds, and `makeTask` returns. -/
  | next (p : ι) (call : ℕ) (req : PushTaskRequest) (created now : Time) (ok : Bool)
  /-- A waiting push is committed, in whatever order the pushes reach Raft. -/
  | commit (k : ℕ)
  /-- An ack or a config is committed. -/
  | commitOther (cmd : Command)
  /-- A peer applies the next `n` entries as one batch, of whose configs it can save `saved`; `ok`
  is the outcome of `SaveAll`. -/
  | apply (p : ι) (n saved : ℕ) (ok : Bool)
  /-- A peer deletes acknowledged tasks. -/
  | flush (p : ι) (acks : List Ack)

/-- The entries a peer applies next. -/
def Cluster.batch (c : Cluster ι) (p : ι) (n : ℕ) : List Command :=
  (c.log.drop (c.peers p).applied).take n

/-- A batch on the store: the configs, and the tasks with `saveIndex` on peers that do not lead. The
two groups touch different keys, so their order is immaterial. Acks only reach a buffer here. -/
def applyBatch (saveIndex : Bool) (batch : List Command) (saved : ℕ) (ok : Bool) (db : DB) :
    Option DB :=
  let db := ((configsOf batch).take saved).foldl (fun db c ↦ saveSettings c db) db
  if ok then saveAll (tasksOf batch) saveIndex db else some db

/-- Replace one peer. -/
def Cluster.setPeer [DecidableEq ι] (c : Cluster ι) (p : ι) (x : Peer) : Cluster ι :=
  { c with peers := Function.update c.peers p x }

/-- The store of a peer after a step of its own. -/
def Cluster.setIndex [DecidableEq ι] (c : Cluster ι) (p : ι) (s : IndexStore.State) : Cluster ι :=
  c.setPeer p { c.peers p with index := s }

def step [DecidableEq ι] (c : Cluster ι) : Event ι → Option (Cluster ι)
  | .elect p =>
    some { c with leader := some p, term := c.term + 1, electedAt := c.log.length }
  | .stepDown => some { c with leader := none }
  | .get p queue victim loadOk closeOk =>
    -- a leader serves pushes only once it has applied what was committed before its election
    if c.leader = some p ∧ c.electedAt ≤ (c.peers p).applied then
      ((c.peers p).index.get queue victim loadOk closeOk).map (c.setIndex p)
    else none
  | .next p call req created now ok =>
    if (c.peers p).index.calls[call]?.map Prod.fst = some req.queue then
      ((c.peers p).index.next call ok).map fun r ↦
        { c.setIndex p r.1 with
          waiting := c.waiting ++
            (r.2.map fun i ↦ ⟨p, c.term, makeTask req created now i⟩).toList }
    else none
  | .commit k =>
    match c.waiting[k]? with
    | some w =>
      if c.leader = some w.peer then
        some { c with log := c.log ++ [.task w.task], waiting := c.waiting.eraseIdx k }
      else none
    | none => none
  | .commitOther cmd =>
    if cmd.task?.isNone then some { c with log := c.log ++ [cmd] } else none
  | .apply p n saved ok =>
    let x := c.peers p
    if x.applied + n ≤ c.log.length then
      (applyBatch (c.leader ≠ some p) (c.batch p n) saved ok x.index.db).map fun db ↦
        c.setPeer p { index := { x.index with db }, applied := x.applied + n }
    else none
  | .flush p acks =>
    let s := (c.peers p).index
    some (c.setIndex p { s with db := deleteAll acks s.db })

/-- The index after which a peer resumes the count of a queue. -/
def Cluster.position (c : Cluster ι) (p : ι) (q : GoString) : ℕ :=
  (IndexStore.position (c.peers p).index q).toNat

/-- No two tasks of one queue carry the same index. -/
def Apart (t u : Task) : Prop := t.queue = u.queue → taskIndex t ≠ taskIndex u

instance (t u : Task) : Decidable (Apart t u) := inferInstanceAs (Decidable (_ → _))

/-- No two committed tasks of one queue carry the same index. -/
def IndexesDistinct (log : List Command) : Prop := (tasksOf log).Pairwise Apart

instance (log : List Command) : Decidable (IndexesDistinct log) :=
  inferInstanceAs (Decidable (List.Pairwise _ _))

/-! ## Runs that keep the counters ahead -/

/-- What a task of a batch asks of a peer that does not lead: a cached sequence is not moved by the
batch, and without one the stored counter ends at the largest index of the batch. -/
def TaskCovered (s : IndexStore.State) (earlier batch : List Task) (t : Task) : Prop :=
  match s.sequence t.queue with
  | some u => taskIndex t ≤ u.i.toNat
  | none => ∀ u ∈ earlier, u.queue = t.queue → taskIndex u ≤ maxIndex t.queue batch

instance (s : IndexStore.State) (earlier batch : List Task) (t : Task) :
    Decidable (TaskCovered s earlier batch t) :=
  match h : s.sequence t.queue with
  | some u => decidable_of_iff (taskIndex t ≤ u.i.toNat) (by rw [TaskCovered, h])
  | none =>
    decidable_of_iff (∀ u ∈ earlier, u.queue = t.queue → taskIndex u ≤ maxIndex t.queue batch)
      (by rw [TaskCovered, h])

/-- What a batch asks of a peer before it is applied; `ok` is the outcome of `SaveAll`. -/
def BatchCovered [DecidableEq ι] (c : Cluster ι) (p : ι) (n : ℕ) (ok : Bool) : Prop :=
  if c.leader = some p then
    -- entries from before the election bypass the stored counter
    ∀ t ∈ tasksOf (((c.log.take c.electedAt).drop (c.peers p).applied).take n),
      taskIndex t ≤ c.position p t.queue
  else if ok then
    ∀ t ∈ tasksOf (c.batch p n), TaskCovered (c.peers p).index
      (tasksOf (c.log.take (c.peers p).applied)) (tasksOf (c.batch p n)) t
  else
    -- nothing is recorded, and the batch counts as applied
    ∀ t ∈ tasksOf (c.batch p n), taskIndex t ≤ c.position p t.queue

instance [DecidableEq ι] (c : Cluster ι) (p : ι) (n : ℕ) (ok : Bool) :
    Decidable (BatchCovered c p n ok) := by
  delta BatchCovered
  infer_instance

/-- The step keeps the counters ahead, judged in the state before it. -/
def Covering [DecidableEq ι] (c : Cluster ι) : Event ι → Prop
  | .get p queue victim _ closeOk => IndexStore.Spared (c.peers p).index queue victim closeOk
  | .next p _ req _ now _ => c.position p req.queue + 1 < 2 ^ 64 ∧
      2 ^ 56 ≤ (getRunTime req now).unixNano.toUInt64.toNat ∧
      (c.leader = some p → c.electedAt ≤ (c.peers p).applied)
  | .commit k => ∀ w ∈ c.waiting[k]?, w.term = c.term
  | .apply p n _ ok => BatchCovered c p n ok
  | _ => True

instance [DecidableEq ι] (c : Cluster ι) : (a : Event ι) → Decidable (Covering c a)
  | .elect _ | .stepDown | .commitOther _ | .flush _ _ => inferInstanceAs (Decidable True)
  | .get p queue victim _ closeOk =>
    inferInstanceAs (Decidable (IndexStore.Spared (c.peers p).index queue victim closeOk))
  | .next _ _ _ _ _ _ => inferInstanceAs (Decidable (_ ∧ _ ∧ (_ → _)))
  | .commit k => inferInstanceAs (Decidable (∀ w ∈ c.waiting[k]?, w.term = c.term))
  | .apply p n _ ok => inferInstanceAs (Decidable (BatchCovered c p n ok))

section

variable [DecidableEq ι]

/-- The leader can commit the push, in the leadership in which it took the index. -/
def Cluster.Current (c : Cluster ι) (w : Waiting ι) : Prop :=
  c.leader = some w.peer ∧ w.term = c.term

instance (c : Cluster ι) (w : Waiting ι) : Decidable (c.Current w) :=
  inferInstanceAs (Decidable (_ ∧ _))

/-- The waiting pushes of the current leadership. -/
def Cluster.current (c : Cluster ι) : List Task :=
  (c.waiting.filter (c.Current ·)).map Waiting.task

structure Inv (c : Cluster ι) : Prop where
  linked : ∀ p, IndexStore.Linked (c.peers p).index
  /-- No peer is behind what it has applied. -/
  covered : ∀ p, ∀ t ∈ tasksOf (c.log.take (c.peers p).applied), taskIndex t ≤ c.position p t.queue
  /-- The leader is not behind what was committed since its election. -/
  led : ∀ p, c.leader = some p → ∀ t ∈ tasksOf (c.log.drop c.electedAt),
    taskIndex t ≤ c.position p t.queue
  /-- The leader is not behind what it has waiting. -/
  pending : ∀ p, c.leader = some p → ∀ t ∈ c.current, taskIndex t ≤ c.position p t.queue
  term_le : ∀ w ∈ c.waiting, w.term ≤ c.term
  applied_le : ∀ p, (c.peers p).applied ≤ c.log.length
  electedAt_le : c.electedAt ≤ c.log.length
  distinct : (tasksOf c.log ++ c.current).Pairwise Apart

omit [DecidableEq ι] in
theorem Apart.symm {t u : Task} (h : Apart t u) : Apart u t := fun hq hi ↦ h hq.symm hi.symm

variable {c c' : Cluster ι}

theorem inv_init : Inv ({} : Cluster ι) where
  linked p := IndexStore.linked_init ∅
  covered p t ht := by simp [tasksOf] at ht
  led p h := by simp at h
  pending p h := by simp at h
  term_le w hw := by simp at hw
  applied_le p := le_rfl
  electedAt_le := le_rfl
  distinct := by simp [tasksOf, Cluster.current]

/-- A leader that serves pushes is behind nothing in the log. -/
theorem Inv.le_position {p : ι} (h : Inv c) (hp : c.leader = some p)
    (hserve : c.electedAt ≤ (c.peers p).applied) {t : Task} (ht : t ∈ tasksOf c.log) :
    taskIndex t ≤ c.position p t.queue := by
  rw [← List.take_append_drop c.electedAt c.log, tasksOf_append, List.mem_append] at ht
  rcases ht with ht | ht
  · refine h.covered p t ?_
    rw [mem_tasksOf] at ht ⊢
    exact (List.take_sublist_take_left hserve).mem ht
  · exact h.led p hp t ht

/-! ### Elections -/

theorem Inv.pairwise_log (h : Inv c) : (tasksOf c.log).Pairwise Apart :=
  (List.pairwise_append.mp h.distinct).1

theorem Inv.elect (h : Inv c) (p : ι) :
    Inv { c with leader := some p, term := c.term + 1, electedAt := c.log.length } := by
  -- whatever is waiting was taken in an earlier leadership
  have hcurrent : Cluster.current
      { c with leader := some p, term := c.term + 1, electedAt := c.log.length } = [] := by
    rw [Cluster.current, List.map_eq_nil_iff, List.filter_eq_nil_iff]
    intro w hw hcur
    have hterm : w.term = c.term + 1 := (of_decide_eq_true hcur).2
    have := h.term_le w hw
    omega
  constructor
  case linked => exact h.linked
  case covered => exact h.covered
  case led =>
    intro r _ t ht
    simp [tasksOf] at ht
  case pending =>
    intro r _ t ht
    simp [hcurrent] at ht
  case term_le => exact fun w hw ↦ (h.term_le w hw).trans (Nat.le_succ _)
  case applied_le => exact h.applied_le
  case electedAt_le => exact le_rfl
  case distinct =>
    rw [hcurrent, List.append_nil]
    exact h.pairwise_log

theorem Inv.stepDown (h : Inv c) : Inv { c with leader := none } where
  linked := h.linked
  covered := h.covered
  led p hp := by simp at hp
  pending p hp := by simp at hp
  term_le := h.term_le
  applied_le := h.applied_le
  electedAt_le := h.electedAt_le
  distinct := by
    have hcurrent : Cluster.current { c with leader := none } = [] := by
      simp [Cluster.current, Cluster.Current]
    rw [hcurrent, List.append_nil]
    exact h.pairwise_log

/-! ### Commits -/

theorem Inv.append (h : Inv c) {cmd : Command} {waiting : List (Waiting ι)}
    (hled : ∀ p, c.leader = some p → ∀ t ∈ tasksOf [cmd], taskIndex t ≤ c.position p t.queue)
    (hsub : waiting ⊆ c.waiting)
    (hdistinct : (tasksOf (c.log ++ [cmd]) ++
      (waiting.filter (c.Current ·)).map Waiting.task).Pairwise Apart) :
    Inv { c with log := c.log ++ [cmd], waiting := waiting } := by
  constructor
  case linked => exact h.linked
  case covered =>
    intro p t ht
    rw [List.take_append_of_le_length (h.applied_le p)] at ht
    exact h.covered p t ht
  case led =>
    intro p hp t ht
    rw [List.drop_append_of_le_length h.electedAt_le, tasksOf_append, List.mem_append] at ht
    rcases ht with ht | ht
    · exact h.led p hp t ht
    · exact hled p hp t ht
  case pending =>
    intro p hp t ht
    obtain ⟨w, hw, rfl⟩ := List.mem_map.mp ht
    rw [List.mem_filter] at hw
    exact h.pending p hp _ (List.mem_map_of_mem (List.mem_filter.mpr ⟨hsub hw.1, hw.2⟩))
  case term_le => exact fun w hw ↦ h.term_le w (hsub hw)
  case applied_le =>
    intro p
    rw [List.length_append]
    exact (h.applied_le p).trans (Nat.le_add_right _ _)
  case electedAt_le =>
    rw [List.length_append]
    exact h.electedAt_le.trans (Nat.le_add_right _ _)
  case distinct => exact hdistinct

theorem Inv.enqueue (h : Inv c) {p : ι} {t : Task}
    (hpos : c.leader = some p → taskIndex t ≤ c.position p t.queue)
    (hapart : c.leader = some p → ∀ u ∈ tasksOf c.log ++ c.current, Apart u t) :
    Inv { c with waiting := c.waiting ++ [⟨p, c.term, t⟩] } := by
  have hcurrent : Cluster.current { c with waiting := c.waiting ++ [⟨p, c.term, t⟩] }
      = c.current ++ if c.leader = some p then [t] else [] := by
    show ((c.waiting ++ [(⟨p, c.term, t⟩ : Waiting ι)]).filter (c.Current ·)).map Waiting.task = _
    rw [List.filter_append, List.map_append, ← Cluster.current]
    by_cases hp : c.leader = some p <;> simp [Cluster.Current, hp]
  constructor
  case linked => exact h.linked
  case covered => exact h.covered
  case led => exact h.led
  case pending =>
    intro r hr u hu
    rw [hcurrent, List.mem_append] at hu
    rcases hu with hu | hu
    · exact h.pending r hr u hu
    · split at hu
      · rename_i hp
        obtain rfl : p = r := Option.some.inj (hp.symm.trans hr)
        exact List.mem_singleton.mp hu ▸ hpos hp
      · simp at hu
  case term_le =>
    intro w hw
    rcases List.mem_append.mp hw with hw | hw
    · exact h.term_le w hw
    · rw [List.mem_singleton.mp hw]
  case applied_le => exact h.applied_le
  case electedAt_le => exact h.electedAt_le
  case distinct =>
    rw [hcurrent, ← List.append_assoc, List.pairwise_append]
    refine ⟨h.distinct, by split <;> simp, fun u hu v hv ↦ ?_⟩
    split at hv
    · rename_i hp
      exact List.mem_singleton.mp hv ▸ hapart hp u hu
    · simp at hv

theorem Inv.commitOther (h : Inv c) {cmd : Command} (hcmd : cmd.task? = none) :
    Inv { c with log := c.log ++ [cmd] } := by
  have hnil : tasksOf [cmd] = [] := by rw [tasksOf, List.filterMap_cons_none hcmd]; rfl
  refine h.append ?_ (List.Subset.refl _) ?_
  · intro p _ t ht
    simp [hnil] at ht
  · rw [tasksOf_append, hnil, List.append_nil]
    exact h.distinct

/-- Moving a push from the waiting list to the log shuffles the tasks of both. -/
theorem Inv.commit (h : Inv c) {k : ℕ} {w : Waiting ι} (hk : c.waiting[k]? = some w)
    (hcurrent : c.Current w) :
    Inv { c with log := c.log ++ [.task w.task], waiting := c.waiting.eraseIdx k } := by
  obtain ⟨hlt, hget⟩ := List.getElem?_eq_some_iff.mp hk
  have hperm : (w :: c.waiting.eraseIdx k).Perm c.waiting := by
    rw [← hget]
    exact List.getElem_cons_eraseIdx_perm hlt
  have hcur : (w.task :: ((c.waiting.eraseIdx k).filter (c.Current ·)).map Waiting.task).Perm
      c.current := by
    have := (hperm.filter (c.Current ·)).map Waiting.task
    rwa [List.filter_cons_of_pos (by simpa using hcurrent)] at this
  refine h.append ?_ (List.eraseIdx_subset) ?_
  · intro p hp t ht
    rw [mem_tasksOf, List.mem_singleton, Command.task.injEq] at ht
    exact h.pending p hp t (ht ▸ hcur.mem_iff.mp List.mem_cons_self)
  · refine (List.Perm.pairwise_iff Apart.symm ?_).mp h.distinct
    rw [tasksOf_append, List.append_assoc]
    exact hcur.symm.append_left _

/-! ### Stores -/

variable {p : ι} {x : Peer} {s : IndexStore.State}

@[simp] theorem setPeer_peers_self : (c.setPeer p x).peers p = x := Function.update_self ..

@[simp] theorem setPeer_peers_of_ne {r : ι} (hr : r ≠ p) : (c.setPeer p x).peers r = c.peers r :=
  Function.update_of_ne hr ..

theorem position_setPeer_of_ne {r : ι} (hr : r ≠ p) (q : GoString) :
    (c.setPeer p x).position r q = c.position r q := by
  rw [Cluster.position, setPeer_peers_of_ne hr, ← Cluster.position]

/-- A step that changes one peer's store, moves none of its positions back, and lets it apply
entries only up to its positions. -/
theorem Inv.setPeer (h : Inv c) (hlinked : IndexStore.Linked x.index)
    (hpos : c.leader = some p → ∀ q, c.position p q ≤ (IndexStore.position x.index q).toNat)
    (happlied : x.applied ≤ c.log.length)
    (hcovered : ∀ t ∈ tasksOf (c.log.take x.applied),
      taskIndex t ≤ (IndexStore.position x.index t.queue).toNat) : Inv (c.setPeer p x) := by
  have hmono : ∀ r, c.leader = some r → ∀ q, c.position r q ≤ (c.setPeer p x).position r q := by
    intro r hleads q
    by_cases hr : r = p
    · subst hr
      rw [Cluster.position, Cluster.position, setPeer_peers_self]
      exact hpos hleads q
    · rw [position_setPeer_of_ne hr]
  constructor
  case linked =>
    intro r
    by_cases hr : r = p
    · rwa [hr, setPeer_peers_self]
    · rw [setPeer_peers_of_ne hr]
      exact h.linked r
  case covered =>
    intro r t ht
    by_cases hr : r = p
    · subst hr
      rw [setPeer_peers_self] at ht
      rw [Cluster.position, setPeer_peers_self]
      exact hcovered t ht
    · rw [setPeer_peers_of_ne hr] at ht
      rw [position_setPeer_of_ne hr]
      exact h.covered r t ht
  case led => exact fun r hr t ht ↦ (h.led r hr t ht).trans (hmono r hr _)
  case pending => exact fun r hr t ht ↦ (h.pending r hr t ht).trans (hmono r hr _)
  case term_le => exact h.term_le
  case applied_le =>
    intro r
    by_cases hr : r = p
    · rwa [hr, setPeer_peers_self]
    · rw [setPeer_peers_of_ne hr]
      exact h.applied_le r
  case electedAt_le => exact h.electedAt_le
  case distinct => exact h.distinct

theorem Inv.setIndex (h : Inv c) (hlinked : IndexStore.Linked s)
    (hpos : ∀ q, c.position p q ≤ (IndexStore.position s q).toNat) : Inv (c.setIndex p s) :=
  h.setPeer hlinked (fun _ ↦ hpos) (h.applied_le p) fun t ht ↦ (h.covered p t ht).trans (hpos _)

theorem Inv.flush (h : Inv c) (acks : List Ack) :
    Inv (c.setIndex p { (c.peers p).index with db := deleteAll acks (c.peers p).index.db }) := by
  refine h.setIndex ((h.linked p).setDB _) fun q ↦ (congrArg UInt64.toNat ?_).ge
  exact IndexStore.position_congr rfl
    (getElem?_deleteAll_of_not_isTaskKey acks _ (not_isTaskKey_seq q))

section

variable {req : PushTaskRequest} {created now : Time} {call : ℕ} {ok : Bool}

theorem Inv.get {queue victim : GoString} {loadOk closeOk : Bool} (h : Inv c)
    (hok : IndexStore.Spared (c.peers p).index queue victim closeOk)
    (hs : (c.peers p).index.get queue victim loadOk closeOk = some s) : Inv (c.setIndex p s) := by
  obtain ⟨hlinked, hpos, -⟩ := (h.linked p).get hok hs
  refine h.setIndex hlinked fun q ↦ ?_
  rw [hpos]
  rfl

theorem Inv.next_none {ptr : ℕ} (h : Inv c)
    (hcall : (c.peers p).index.calls[call]? = some (req.queue, ptr))
    (hs : (c.peers p).index.next call ok = some (s, none)) : Inv (c.setIndex p s) := by
  obtain ⟨hlinked, hother, hself, -, -⟩ := (h.linked p).next hcall hs
  refine h.setIndex hlinked fun q ↦ ?_
  by_cases hq : q = req.queue
  · rw [hq, hself rfl]
    rfl
  · rw [hother q hq]
    rfl

/-- Taking an index moves a leader past everything committed or waiting. -/
theorem Inv.next_some {ptr : ℕ} {i : UInt64} (h : Inv c)
    (hcall : (c.peers p).index.calls[call]? = some (req.queue, ptr))
    (hs : (c.peers p).index.next call ok = some (s, some i))
    (hlt : c.position p req.queue + 1 < 2 ^ 64)
    (htime : 2 ^ 56 ≤ (getRunTime req now).unixNano.toUInt64.toNat)
    (hserve : c.leader = some p → c.electedAt ≤ (c.peers p).applied) :
    Inv { c.setIndex p s with
      waiting := c.waiting ++ [⟨p, c.term, makeTask req created now i⟩] } := by
  obtain ⟨hlinked, hother, -, hself, -⟩ := (h.linked p).next hcall hs
  obtain ⟨hi, hpos⟩ := hself i rfl
  have hi' : i.toNat = c.position p req.queue + 1 := by
    rw [hi, UInt64.toNat_add]
    exact Nat.mod_eq_of_lt hlt
  have hidx : taskIndex (makeTask req created now i) = i.toNat :=
    Push.taskIndex_task ⟨req, created, now, i⟩ (Push.le_toNat_id _ htime)
  have hstore : Inv (c.setIndex p s) := by
    refine h.setIndex hlinked fun q ↦ ?_
    by_cases hq : q = req.queue
    · rw [hq, hpos, hi']
      exact Nat.le_succ _
    · rw [hother q hq]
      rfl
  refine hstore.enqueue (fun _ ↦ ?_) fun hp ↦ ?_
  · rw [Cluster.position, Cluster.setIndex, setPeer_peers_self, hidx]
    exact (congrArg UInt64.toNat hpos).ge
  · -- everything taken so far is at most the old position, and the new index is the next one
    intro u hu hqueue heq
    have hle : taskIndex u ≤ c.position p u.queue := by
      rcases List.mem_append.mp hu with hu | hu
      · exact h.le_position hp (hserve hp) hu
      · exact h.pending p hp u hu
    rw [hqueue, heq, hidx, hi'] at hle
    exact absurd hle (Nat.not_succ_le_self _)

theorem Inv.next {ptr : ℕ} {idx : Option UInt64} (h : Inv c)
    (hcall : (c.peers p).index.calls[call]? = some (req.queue, ptr))
    (hok : Covering c (.next p call req created now ok))
    (hs : (c.peers p).index.next call ok = some (s, idx)) :
    Inv { c.setIndex p s with
      waiting := c.waiting ++
        (idx.map fun i ↦ ⟨p, c.term, makeTask req created now i⟩).toList } := by
  cases idx with
  | none =>
    rw [Option.map_none, Option.toList_none, List.append_nil]
    exact h.next_none hcall hs
  | some i => exact h.next_some hcall hs hok.1 hok.2.1 hok.2.2

end

/-! ### Applying a batch -/

theorem getElem?_applyBatch_seq {si ok : Bool} {batch : List Command} {saved : ℕ} {db db' : DB}
    (h : applyBatch si batch saved ok db = some db') (q : GoString) :
    db'[getSeqKey q]? = if ok = true ∧ si = true ∧ maxIndex q (tasksOf batch) ≠ 0 then
      some (.index (UInt64.ofNat (maxIndex q (tasksOf batch)))) else db[getSeqKey q]? := by
  have hconfigs : ∀ (cs : List QueueConfig) (db : DB),
      (cs.foldl (fun db c ↦ saveSettings c db) db)[getSeqKey q]? = db[getSeqKey q]? := by
    intro cs
    induction cs with
    | nil => exact fun _ ↦ rfl
    | cons c cs ih =>
      intro db
      rw [List.foldl_cons, ih, getElem?_saveSettings,
        if_neg (getSeqKey_ne_getConfigKey q c.id).symm]
  cases ok with
  | false =>
    obtain rfl := Option.some.inj h
    rw [hconfigs]
    simp
  | true =>
    have hsave : saveAll (tasksOf batch) si
        (((configsOf batch).take saved).foldl (fun db c ↦ saveSettings c db) db) = some db' := h
    rw [getElem?_saveAll_seq hsave, hconfigs]
    simp

theorem mem_tasksOf_take_add {a n : ℕ} {l : List Command} {t : Task} :
    t ∈ tasksOf (l.take (a + n)) ↔ t ∈ tasksOf (l.take a) ∨ t ∈ tasksOf ((l.drop a).take n) := by
  rw [List.take_add, tasksOf_append, List.mem_append]

section

variable {n saved : ℕ} {ok si : Bool} {db : DB}

/-- A batch that records nothing leaves the positions alone, so they have to be there already. -/
theorem Inv.apply_unrecorded (h : Inv c) (hn : (c.peers p).applied + n ≤ c.log.length)
    (happly : applyBatch si (c.batch p n) saved ok (c.peers p).index.db = some db)
    (hsi : ¬(ok = true ∧ si = true))
    (hbatch : ∀ t ∈ tasksOf (c.batch p n), taskIndex t ≤ c.position p t.queue) :
    Inv (c.setPeer p
      { index := { (c.peers p).index with db }, applied := (c.peers p).applied + n }) := by
  have hpos : ∀ q, IndexStore.position { (c.peers p).index with db } q
      = IndexStore.position (c.peers p).index q := by
    intro q
    refine IndexStore.position_congr rfl ?_
    rw [getElem?_applyBatch_seq happly, if_neg fun hc ↦ hsi ⟨hc.1, hc.2.1⟩]
  refine h.setPeer ((h.linked p).setDB db) (fun _ q ↦ (congrArg UInt64.toNat (hpos q)).ge) hn ?_
  intro t ht
  rw [hpos]
  rcases mem_tasksOf_take_add.mp ht with ht | ht
  · exact h.covered p t ht
  · exact hbatch t ht

/-- What was committed since its election is below a leader's positions. -/
theorem Inv.apply_leader (h : Inv c) (hp : c.leader = some p)
    (hn : (c.peers p).applied + n ≤ c.log.length)
    (happly : applyBatch false (c.batch p n) saved ok (c.peers p).index.db = some db)
    (hok : BatchCovered c p n ok) :
    Inv (c.setPeer p
      { index := { (c.peers p).index with db }, applied := (c.peers p).applied + n }) := by
  rw [BatchCovered, if_pos hp] at hok
  refine h.apply_unrecorded hn happly (by simp) fun t ht ↦ ?_
  -- the entry is from before the election, or from the leader itself
  rw [Cluster.batch, ← List.take_append_drop c.electedAt c.log, List.drop_append, List.take_append,
    tasksOf_append, List.mem_append] at ht
  rcases ht with ht | ht
  · exact hok t ht
  · refine h.led p hp t ?_
    rw [mem_tasksOf] at ht ⊢
    exact List.mem_of_mem_drop (List.mem_of_mem_take ht)

/-- A follower's batch moves the stored counter to the largest index of the batch. -/
theorem Inv.apply_follower (h : Inv c) (hp : c.leader ≠ some p)
    (hn : (c.peers p).applied + n ≤ c.log.length)
    (happly : applyBatch true (c.batch p n) saved true (c.peers p).index.db = some db)
    (hok : BatchCovered c p n true) :
    Inv (c.setPeer p
      { index := { (c.peers p).index with db }, applied := (c.peers p).applied + n }) := by
  rw [BatchCovered, if_neg hp, if_pos rfl] at hok
  refine h.setPeer ((h.linked p).setDB db) (fun hc ↦ absurd hc hp) hn ?_
  intro t ht
  replace ht := mem_tasksOf_take_add.mp ht
  have hseq : IndexStore.State.sequence { (c.peers p).index with db } t.queue
      = (c.peers p).index.sequence t.queue := rfl
  rw [IndexStore.position, hseq]
  cases hcached : (c.peers p).index.sequence t.queue with
  | some u =>
    -- the count goes on from the cached sequence, whatever the batch has written
    rcases ht with ht | ht
    · have := h.covered p t ht
      rwa [Cluster.position, IndexStore.position_of_sequence hcached] at this
    · have := hok t ht
      rwa [TaskCovered, hcached] at this
  | none =>
    show taskIndex t ≤ (storedIndex db (getSeqKey t.queue)).toNat
    by_cases hz : maxIndex t.queue (tasksOf (c.batch p n)) = 0
    · -- nothing was recorded for this queue
      have hsame : db[getSeqKey t.queue]? = (c.peers p).index.db[getSeqKey t.queue]? := by
        simp [getElem?_applyBatch_seq happly, hz]
      rw [storedIndex_eq_of_getElem? hsame]
      rcases ht with ht | ht
      · have := h.covered p t ht
        rwa [Cluster.position, IndexStore.position, hcached] at this
      · have := le_maxIndex ht
        rw [Cluster.batch] at hz
        omega
    · -- the largest index of the batch has replaced the counter
      have hstored : (storedIndex db (getSeqKey t.queue)).toNat
          = maxIndex t.queue (tasksOf (c.batch p n)) := by
        rw [storedIndex, getElem?_applyBatch_seq happly, if_pos ⟨rfl, rfl, hz⟩]
        exact Nat.mod_eq_of_lt (maxIndex_lt _ _)
      rw [hstored]
      rcases ht with ht | ht
      · obtain ⟨u, hu, hq, -⟩ := exists_of_maxIndex_ne_zero hz
        have := hok u hu
        rw [TaskCovered, hq, hcached] at this
        exact this t ht rfl
      · exact le_maxIndex ht

theorem Inv.apply (h : Inv c) (hn : (c.peers p).applied + n ≤ c.log.length)
    (happly : applyBatch (c.leader ≠ some p) (c.batch p n) saved ok (c.peers p).index.db = some db)
    (hok : BatchCovered c p n ok) :
    Inv (c.setPeer p
      { index := { (c.peers p).index with db }, applied := (c.peers p).applied + n }) := by
  by_cases hp : c.leader = some p
  · exact h.apply_leader hp hn (by simpa [hp] using happly) hok
  · cases ok with
    | true => exact h.apply_follower hp hn (by simpa [hp] using happly) hok
    | false =>
      rw [BatchCovered, if_neg hp, if_neg Bool.false_ne_true] at hok
      exact h.apply_unrecorded hn happly (by simp) hok

end

/-! ## The result -/

theorem Inv.step {a : Event ι} (h : Inv c) (hok : Covering c a) (hs : step c a = some c') :
    Inv c' := by
  cases a with
  | elect p => exact Option.some.inj hs ▸ h.elect p
  | stepDown => exact Option.some.inj hs ▸ h.stepDown
  | get p queue victim loadOk closeOk =>
    rw [Failover.step] at hs
    split at hs
    · obtain ⟨s, hget, rfl⟩ := Option.map_eq_some_iff.mp hs
      exact h.get hok hget
    · simp at hs
  | next p call req created now ok =>
    rw [Failover.step] at hs
    split at hs
    · rename_i hqueue
      obtain ⟨⟨queue, ptr⟩, hcall, rfl⟩ := Option.map_eq_some_iff.mp hqueue
      obtain ⟨⟨s, idx⟩, hnext, rfl⟩ := Option.map_eq_some_iff.mp hs
      exact h.next hcall hok hnext
    · simp at hs
  | commit k =>
    rw [Failover.step] at hs
    split at hs
    · rename_i w hw
      split at hs
      · rename_i hleader
        exact Option.some.inj hs ▸ h.commit hw ⟨hleader, hok w hw⟩
      · simp at hs
    · simp at hs
  | commitOther cmd =>
    rw [Failover.step] at hs
    split at hs
    · rename_i hcmd
      exact Option.some.inj hs ▸ h.commitOther (Option.isNone_iff_eq_none.mp hcmd)
    · simp at hs
  | apply p n saved ok =>
    rw [Failover.step] at hs
    split at hs
    · rename_i hn
      obtain ⟨db, hdb, rfl⟩ := Option.map_eq_some_iff.mp hs
      exact h.apply hn hdb hok
    · simp at hs
  | flush p acks => exact Option.some.inj hs ▸ h.flush acks

end

/-- **Indexes stay unique as long as the counters stay ahead.** -/
theorem indexesDistinct_of_covering [DecidableEq ι] {as : List (Event ι)} {c : Cluster ι}
    (hok : Runs.Meets step Covering {} as) (hrun : Runs.run step {} as = some c) :
    IndexesDistinct c.log := by
  have hinv : Inv c :=
    hok.invariant (fun _ _ _ h hok hs ↦ h.step hok hs) inv_init hrun
  exact hinv.pairwise_log

/-- A push to one queue takes its sequence. -/
def getOne (p : Bool) : Event Bool := .get p (lit "q") [] true true

/-- The unscheduled push that makes the given call. -/
def nextOne (p : Bool) (call : ℕ) : Event Bool :=
  .next p call { queue := lit "q" } .zero .zero true

/-- Two pushes that overlap under one leader, and a push under the next. -/
def failover : List (Event Bool) :=
  [.elect true, getOne true, getOne true, nextOne true 1, nextOne true 0, .commit 0, .commit 0,
    .apply true 2 0 true, .apply false 2 0 true, .elect false, getOne false, nextOne false 0,
    .commit 0]

theorem indexesDistinct_failover : ∃ c, Runs.run step {} failover = some c ∧
    c.log.length = 3 ∧ IndexesDistinct c.log := by
  have hlen : (Runs.run step ({} : Cluster Bool) failover).map (·.log.length) = some 3 := by
    decide +kernel
  obtain ⟨c, hc, hlen⟩ := Option.map_eq_some_iff.mp hlen
  exact ⟨c, hc, hlen, indexesDistinct_of_covering (by decide +kernel) hc⟩

/-- Back to the first leader, whose cached sequence never saw the second one's push. -/
theorem not_indexesDistinct_failback : ∃ c,
    Runs.run step {} (failover ++ [.apply false 1 0 true, .apply true 1 0 true, .elect true,
      getOne true, nextOne true 0, .commit 0]) = some c ∧ ¬IndexesDistinct c.log := by
  have h : (Runs.run step ({} : Cluster Bool) (failover ++ [.apply false 1 0 true,
      .apply true 1 0 true, .elect true, getOne true, nextOne true 0, .commit 0])).map
        (fun c ↦ decide (IndexesDistinct c.log)) = some false := by decide +kernel
  obtain ⟨c, hc, hd⟩ := Option.map_eq_some_iff.mp h
  exact ⟨c, hc, of_decide_eq_false hd⟩

end Z4.Failover
