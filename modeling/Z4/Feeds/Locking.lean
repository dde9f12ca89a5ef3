import Z4.Foundations.Draining
import Z4.Foundations.KeyValue
import Z4.Proto.Model

/-!
# The locks of the feed manager

`Manager` takes each call of `Lease`, `Release` and `Close` as one or two steps elsewhere. Here the
calls are taken apart at every statement that can wait: the manager's lock `qm.mu`, the lock `lh.mu`
of a holder, and the two unbuffered channels on which `SyncedSettings.Close` talks to the goroutine
that syncs the settings of a feed. A feed is closed while both locks are held, so a close that waits
for ever takes every queue down with it. `SyncedSettings.Close` does wait for ever when it is called
a second time: the goroutine has gone, and nobody receives its request.

At most one call has `qm.mu`; it is `inside`. All others are `outside`, in a list whose order means
nothing. A call that has returned is in neither. A lock is free when no call is at a place that has
it, so the state holds no locks of its own. Every call can be made at any time, also a release of a
lease that was released before, and `Close` while leases are out.

## The invariant

A holder is in the map from its creation to the end of its close, and the close begins once. So the
goroutine of a holder in the map is in its loop, unless the call that is inside is closing that very
holder, and then the two are at matching places of the handshake.
-/

namespace Z4.Locking

open KeyValue Draining

/-! ## The calls -/

/-- Where the goroutine of `SyncedSettings.startSync` is. -/
inductive Sync where
  /-- At the `select`. -/
  | select
  /-- In the `trySave` of a tick. -/
  | tick
  /-- In the `trySave` of a close request. -/
  | flush
  /-- At the send on `closeRes`. -/
  | answer
  | ended
deriving DecidableEq

/-- A `leaseHolder` with its feed. -/
structure Holder where
  queue : GoString
  leases : List ℕ := []
  sync : Sync := .select
  /-- How many calls of `Feed.Close` have begun. -/
  closes : ℕ := 0
deriving DecidableEq

/-- A call that does not have the manager's lock. -/
inductive Outside where
  /-- `Manager.Lease`, at `qm.mu.Lock`. -/
  | lease (queue : GoString)
  /-- `leaseHolder.remove`, at `lh.mu.Lock`. -/
  | remove (h l : ℕ)
  /-- `leaseHolder.remove`, with `lh.mu`. -/
  | removing (h l : ℕ)
  /-- `Manager.cleanUpLeases`, at `qm.mu.Lock`. -/
  | cleanUp (queue : GoString)
  /-- `Manager.Close`, at `qm.mu.Lock`. -/
  | close
deriving DecidableEq

/-- A call of `leaseHolder.Close`, with the queue the holder was found under. The caller is
`Manager.Close` if `all` is set, and `cleanUpLeases` if not. -/
structure Closing where
  queue : GoString
  holder : ℕ
  all : Bool
deriving DecidableEq

/-- The call that has the manager's lock. -/
inductive Inside where
  /-- `Manager.Lease`, at the lookup. -/
  | lease (queue : GoString)
  /-- `leaseHolder.Get`, called by it, at `lh.mu.Lock`. -/
  | get (queue : GoString) (h : ℕ)
  /-- `leaseHolder.Get`, with `lh.mu`. -/
  | getting (queue : GoString) (h : ℕ)
  /-- `Manager.cleanUpLeases`, at the lookup. -/
  | cleanUp (queue : GoString)
  /-- `Manager.Close`, at the head of its loop. -/
  | loop
  /-- `leaseHolder.Close`, at `lh.mu.Lock`. -/
  | stop (c : Closing)
  /-- `SyncedSettings.Close`, at the send on `closeReq`. -/
  | request (c : Closing)
  /-- `SyncedSettings.Close`, at the receive on `closeRes`. -/
  | await (c : Closing)
  /-- `leaseHolder.Close`, at the deferred `lh.mu.Unlock`. -/
  | stopped (c : Closing)
  /-- Back from it, at the `delete` from the map. -/
  | delete (c : Closing)
  /-- At the deferred `qm.mu.Unlock`. -/
  | leave
deriving DecidableEq

/-- The place has `lh.mu` of the holder. -/
def Outside.locks (h : ℕ) : Outside → Bool
  | .removing h' _ => h' = h
  | .lease _ | .remove _ _ | .cleanUp _ | .close => false

def Inside.locks (h : ℕ) : Inside → Bool
  | .getting _ h' => h' = h
  | .request c | .await c | .stopped c => c.holder = h
  | .lease _ | .get _ _ | .cleanUp _ | .loop | .stop _ | .delete _ | .leave => false

structure State where
  holders : List Holder := []
  /-- The manager's map. -/
  leases : Store ℕ := ∅
  /-- The holder of every lease that was granted. -/
  granted : List ℕ := []
  outside : List Outside := []
  inside : Option Inside := none

/-- Some call has `lh.mu` of the holder. -/
def State.locked (s : State) (h : ℕ) : Bool :=
  s.inside.any (·.locks h) || s.outside.any (·.locks h)

inductive Event where
  /-- `Manager.Lease` is called. -/
  | lease (queue : GoString)
  /-- `Lease.Release` is called. -/
  | release (l : ℕ)
  /-- `Manager.Close` is called. -/
  | close
  /-- A call that is outside goes on. -/
  | outside (k : ℕ)
  /-- The call that is inside goes on. -/
  | inside
  /-- `newLeaseHolder` returns to it, with a holder or an error. -/
  | create (ok : Bool)
  /-- The range loop of `Manager.Close` comes to a queue. -/
  | pick (queue : GoString)
  /-- The ticker of a feed fires. -/
  | tick (h : ℕ)
  /-- `trySave` returns. -/
  | saved (h : ℕ)
deriving DecidableEq

def State.modify (s : State) (h : ℕ) (f : Holder → Holder) : State :=
  { s with holders := s.holders.modify h f }

/-- The call that is inside comes to `p`. -/
def State.at (s : State) (p : Inside) : State := { s with inside := some p }

/-- The call number `k` gets the manager's lock, if it is free. -/
def State.enter (s : State) (k : ℕ) (p : Inside) : Option State :=
  if s.inside = none then some { s with outside := s.outside.eraseIdx k, inside := some p }
  else none

def State.goOutside (s : State) (k : ℕ) : Outside → Option State
  | .lease queue => s.enter k (.lease queue)
  | .cleanUp queue => s.enter k (.cleanUp queue)
  | .close => s.enter k .loop
  | .remove h l =>
    if s.locked h then none else some { s with outside := s.outside.set k (.removing h l) }
  | .removing h l =>
    -- the lock is given back before `onRemove` is called
    s.holders[h]?.map fun x ↦
      { s.modify h (fun x ↦ { x with leases := x.leases.filter (· ≠ l) }) with
        outside := s.outside.set k (.cleanUp x.queue) }

def State.goInside (s : State) : Inside → Option State
  | .lease queue => s.leases[queue]?.map fun h ↦ s.at (.get queue h)
  | .get queue h => if s.locked h then none else some (s.at (.getting queue h))
  | .getting _ h =>
    some { (s.modify h fun x ↦ { x with leases := x.leases ++ [s.granted.length] }).at .leave with
      granted := s.granted ++ [h] }
  | .cleanUp queue =>
    match s.leases[queue]? with
    | none => some (s.at .leave)
    | some h =>
      -- `ActiveCount` does not take the lock
      s.holders[h]?.map fun x ↦
        s.at (if 0 < x.leases.length then .leave else .stop ⟨queue, h, false⟩)
  | .loop => if s.leases.isEmpty then some (s.at .leave) else none
  | .stop c =>
    if s.locked c.holder then none
    else some ((s.modify c.holder fun x ↦ { x with leases := [], closes := x.closes + 1 }).at
      (.request c))
  | .request c =>
    s.holders[c.holder]?.bind fun x ↦
      if x.sync = .select then
        some ((s.modify c.holder fun x ↦ { x with sync := .flush }).at (.await c))
      else none
  | .await c =>
    s.holders[c.holder]?.bind fun x ↦
      if x.sync = .answer then
        some ((s.modify c.holder fun x ↦ { x with sync := .ended }).at (.stopped c))
      else none
  | .stopped c => some (s.at (.delete c))
  | .delete c =>
    some { s.at (if c.all then .loop else .leave) with leases := s.leases.erase c.queue }
  | .leave => some { s with inside := none }

def step (s : State) : Event → Option State
  | .lease queue => some { s with outside := s.outside ++ [.lease queue] }
  | .release l => s.granted[l]?.map fun h ↦ { s with outside := s.outside ++ [.remove h l] }
  | .close => some { s with outside := s.outside ++ [.close] }
  | .outside k => s.outside[k]?.bind (s.goOutside k)
  | .inside => s.inside.bind s.goInside
  | .create ok =>
    match s.inside with
    | some (.lease queue) =>
      if s.leases[queue]? = none then
        some (if ok then
          { s.at (.get queue s.holders.length) with
            holders := s.holders ++ [{ queue }]
            leases := s.leases.insert queue s.holders.length }
        else s.at .leave)
      else none
    | _ => none
  | .pick queue =>
    match s.inside with
    | some .loop => s.leases[queue]?.map fun h ↦ s.at (.stop ⟨queue, h, true⟩)
    | _ => none
  | .tick h =>
    s.holders[h]?.bind fun x ↦
      if x.sync = .select then some (s.modify h fun x ↦ { x with sync := .tick }) else none
  | .saved h =>
    s.holders[h]?.bind fun x ↦
      match x.sync with
      | .tick => some (s.modify h fun x ↦ { x with sync := .select })
      | .flush => some (s.modify h fun x ↦ { x with sync := .answer })
      | .select | .answer | .ended => none

/-- The label goes on with a call, or with a save, that has begun. -/
def Event.IsWork : Event → Prop
  | .lease _ | .release _ | .close | .tick _ => False
  | .outside _ | .inside | .create _ | .pick _ | .saved _ => True

/-- Every call that was made has returned. -/
def State.Quiet (s : State) : Prop := s.outside = [] ∧ s.inside = none

/-! ## The invariant -/

/-- Where the goroutine of a holder is while the call inside closes that holder. -/
def Inside.handshake (h : ℕ) : Inside → Option (List Sync)
  | .request c => if c.holder = h then some [.select, .tick] else none
  | .await c => if c.holder = h then some [.flush, .answer] else none
  | .stopped c | .delete c => if c.holder = h then some [.ended] else none
  | .lease _ | .get _ _ | .getting _ _ | .cleanUp _ | .loop | .stop _ | .leave => none

@[simp] theorem handshake_request (c : Closing) :
    (Inside.request c).handshake c.holder = some [.select, .tick] := if_pos rfl

@[simp] theorem handshake_await (c : Closing) :
    (Inside.await c).handshake c.holder = some [.flush, .answer] := if_pos rfl

@[simp] theorem handshake_stopped (c : Closing) :
    (Inside.stopped c).handshake c.holder = some [.ended] := if_pos rfl

/-- The entry of the map that the call inside has found. -/
def Inside.target : Inside → Option (GoString × ℕ)
  | .get queue h | .getting queue h => some (queue, h)
  | .stop c | .request c | .await c | .stopped c | .delete c => some (c.queue, c.holder)
  | .lease _ | .cleanUp _ | .loop | .leave => none

/-- The holder that a call outside is about. -/
def Outside.holder : Outside → Option ℕ
  | .remove h _ | .removing h _ => some h
  | .lease _ | .cleanUp _ | .close => none

/-- What the handshake says about the holder. -/
def State.hand (s : State) (h : ℕ) : Option (List Sync) := s.inside.bind (·.handshake h)

/-- A holder is in the map and was not closed, or it is not in the map and was closed once. While it
is being closed it is in the map and its goroutine is where the handshake says. -/
def Phase (hand : Option (List Sync)) (mapped : Prop) (x : Holder) : Prop :=
  match hand with
  | some syncs => mapped ∧ x.closes = 1 ∧ x.sync ∈ syncs
  | none => (mapped ∧ x.closes = 0 ∧ x.sync ∈ [.select, .tick]) ∨
      (¬mapped ∧ x.closes = 1 ∧ x.sync = .ended)

structure Inv (s : State) : Prop where
  mapped : ∀ (q : GoString) (h : ℕ), s.leases[q]? = some h →
    ∃ x : Holder, s.holders[h]? = some x ∧ x.queue = q
  found : ∀ p ∈ s.inside, ∀ e ∈ p.target, s.leases[e.1]? = some e.2
  phase : ∀ (h : ℕ) (x : Holder), s.holders[h]? = some x →
    Phase (s.hand h) (s.leases[x.queue]? = some h) x
  outside : ∀ w ∈ s.outside, ∀ h ∈ w.holder, h < s.holders.length
  granted : ∀ h ∈ s.granted, h < s.holders.length

theorem inv_init : Inv {} where
  mapped q h hq := by simp at hq
  found p hp := by simp at hp
  phase h x hx := by simp at hx
  outside w hw := by simp at hw
  granted h hh := by simp at hh

section

variable {s t : State} {p : Inside}

theorem Inv.frame (hs : Inv s) (hleases : t.leases = s.leases)
    (hlen : t.holders.length = s.holders.length)
    (hholder : ∀ (h : ℕ) (x y : Holder), s.holders[h]? = some x → t.holders[h]? = some y →
      y.queue = x.queue ∧ (Phase (s.hand h) (s.leases[x.queue]? = some h) x →
        Phase (t.hand h) (s.leases[x.queue]? = some h) y))
    (hfound : ∀ p ∈ t.inside, ∀ e ∈ p.target, s.leases[e.1]? = some e.2)
    (houtside : ∀ w ∈ t.outside, ∀ h ∈ w.holder, h < s.holders.length)
    (hgranted : ∀ h ∈ t.granted, h < s.holders.length) : Inv t := by
  refine ⟨fun q h hq ↦ ?_, ?_, fun h y hy ↦ ?_, ?_, ?_⟩
  · rw [hleases] at hq
    obtain ⟨x, hx, hxq⟩ := hs.mapped q h hq
    have hlt : h < t.holders.length := hlen ▸ (List.getElem?_eq_some_iff.mp hx).1
    refine ⟨t.holders[h], List.getElem?_eq_getElem hlt, ?_⟩
    rw [← hxq]
    exact (hholder h x _ hx (List.getElem?_eq_getElem hlt)).1
  · rwa [hleases]
  · have hlt : h < s.holders.length := hlen ▸ (List.getElem?_eq_some_iff.mp hy).1
    have hx := List.getElem?_eq_getElem hlt
    obtain ⟨hq, hphase⟩ := hholder h _ y hx hy
    rw [hleases, hq]
    exact hphase (hs.phase h _ hx)
  · rwa [hlen]
  · rwa [hlen]

theorem Inv.at (hs : Inv s) (hsame : ∀ h, p.handshake h = s.hand h)
    (hfound : ∀ e ∈ p.target, s.leases[e.1]? = some e.2) : Inv (s.at p) := by
  refine hs.frame rfl rfl (fun h x y hx hy ↦ ?_) ?_ hs.outside hs.granted
  · obtain rfl := Option.some.inj (hx.symm.trans hy)
    refine ⟨rfl, fun hphase ↦ ?_⟩
    have : (s.at p).hand h = s.hand h := hsame h
    rwa [this]
  · intro p' hp'
    obtain rfl := Option.some.inj hp'
    exact hfound

theorem holder_modify {h₀ h : ℕ} {f : Holder → Holder} {x y : Holder}
    (hx : s.holders[h]? = some x) (hy : (s.modify h₀ f).holders[h]? = some y) :
    y = if h₀ = h then f x else x := by
  rw [State.modify, List.getElem?_modify, hx] at hy
  exact (Option.some.inj hy).symm

theorem Inv.leases (hs : Inv s) {h₀ : ℕ} {f : List ℕ → List ℕ} {outside : List Outside}
    {granted : List ℕ} (houtside : ∀ w ∈ outside, ∀ h ∈ w.holder, h < s.holders.length)
    (hgranted : ∀ h ∈ granted, h < s.holders.length) :
    Inv { s.modify h₀ (fun x ↦ { x with leases := f x.leases }) with outside, granted } := by
  refine hs.frame rfl (List.length_modify ..) (fun h x y hx hy ↦ ?_) hs.found houtside hgranted
  rw [holder_modify hx hy]
  split <;> exact ⟨rfl, fun hphase ↦ hphase⟩

theorem Inv.sync (hs : Inv s) {h₀ : ℕ} {u v : Sync}
    (hfrom : ∀ x : Holder, s.holders[h₀]? = some x → x.sync = u)
    (hmove : ∀ syncs, some syncs = s.hand h₀ ∨ syncs = [Sync.select, .tick] →
      u ∈ syncs → v ∈ syncs) (hended : u ≠ .ended) :
    Inv (s.modify h₀ fun x ↦ { x with sync := v }) := by
  refine hs.frame rfl (List.length_modify ..) (fun h x y hx hy ↦ ?_) hs.found hs.outside hs.granted
  rw [holder_modify hx hy]
  split
  · rename_i heq
    subst heq
    have hsync := hfrom x hx
    refine ⟨rfl, fun hphase ↦ ?_⟩
    show Phase (s.hand h₀) _ _
    cases hhand : s.hand h₀ with
    | some syncs =>
      rw [hhand] at hphase
      obtain ⟨hm, hc, hin⟩ := hphase
      exact ⟨hm, hc, hmove syncs (.inl hhand.symm) (hsync ▸ hin)⟩
    | none =>
      rw [hhand] at hphase
      rcases hphase with ⟨hm, hc, hin⟩ | ⟨-, -, hin⟩
      · exact .inl ⟨hm, hc, hmove _ (.inr rfl) (hsync ▸ hin)⟩
      · exact absurd (hsync.symm.trans hin) hended
  · exact ⟨rfl, fun hphase ↦ hphase⟩

theorem Inv.close (hs : Inv s) {c : Closing} {p p' : Inside} {f : Holder → Holder}
    (hp : s.inside = some p) (htarget : p.target = some (c.queue, c.holder))
    (htarget' : p'.target = some (c.queue, c.holder))
    (hother : ∀ h, c.holder ≠ h → p'.handshake h = p.handshake h)
    (hqueue : ∀ x, (f x).queue = x.queue)
    (hphase : ∀ x, s.holders[c.holder]? = some x → Phase (p.handshake c.holder) True x →
      Phase (p'.handshake c.holder) True (f x)) : Inv ((s.modify c.holder f).at p') := by
  have hfound : s.leases[c.queue]? = some c.holder := hs.found p hp _ htarget
  refine hs.frame rfl (List.length_modify ..) (fun h x y hx hy ↦ ?_) ?_ hs.outside hs.granted
  · have hhand : s.hand h = p.handshake h := by rw [State.hand, hp]; rfl
    have hhand' : ((s.modify c.holder f).at p').hand h = p'.handshake h := rfl
    rw [holder_modify hx hy, hhand, hhand']
    split
    · rename_i heq
      subst heq
      obtain ⟨x', hx', hq⟩ := hs.mapped _ _ hfound
      obtain rfl := Option.some.inj (hx'.symm.trans hx)
      refine ⟨hqueue x', ?_⟩
      rw [hq, eq_true hfound]
      exact hphase x' hx
    · rename_i hne
      rw [hother h hne]
      exact ⟨rfl, fun hphase ↦ hphase⟩
  · intro q hq e he
    obtain rfl := Option.some.inj hq
    rw [htarget'] at he
    obtain rfl := Option.some.inj he
    exact hfound

theorem Inv.create (hs : Inv s) {queue : GoString} (hp : s.inside = some (.lease queue))
    (hq : s.leases[queue]? = none) :
    Inv { s.at (.get queue s.holders.length) with
      holders := s.holders ++ [{ queue }]
      leases := s.leases.insert queue s.holders.length } := by
  have hhand : ∀ h, s.hand h = none := fun h ↦ by rw [State.hand, hp]; rfl
  have hlt : ∀ {h : ℕ} {x : Holder}, s.holders[h]? = some x → h < s.holders.length :=
    fun hx ↦ (List.getElem?_eq_some_iff.mp hx).1
  refine ⟨fun q h hqh ↦ ?_, fun p hp e he ↦ ?_, fun h x hx ↦ ?_, fun w hw h hh ↦ ?_,
    fun h hh ↦ ?_⟩
  · rw [getElem?_insert] at hqh
    split at hqh
    · rename_i heq
      obtain rfl := Option.some.inj hqh
      exact ⟨{ queue }, List.getElem?_concat_length, heq⟩
    · obtain ⟨x, hx, hxq⟩ := hs.mapped q h hqh
      exact ⟨x, by rw [List.getElem?_append_left (hlt hx), hx], hxq⟩
  · obtain rfl := Option.some.inj hp
    obtain rfl := Option.some.inj he
    rw [getElem?_insert, if_pos rfl]
  · show Phase none _ _
    rcases Nat.lt_or_ge h s.holders.length with hlt' | hge
    · rw [List.getElem?_append_left hlt'] at hx
      have hphase := hs.phase h x hx
      rw [hhand] at hphase
      rw [getElem?_insert]
      by_cases hxq : queue = x.queue
      · -- an older holder of the queue, which was closed
        have hclosed : s.leases[x.queue]? ≠ some h := by simp [← hxq, hq]
        obtain ⟨-, hc⟩ := hphase.resolve_left fun hl ↦ hclosed hl.1
        rw [if_pos hxq]
        refine .inr ⟨fun heq ↦ ?_, hc⟩
        exact hlt'.ne' (Option.some.inj heq)
      · rwa [if_neg hxq]
    · rw [List.getElem?_append_right hge, List.getElem?_singleton] at hx
      split at hx
      · obtain rfl : h = s.holders.length := by omega
        obtain rfl := Option.some.inj hx
        exact .inl ⟨by rw [getElem?_insert, if_pos rfl], rfl, List.mem_cons_self⟩
      · simp at hx
  · rw [List.length_append]
    exact (hs.outside w hw h hh).trans_le (Nat.le_add_right _ _)
  · rw [List.length_append]
    exact (hs.granted h hh).trans_le (Nat.le_add_right _ _)

theorem Inv.delete (hs : Inv s) {c : Closing} (hp : s.inside = some (.delete c)) {p : Inside}
    (hcalm : ∀ h, p.handshake h = none) (htarget : p.target = none) :
    Inv { s.at p with leases := s.leases.erase c.queue } := by
  have hfound : s.leases[c.queue]? = some c.holder := hs.found _ hp _ rfl
  refine ⟨fun q h hqh ↦ ?_, fun p' hp' e he ↦ ?_, fun h x hx ↦ ?_, hs.outside, hs.granted⟩
  · rw [getElem?_erase] at hqh
    split at hqh
    · simp at hqh
    · exact hs.mapped q h hqh
  · obtain rfl := Option.some.inj hp'
    rw [htarget] at he
    simp at he
  · have hphase := hs.phase h x hx
    have hhand : s.hand h = if c.holder = h then some [.ended] else none := by
      rw [State.hand, hp]
      rfl
    have hcalm' : State.hand { s.at p with leases := s.leases.erase c.queue } h = none := hcalm h
    rw [hhand] at hphase
    rw [hcalm', getElem?_erase]
    split at hphase
    · rename_i heq
      subst heq
      obtain ⟨hm, hc, hin⟩ := hphase
      obtain ⟨x', hx', hq⟩ := hs.mapped _ _ hfound
      obtain rfl := Option.some.inj (hx'.symm.trans hx)
      rw [if_pos hq.symm]
      exact .inr ⟨by simp, hc, by simpa using hin⟩
    · rename_i hne
      by_cases hq : c.queue = x.queue
      · have hclosed : s.leases[x.queue]? ≠ some h := by
          rw [← hq, hfound]
          simpa using hne
        rw [if_pos hq]
        exact .inr ⟨by simp, (hphase.resolve_left fun hl ↦ hclosed hl.1).2⟩
      · rwa [if_neg hq]

theorem Inv.call (hs : Inv s) {w : Outside} (hw : ∀ h ∈ w.holder, h < s.holders.length) :
    Inv { s with outside := s.outside ++ [w] } := by
  refine ⟨hs.mapped, hs.found, hs.phase, fun v hv ↦ ?_, hs.granted⟩
  rcases List.mem_append.mp hv with hv | hv
  · exact hs.outside v hv
  · exact List.mem_singleton.mp hv ▸ hw

theorem Inv.enter (hs : Inv s) {k : ℕ} (hcalm : ∀ h, p.handshake h = none)
    (htarget : p.target = none) (h : s.enter k p = some t) : Inv t := by
  rw [State.enter] at h
  split at h
  · rename_i hnone
    obtain rfl := Option.some.inj h
    have hbase : Inv { s with outside := s.outside.eraseIdx k } :=
      ⟨hs.mapped, hs.found, hs.phase, fun w hw ↦ hs.outside w (List.mem_of_mem_eraseIdx hw),
        hs.granted⟩
    refine hbase.at (fun h ↦ ?_) (by simp [htarget])
    rw [hcalm, State.hand, hnone]
    rfl
  · simp at h

theorem Inv.goOutside (hs : Inv s) {k : ℕ} {w : Outside} (hw : s.outside[k]? = some w)
    (h : s.goOutside k w = some t) : Inv t := by
  have hset : ∀ {w' : Outside}, (∀ h ∈ w'.holder, h < s.holders.length) →
      ∀ v ∈ s.outside.set k w', ∀ h ∈ v.holder, h < s.holders.length := by
    intro w' hw' v hv
    rcases List.mem_or_eq_of_mem_set hv with hv | rfl
    · exact hs.outside v hv
    · exact hw'
  cases w with
  | lease queue => exact hs.enter (fun _ ↦ rfl) rfl h
  | cleanUp queue => exact hs.enter (fun _ ↦ rfl) rfl h
  | close => exact hs.enter (fun _ ↦ rfl) rfl h
  | remove h₀ l =>
    rw [State.goOutside] at h
    split at h
    · simp at h
    · obtain rfl := Option.some.inj h
      refine ⟨hs.mapped, hs.found, hs.phase, hset fun h hh ↦ ?_, hs.granted⟩
      exact hs.outside _ (List.mem_of_getElem? hw) h hh
  | removing h₀ l =>
    obtain ⟨x, -, rfl⟩ := Option.map_eq_some_iff.mp h
    exact hs.leases (hset (by simp [Outside.holder])) hs.granted

theorem Inv.goInside (hs : Inv s) (hp : s.inside = some p) (h : s.goInside p = some t) :
    Inv t := by
  have hhand : ∀ h, s.hand h = p.handshake h := fun h ↦ by rw [State.hand, hp]; rfl
  have hfound := hs.found p hp
  cases p with
  | lease queue =>
    obtain ⟨h₀, hq, rfl⟩ := Option.map_eq_some_iff.mp h
    refine hs.at (fun h ↦ (hhand h).symm) fun e he ↦ ?_
    obtain rfl := Option.some.inj he
    exact hq
  | get queue h₀ =>
    rw [State.goInside] at h
    split at h
    · simp at h
    · obtain rfl := Option.some.inj h
      exact hs.at (fun h ↦ (hhand h).symm) hfound
  | getting queue h₀ =>
    obtain rfl := Option.some.inj h
    have hleave : Inv (s.at .leave) := hs.at (fun h ↦ (hhand h).symm) (by simp [Inside.target])
    refine hleave.leases (f := (· ++ [s.granted.length])) hleave.outside fun h hh ↦ ?_
    rcases List.mem_append.mp hh with hh | hh
    · exact hs.granted h hh
    · obtain ⟨x, hx, -⟩ := hs.mapped queue h₀ (hfound _ rfl)
      rw [List.mem_singleton.mp hh]
      exact (List.getElem?_eq_some_iff.mp hx).1
  | cleanUp queue =>
    rw [State.goInside] at h
    split at h
    · obtain rfl := Option.some.inj h
      exact hs.at (fun h ↦ (hhand h).symm) (by simp [Inside.target])
    · rename_i h₀ hq
      obtain ⟨x, -, rfl⟩ := Option.map_eq_some_iff.mp h
      split
      · exact hs.at (fun h ↦ (hhand h).symm) (by simp [Inside.target])
      · refine hs.at (fun h ↦ (hhand h).symm) fun e he ↦ ?_
        obtain rfl := Option.some.inj he
        exact hq
  | loop =>
    rw [State.goInside] at h
    split at h
    · obtain rfl := Option.some.inj h
      exact hs.at (fun h ↦ (hhand h).symm) (by simp [Inside.target])
    · simp at h
  | stop c =>
    rw [State.goInside] at h
    split at h
    · simp at h
    · obtain rfl := Option.some.inj h
      refine hs.close hp rfl rfl (fun h hne ↦ if_neg hne) (fun _ ↦ rfl) fun x _ hphase ↦ ?_
      -- in the map, so it was not closed before
      obtain ⟨-, hc, hin⟩ := hphase.resolve_right fun hl ↦ hl.1 trivial
      rw [handshake_request]
      exact ⟨trivial, by rw [hc], hin⟩
  | request c =>
    obtain ⟨x, hx, hif⟩ := Option.bind_eq_some_iff.mp h
    split at hif
    · obtain rfl := Option.some.inj hif
      refine hs.close hp rfl rfl (fun h hne ↦ ?_) (fun _ ↦ rfl) fun x _ hphase ↦ ?_
      · simp [Inside.handshake, hne]
      · rw [handshake_request] at hphase
        rw [handshake_await]
        exact ⟨trivial, hphase.2.1, List.mem_cons_self⟩
    · simp at hif
  | await c =>
    obtain ⟨x, hx, hif⟩ := Option.bind_eq_some_iff.mp h
    split at hif
    · obtain rfl := Option.some.inj hif
      refine hs.close hp rfl rfl (fun h hne ↦ ?_) (fun _ ↦ rfl) fun x _ hphase ↦ ?_
      · simp [Inside.handshake, hne]
      · rw [handshake_await] at hphase
        rw [handshake_stopped]
        exact ⟨trivial, hphase.2.1, List.mem_cons_self⟩
    · simp at hif
  | stopped c =>
    obtain rfl := Option.some.inj h
    exact hs.at (fun h ↦ (hhand h).symm) hfound
  | delete c =>
    obtain rfl := Option.some.inj h
    refine hs.delete hp (fun h ↦ ?_) ?_ <;> split <;> rfl
  | leave =>
    obtain rfl := Option.some.inj h
    refine ⟨hs.mapped, by simp, fun h x hx ↦ ?_, hs.outside, hs.granted⟩
    have hphase := hs.phase h x hx
    rwa [hhand] at hphase

theorem step_create {ok : Bool} (h : step s (.create ok) = some t) : ∃ queue,
    s.inside = some (.lease queue) ∧ s.leases[queue]? = none ∧
      t = if ok then { s.at (.get queue s.holders.length) with
          holders := s.holders ++ [{ queue }]
          leases := s.leases.insert queue s.holders.length }
        else s.at .leave := by
  rw [step.eq_def] at h
  dsimp only at h
  split at h
  · rename_i queue hp
    split at h
    · rename_i hq
      exact ⟨queue, hp, hq, (Option.some.inj h).symm⟩
    · simp at h
  · simp at h

theorem step_pick {queue : GoString} (h : step s (.pick queue) = some t) :
    s.inside = some .loop ∧ ∃ h₀, s.leases[queue]? = some h₀ ∧
      t = s.at (.stop ⟨queue, h₀, true⟩) := by
  rw [step.eq_def] at h
  dsimp only at h
  split at h
  · rename_i hp
    obtain ⟨h₀, hq, rfl⟩ := Option.map_eq_some_iff.mp h
    exact ⟨hp, h₀, hq, rfl⟩
  · simp at h

theorem step_saved {h₀ : ℕ} (h : step s (.saved h₀) = some t) : ∃ x, s.holders[h₀]? = some x ∧
    (x.sync = .tick ∧ t = s.modify h₀ (fun x ↦ { x with sync := .select }) ∨
      x.sync = .flush ∧ t = s.modify h₀ (fun x ↦ { x with sync := .answer })) := by
  obtain ⟨x, hx, hm⟩ := Option.bind_eq_some_iff.mp h
  refine ⟨x, hx, ?_⟩
  split at hm
  · rename_i hsync
    exact .inl ⟨hsync, (Option.some.inj hm).symm⟩
  · rename_i hsync
    exact .inr ⟨hsync, (Option.some.inj hm).symm⟩
  all_goals simp at hm

theorem mem_hand {s : State} {h₀ : ℕ} {u v : Sync} {syncs : List Sync}
    (huv : u = .select ∧ v = .tick ∨ u = .tick ∧ v = .select ∨ u = .flush ∧ v = .answer)
    (hsyncs : some syncs = s.hand h₀ ∨ syncs = [Sync.select, .tick]) (hu : u ∈ syncs) :
    v ∈ syncs := by
  have hcases : syncs = [.select, .tick] ∨ syncs = [.flush, .answer] ∨ syncs = [.ended] := by
    rcases hsyncs with hhand | rfl
    · obtain ⟨p, -, hp⟩ := Option.bind_eq_some_iff.mp hhand.symm
      cases p <;> simp only [Inside.handshake, Option.ite_none_right_eq_some, reduceCtorEq,
        Option.some.injEq] at hp <;> simp [← hp.2]
    · exact .inl rfl
  rcases hcases with rfl | rfl | rfl <;> rcases huv with ⟨rfl, rfl⟩ | ⟨rfl, rfl⟩ | ⟨rfl, rfl⟩ <;>
    simp at hu ⊢

/-- **Every step keeps the invariant.** -/
theorem Inv.step (hs : Inv s) {e : Event} (h : step s e = some t) : Inv t := by
  cases e with
  | lease queue =>
    obtain rfl := Option.some.inj h
    exact hs.call (by simp [Outside.holder])
  | release l =>
    obtain ⟨h₀, hl, rfl⟩ := Option.map_eq_some_iff.mp h
    refine hs.call fun h hh ↦ ?_
    exact Option.some.inj hh ▸ hs.granted h₀ (List.mem_of_getElem? hl)
  | close =>
    obtain rfl := Option.some.inj h
    exact hs.call (by simp [Outside.holder])
  | outside k =>
    obtain ⟨w, hw, hgo⟩ := Option.bind_eq_some_iff.mp h
    exact hs.goOutside hw hgo
  | inside =>
    obtain ⟨p, hp, hgo⟩ := Option.bind_eq_some_iff.mp h
    exact hs.goInside hp hgo
  | create ok =>
    obtain ⟨queue, hp, hq, rfl⟩ := step_create h
    split
    · exact hs.create hp hq
    · refine hs.at (fun h ↦ ?_) (by simp [Inside.target])
      rw [State.hand, hp]
      rfl
  | pick queue =>
    obtain ⟨hp, h₀, hq, rfl⟩ := step_pick h
    refine hs.at (fun h ↦ ?_) fun e he ↦ ?_
    · rw [State.hand, hp]
      rfl
    · obtain rfl := Option.some.inj he
      exact hq
  | tick h₀ =>
    obtain ⟨x, hx, hif⟩ := Option.bind_eq_some_iff.mp h
    split at hif
    · rename_i hsync
      obtain rfl := Option.some.inj hif
      refine hs.sync (fun x' hx' ↦ ?_) (fun _ ↦ mem_hand (.inl ⟨rfl, rfl⟩)) (by simp)
      rwa [← Option.some.inj (hx.symm.trans hx')]
    · simp at hif
  | saved h₀ =>
    obtain ⟨x, hx, ⟨hsync, rfl⟩ | ⟨hsync, rfl⟩⟩ := step_saved h
    · refine hs.sync (fun x' hx' ↦ ?_) (fun _ ↦ mem_hand (.inr (.inl ⟨rfl, rfl⟩))) (by simp)
      rwa [← Option.some.inj (hx.symm.trans hx')]
    · refine hs.sync (fun x' hx' ↦ ?_) (fun _ ↦ mem_hand (.inr (.inr ⟨rfl, rfl⟩))) (by simp)
      rwa [← Option.some.inj (hx.symm.trans hx')]

theorem Inv.run {es : List Event} (h : Runs.run Locking.step {} es = some s) : Inv s :=
  Runs.invariant (fun _ _ _ hs ↦ hs.step) inv_init h

/-! ## Work is never stuck -/

theorem isSome_step_removing (hs : Inv s) {k h l : ℕ} (hw : s.outside[k]? = some (.removing h l)) :
    (step s (.outside k)).isSome := by
  have hlt := hs.outside _ (List.mem_of_getElem? hw) h rfl
  rw [step, hw, Option.bind_some, State.goOutside, List.getElem?_eq_getElem hlt]
  rfl

/-- If a holder is locked, and not by the call inside, then a release can go on. -/
theorem exists_work_of_locked (hs : Inv s) {h : ℕ} (hin : s.inside.any (·.locks h) = false)
    (hlocked : s.locked h = true) : ∃ e, Event.IsWork e ∧ (step s e).isSome := by
  rw [State.locked, hin, Bool.false_or, List.any_eq_true] at hlocked
  obtain ⟨w, hw, hlock⟩ := hlocked
  obtain ⟨k, hk⟩ := List.getElem?_of_mem hw
  cases w with
  | removing h' l => exact ⟨.outside k, trivial, isSome_step_removing hs hk⟩
  | lease _ | remove _ _ | cleanUp _ | close => simp [Outside.locks] at hlock

/-- The close of a holder waits for a save at most. -/
theorem exists_work_of_handshake (hs : Inv s) {c : Closing}
    (hp : s.inside = some (.request c) ∨ s.inside = some (.await c)) :
    ∃ e, Event.IsWork e ∧ (step s e).isSome := by
  have hfound : s.leases[c.queue]? = some c.holder := by
    rcases hp with hp | hp <;> exact hs.found _ hp _ rfl
  obtain ⟨x, hx, -⟩ := hs.mapped _ _ hfound
  have hphase := hs.phase _ x hx
  rcases hp with hp | hp
  · rw [State.hand, hp, Option.bind_some, handshake_request] at hphase
    rcases List.mem_pair.mp hphase.2.2 with hsync | hsync
    · exact ⟨.inside, trivial, by simp [step, hp, State.goInside, hx, hsync]⟩
    · exact ⟨.saved c.holder, trivial, by simp [step, hx, hsync]⟩
  · rw [State.hand, hp, Option.bind_some, handshake_await] at hphase
    rcases List.mem_pair.mp hphase.2.2 with hsync | hsync
    · exact ⟨.saved c.holder, trivial, by simp [step, hx, hsync]⟩
    · exact ⟨.inside, trivial, by simp [step, hp, State.goInside, hx, hsync]⟩

theorem exists_work_inside (hs : Inv s) (hp : s.inside = some p) :
    ∃ e, Event.IsWork e ∧ (step s e).isSome := by
  have hgo : (s.goInside p).isSome → ∃ e, Event.IsWork e ∧ (step s e).isSome :=
    fun h ↦ ⟨.inside, trivial, by rwa [step, hp]⟩
  cases p with
  | lease queue =>
    cases hq : s.leases[queue]? with
    | some h => exact hgo (by simp [State.goInside, hq])
    | none => exact ⟨.create false, trivial, by simp [step, hp, hq]⟩
  | get queue h =>
    cases hl : s.locked h with
    | true => exact exists_work_of_locked hs (by simp [hp, Inside.locks]) hl
    | false => exact hgo (by simp [State.goInside, hl])
  | cleanUp queue =>
    cases hq : s.leases[queue]? with
    | none => exact hgo (by simp [State.goInside, hq])
    | some h =>
      obtain ⟨x, hx, -⟩ := hs.mapped queue h hq
      exact hgo (by simp [State.goInside, hq, hx])
  | loop =>
    by_cases hex : ∃ (q : GoString) (h : ℕ), s.leases[q]? = some h
    · obtain ⟨q, h, hq⟩ := hex
      exact ⟨.pick q, trivial, by simp [step, hp, hq]⟩
    · have hempty : s.leases = ∅ := by
        refine Std.ExtTreeMap.ext_getElem? fun q ↦ ?_
        cases hq : s.leases[q]? with
        | some h => exact absurd ⟨q, h, hq⟩ hex
        | none => simp
      exact hgo (by simp [State.goInside, hempty])
  | stop c =>
    cases hl : s.locked c.holder with
    | true => exact exists_work_of_locked hs (by simp [hp, Inside.locks]) hl
    | false => exact hgo (by simp [State.goInside, hl])
  | request c => exact exists_work_of_handshake hs (.inl hp)
  | await c => exact exists_work_of_handshake hs (.inr hp)
  | getting _ _ | stopped c | delete c | leave => exact hgo rfl

/-- **No deadlock.** While a call is under way, some call or some save can go on. -/
theorem exists_work (hs : Inv s) (hq : ¬s.Quiet) : ∃ e, Event.IsWork e ∧ (step s e).isSome := by
  cases hp : s.inside with
  | some p => exact exists_work_inside hs hp
  | none =>
    cases hw : s.outside with
    | nil => exact absurd ⟨hw, hp⟩ hq
    | cons w ws =>
      have h0 : s.outside[0]? = some w := by rw [hw]; rfl
      have hgo : (s.goOutside 0 w).isSome → ∃ e, Event.IsWork e ∧ (step s e).isSome :=
        fun h ↦ ⟨.outside 0, trivial, by rwa [step, h0]⟩
      cases w with
      | lease queue | cleanUp queue | close =>
        exact hgo (by simp [State.goOutside, State.enter, hp])
      | remove h l =>
        cases hl : s.locked h with
        | true => exact exists_work_of_locked hs (by rw [hp]; rfl) hl
        | false => exact hgo (by simp [State.goOutside, hl])
      | removing h l => exact ⟨.outside 0, trivial, isSome_step_removing hs h0⟩

/-! ## Work comes to an end

Creating a feed puts a holder into the map, which gives `Manager.Close` more to do, and deleting one
sends `Manager.Close` back to the head of its loop. So the measure is lexicographic: the calls that
may still create a feed, the holders in the map, and the statements up to the next of these. -/

def Outside.creates : Outside → ℕ
  | .lease _ => 1
  | .remove _ _ | .removing _ _ | .cleanUp _ | .close => 0

def Inside.creates : Inside → ℕ
  | .lease _ => 1
  | .get _ _ | .getting _ _ | .cleanUp _ | .loop | .stop _ | .request _ | .await _ | .stopped _
  | .delete _ | .leave => 0

def Outside.rank : Outside → ℕ
  | .lease _ => 5
  | .cleanUp _ | .close => 9
  | .removing _ _ => 10
  | .remove _ _ => 11

def Inside.rank : Inside → ℕ
  | .leave => 1
  | .getting _ _ | .delete _ => 2
  | .get _ _ | .stopped _ => 3
  | .lease _ | .await _ => 4
  | .request _ => 6
  | .stop _ => 7
  | .cleanUp _ | .loop => 8

/-- A save is under way. -/
def Sync.rank : Sync → ℕ
  | .tick | .flush => 1
  | .select | .answer | .ended => 0

def State.creates (s : State) : ℕ :=
  weight Outside.creates s.outside + s.inside.elim 0 Inside.creates

def State.rank (s : State) : ℕ :=
  weight Outside.rank s.outside + s.inside.elim 0 Inside.rank + weight (·.sync.rank) s.holders

def State.measure (s : State) : ℕ ×ₗ ℕ ×ₗ ℕ :=
  toLex (s.creates, toLex (s.leases.size, s.rank))

theorem measure_lt_of_creates (h : t.creates < s.creates) : t.measure < s.measure :=
  Prod.Lex.toLex_lt_toLex.mpr (.inl h)

theorem measure_lt_of_rank (hc : t.creates ≤ s.creates) (hm : t.leases = s.leases)
    (hr : t.rank < s.rank) : t.measure < s.measure := by
  rcases hc.lt_or_eq with hc | hc
  · exact measure_lt_of_creates hc
  · exact Prod.Lex.toLex_lt_toLex.mpr
      (.inr ⟨hc, Prod.Lex.toLex_lt_toLex.mpr (.inr ⟨congrArg Std.ExtTreeMap.size hm, hr⟩)⟩)

theorem measure_lt_of_size (hc : t.creates ≤ s.creates) (hm : t.leases.size < s.leases.size) :
    t.measure < s.measure := by
  rcases hc.lt_or_eq with hc | hc
  · exact measure_lt_of_creates hc
  · exact Prod.Lex.toLex_lt_toLex.mpr (.inr ⟨hc, Prod.Lex.toLex_lt_toLex.mpr (.inl hm)⟩)

theorem creates_at (hp : s.inside = some p) (p' : Inside) :
    (s.at p').creates + p.creates = s.creates + p'.creates := by
  simp only [State.creates, State.at, hp, Option.elim_some]
  omega

theorem rank_at (hp : s.inside = some p) (p' : Inside) :
    (s.at p').rank + p.rank = s.rank + p'.rank := by
  simp only [State.rank, State.at, hp, Option.elim_some]
  omega

theorem rank_modify {h : ℕ} {x : Holder} (hx : s.holders[h]? = some x) (f : Holder → Holder) :
    (s.modify h f).rank + x.sync.rank = s.rank + (f x).sync.rank := by
  have := weight_modify (·.sync.rank) hx f
  simp only [State.rank, State.modify]
  omega

theorem measure_enter {k : ℕ} {w : Outside} (hw : s.outside[k]? = some w)
    (hcreates : p.creates = w.creates) (hrank : p.rank < w.rank) (h : s.enter k p = some t) :
    t.measure < s.measure := by
  have hc := weight_eraseIdx Outside.creates hw
  have hr := weight_eraseIdx Outside.rank hw
  rw [State.enter] at h
  split at h
  · rename_i hnone
    obtain rfl := Option.some.inj h
    refine measure_lt_of_rank ?_ rfl ?_
    · simp only [State.creates, hnone, Option.elim_some, Option.elim_none]
      omega
    · simp only [State.rank, hnone, Option.elim_some, Option.elim_none]
      omega
  · simp at h

theorem measure_goOutside {k : ℕ} {w : Outside} (hw : s.outside[k]? = some w)
    (h : s.goOutside k w = some t) : t.measure < s.measure := by
  cases w with
  | lease queue => exact measure_enter hw rfl (by simp [Inside.rank, Outside.rank]) h
  | cleanUp queue => exact measure_enter hw rfl (by simp [Inside.rank, Outside.rank]) h
  | close => exact measure_enter hw rfl (by decide) h
  | remove h₀ l =>
    rw [State.goOutside] at h
    split at h
    · simp at h
    · obtain rfl := Option.some.inj h
      have hc := weight_set Outside.creates hw (.removing h₀ l)
      have hr := weight_set Outside.rank hw (.removing h₀ l)
      simp only [Outside.creates, Outside.rank] at hc hr
      refine measure_lt_of_rank ?_ rfl ?_
      · simp only [State.creates]
        omega
      · simp only [State.rank]
        omega
  | removing h₀ l =>
    obtain ⟨x, hx, rfl⟩ := Option.map_eq_some_iff.mp h
    have hc := weight_set Outside.creates hw (.cleanUp x.queue)
    have hr := weight_set Outside.rank hw (.cleanUp x.queue)
    have hm := weight_modify (·.sync.rank) hx
      (fun x ↦ { x with leases := x.leases.filter (· ≠ l) })
    simp only [Outside.creates, Outside.rank] at hc hr hm
    refine measure_lt_of_rank ?_ rfl ?_
    · simp only [State.creates, State.modify]
      omega
    · simp only [State.rank, State.modify]
      omega

theorem measure_at (hp : s.inside = some p) {p' : Inside} (hcreates : p'.creates ≤ p.creates)
    (hrank : p'.rank < p.rank) : (s.at p').measure < s.measure := by
  have hc := creates_at hp p'
  have hr := rank_at hp p'
  exact measure_lt_of_rank (by omega) rfl (by omega)

theorem measure_modify_at (hp : s.inside = some p) {p' : Inside} {h : ℕ} {x : Holder}
    (hx : s.holders[h]? = some x) {f : Holder → Holder} (hcreates : p'.creates ≤ p.creates)
    (hrank : p'.rank + (f x).sync.rank < p.rank + x.sync.rank) :
    ((s.modify h f).at p').measure < s.measure := by
  have hc := creates_at (s := s.modify h f) hp p'
  have hr := rank_at (s := s.modify h f) hp p'
  have hm := rank_modify hx f
  refine measure_lt_of_rank ?_ rfl (by omega)
  have : (s.modify h f).creates = s.creates := rfl
  omega

theorem measure_goInside (hs : Inv s) (hp : s.inside = some p) (h : s.goInside p = some t) :
    t.measure < s.measure := by
  have hfound := hs.found p hp
  cases p with
  | lease queue =>
    obtain ⟨h₀, -, rfl⟩ := Option.map_eq_some_iff.mp h
    exact measure_at hp (by simp [Inside.creates]) (by simp [Inside.rank])
  | get queue h₀ =>
    rw [State.goInside] at h
    split at h
    · simp at h
    · obtain rfl := Option.some.inj h
      exact measure_at hp (by simp [Inside.creates]) (by simp [Inside.rank])
  | getting queue h₀ =>
    obtain rfl := Option.some.inj h
    obtain ⟨x, hx, -⟩ := hs.mapped _ _ (hfound _ rfl)
    exact measure_modify_at hp hx (f := fun x ↦ { x with leases := x.leases ++ [s.granted.length] })
      (by simp [Inside.creates]) (by simp [Inside.rank])
  | cleanUp queue =>
    rw [State.goInside] at h
    split at h
    · obtain rfl := Option.some.inj h
      exact measure_at hp (by simp [Inside.creates]) (by simp [Inside.rank])
    · obtain ⟨x, -, rfl⟩ := Option.map_eq_some_iff.mp h
      split <;> exact measure_at hp (by simp [Inside.creates]) (by simp [Inside.rank])
  | loop =>
    rw [State.goInside] at h
    split at h
    · obtain rfl := Option.some.inj h
      exact measure_at hp (by simp [Inside.creates]) (by simp [Inside.rank])
    · simp at h
  | stop c =>
    rw [State.goInside] at h
    split at h
    · simp at h
    · obtain rfl := Option.some.inj h
      obtain ⟨x, hx, -⟩ := hs.mapped _ _ (hfound _ rfl)
      exact measure_modify_at hp hx (by simp [Inside.creates]) (by simp [Inside.rank])
  | request c =>
    -- the save that the request starts costs one
    obtain ⟨x, hx, hif⟩ := Option.bind_eq_some_iff.mp h
    split at hif
    · rename_i hsync
      obtain rfl := Option.some.inj hif
      exact measure_modify_at hp hx (by simp [Inside.creates])
        (by simp [Inside.rank, Sync.rank, hsync])
    · simp at hif
  | await c =>
    obtain ⟨x, hx, hif⟩ := Option.bind_eq_some_iff.mp h
    split at hif
    · rename_i hsync
      obtain rfl := Option.some.inj hif
      exact measure_modify_at hp hx (by simp [Inside.creates])
        (by simp [Inside.rank, Sync.rank, hsync])
    · simp at hif
  | stopped c =>
    obtain rfl := Option.some.inj h
    exact measure_at hp (by simp [Inside.creates]) (by simp [Inside.rank])
  | delete c =>
    obtain rfl := Option.some.inj h
    have hq : s.leases[c.queue]? = some c.holder := hfound _ rfl
    have hmem : c.queue ∈ s.leases := Std.ExtTreeMap.mem_iff_isSome_getElem?.mpr (by rw [hq]; rfl)
    refine measure_lt_of_size ?_ ?_
    · have := creates_at hp (if c.all then .loop else .leave)
      have hzero : (if c.all then Inside.loop else .leave).creates = 0 := by split <;> rfl
      rw [hzero] at this
      exact this.le.trans' (Nat.le_add_right _ _)
    · show (s.leases.erase c.queue).size < s.leases.size
      rw [Std.ExtTreeMap.size_erase, if_pos (Std.ExtTreeMap.contains_iff_mem.mpr hmem)]
      refine Nat.sub_one_lt fun hzero ↦ ?_
      rw [Std.ExtTreeMap.eq_empty_iff_size_eq_zero.mpr hzero] at hq
      simp at hq
  | leave =>
    obtain rfl := Option.some.inj h
    refine measure_lt_of_rank ?_ rfl ?_
    · simp [State.creates]
    · simp [State.rank, hp, Inside.rank]

/-- Work makes the measure smaller. -/
theorem measure_step (hs : Inv s) {e : Event} (hwork : e.IsWork) (h : step s e = some t) :
    t.measure < s.measure := by
  cases e with
  | outside k =>
    obtain ⟨w, hw, hgo⟩ := Option.bind_eq_some_iff.mp h
    exact measure_goOutside hw hgo
  | inside =>
    obtain ⟨p, hp, hgo⟩ := Option.bind_eq_some_iff.mp h
    exact measure_goInside hs hp hgo
  | create ok =>
    obtain ⟨queue, hp, -, rfl⟩ := step_create h
    refine measure_lt_of_creates ?_
    split
    · have : (s.at (.get queue s.holders.length)).creates + 1 = s.creates := creates_at hp _
      exact Nat.lt_of_succ_le this.le
    · have : (s.at .leave).creates + 1 = s.creates := creates_at hp _
      exact Nat.lt_of_succ_le this.le
  | pick queue =>
    obtain ⟨hp, h₀, -, rfl⟩ := step_pick h
    exact measure_at hp (by simp [Inside.creates]) (by simp [Inside.rank])
  | saved h₀ =>
    have hsave : ∀ {x : Holder} {v : Sync}, s.holders[h₀]? = some x → v.rank < x.sync.rank →
        (s.modify h₀ fun x ↦ { x with sync := v }).measure < s.measure := by
      intro x v hx hv
      have := rank_modify hx fun x ↦ { x with sync := v }
      exact measure_lt_of_rank le_rfl rfl (by simp only at this; omega)
    obtain ⟨x, hx, ⟨hsync, rfl⟩ | ⟨hsync, rfl⟩⟩ := step_saved h
    · exact hsave hx (by simp [hsync, Sync.rank])
    · exact hsave hx (by simp [hsync, Sync.rank])
  | lease _ | release _ | close | tick _ => exact absurd hwork id

/-! ## The results -/

/-- **Every call returns.** Whatever calls were made and however far each has come, once no new call
is made and no ticker fires, the calls return one after the other, in every order in which they can
go on. -/
theorem calls_return {es : List Event} (hrun : Runs.run step {} es = some s) :
    Runs.Inevitable step Event.IsWork State.Quiet s :=
  .of_measure State.measure (fun _ _ _ hs _ ↦ hs.step) (fun _ _ _ hs ↦ measure_step hs)
    (fun _ ↦ exists_work) (Inv.run hrun)

/-- **A feed is closed once.** No holder has `Feed.Close` called twice, a queue has at most one feed
whose goroutine has not ended, and a lease is granted by the holder in the map, which is not being
closed. -/
theorem closed_once {es : List Event} (hrun : Runs.run step {} es = some s) :
    (∀ (h : ℕ) (x : Holder), s.holders[h]? = some x → x.closes ≤ 1) ∧
      (∀ (h h' : ℕ) (x x' : Holder), s.holders[h]? = some x → s.holders[h']? = some x' →
        x.queue = x'.queue → x.sync ≠ .ended → x'.sync ≠ .ended → h = h') ∧
      ∀ (queue : GoString) (h : ℕ), s.inside = some (.getting queue h) →
        ∃ x : Holder, s.holders[h]? = some x ∧ x.queue = queue ∧ x.closes = 0 := by
  have hs := Inv.run hrun
  have hmapped : ∀ (h : ℕ) (x : Holder), s.holders[h]? = some x → x.sync ≠ .ended →
      s.leases[x.queue]? = some h := by
    intro h x hx hsync
    have hphase := hs.phase h x hx
    cases hhand : s.hand h with
    | some syncs =>
      rw [hhand] at hphase
      exact hphase.1
    | none =>
      rw [hhand] at hphase
      exact (hphase.resolve_right fun hl ↦ hsync hl.2.2).1
  refine ⟨fun h x hx ↦ ?_, fun h h' x x' hx hx' hq hsync hsync' ↦ ?_, fun queue h hp ↦ ?_⟩
  · have hphase := hs.phase h x hx
    cases hhand : s.hand h with
    | some syncs =>
      rw [hhand] at hphase
      exact hphase.2.1.le
    | none =>
      rw [hhand] at hphase
      rcases hphase with ⟨-, hc, -⟩ | ⟨-, hc, -⟩ <;> omega
  · have hmap := hmapped h x hx hsync
    rw [hq, hmapped h' x' hx' hsync'] at hmap
    exact (Option.some.inj hmap).symm
  · have hfound : s.leases[queue]? = some h := hs.found _ hp _ rfl
    obtain ⟨x, hx, hxq⟩ := hs.mapped queue h hfound
    have hphase := hs.phase h x hx
    rw [State.hand, hp, hxq, eq_true hfound] at hphase
    exact ⟨x, hx, hxq, (hphase.resolve_right fun hl ↦ hl.1 trivial).2.1⟩

/-- A feed is leased and released twice while the manager is being closed. -/
def closeWhileReleasing : List Event :=
  [.lease (lit "q"), .outside 0, .create true, .inside, .inside, .inside, .tick 0, .release 0,
    .release 0, .close, .outside 0, .outside 2, .pick (lit "q")]

theorem calls_return_closing : ∃ s,
    Runs.run step {} closeWhileReleasing = some s ∧ s.outside.length = 2 ∧
      s.inside = some (.stop ⟨lit "q", 0, true⟩) ∧
      Runs.Inevitable step Event.IsWork State.Quiet s := by
  have h : (Runs.run step {} closeWhileReleasing).map (fun s ↦ (s.outside.length, s.inside))
      = some (2, some (.stop ⟨lit "q", 0, true⟩)) := by decide +kernel
  obtain ⟨s, hs, hd⟩ := Option.map_eq_some_iff.mp h
  exact ⟨s, hs, (Prod.mk.inj hd).1, (Prod.mk.inj hd).2, calls_return hs⟩

theorem closed_once_closing : ∃ s,
    Runs.run step {} (closeWhileReleasing ++ [.outside 0, .inside, .saved 0, .inside]) = some s ∧
      ∀ (h : ℕ) (x : Holder), s.holders[h]? = some x → x.closes ≤ 1 := by
  have h : (Runs.run step {} (closeWhileReleasing ++
      [.outside 0, .inside, .saved 0, .inside])).isSome := by decide +kernel
  obtain ⟨s, hs⟩ := Option.isSome_iff_exists.mp h
  exact ⟨s, hs, (closed_once hs).1⟩

end

end Z4.Locking
