import Mathlib.Algebra.Order.Ring.Int
import Mathlib.Data.List.Count
import Mathlib.Logic.Basic
import Z4.Foundations.Channel
import Z4.Foundations.Runs

/-!
# The consumer

`Consumer.Consume` of the client calls a function on every task that it receives. The user acks a
message when they like, from any goroutine, also after `Consume` has returned: `Message.Ack` sends
on the channel `acks`, which has no buffer, and `startAckHandler` receives there and passes the acks
on to the server.

## Who closes the channel

Nobody sends on a channel that is closed, or the process panics, so it may only be closed once every
message is acked. That is what `unackedMsgCount` is for. It counts a message from before the user
has it until after the handler has its ack, so it is the number of messages whose ack is still to
come, up to one for each of the two goroutines that count (`Inv.count`). `Consume` sets `closed` as
the last thing it does, when it has no message in hand. So when the handler sees the flag, and then
a count of zero in its own goroutine, neither of the two is between its message and the counter, and
no ack is to come (`Inv.load`).

## The steps

A step is one of `Consume`, of the handler, or the start of an `Ack`. A goroutine that reads
`closed` without a lock may still see it unset. A send and the receive that it waits for are one
step of the handler. The mutex is held while the stream is replaced or sent on.
-/

namespace Z4.Client.Consumer

open Channel Runs

variable {ε : Type*}

/-- Where `Consume` is. -/
inductive Loop (ε : Type*) where
  /-- At `startStream`. -/
  | ready
  /-- At the `select`. -/
  | top
  | receiving
  /-- At the lock of `reconnectWithLock`. -/
  | locking
  | reconnecting
  /-- With a task, at `AddInt64`. -/
  | counting
  /-- With a task that is counted. -/
  | calling
  /-- In the user's function. -/
  | handling
  /-- At `close`, with an error to return. -/
  | closing (e : ε)
  | returned (errs : List ε)

/-- Where `startAckHandler` is. -/
inductive Handler where
  | notStarted
  /-- At the `range`. -/
  | waiting
  /-- With an ack, at `AddInt64`. -/
  | counting
  /-- At `if c.closed`. -/
  | checking
  /-- At `LoadInt64`. -/
  | loading
  /-- At `close(c.acks)`. -/
  | closing
  /-- At the lock. -/
  | locking
  /-- At `SEND_ACK`. -/
  | sending
  | done

/-- What has become of a message. -/
inductive MessageState where
  /-- With the user. -/
  | held
  /-- In `Ack`. -/
  | sending
  /-- The handler has received the ack. -/
  | taken
deriving DecidableEq

inductive Holder where
  | loop
  | handler
deriving DecidableEq

structure State (ε : Type*) where
  loop : Loop ε := .ready
  handler : Handler := .notStarted
  mu : Option Holder := none
  unackedMsgCount : ℤ := 0
  closed : Bool := false
  acks : Chan ℕ := { capacity := 0 }
  /-- How often `close(c.acks)` was executed. -/
  closings : ℕ := 0
  /-- The messages that were passed to the user's function, in their order. -/
  messages : List MessageState := []
  /-- A goroutine has sent on the closed channel or closed it again. -/
  panicked : Bool := false

/-- What `Recv` returns: a task, an error after which `Consume` reconnects, or another one. -/
inductive Received (ε : Type*) where
  | task
  | interrupted
  | failed (e : ε)

inductive LoopEvent (ε : Type*) where
  | startStream (err : Option ε)
  | select (done : Option ε)
  | recv (r : Received ε)
  | lock
  | reconnect (err : Option ε)
  | add
  | call
  | handled (err : Option ε)
  | close (err : Option ε)

/-- `Consume`. -/
def loopStep (s : State ε) (e : LoopEvent ε) : Option (State ε) :=
  match s.loop, e with
  | .ready, .startStream none => some { s with loop := .top, handler := .waiting }
  | .ready, .startStream (some e) => some { s with loop := .returned [e] }
  | .top, .select none => some { s with loop := .receiving }
  | .top, .select (some e) => some { s with loop := .closing e }
  | .receiving, .recv .task => some { s with loop := .counting }
  | .receiving, .recv .interrupted => some { s with loop := .locking }
  | .receiving, .recv (.failed e) => some { s with loop := .returned [e] }
  | .locking, .lock =>
    if s.mu = none then some { s with mu := some .loop, loop := .reconnecting } else none
  | .reconnecting, .reconnect none => some { s with mu := none, loop := .top }
  -- the error is dropped, and `closed` stays as it is
  | .reconnecting, .reconnect (some _) => some { s with mu := none, loop := .returned [] }
  | .counting, .add => some { s with unackedMsgCount := s.unackedMsgCount + 1, loop := .calling }
  | .calling, .call => some { s with messages := s.messages ++ [.held], loop := .handling }
  | .handling, .handled none => some { s with loop := .top }
  | .handling, .handled (some e) => some { s with loop := .closing e }
  | .closing e, .close err => some { s with closed := true, loop := .returned (e :: err.toList) }
  | _, _ => none

inductive HandlerEvent where
  | receive (i : ℕ)
  /-- The channel is closed, and the `range` ends. -/
  | drained
  | subtract
  /-- The value that is read of `closed`. -/
  | check (seen : Bool)
  | load
  | closeAcks
  | lock
  /-- Whether `Send` found the server unavailable and the handler has reconnected. -/
  | send (again : Bool)

/-- `startAckHandler`. -/
def handlerStep (s : State ε) (e : HandlerEvent) : Option (State ε) :=
  match s.handler, e with
  | .waiting, .receive i =>
    if s.messages[i]? = some .sending then
      some { s with messages := s.messages.set i .taken, handler := .counting }
    else none
  | .waiting, .drained => if s.acks.closed then some { s with handler := .done } else none
  | .counting, .subtract =>
    some { s with unackedMsgCount := s.unackedMsgCount - 1, handler := .checking }
  | .checking, .check true => if s.closed then some { s with handler := .loading } else none
  | .checking, .check false => some { s with handler := .locking }
  | .loading, .load =>
    some { s with handler := if s.unackedMsgCount = 0 then .closing else .waiting }
  | .closing, .closeAcks =>
    let s := { s with closings := s.closings + 1, handler := .done }
    match s.acks.close with
    | none => some { s with panicked := true }
    -- whoever waits in a send panics then
    | some acks => some { s with acks, panicked := s.panicked || s.messages.contains .sending }
  | .locking, .lock =>
    if s.mu = none then some { s with mu := some .handler, handler := .sending } else none
  | .sending, .send true => some s
  | .sending, .send false => some { s with mu := none, handler := .waiting }
  | _, _ => none

/-- The start of `Message.Ack`, at most once on each message. -/
def ackStep (s : State ε) (i : ℕ) : Option (State ε) :=
  if s.messages[i]? = some .held then
    match s.acks.send i with
    | .panicked => some { s with panicked := true }
    | .blocked => some { s with messages := s.messages.set i .sending }
    -- there is no buffer
    | .queued _ => none
  else none

inductive Event (ε : Type*) where
  | loop (e : LoopEvent ε)
  | handler (e : HandlerEvent)
  | ack (i : ℕ)

def step (s : State ε) : Event ε → Option (State ε)
  | .loop e => loopStep s e
  | .handler e => handlerStep s e
  | .ack i => ackStep s i

/-! ## The count -/

/-- How many messages there are whose ack is still to be received. -/
def unacked (messages : List MessageState) : ℕ := messages.countP (· ≠ .taken)

theorem unacked_concat (messages : List MessageState) :
    unacked (messages ++ [.held]) = unacked messages + 1 := by
  simp [unacked]

theorem unacked_set {messages : List MessageState} {i : ℕ} {m : MessageState}
    (h : messages[i]? = some m) (hm : m ≠ .taken) (m' : MessageState) :
    unacked (messages.set i m') + 1 = unacked messages + if m' ≠ .taken then 1 else 0 := by
  obtain ⟨hi, rfl⟩ := List.getElem?_eq_some_iff.mp h
  have hpos : 0 < unacked messages :=
    List.countP_pos_iff.mpr ⟨_, List.getElem_mem hi, decide_eq_true hm⟩
  rw [unacked] at hpos
  rw [unacked, unacked, List.countP_set hi, if_pos (decide_eq_true hm)]
  simp only [decide_eq_true_eq]
  omega

theorem taken_of_unacked {messages : List MessageState} (h : unacked messages = 0) {i : ℕ}
    {m : MessageState} (hm : messages[i]? = some m) : m = .taken := by
  have hall := List.countP_eq_zero.mp h m (List.mem_of_getElem? hm)
  simpa using hall

/-- A task that `Consume` has counted and not yet passed on. -/
def Loop.pending : Loop ε → ℕ
  | .calling => 1
  | _ => 0

/-- An ack that the handler has received and not yet counted. -/
def Handler.pending : Handler → ℕ
  | .counting => 1
  | _ => 0

/-- `Consume` has returned, and every message is acked. -/
def Finished (s : State ε) : Prop := (∃ errs, s.loop = .returned errs) ∧ unacked s.messages = 0

structure Inv (s : State ε) : Prop where
  count : s.unackedMsgCount = (unacked s.messages + s.loop.pending + s.handler.pending : ℕ)
  notStarted : s.loop = .ready → s.handler = .notStarted
  closed : s.closed = true → ∃ errs, s.loop = .returned errs
  loading : s.handler = .loading → s.closed = true
  closing : s.handler = .closing → Finished s
  acksClosed : s.acks.closed = true → s.handler = .done ∧ Finished s
  closings : s.closings = if s.acks.closed then 1 else 0
  not_panicked : s.panicked = false

theorem inv_init : Inv ({} : State ε) where
  count := rfl
  notStarted := fun _ ↦ rfl
  closed := nofun
  loading := nofun
  closing := nofun
  acksClosed := nofun
  closings := rfl
  not_panicked := rfl

/-! ## A step of `Consume` -/

variable {s t : State ε}

/-- What a step of `Consume` leaves as it is. -/
structure LoopFrame (s t : State ε) : Prop where
  running : ∀ errs, s.loop ≠ .returned errs
  started : t.loop ≠ .ready
  handler : t.handler = s.handler ∨ s.loop = .ready ∧ t.handler = .waiting
  acks : t.acks = s.acks
  closings : t.closings = s.closings
  panicked : t.panicked = s.panicked
  closed : t.closed = true → s.closed = true ∨ ∃ errs, t.loop = .returned errs
  /-- The counter and what it stands for change together. -/
  count : t.unackedMsgCount - (unacked t.messages + t.loop.pending : ℕ) =
    s.unackedMsgCount - (unacked s.messages + s.loop.pending : ℕ)

theorem loopFrame_move {x y : Loop ε} (hloop : s.loop = x) (hx : ∀ errs, x ≠ .returned errs)
    (hx' : x.pending = 0) (hy : y ≠ .ready) (hy' : y.pending = 0) (mu : Option Holder) :
    LoopFrame s { s with loop := y, mu } where
  running := hloop ▸ hx
  started := hy
  handler := .inl rfl
  acks := rfl
  closings := rfl
  panicked := rfl
  closed := .inl
  count := by rw [hloop, hx', hy']

theorem loopFrame_of_step {e : LoopEvent ε} (h : loopStep s e = some t) : LoopFrame s t := by
  rw [loopStep.eq_def] at h
  split at h
  case h_16 => cases h
  case h_8 hloop =>
    obtain ⟨-, h⟩ := Option.ite_none_right_eq_some.mp h
    obtain rfl := Option.some.inj h
    exact loopFrame_move hloop (by nofun) (by rfl) (by nofun) (by rfl) _
  all_goals
    rename_i hloop
    obtain rfl := Option.some.inj h
  -- the stream is started, a task is counted, a message is passed on, and `closed` is set
  case h_1 =>
    exact ⟨by simp [hloop], nofun, .inr ⟨hloop, rfl⟩, rfl, rfl, rfl, .inl, by
      simp [hloop, Loop.pending]⟩
  case h_11 =>
    refine ⟨by simp [hloop], nofun, .inl rfl, rfl, rfl, rfl, .inl, ?_⟩
    simp only [hloop, Loop.pending]
    omega
  case h_12 =>
    refine ⟨by simp [hloop], nofun, .inl rfl, rfl, rfl, rfl, .inl, ?_⟩
    simp only [hloop, Loop.pending, unacked_concat]
  case h_15 =>
    exact ⟨by simp [hloop], nofun, .inl rfl, rfl, rfl, rfl, fun _ ↦ .inr ⟨_, rfl⟩, by
      simp [hloop, Loop.pending]⟩
  all_goals exact loopFrame_move hloop (by nofun) (by rfl) (by nofun) (by rfl) _

/-- While `Consume` runs, the handler does not get to close the channel. -/
theorem Inv.of_running (h : Inv s) (hrun : ∀ errs, s.loop ≠ .returned errs) :
    s.closed = false ∧ s.handler ≠ .loading ∧ s.handler ≠ .closing ∧ s.acks.closed = false := by
  have hclosed : s.closed = false := by
    rw [← Bool.not_eq_true]
    exact fun hc ↦ (h.closed hc).elim hrun
  refine ⟨hclosed, fun hl ↦ ?_, fun hc ↦ (h.closing hc).1.elim hrun, ?_⟩
  · rw [h.loading hl] at hclosed
    cases hclosed
  · rw [← Bool.not_eq_true]
    exact fun hc ↦ (h.acksClosed hc).2.1.elim hrun

theorem Inv.loop {e : LoopEvent ε} (h : Inv s) (hstep : loopStep s e = some t) : Inv t := by
  have hf := loopFrame_of_step hstep
  obtain ⟨hclosed, hloading, hclosing, hacks⟩ := h.of_running hf.running
  have hpending : t.handler.pending = s.handler.pending := by
    obtain heq | ⟨hready, hwaiting⟩ := hf.handler
    · rw [heq]
    · rw [hwaiting, h.notStarted hready]
      rfl
  have hhandler : t.handler ≠ .loading ∧ t.handler ≠ .closing := by
    obtain heq | ⟨-, hwaiting⟩ := hf.handler
    · exact heq ▸ ⟨hloading, hclosing⟩
    · exact hwaiting ▸ ⟨nofun, nofun⟩
  have hopen : t.acks.closed = false := hf.acks ▸ hacks
  constructor
  case count =>
    have hcount := h.count
    have hchange := hf.count
    rw [hpending]
    omega
  case notStarted => exact fun hready ↦ absurd hready hf.started
  case closed => exact fun hc ↦ (hf.closed hc).resolve_left (by simp [hclosed])
  case loading => exact fun hl ↦ absurd hl hhandler.1
  case closing => exact fun hc ↦ absurd hc hhandler.2
  case acksClosed => exact fun hc ↦ absurd hc (by simp [hopen])
  case closings => rw [hf.closings, h.closings, hf.acks]
  case not_panicked => rw [hf.panicked, h.not_panicked]

/-! ## An ack -/

theorem Inv.ack {i : ℕ} (h : Inv s) (hstep : ackStep s i = some t) : Inv t := by
  rw [ackStep, Option.ite_none_right_eq_some] at hstep
  obtain ⟨hheld, hstep⟩ := hstep
  -- the message is not acked, so the channel is open
  have hopen : s.acks.closed = false := by
    rw [← Bool.not_eq_true]
    intro hc
    cases taken_of_unacked (h.acksClosed hc).2.2 hheld
  cases hsend : s.acks.send i with
  | panicked => exact absurd hsend (Chan.send_ne_panicked hopen)
  | queued c => simp [hsend] at hstep
  | blocked =>
    simp only [hsend, Option.some.injEq] at hstep
    subst hstep
    have hunacked : unacked (s.messages.set i .sending) = unacked s.messages :=
      Nat.succ.inj (unacked_set hheld nofun .sending)
    exact {
      h with
      count := by rw [hunacked]; exact h.count
      closing := fun hc ↦ ⟨(h.closing hc).1, hunacked.trans (h.closing hc).2⟩
      acksClosed := fun hc ↦ absurd hc (by simp [hopen]) }

/-! ## A step of the handler -/

theorem Inv.not_ready (h : Inv s) (hne : s.handler ≠ .notStarted) : s.loop ≠ .ready :=
  fun hready ↦ hne (h.notStarted hready)

theorem Inv.acks_open (h : Inv s) (hne : s.handler ≠ .done) : s.acks.closed = false := by
  rw [← Bool.not_eq_true]
  exact fun hc ↦ hne (h.acksClosed hc).1

/-- A step of the handler, while it runs and up to the close of the channel, need only keep the
count and know what it goes on for. -/
theorem Inv.moveTo {y : Handler} {messages : List MessageState} {count : ℤ} {mu : Option Holder}
    (h : Inv s) (hne : s.handler ≠ .notStarted) (hne' : s.handler ≠ .done)
    (hcount : count = (unacked messages + s.loop.pending + y.pending : ℕ))
    (hloading : y = .loading → s.closed = true)
    (hclosing : y = .closing → Finished { s with messages }) :
    Inv { s with handler := y, messages, unackedMsgCount := count, mu } where
  count := hcount
  notStarted := fun hready ↦ absurd hready (h.not_ready hne)
  closed := h.closed
  loading := hloading
  closing := hclosing
  acksClosed := fun hc ↦ absurd hc (by simp [h.acks_open hne'])
  closings := h.closings
  not_panicked := h.not_panicked

theorem Inv.move {x : Handler} (h : Inv s) (hx : s.handler = x) (y : Handler)
    (hx' : x.pending = 0) (hne : x ≠ .notStarted) (hne' : x ≠ .done) (hy : y.pending = 0)
    (hloading : y = .loading → s.closed = true) (hclosing : y = .closing → Finished s)
    (mu : Option Holder) : Inv { s with handler := y, mu } := by
  refine h.moveTo (hx ▸ hne) (hx ▸ hne') ?_ hloading hclosing
  rw [h.count, hx, hx', hy]

theorem Inv.receive {i : ℕ} (h : Inv s) (hwaiting : s.handler = .waiting)
    (hsending : s.messages[i]? = some .sending) :
    Inv { s with messages := s.messages.set i .taken, handler := .counting } := by
  refine h.moveTo (hwaiting ▸ nofun) (hwaiting ▸ nofun) ?_ nofun nofun
  have hcount := h.count
  have hunacked : unacked (s.messages.set i .taken) + 1 = unacked s.messages :=
    unacked_set hsending nofun .taken
  simp only [hwaiting, Handler.pending] at hcount ⊢
  omega

theorem Inv.subtract (h : Inv s) (hcounting : s.handler = .counting) :
    Inv { s with unackedMsgCount := s.unackedMsgCount - 1, handler := .checking } := by
  refine h.moveTo (hcounting ▸ nofun) (hcounting ▸ nofun) ?_ nofun nofun
  have hcount := h.count
  simp only [hcounting, Handler.pending] at hcount ⊢
  omega

/-- The handler has seen the flag. If it now sees a count of zero, every message is acked: `Consume`
has returned and the handler has no ack in hand. -/
theorem Inv.load (h : Inv s) (hloading : s.handler = .loading) (hzero : s.unackedMsgCount = 0) :
    Finished s := by
  have hreturned := h.closed (h.loading hloading)
  have hcount := h.count
  refine ⟨hreturned, ?_⟩
  omega

theorem Inv.closeAcks {acks : Chan ℕ} (h : Inv s) (hclosing : s.handler = .closing)
    (hclose : s.acks.close = some acks) :
    Inv { s with
      closings := s.closings + 1
      handler := .done
      acks
      panicked := s.panicked || s.messages.contains .sending } := by
  have hfinished := h.closing hclosing
  have hopen := h.acks_open (hclosing ▸ nofun)
  have hnone : s.messages.contains .sending = false := by
    rw [← Bool.not_eq_true, List.contains_iff_mem]
    intro hmem
    obtain ⟨i, hi⟩ := List.getElem?_of_mem hmem
    cases taken_of_unacked hfinished.2 hi
  rw [Chan.close, hopen, if_neg Bool.false_ne_true, Option.some.injEq] at hclose
  subst hclose
  exact {
    count := by
      have hcount := h.count
      rw [hclosing] at hcount
      exact hcount
    notStarted := fun hready ↦ absurd hready (h.not_ready (hclosing ▸ nofun))
    closed := h.closed
    loading := nofun
    closing := nofun
    acksClosed := fun _ ↦ ⟨rfl, hfinished⟩
    closings := by simp [h.closings, hopen]
    not_panicked := by rw [h.not_panicked, hnone, Bool.or_false] }

theorem Inv.handler {e : HandlerEvent} (h : Inv s) (hstep : handlerStep s e = some t) : Inv t := by
  rw [handlerStep.eq_def] at hstep
  split at hstep
  case h_1 hwaiting =>
    obtain ⟨hsending, heq⟩ := Option.ite_none_right_eq_some.mp hstep
    obtain rfl := Option.some.inj heq
    exact h.receive hwaiting hsending
  case h_2 hwaiting =>
    obtain ⟨-, heq⟩ := Option.ite_none_right_eq_some.mp hstep
    obtain rfl := Option.some.inj heq
    exact h.move hwaiting .done rfl nofun nofun rfl nofun nofun _
  case h_3 hcounting =>
    obtain rfl := Option.some.inj hstep
    exact h.subtract hcounting
  case h_4 hchecking =>
    obtain ⟨hclosed, heq⟩ := Option.ite_none_right_eq_some.mp hstep
    obtain rfl := Option.some.inj heq
    exact h.move hchecking .loading rfl nofun nofun rfl (fun _ ↦ hclosed) nofun _
  case h_5 hchecking =>
    obtain rfl := Option.some.inj hstep
    exact h.move hchecking .locking rfl nofun nofun rfl nofun nofun _
  case h_6 hloading =>
    obtain rfl := Option.some.inj hstep
    by_cases hzero : s.unackedMsgCount = 0
    · rw [if_pos hzero]
      exact h.move hloading .closing rfl nofun nofun rfl nofun (fun _ ↦ h.load hloading hzero) _
    · rw [if_neg hzero]
      exact h.move hloading .waiting rfl nofun nofun rfl nofun nofun _
  case h_7 hclosing =>
    have hopen := h.acks_open (hclosing ▸ nofun)
    have hclose : s.acks.close = some { s.acks with closed := true } := by
      rw [Chan.close, hopen, if_neg Bool.false_ne_true]
    simp only [hclose, Option.some.injEq] at hstep
    subst hstep
    exact h.closeAcks hclosing hclose
  case h_8 hlocking =>
    obtain ⟨-, heq⟩ := Option.ite_none_right_eq_some.mp hstep
    obtain rfl := Option.some.inj heq
    exact h.move hlocking .sending rfl nofun nofun rfl nofun nofun _
  case h_9 =>
    obtain rfl := Option.some.inj hstep
    exact h
  case h_10 hsending =>
    obtain rfl := Option.some.inj hstep
    exact h.move hsending .waiting rfl nofun nofun rfl nofun nofun _
  case h_11 => cases hstep

theorem Inv.step {e : Event ε} (h : Inv s) (hstep : step s e = some t) : Inv t :=
  match e with
  | .loop _ => h.loop hstep
  | .handler _ => h.handler hstep
  | .ack _ => h.ack hstep

/-- **The channel is closed safely.** Whatever the order of the steps of `Consume`, of the handler
and of the user's acks, nobody sends on the closed channel and it is closed at most once. -/
theorem acks_closed_safely (events : List (Event ε)) (s : State ε)
    (hrun : run step {} events = some s) : s.panicked = false ∧ s.closings ≤ 1 := by
  have hinv : Inv s := invariant (fun _ _ _ h ht ↦ h.step ht) inv_init hrun
  refine ⟨hinv.not_panicked, ?_⟩
  rw [hinv.closings]
  split
  · exact le_rfl
  · exact Nat.zero_le 1

/-- Two tasks are received. The second makes the user's function fail, so `Consume` returns. The
messages are acked afterwards, the later one first, and the handler closes the channel. -/
def ackedLate : List (Event Unit) :=
  [.loop (.startStream none), .loop (.select none), .loop (.recv .task), .loop .add, .loop .call,
    .loop (.handled none), .loop (.select none), .loop (.recv .task), .loop .add, .loop .call,
    .loop (.handled (some ())), .loop (.close none), .ack 1, .ack 0, .handler (.receive 1),
    .handler .subtract, .handler (.check true), .handler .load, .handler (.receive 0),
    .handler .subtract, .handler (.check true), .handler .load, .handler .closeAcks]

theorem acks_closed_safely_ackedLate : ∃ s, run step {} ackedLate = some s ∧ s.closings = 1 ∧
    s.panicked = false ∧ s.closings ≤ 1 := by
  have hrun : (run step {} ackedLate).map (fun s ↦ s.closings) = some 1 := by decide
  obtain ⟨s, hs, hclosings⟩ := Option.map_eq_some_iff.mp hrun
  exact ⟨s, hs, hclosings, acks_closed_safely ackedLate s hs⟩

end Z4.Client.Consumer
