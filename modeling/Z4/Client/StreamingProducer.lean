import Mathlib.Data.List.Perm.Basic
import Mathlib.Logic.Function.Basic
import Z4.Foundations.Runs
import Z4.Proto.Model

/-!
# The streaming producer

`StreamingProducer` of the client sends its requests on a stream and answers each call with a
future. The server answers the requests of a stream in their order, and a response does not say
which request it is for: `handleCallbacks` completes the future at the front of `pending`.

## What matches futures and responses

`pending` stands for the requests of one stream. A reconnect completes its futures with
`ErrInterruptedFuture`, empties it and opens a new stream. But `handleCallbacks` receives a response
first and takes the lock afterwards. A reconnect in between, by a `CreateTask` call whose `Send`
reports `Unavailable`, leaves it with a response of the old stream and a list of the new one: it
completes a future with the task of another request, or takes an element from an empty list.

No future is completed twice, whatever the order of the steps: each is in one place at a time
(`State.futures_perm_range`).

## The steps

`pm` is held by one goroutine at a time, and what the holder is about to do is part of the state.
`p.stream` is read by `handleCallbacks` without the lock. Calls of `CreateTask` are numbered, and a
call's request and future have its number.
-/

namespace Z4.StreamingProducer

open Runs

/-! ## Streams -/

/-- `proto.PushStreamResponse`. -/
structure Response where
  /-- The request that it answers, which the message does not have. -/
  request : ℕ
  /-- Whether it has a task, the one that was created for the request. -/
  hasTask : Bool := true
  status : UInt32 := 0
  message : GoString := []
  forwardedTo : GoString := []
deriving DecidableEq

/-- A stream, between the client's `Send` and its `Recv`. -/
structure Stream where
  /-- Sent and not yet answered. -/
  requests : List ℕ := []
  /-- Answers that are not yet received. -/
  responses : List Response := []
  /-- `PushStream` has returned. -/
  ended : Bool := false

/-- What `createTask` returns to `PushStream`: a response, or an error. -/
inductive Created where
  | ok (hasTask : Bool) (forwardedTo : GoString)
  | failed

/-- One round of `Queue.PushStream`. -/
def Stream.serve (x : Stream) (o : Created) : Option Stream :=
  if x.ended then none
  else match x.requests, o with
    | [], _ => none
    | r :: rest, .ok hasTask forwardedTo => some { x with
        requests := rest
        responses := x.responses ++ [{ request := r, hasTask, forwardedTo }] }
    -- the request has no answer then, and neither have those after it
    | _ :: _, .failed => some { x with ended := true }

/-- The requests whose answers are still to be received, in their order. -/
def Stream.unanswered (x : Stream) : List ℕ := x.responses.map Response.request ++ x.requests

/-! ## The producer -/

/-- What a future is completed with. -/
inductive Result where
  /-- The task that was created for the request. -/
  | task (request : ℕ)
  /-- `TaskCreationError`. -/
  | creationError (status : UInt32) (message : GoString)
  /-- `ErrInterruptedFuture`. -/
  | interrupted
  /-- The error of `Send`, or of the reconnect after it. -/
  | notSent
deriving DecidableEq

/-- Who has called `reconnect`. -/
inductive Caller where
  | createTask (f : ℕ)
  | callbacks

/-- What the holder of `pm` does next. -/
inductive Critical where
  /-- `CreateTask`, at `p.stream.Send`. -/
  | sending (f : ℕ)
  /-- `CreateTask`, at `p.pending.PushBack`. -/
  | pushing (f : ℕ)
  /-- `reconnect`, at `p.pool.ResetConn`. -/
  | resetting (c : Caller)
  /-- `reconnect`, at `client.PushStream`. -/
  | opening (c : Caller)

/-- Where `handleCallbacks` stands. -/
inductive Callbacks where
  /-- At the `select` of its loop. -/
  | top
  /-- In `Recv` of the stream it has read from the producer. -/
  | receiving (g : ℕ)
  /-- With a response of the stream, before it takes the lock. -/
  | received (g : ℕ) (res : Response)
  /-- Before the future is completed. -/
  | popped (f : ℕ) (res : Response)
  /-- At the lock of `reconnectWithLock`. -/
  | disconnected
  | reconnecting
  | returned

structure State where
  /-- `p.stream`; streams are numbered as they are opened. -/
  stream : ℕ := 0
  streams : ℕ → Stream := fun _ ↦ {}
  pending : List ℕ := []
  /-- The stream whose requests `pending` stands for. A reconnect that empties the list and opens no
  stream leaves none. -/
  live : Option ℕ := some 0
  /-- The holder of `pm`. -/
  lock : Option Critical := none
  callbacks : Callbacks := .top
  /-- The calls of `TaskFuture.set`. -/
  completed : List (ℕ × Result) := []
  /-- How many `CreateTask` calls have taken the lock. -/
  calls : ℕ := 0
  /-- `handleCallbacks` has taken an element from the empty list. -/
  panicked : Bool := false

def State.set (s : State) (f : ℕ) (r : Result) : State :=
  { s with completed := s.completed ++ [(f, r)] }

/-- What `Send` returns. -/
inductive SendResult where
  | ok
  | unavailable
  | failed

/-- What `Recv` returns. -/
inductive RecvResult where
  | response
  /-- `io.EOF`, or an error with the code `Unavailable`. -/
  | disconnected
  | failed

/-- A step of `handleCallbacks`. -/
inductive CallbacksAction where
  | select (done : Bool)
  | recv (o : RecvResult)
  | pop
  | set
  | reconnect

inductive Event where
  /-- A call of `CreateTask` takes the lock. -/
  | createTask
  | send (o : SendResult)
  | pushBack
  | resetConn (ok : Bool)
  | pushStream (ok : Bool)
  /-- The server answers the next request of a stream. -/
  | serve (g : ℕ) (o : Created)
  | callbacks (a : CallbacksAction)

/-! ## The steps -/

/-- `Send` on the current stream has returned. -/
def State.afterSend (s : State) (f : ℕ) : SendResult → State
  | .ok =>
    let x := s.streams s.stream
    { s with
      streams := Function.update s.streams s.stream { x with requests := x.requests ++ [f] }
      lock := some (.pushing f) }
  | .unavailable => { s with lock := some (.resetting (.createTask f)) }
  -- also `io.EOF`, which a `Send` on a stream that has ended returns
  | .failed => { s.set f .notSent with lock := none }

/-- `reconnect` has returned to its caller. -/
def State.reconnected (s : State) : Caller → Bool → State
  -- back to the label `SEND`, with the lock still held
  | .createTask f, true => { s with lock := some (.sending f) }
  | .createTask f, false => { s.set f .notSent with lock := none }
  | .callbacks, true => { s with lock := none, callbacks := .top }
  | .callbacks, false => { s with lock := none, callbacks := .returned }

/-- The loop of `reconnect` over `pending`, and `p.pending.Init()`. -/
def State.interrupt (s : State) : State :=
  { s with
    completed := s.completed ++ s.pending.map fun f ↦ (f, .interrupted)
    pending := []
    live := none }

/-- A new stream is the current one. -/
def State.openStream (s : State) : State :=
  { s with
    stream := s.stream + 1
    streams := Function.update s.streams (s.stream + 1) {}
    live := some (s.stream + 1) }

/-- What a popped future is completed with. -/
def Response.result (res : Response) : Result :=
  if res.hasTask then .task res.request else .creationError res.status res.message

/-- One step of `handleCallbacks`. -/
def callbacksStep (s : State) : CallbacksAction → Option State
  | .select done =>
    match s.callbacks with
    | .top => some { s with callbacks := if done then .returned else .receiving s.stream }
    | _ => none
  | .recv o =>
    match s.callbacks with
    | .receiving g =>
      match o with
      | .response =>
        let x := s.streams g
        match x.responses with
        | [] => none
        | res :: rest => some { s with
            streams := Function.update s.streams g { x with responses := rest }
            callbacks := .received g res }
      | .disconnected => some { s with callbacks := .disconnected }
      | .failed => some { s with callbacks := .top }
    | _ => none
  | .pop =>
    match s.callbacks, s.lock with
    | .received _ res, none =>
      match s.pending with
      -- `Front` returns nil, which `Remove` reads
      | [] => some { s with panicked := true }
      | f :: rest => some { s with pending := rest, callbacks := .popped f res }
    | _, _ => none
  | .set =>
    match s.callbacks with
    | .popped f res => some { s.set f res.result with
        callbacks := if res.hasTask ∧ res.forwardedTo ≠ [] then .disconnected else .top }
    | _ => none
  | .reconnect =>
    match s.callbacks, s.lock with
    | .disconnected, none =>
      some { s with callbacks := .reconnecting, lock := some (.resetting .callbacks) }
    | _, _ => none

/-- A panic ends the process. -/
def step (s : State) (e : Event) : Option State :=
  if s.panicked then none
  else match e with
    | .createTask =>
      match s.lock with
      | none => some { s with lock := some (.sending s.calls), calls := s.calls + 1 }
      | some _ => none
    | .send o =>
      match s.lock with
      | some (.sending f) => some (s.afterSend f o)
      | _ => none
    | .pushBack =>
      match s.lock with
      | some (.pushing f) => some { s with pending := s.pending ++ [f], lock := none }
      | _ => none
    | .resetConn ok =>
      match s.lock with
      | some (.resetting c) =>
        some (if ok then { s.interrupt with lock := some (.opening c) } else s.reconnected c false)
      | _ => none
    | .pushStream ok =>
      match s.lock with
      | some (.opening c) => some ((if ok then s.openStream else s).reconnected c ok)
      | _ => none
    | .serve g o => ((s.streams g).serve o).map fun x ↦
      { s with streams := Function.update s.streams g x }
    | .callbacks a => callbacksStep s a

/-! ## What a step can do -/

/-- The transitions of `step`, one for each path through the code. -/
inductive Transition (s : State) : Event → State → Prop
  | createTask (hlock : s.lock = none) :
    Transition s .createTask { s with lock := some (.sending s.calls), calls := s.calls + 1 }
  | send {f : ℕ} (o : SendResult) (hlock : s.lock = some (.sending f)) :
    Transition s (.send o) (s.afterSend f o)
  | pushBack {f : ℕ} (hlock : s.lock = some (.pushing f)) :
    Transition s .pushBack { s with pending := s.pending ++ [f], lock := none }
  | interrupt {c : Caller} (hlock : s.lock = some (.resetting c)) :
    Transition s (.resetConn true) { s.interrupt with lock := some (.opening c) }
  | notReset {c : Caller} (hlock : s.lock = some (.resetting c)) :
    Transition s (.resetConn false) (s.reconnected c false)
  | opened {c : Caller} (hlock : s.lock = some (.opening c)) :
    Transition s (.pushStream true) (s.openStream.reconnected c true)
  | notOpened {c : Caller} (hlock : s.lock = some (.opening c)) :
    Transition s (.pushStream false) (s.reconnected c false)
  | serve {g : ℕ} {o : Created} {x : Stream} (hserve : (s.streams g).serve o = some x) :
    Transition s (.serve g o) { s with streams := Function.update s.streams g x }
  | select (done : Bool) (hcallbacks : s.callbacks = .top) :
    Transition s (.callbacks (.select done))
      { s with callbacks := if done then .returned else .receiving s.stream }
  | response {g : ℕ} {res : Response} {rest : List Response}
    (hcallbacks : s.callbacks = .receiving g) (hres : (s.streams g).responses = res :: rest) :
    Transition s (.callbacks (.recv .response))
      { s with
        streams := Function.update s.streams g { s.streams g with responses := rest }
        callbacks := .received g res }
  | disconnected {g : ℕ} (hcallbacks : s.callbacks = .receiving g) :
    Transition s (.callbacks (.recv .disconnected)) { s with callbacks := .disconnected }
  | recvFailed {g : ℕ} (hcallbacks : s.callbacks = .receiving g) :
    Transition s (.callbacks (.recv .failed)) { s with callbacks := .top }
  | pop {g f : ℕ} {res : Response} {rest : List ℕ} (hcallbacks : s.callbacks = .received g res)
    (hlock : s.lock = none) (hpending : s.pending = f :: rest) :
    Transition s (.callbacks .pop) { s with pending := rest, callbacks := .popped f res }
  | popEmpty {g : ℕ} {res : Response} (hcallbacks : s.callbacks = .received g res)
    (hlock : s.lock = none) (hpending : s.pending = []) :
    Transition s (.callbacks .pop) { s with panicked := true }
  | set {f : ℕ} {res : Response} (hcallbacks : s.callbacks = .popped f res) :
    Transition s (.callbacks .set) { s.set f res.result with
      callbacks := if res.hasTask ∧ res.forwardedTo ≠ [] then .disconnected else .top }
  | reconnect (hcallbacks : s.callbacks = .disconnected) (hlock : s.lock = none) :
    Transition s (.callbacks .reconnect)
      { s with callbacks := .reconnecting, lock := some (.resetting .callbacks) }

section

variable {s s' : State} {e : Event} {a : CallbacksAction} {x x' : Stream} {o : Created}

theorem Transition.of_callbacksStep (h : callbacksStep s a = some s') :
    Transition s (.callbacks a) s' := by
  cases a with
  | select done =>
    simp only [callbacksStep] at h
    split at h
    · rename_i hc
      obtain rfl := Option.some.inj h
      exact .select done hc
    · simp at h
  | recv o =>
    simp only [callbacksStep] at h
    split at h
    · rename_i g hc
      cases o with
      | response =>
        dsimp only at h
        split at h
        · simp at h
        · rename_i res rest hres
          obtain rfl := Option.some.inj h
          exact .response hc hres
      | disconnected =>
        obtain rfl := Option.some.inj h
        exact .disconnected hc
      | failed =>
        obtain rfl := Option.some.inj h
        exact .recvFailed hc
    · simp at h
  | pop =>
    simp only [callbacksStep] at h
    split at h
    · rename_i g res hc hlock
      split at h
      · rename_i hpending
        obtain rfl := Option.some.inj h
        exact .popEmpty hc hlock hpending
      · rename_i f rest hpending
        obtain rfl := Option.some.inj h
        exact .pop hc hlock hpending
    · simp at h
  | set =>
    simp only [callbacksStep] at h
    split at h
    · rename_i f res hc
      obtain rfl := Option.some.inj h
      exact .set hc
    · simp at h
  | reconnect =>
    simp only [callbacksStep] at h
    split at h
    · rename_i hc hlock
      obtain rfl := Option.some.inj h
      exact .reconnect hc hlock
    · simp at h

theorem Transition.of_step (h : step s e = some s') : s.panicked = false ∧ Transition s e s' := by
  rw [step.eq_def] at h
  split at h
  · simp at h
  · rename_i hp
    refine ⟨by simpa using hp, ?_⟩
    cases e with
    | createTask =>
      dsimp only at h
      split at h
      · rename_i hlock
        obtain rfl := Option.some.inj h
        exact .createTask hlock
      · simp at h
    | send o =>
      dsimp only at h
      split at h
      · rename_i f hlock
        obtain rfl := Option.some.inj h
        exact .send o hlock
      · simp at h
    | pushBack =>
      dsimp only at h
      split at h
      · rename_i f hlock
        obtain rfl := Option.some.inj h
        exact .pushBack hlock
      · simp at h
    | resetConn ok =>
      dsimp only at h
      split at h
      · rename_i c hlock
        obtain rfl := Option.some.inj h
        cases ok with
        | true => exact .interrupt hlock
        | false => exact .notReset hlock
      · simp at h
    | pushStream ok =>
      dsimp only at h
      split at h
      · rename_i c hlock
        obtain rfl := Option.some.inj h
        cases ok with
        | true => exact .opened hlock
        | false => exact .notOpened hlock
      · simp at h
    | serve g o =>
      obtain ⟨x, hx, rfl⟩ := Option.map_eq_some_iff.mp h
      exact .serve hx
    | callbacks a => exact .of_callbacksStep h

end

/-! ## Where the futures are -/

/-- The future of the `CreateTask` call that holds the lock. -/
def Critical.future : Critical → List ℕ
  | .sending f | .pushing f | .resetting (.createTask f) | .opening (.createTask f) => [f]
  | .resetting .callbacks | .opening .callbacks => []

/-- The future that `handleCallbacks` is about to complete. -/
def Callbacks.future : Callbacks → List ℕ
  | .popped f _ => [f]
  | _ => []

/-- The future of a `CreateTask` call that has yet to return. -/
def State.inCall (s : State) : List ℕ := (s.lock.map Critical.future).getD []

/-- The futures, by the place where they are. -/
def State.futures (s : State) : List ℕ :=
  s.completed.map Prod.fst ++ (s.callbacks.future ++ s.pending ++ s.inCall)

/-- Whether `handleCallbacks` is the holder. -/
def Critical.byCallbacks : Critical → Bool
  | .resetting .callbacks | .opening .callbacks => true
  | _ => false

/-- Every future of a call so far is in one place. -/
structure Placed (s : State) : Prop where
  reconnecting : ∀ x ∈ s.lock, x.byCallbacks = true → s.callbacks = .reconnecting
  futures : s.futures.Perm (List.range s.calls)

section

variable {s s' : State} {e : Event}

theorem perm_interrupt (completed popped pending rest : List ℕ) :
    ((completed ++ pending) ++ (popped ++ [] ++ rest)).Perm
      (completed ++ (popped ++ pending ++ rest)) := by
  rw [List.append_assoc, List.append_nil, ← List.append_assoc pending]
  exact (List.perm_append_comm.append_right rest).append_left completed

theorem Placed.notSent {f : ℕ} (h : Placed s) (hin : s.inCall = [f]) :
    Placed { s.set f .notSent with lock := none } := by
  refine ⟨by simp, ?_⟩
  have hperm := h.futures
  rw [State.futures, hin] at hperm
  refine .trans ?_ hperm
  have hcomm : ([f] ++ (s.callbacks.future ++ s.pending)).Perm _ := List.perm_append_comm
  refine .trans (.of_eq ?_) (hcomm.append_left (s.completed.map Prod.fst))
  simp [State.futures, State.set, State.inCall]

theorem Placed.reconnected {c : Caller} (h : Placed s)
    (hlock : s.lock = some (.resetting c) ∨ s.lock = some (.opening c)) (ok : Bool) :
    Placed (s.reconnected c ok) := by
  have hin : s.inCall = (Critical.opening c).future := by
    rcases hlock with hlock | hlock <;> cases c <;> simp [State.inCall, hlock, Critical.future]
  have hperm := h.futures
  rw [State.futures, hin] at hperm
  cases c with
  | createTask f =>
    cases ok with
    | true => exact ⟨by simp [State.reconnected, Critical.byCallbacks], hperm⟩
    | false => exact h.notSent hin
  | callbacks =>
    have hc : s.callbacks = .reconnecting := by
      rcases hlock with hlock | hlock
      · exact h.reconnecting _ hlock rfl
      · exact h.reconnecting _ hlock rfl
    rw [hc] at hperm
    cases ok with
    | true => exact ⟨by simp [State.reconnected], hperm⟩
    | false => exact ⟨by simp [State.reconnected], hperm⟩

theorem Placed.afterSend {f : ℕ} (h : Placed s) (hlock : s.lock = some (.sending f))
    (o : SendResult) : Placed (s.afterSend f o) := by
  have hin : s.inCall = [f] := by simp [State.inCall, hlock, Critical.future]
  have hperm := h.futures
  rw [State.futures, hin] at hperm
  cases o with
  | ok => exact ⟨by simp [State.afterSend, Critical.byCallbacks], hperm⟩
  | unavailable => exact ⟨by simp [State.afterSend, Critical.byCallbacks], hperm⟩
  | failed => exact h.notSent hin

theorem Placed.callbacks (h : Placed s) (hne : s.callbacks ≠ .reconnecting)
    (hlock : s'.lock = s.lock) (hcalls : s'.calls = s.calls) (hfutures : s'.futures = s.futures) :
    Placed s' := by
  refine ⟨fun x hx hby ↦ absurd (h.reconnecting x (hlock ▸ hx) hby) hne, ?_⟩
  rw [hfutures, hcalls]
  exact h.futures

theorem Placed.transition (h : Placed s) (ht : Transition s e s') : Placed s' := by
  cases ht with
  | createTask hlock =>
    -- the one step that makes a future
    refine ⟨by simp [Critical.byCallbacks], ?_⟩
    have hperm := h.futures.append_right [s.calls]
    rw [← List.range_succ] at hperm
    refine .trans (.of_eq ?_) hperm
    simp [State.futures, State.inCall, hlock, Critical.future]
  | send o hlock => exact h.afterSend hlock o
  | pushBack hlock =>
    refine ⟨by simp, .trans (.of_eq ?_) h.futures⟩
    simp [State.futures, State.inCall, hlock, Critical.future]
  | @interrupt c hlock =>
    have hin : s.inCall = (Critical.opening c).future := by
      cases c <;> simp [State.inCall, hlock, Critical.future]
    refine ⟨?_, ?_⟩
    · rintro x hx hby
      obtain rfl := Option.some.inj hx
      cases c with
      | createTask f => simp [Critical.byCallbacks] at hby
      | callbacks => exact h.reconnecting _ hlock rfl
    · have hperm := perm_interrupt (s.completed.map Prod.fst) s.callbacks.future s.pending s.inCall
      refine .trans (.of_eq ?_) (hperm.trans h.futures)
      rw [hin]
      simp [State.futures, State.interrupt, State.inCall, Function.comp_def]
  | notReset hlock => exact h.reconnected (.inl hlock) false
  | opened hlock =>
    have hopen : Placed s.openStream := ⟨h.reconnecting, h.futures⟩
    exact hopen.reconnected (.inr hlock) true
  | notOpened hlock => exact h.reconnected (.inr hlock) false
  | serve hserve => exact ⟨h.reconnecting, h.futures⟩
  | select done hc =>
    refine h.callbacks (by simp [hc]) rfl rfl ?_
    cases done <;> simp [State.futures, State.inCall, hc, Callbacks.future]
  | response hc hres =>
    exact h.callbacks (by simp [hc]) rfl rfl
      (by simp [State.futures, State.inCall, hc, Callbacks.future])
  | disconnected hc =>
    exact h.callbacks (by simp [hc]) rfl rfl
      (by simp [State.futures, State.inCall, hc, Callbacks.future])
  | recvFailed hc =>
    exact h.callbacks (by simp [hc]) rfl rfl
      (by simp [State.futures, State.inCall, hc, Callbacks.future])
  | pop hc hlock hpending =>
    exact h.callbacks (by simp [hc]) rfl rfl
      (by simp [State.futures, State.inCall, hc, hpending, Callbacks.future])
  | popEmpty hc hlock hpending => exact ⟨h.reconnecting, h.futures⟩
  | set hc =>
    refine h.callbacks (by simp [hc]) rfl rfl ?_
    split <;> simp [State.futures, State.set, State.inCall, hc, Callbacks.future]
  | reconnect hc hlock =>
    refine ⟨by simp, .trans (.of_eq ?_) h.futures⟩
    simp [State.futures, State.inCall, hc, hlock, Callbacks.future, Critical.future]

theorem Placed.init : Placed {} :=
  ⟨by simp, by simp [State.futures, State.inCall, Callbacks.future]⟩

/-- **Every future is in one place.** Whatever the order of the steps, the futures of the calls are
the completed ones, the one that is about to be, those of the list and that of the call under
way. -/
theorem State.futures_perm_range {es : List Event} (hrun : run step {} es = some s) :
    s.futures.Perm (List.range s.calls) := by
  have h : Placed s :=
    Runs.invariant (fun _ _ _ h hs ↦ h.transition (Transition.of_step hs).2) .init hrun
  exact h.futures

end

/-! ## Matching -/

/-- The response that `handleCallbacks` holds is of the stream that `pending` stands for: since it
was received there was no reconnect. -/
def Live (s : State) : Event → Prop
  | .callbacks .pop =>
    match s.callbacks with
    | .received g _ => s.live = some g
    | _ => True
  | _ => True

instance (s : State) : (e : Event) → Decidable (Live s e)
  | .callbacks .pop =>
    match hc : s.callbacks with
    | .received g _ => decidable_of_iff (s.live = some g) (by simp [Live, hc])
    | .top | .receiving _ | .popped _ _ | .disconnected | .reconnecting | .returned =>
      .isTrue (by simp [Live, hc])
  | .callbacks (.select _) | .callbacks (.recv _) | .callbacks .set | .callbacks .reconnect
  | .createTask | .send _ | .pushBack | .resetConn _ | .pushStream _ | .serve _ _ => .isTrue trivial

/-- The stream that `handleCallbacks` receives from, or has a response of. -/
def Callbacks.stream : Callbacks → Option ℕ
  | .receiving g | .received g _ => some g
  | _ => none

/-- The request whose response, from the given stream, `handleCallbacks` holds. -/
def Callbacks.inHand (g : ℕ) : Callbacks → List ℕ
  | .received g' res => if g' = g then [res.request] else []
  | _ => []

/-- The request that was sent and whose future is to be pushed. -/
def State.toPush (s : State) : List ℕ :=
  match s.lock with
  | some (.pushing f) => [f]
  | _ => []

/-- The list stands for the requests of its stream, in their order. -/
structure Matched (s : State) : Prop where
  panicked : s.panicked = false
  current : ∀ g ∈ s.live, g = s.stream
  older : ∀ g ∈ s.callbacks.stream, g ≤ s.stream
  emptied : ∀ c, s.lock = some (.opening c) → s.pending = []
  order : ∀ g ∈ s.live,
    s.callbacks.inHand g ++ (s.streams g).unanswered = s.pending ++ s.toPush
  popped : ∀ f res, s.callbacks = .popped f res → res.request = f
  completed : ∀ f r, (f, .task r) ∈ s.completed → r = f

section

variable {s s' : State} {e : Event}

theorem Stream.unanswered_of_serve {x x' : Stream} {o : Created} (h : x.serve o = some x') :
    x'.unanswered = x.unanswered := by
  cases hend : x.ended with
  | true => simp [Stream.serve, hend] at h
  | false =>
    cases hreq : x.requests with
    | nil => simp [Stream.serve, hend, hreq] at h
    | cons r rest =>
      cases o with
      | ok hasTask forwardedTo =>
        simp only [Stream.serve, hend, hreq, Bool.false_eq_true, if_false] at h
        obtain rfl := Option.some.inj h
        simp [Stream.unanswered, hreq]
      | failed =>
        simp only [Stream.serve, hend, hreq, Bool.false_eq_true, if_false] at h
        obtain rfl := Option.some.inj h
        simp [Stream.unanswered, hreq]

theorem Matched.completed_append {l : List (ℕ × Result)} (h : Matched s)
    (hl : ∀ f r, (f, .task r) ∈ l → r = f) : Matched { s with completed := s.completed ++ l } := by
  refine { h with completed := fun f r hmem ↦ ?_ }
  rcases List.mem_append.mp hmem with hmem | hmem
  · exact h.completed f r hmem
  · exact hl f r hmem

theorem Matched.set {f : ℕ} {r : Result} (h : Matched s) (hr : ∀ n, r = .task n → n = f) :
    Matched (s.set f r) := by
  refine h.completed_append fun f' n hmem ↦ ?_
  obtain ⟨rfl, hn⟩ := Prod.mk.inj (List.mem_singleton.mp hmem)
  exact hr n hn.symm

theorem Matched.lock {x : Option Critical} (h : Matched s) (hpush : s.toPush = [])
    (hx : ∀ f, x ≠ some (.pushing f)) (hopen : ∀ c, x ≠ some (.opening c)) :
    Matched { s with lock := x } := by
  refine { h with
    emptied := fun c hc ↦ absurd hc (hopen c)
    order := fun g hg ↦ ?_ }
  have htoPush : { s with lock := x }.toPush = [] := by
    rw [State.toPush]
    split
    · rename_i f hf
      exact absurd hf (hx f)
    · rfl
  rw [htoPush, ← hpush]
  exact h.order g hg

theorem Matched.callbacks {c : Callbacks} (h : Matched s)
    (hfrom : ∀ g, s.callbacks.inHand g = []) (hto : ∀ g, c.inHand g = [])
    (hstream : ∀ g ∈ c.stream, g ≤ s.stream) (hpopped : ∀ f res, c ≠ .popped f res) :
    Matched { s with callbacks := c } := by
  refine { h with
    older := hstream
    popped := fun f res hc ↦ absurd hc (hpopped f res)
    order := fun g hg ↦ ?_ }
  have horder := h.order g hg
  rw [hfrom g] at horder
  rw [hto g]
  exact horder

theorem Matched.atRest {c : Callbacks} (h : Matched s) (hfrom : ∀ g, s.callbacks.inHand g = [])
    (hc : c = .top ∨ c = .disconnected ∨ c = .reconnecting ∨ c = .returned) :
    Matched { s with callbacks := c } := by
  refine h.callbacks hfrom (fun g ↦ ?_) ?_ fun f res ↦ ?_
  all_goals rcases hc with rfl | rfl | rfl | rfl <;> simp [Callbacks.inHand, Callbacks.stream]

theorem Matched.reconnected {c : Caller} (h : Matched s) (hpush : s.toPush = [])
    (hback : c = .callbacks → s.callbacks = .reconnecting) (ok : Bool) :
    Matched (s.reconnected c ok) := by
  cases c with
  | createTask f =>
    cases ok with
    | true => exact h.lock hpush (by simp) (by simp)
    | false => exact (h.set (by simp)).lock hpush (by simp) (by simp)
  | callbacks =>
    have hc := hback rfl
    have hlock : Matched { s with lock := none } := h.lock hpush (by simp) (by simp)
    have hnone : ∀ g, s.callbacks.inHand g = [] := fun g ↦ by rw [hc]; rfl
    cases ok with
    | true => exact hlock.atRest hnone (by simp)
    | false => exact hlock.atRest hnone (by simp)

theorem Callbacks.inHand_of_lt {c : Callbacks} {n g : ℕ} (h : ∀ g' ∈ c.stream, g' ≤ n)
    (hlt : n < g) : c.inHand g = [] := by
  cases c with
  | received g' res =>
    have hle : g' ≤ n := h g' rfl
    exact if_neg (by omega)
  | top | receiving _ | popped _ _ | disconnected | reconnecting | returned => rfl

theorem Matched.openStream {c : Caller} (h : Matched s) (hlock : s.lock = some (.opening c)) :
    Matched s.openStream := by
  refine { h with
    current := fun g hg ↦ (Option.some.inj hg).symm
    older := fun g hg ↦ (h.older g hg).trans (Nat.le_succ _)
    order := fun g hg ↦ ?_ }
  obtain rfl := Option.some.inj hg
  have hhand : s.callbacks.inHand (s.stream + 1) = [] :=
    Callbacks.inHand_of_lt h.older (Nat.lt_succ_self _)
  simp [State.openStream, State.toPush, hhand, h.emptied c hlock, hlock, Stream.unanswered]

/-- A request that is sent comes last on its stream, as its future does in the list. -/
theorem Matched.afterSend {f : ℕ} (h : Matched s) (hlock : s.lock = some (.sending f))
    (o : SendResult) : Matched (s.afterSend f o) := by
  have hpush : s.toPush = [] := by rw [State.toPush, hlock]
  cases o with
  | ok =>
    refine { h with
      emptied := by simp [State.afterSend]
      order := fun g hg ↦ ?_ }
    -- only the list of the current stream can grow
    obtain rfl := h.current g hg
    have horder := h.order s.stream hg
    rw [hpush, List.append_nil] at horder
    simp only [State.afterSend, State.toPush, Function.update_self, Stream.unanswered, ← horder,
      List.append_assoc]
  | unavailable => exact h.lock hpush (by simp) (by simp)
  | failed => exact (h.set (by simp)).lock hpush (by simp) (by simp)

theorem Matched.response {g : ℕ} {res : Response} {rest : List Response} (h : Matched s)
    (hc : s.callbacks = .receiving g) (hres : (s.streams g).responses = res :: rest) :
    Matched { s with
      streams := Function.update s.streams g { s.streams g with responses := rest }
      callbacks := .received g res } := by
  refine { h with
    older := fun g' hg' ↦ h.older g' (by rw [hc]; exact hg')
    popped := by simp
    order := fun g' hg' ↦ ?_ }
  have horder := h.order g' hg'
  rw [hc] at horder
  refine .trans ?_ horder
  by_cases hg : g = g'
  · subst hg
    simp [Callbacks.inHand, Stream.unanswered, hres]
  · simp [Callbacks.inHand, hg, Function.update_of_ne (Ne.symm hg)]

theorem Matched.serve {g : ℕ} {o : Created} {x : Stream} (h : Matched s)
    (hserve : (s.streams g).serve o = some x) :
    Matched { s with streams := Function.update s.streams g x } := by
  refine { h with order := fun g' hg' ↦ ?_ }
  have hsame : (Function.update s.streams g x g').unanswered = (s.streams g').unanswered := by
    by_cases hg : g' = g
    · subst hg
      rw [Function.update_self]
      exact Stream.unanswered_of_serve hserve
    · rw [Function.update_of_ne hg]
  exact (congrArg _ hsame).trans (h.order g' hg')

/-- The response at hand is for the future at the front of the list. -/
theorem Matched.front {g : ℕ} {res : Response} (h : Matched s)
    (hc : s.callbacks = .received g res) (hlock : s.lock = none) (hlive : s.live = some g) :
    s.pending = res.request :: (s.streams g).unanswered := by
  have horder := h.order g hlive
  simp only [hc, State.toPush, hlock, Callbacks.inHand, if_true, List.append_nil] at horder
  exact horder.symm

theorem Matched.pop {g f : ℕ} {res : Response} {rest : List ℕ} (h : Matched s)
    (hc : s.callbacks = .received g res) (hlock : s.lock = none) (hlive : s.live = some g)
    (hpending : s.pending = f :: rest) :
    Matched { s with pending := rest, callbacks := .popped f res } := by
  have hfront := h.front hc hlock hlive
  rw [hpending] at hfront
  obtain ⟨hf, hrest⟩ := List.cons.inj hfront
  refine { h with
    older := by simp [Callbacks.stream]
    emptied := by simp [hlock]
    order := fun g' hg' ↦ ?_
    popped := fun f' res' heq ↦ ?_ }
  · obtain rfl := Option.some.inj (hlive.symm.trans hg')
    simp [Callbacks.inHand, State.toPush, hlock, hrest]
  · obtain ⟨rfl, rfl⟩ := Callbacks.popped.inj heq
    exact hf.symm

theorem Matched.interrupt (h : Matched s) (c : Caller) :
    Matched { s.interrupt with lock := some (.opening c) } := by
  have hset : Matched { s with
      completed := s.completed ++ s.pending.map fun f ↦ (f, .interrupted) } :=
    h.completed_append (by simp)
  exact { hset with
    current := by simp [State.interrupt]
    emptied := fun _ _ ↦ rfl
    order := by simp [State.interrupt] }

theorem Matched.transition (h : Matched s) (hplaced : Placed s) (hok : Live s e)
    (ht : Transition s e s') : Matched s' := by
  cases ht with
  | createTask hlock =>
    have hpush : s.toPush = [] := by rw [State.toPush, hlock]
    exact { h.lock (x := some (.sending s.calls)) hpush (by simp) (by simp) with }
  | send o hlock => exact h.afterSend hlock o
  | pushBack hlock =>
    refine { h with
      emptied := by simp
      order := fun g hg ↦ ?_ }
    rw [h.order g hg]
    simp [State.toPush, hlock]
  | @interrupt c hlock => exact h.interrupt c
  | notReset hlock =>
    exact h.reconnected (by rw [State.toPush, hlock])
      (fun hc ↦ hplaced.reconnecting _ hlock (by rw [hc]; rfl)) false
  | opened hlock =>
    exact (h.openStream hlock).reconnected (by simp [State.toPush, State.openStream, hlock])
      (fun hc ↦ hplaced.reconnecting _ hlock (by rw [hc]; rfl)) true
  | notOpened hlock =>
    exact h.reconnected (by rw [State.toPush, hlock])
      (fun hc ↦ hplaced.reconnecting _ hlock (by rw [hc]; rfl)) false
  | serve hserve => exact h.serve hserve
  | select done hc =>
    refine h.callbacks (fun g ↦ by rw [hc]; rfl) (fun g ↦ ?_) ?_ (fun f res ↦ ?_)
    · cases done <;> rfl
    · cases done <;> simp [Callbacks.stream]
    · cases done <;> simp
  | response hc hres => exact h.response hc hres
  | disconnected hc => exact h.atRest (fun g ↦ by rw [hc]; rfl) (by simp)
  | recvFailed hc => exact h.atRest (fun g ↦ by rw [hc]; rfl) (by simp)
  | pop hc hlock hpending =>
    simp only [Live, hc] at hok
    exact h.pop hc hlock hok hpending
  | popEmpty hc hlock hpending =>
    -- the future of the response at hand would be in the list
    simp only [Live, hc] at hok
    have hfront := h.front hc hlock hok
    simp [hpending] at hfront
  | @set f res hc =>
    have hset : Matched (s.set f res.result) := by
      refine h.set fun n hn ↦ ?_
      rw [Response.result] at hn
      split at hn
      · rw [← Result.task.inj hn]
        exact h.popped f res hc
      · simp at hn
    refine hset.atRest (fun g ↦ by simp [State.set, hc, Callbacks.inHand]) ?_
    split <;> simp
  | reconnect hc hlock =>
    have hto : Matched { s with callbacks := .reconnecting } :=
      h.atRest (fun g ↦ by rw [hc]; rfl) (by simp)
    exact hto.lock (by simp [State.toPush, hlock]) (by simp) (by simp)

theorem Matched.init : Matched {} where
  panicked := rfl
  current := by simp
  older := by simp [Callbacks.stream]
  emptied := by simp
  order := by simp [Callbacks.inHand, Stream.unanswered, State.toPush]
  popped := by simp
  completed := by simp

/-- **When futures match their requests.** In every run in which `handleCallbacks` takes the front
of the list only with a response of the stream that the list stands for, each future is completed at
most once, one that is completed with a task has the task of its own request, and nothing is taken
from the empty list. -/
theorem futures_match_of_live {es : List Event} (hok : Meets step Live {} es)
    (hrun : run step {} es = some s) :
    (s.completed.map Prod.fst).Nodup ∧ (∀ f r, (f, .task r) ∈ s.completed → r = f) ∧
      s.panicked = false := by
  have h0 : Placed {} ∧ Matched {} := ⟨.init, .init⟩
  have h : Placed s ∧ Matched s := by
    refine Meets.invariant (P := fun s ↦ Placed s ∧ Matched s) (fun s e t h hok hs ↦ ?_) h0 hok hrun
    have ht := (Transition.of_step hs).2
    exact ⟨h.1.transition ht, h.2.transition h.1 hok ht⟩
  refine ⟨?_, h.2.completed, h.2.panicked⟩
  have hnodup : s.futures.Nodup := h.1.futures.nodup_iff.mpr List.nodup_range
  exact (List.nodup_append.mp hnodup).1

end

/-- Two requests are answered, the second one from another peer. The producer reconnects, and the
third request goes to the new stream. -/
def forwardedRun : List Event :=
  [.createTask, .send .ok, .pushBack, .createTask, .send .ok, .pushBack,
    .serve 0 (.ok true []), .serve 0 (.ok true (lit "peer")),
    .callbacks (.select false), .callbacks (.recv .response), .callbacks .pop, .callbacks .set,
    .callbacks (.select false), .callbacks (.recv .response), .callbacks .pop, .callbacks .set,
    .callbacks .reconnect, .resetConn true, .pushStream true,
    .createTask, .send .ok, .pushBack, .serve 1 (.ok true []),
    .callbacks (.select false), .callbacks (.recv .response), .callbacks .pop, .callbacks .set]

theorem futures_match_forwardedRun :
    ∃ s, run step {} forwardedRun = some s ∧
      s.completed = [(0, .task 0), (1, .task 1), (2, .task 2)] ∧
      (s.completed.map Prod.fst).Nodup ∧ (∀ f r, (f, .task r) ∈ s.completed → r = f) ∧
      s.panicked = false := by
  have hok : Meets step Live {} forwardedRun := by decide +kernel
  have hmap : (run step {} forwardedRun).map (·.completed)
      = some [(0, .task 0), (1, .task 1), (2, .task 2)] := by decide +kernel
  obtain ⟨s, hrun, hs⟩ := Option.map_eq_some_iff.mp hmap
  exact ⟨s, hrun, hs, futures_match_of_live hok hrun⟩

/-- `handleCallbacks` has received the response to the first request when the `Send` of the second
reports `Unavailable`. The call reconnects and sends its request on the new stream. Then
`handleCallbacks` gets the lock. The response to the second request finds the list empty. -/
def lateRun : List Event :=
  [.createTask, .send .ok, .pushBack, .serve 0 (.ok true []),
    .callbacks (.select false), .callbacks (.recv .response),
    .createTask, .send .unavailable, .resetConn true, .pushStream true, .send .ok, .pushBack,
    .callbacks .pop, .callbacks .set,
    .serve 1 (.ok true []), .callbacks (.select false), .callbacks (.recv .response),
    .callbacks .pop]

theorem mismatched_lateRun :
    ∃ s, run step {} lateRun = some s ∧
      s.completed = [(0, .interrupted), (1, .task 0)] ∧ s.panicked = true := by
  have h : (run step {} lateRun).map (fun s ↦ (s.completed, s.panicked))
      = some ([(0, .interrupted), (1, .task 0)], true) := by decide +kernel
  obtain ⟨s, hrun, hs⟩ := Option.map_eq_some_iff.mp h
  exact ⟨s, hrun, Prod.mk.inj hs⟩

end Z4.StreamingProducer
