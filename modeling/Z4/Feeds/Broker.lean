import Mathlib.Data.List.ReduceOption
import Z4.Feeds.Resume
import Z4.Feeds.Shutdown

/-!
# Competing consumers

Every `Pull` has a `TaskBroker` of its own, and the brokers of a queue receive from one channel. A
broker waits for a task or for the end of its stream, and sends what it has received before it waits
again. A task whose `Send` fails is in no stream; it is left to redelivery.

The feed side is the one of the module on closing: the loop of `startFeed` and the redelivery runs
push, and the loop closes the channel. Here the brokers do the receiving.

## What the streams hold

Whatever the order of the steps, there is one order in which the tasks were received, and it is the
order in which they were pushed. Each broker has received a part of it and has sent that part in the
same order, apart from the task it has in hand, or lost when its stream failed. So no task is handed
to two clients, none is made up, and one failed stream costs one task.

A receive on a channel that is closed and empty yields `nil`, and a broker that is still there sends
it. It does so only on a closed channel.
-/

namespace Z4.Brokers

open Redelivery Channel Runs Closing
open Shutdown (Pushes pushThen_cases runStep_cases)

/-! ## Brokers -/

/-- Where `startTaskSender` stands. -/
inductive Sender where
  /-- At its `select`. -/
  | waiting
  /-- Before `stream.Send`, with what was received: `none` is the `nil` of a closed channel. -/
  | holding (task : Option Task)
  /-- It has returned, and could not send this. -/
  | returned (lost : Option Task)

structure Broker where
  sender : Sender := .waiting
  /-- What was sent to the client. -/
  stream : List (Option Task) := []

/-- What the broker has received and not sent. -/
def Sender.unsent : Sender → List Task
  | .waiting => []
  | .holding task => task.toList
  | .returned lost => lost.toList

/-- The tasks that the broker has received. -/
def Broker.taken (b : Broker) : List Task := b.stream.reduceOption ++ b.sender.unsent

structure State where
  feed : Closing.State
  brokers : List Broker := []
  /-- The tasks that have entered the channel. -/
  pushed : List Task := []

inductive Event where
  /-- A step of the feed, other than a receive. -/
  | feed (e : Closing.Event)
  /-- A `Pull` starts its sender. -/
  | start
  /-- The context of the stream is done. -/
  | done (b : ℕ)
  | receive (b : ℕ)
  | send (b : ℕ) (ok : Bool)

def isReceive : Closing.Event → Bool
  | .receive => true
  | _ => false

/-- A panic of the feed ends the process. -/
def step (s : State) (e : Event) : Option State :=
  if s.feed.panicked then none
  else match e with
    | .feed e =>
      if isReceive e then none
      else (Closing.step s.feed e).map fun feed ↦
        { s with feed, pushed := s.pushed ++ feed.feed.buf.drop s.feed.feed.buf.length }
    | .start => some { s with brokers := s.brokers ++ [{}] }
    | .done b =>
      match s.brokers[b]? with
      | some ⟨.waiting, stream⟩ =>
        some { s with brokers := s.brokers.set b ⟨.returned none, stream⟩ }
      | _ => none
    | .receive b =>
      match s.brokers[b]? with
      | some ⟨.waiting, stream⟩ => s.feed.feed.receive.map fun (task, feed) ↦
        { s with
          feed := { s.feed with feed }
          brokers := s.brokers.set b ⟨.holding task, stream⟩ }
      | _ => none
    | .send b ok =>
      match s.brokers[b]? with
      | some ⟨.holding task, stream⟩ =>
        let broker := if ok then ⟨.waiting, stream ++ [task]⟩ else ⟨.returned task, stream⟩
        some { s with brokers := s.brokers.set b broker }
      | _ => none

/-! ## What the feed does to its channel -/

section

variable {s s' : Closing.State}

theorem feed_of_loopStep {c : Case} {now now' : Time} (h : loopStep s c now now' = some s') :
    Pushes s.feed s'.feed ∨ s.feed.close = some s'.feed := by
  rw [loopStep] at h
  split at h
  next =>
    split at h
    next =>
      obtain ⟨feed, hfeed, rfl⟩ := Option.map_eq_some_iff.mp h
      exact .inr hfeed
    next => exact .inl (.inl (Option.some.inj h ▸ rfl))
  next => exact .inl (.inl (Option.some.inj h ▸ rfl))
  next =>
    dsimp only at h
    split at h
    · exact .inl (.inl (Option.some.inj h ▸ rfl))
    · exact .inl (.inl (Option.some.inj h ▸ rfl))
  next =>
    obtain ⟨query, -, rfl⟩ := Option.map_eq_some_iff.mp h
    exact .inl (.inl rfl)
  next =>
    split at h
    · exact .inl (.inl (Option.some.inj h ▸ rfl))
    · exact .inl (.inl (Option.some.inj h ▸ rfl))
    · obtain rfl | ⟨feed, o, hfeed, h⟩ := pushThen_cases h
      · exact .inl (.inl rfl)
      · split at h
        · exact .inl (Option.some.inj h ▸ hfeed)
        · exact .inl (Option.some.inj h ▸ hfeed)
  next => simp at h

/-- A step of the feed other than a receive pushes at most one task, or closes the channel. -/
theorem feed_of_step {e : Closing.Event} (he : isReceive e = false)
    (h : Closing.step s e = some s') :
    Pushes s.feed s'.feed ∨ s.feed.close = some s'.feed := by
  rw [Closing.step.eq_def] at h
  split at h
  · simp at h
  · cases e with
    | write db => exact .inl (.inl (Option.some.inj h ▸ rfl))
    | update secs => exact .inl (.inl (Option.some.inj h ▸ rfl))
    | loop c now now' => exact feed_of_loopStep h
    | run k j e =>
      dsimp only at h
      split at h
      · simp at h
      · obtain rfl | ⟨feed, e, o, hfeed, -, rfl⟩ := runStep_cases h
        · exact .inl (.inl rfl)
        · exact .inl hfeed
    | receive => simp [isReceive] at he
    | close => exact .inl (.inl (Option.some.inj h ▸ rfl))

theorem grows_of_step {e : Closing.Event} (he : isReceive e = false)
    (h : Closing.step s e = some s') :
    s'.feed.buf = s.feed.buf ++ s'.feed.buf.drop s.feed.buf.length ∧
      (s.feed.closed = true → s'.feed.closed = true) := by
  rcases feed_of_step he h with hpush | hclose
  · refine ⟨?_, fun hc ↦ hpush.closed_eq.trans hc⟩
    rcases hpush with heq | ⟨t, hsend⟩
    · simp [heq]
    · rw [Chan.send] at hsend
      split at hsend
      · simp at hsend
      · split at hsend
        · rw [← Sent.queued.inj hsend, List.drop_left]
        · simp at hsend
  · rw [Chan.close, Option.ite_none_left_eq_some] at hclose
    rw [← Option.some.inj hclose.2]
    simp

end

/-! ## What is received -/

/-- The tasks that a broker received, of all that were. -/
def partOf (received : List (ℕ × Task)) (b : ℕ) : List Task :=
  (received.filter fun r ↦ r.1 = b).map Prod.snd

/-- The order in which the tasks were received. -/
structure Accounts (s : State) (received : List (ℕ × Task)) : Prop where
  pushed : s.pushed = received.map Prod.snd ++ s.feed.feed.buf
  known : ∀ r ∈ received, r.1 < s.brokers.length
  taken : ∀ b broker, s.brokers[b]? = some broker → partOf received b = broker.taken

/-- A broker with `nil` in its hand or in its stream. -/
def Broker.HasNil (b : Broker) : Prop := none ∈ b.stream ∨ b.sender = .holding none

/-- `nil` comes from a closed channel only. -/
def NilOnlyClosed (s : State) : Prop :=
  ∀ b ∈ s.brokers, b.HasNil → s.feed.feed.closed = true

section

variable {s s' : State} {received : List (ℕ × Task)}

theorem partOf_concat (received : List (ℕ × Task)) (r : ℕ × Task) (b : ℕ) :
    partOf (received ++ [r]) b = partOf received b ++ if r.1 = b then [r.2] else [] := by
  rw [partOf, partOf, List.filter_append, List.map_append]
  by_cases h : r.1 = b <;> simp [h]

theorem Accounts.set (h : Accounts s received) {b : ℕ} {broker broker' : Broker}
    (hb : s.brokers[b]? = some broker) (htaken : broker'.taken = broker.taken) :
    Accounts { s with brokers := s.brokers.set b broker' } received where
  pushed := h.pushed
  known r hr := by
    rw [List.length_set]
    exact h.known r hr
  taken i x hx := by
    rw [List.getElem?_set] at hx
    split at hx
    · rename_i hbi
      subst hbi
      split at hx
      · rw [← Option.some.inj hx, htaken]
        exact h.taken b broker hb
      · simp at hx
    · exact h.taken i x hx

theorem Accounts.receive (h : Accounts s received) {b : ℕ} {stream : List (Option Task)}
    (hb : s.brokers[b]? = some ⟨.waiting, stream⟩) {t : Task} {feed : Chan Task}
    (hbuf : s.feed.feed.buf = t :: feed.buf) :
    Accounts { s with
      feed := { s.feed with feed }
      brokers := s.brokers.set b ⟨.holding (some t), stream⟩ } (received ++ [(b, t)]) where
  pushed := by
    rw [h.pushed, hbuf, List.map_append, List.append_assoc]
    rfl
  known r hr := by
    rw [List.length_set]
    rcases List.mem_append.mp hr with hr | hr
    · exact h.known r hr
    · rw [List.mem_singleton.mp hr]
      exact (List.getElem?_eq_some_iff.mp hb).1
  taken i x hx := by
    rw [partOf_concat]
    rw [List.getElem?_set] at hx
    split at hx
    · rename_i hbi
      subst hbi
      split at hx
      · rw [← Option.some.inj hx, h.taken b _ hb]
        simp [Broker.taken, Sender.unsent]
      · simp at hx
    · rename_i hbi
      rw [if_neg hbi, List.append_nil]
      exact h.taken i x hx

theorem Accounts.start (h : Accounts s received) :
    Accounts { s with brokers := s.brokers ++ [{}] } received where
  pushed := h.pushed
  known r hr := by
    rw [List.length_append]
    exact Nat.lt_add_right 1 (h.known r hr)
  taken b broker hb := by
    rw [List.getElem?_append] at hb
    split at hb
    · exact h.taken b broker hb
    · rename_i hlen
      obtain rfl : broker = {} := (List.mem_singleton.mp (List.mem_of_getElem? hb))
      have hnone : received.filter (fun r ↦ r.1 = b) = [] := by
        rw [List.filter_eq_nil_iff]
        intro r hr hrb
        have := h.known r hr
        simp only [decide_eq_true_eq] at hrb
        omega
      rw [partOf, hnone]
      rfl

theorem NilOnlyClosed.set (h : NilOnlyClosed s) {b : ℕ} {x : Broker} {feed : Chan Task}
    (hclosed : s.feed.feed.closed = true → feed.closed = true)
    (hx : x.HasNil → feed.closed = true) :
    NilOnlyClosed { s with
      feed := { s.feed with feed }
      brokers := s.brokers.set b x } := by
  intro y hy hnil
  rcases List.mem_or_eq_of_mem_set hy with hy | rfl
  · exact hclosed (h y hy hnil)
  · exact hx hnil

/-- **One step.** -/
theorem Accounts.step {e : Event} (h : Accounts s received) (hnil : NilOnlyClosed s)
    (hs : step s e = some s') :
    (∃ more, Accounts s' (received ++ more)) ∧ NilOnlyClosed s' := by
  rw [Brokers.step.eq_def] at hs
  split at hs
  · simp at hs
  cases e with
  | feed e =>
    dsimp only at hs
    split at hs
    · simp at hs
    · rename_i he
      obtain ⟨feed, hfeed, rfl⟩ := Option.map_eq_some_iff.mp hs
      obtain ⟨hgrow, hclosed⟩ := grows_of_step (by simpa using he) hfeed
      refine ⟨⟨[], ?_⟩, fun b hb hn ↦ hclosed (hnil b hb hn)⟩
      rw [List.append_nil]
      refine ⟨?_, h.known, h.taken⟩
      rw [h.pushed, List.append_assoc]
      exact congrArg _ hgrow.symm
  | start =>
    obtain rfl := Option.some.inj hs
    refine ⟨⟨[], by rw [List.append_nil]; exact h.start⟩, fun b hb hn ↦ ?_⟩
    rcases List.mem_append.mp hb with hb | hb
    · exact hnil b hb hn
    · rw [List.mem_singleton.mp hb] at hn
      simp [Broker.HasNil] at hn
  | done b =>
    dsimp only at hs
    split at hs
    · rename_i stream hb
      obtain rfl := Option.some.inj hs
      refine ⟨⟨[], by rw [List.append_nil]; exact h.set hb rfl⟩, ?_⟩
      refine hnil.set id fun hn ↦ hnil _ (List.mem_of_getElem? hb) ?_
      simpa [Broker.HasNil] using hn
    · simp at hs
  | receive b =>
    dsimp only at hs
    split at hs
    · rename_i stream hb
      obtain ⟨⟨task, feed⟩, hrecv, rfl⟩ := Option.map_eq_some_iff.mp hs
      have hclosed := Chan.closed_of_receive hrecv
      have hmem := List.mem_of_getElem? hb
      rw [Chan.receive] at hrecv
      split at hrecv
      · -- the oldest task of the channel
        rename_i t buf hbuf
        obtain ⟨rfl, rfl⟩ := Prod.mk.inj (Option.some.inj hrecv)
        refine ⟨⟨[(b, t)], h.receive hb hbuf⟩, hnil.set (fun hc ↦ hclosed.trans hc) fun hn ↦ ?_⟩
        exact hclosed.trans (hnil _ hmem (.inl (by simpa [Broker.HasNil] using hn)))
      · -- `nil`
        split at hrecv
        · rename_i hc
          obtain ⟨rfl, rfl⟩ := Prod.mk.inj (Option.some.inj hrecv)
          refine ⟨⟨[], ?_⟩, hnil.set id fun _ ↦ hc⟩
          rw [List.append_nil]
          exact h.set hb rfl
        · simp at hrecv
    · simp at hs
  | send b ok =>
    dsimp only at hs
    split at hs
    · rename_i task stream hb
      obtain rfl := Option.some.inj hs
      have hmem := List.mem_of_getElem? hb
      cases ok with
      | true =>
        refine ⟨⟨[], ?_⟩, hnil.set id fun hn ↦ hnil _ hmem ?_⟩
        · rw [List.append_nil]
          refine h.set hb ?_
          cases task <;> simp [Broker.taken, Sender.unsent, List.reduceOption_append]
        · rcases hn with hn | hn
          · rcases List.mem_append.mp hn with hn | hn
            · exact .inl hn
            · exact .inr (by rw [List.mem_singleton.mp hn])
          · simp at hn
      | false =>
        refine ⟨⟨[], ?_⟩, hnil.set id fun hn ↦ hnil _ hmem ?_⟩
        · rw [List.append_nil]
          exact h.set hb rfl
        · exact .inl (by simpa [Broker.HasNil] using hn)
    · simp at hs

/-- **Competing consumers share the tasks.** In every run of a feed and its brokers there is one
order in which the tasks were received. Followed by what is in the channel it is the order in which
they were pushed, and each broker has received a part of it: what it has sent to its client, in that
order, and at most one task that it holds or has lost with its stream. Without a closed channel no
client is sent a `nil`. -/
theorem received_in_order {db : DB} {settings : QueueConfig} {es : List Event}
    (hrun : Runs.run step { feed := .init db settings } es = some s) :
    (∃ received : List (ℕ × Task), s.pushed = received.map Prod.snd ++ s.feed.feed.buf ∧
      (∀ r ∈ received, r.1 < s.brokers.length) ∧
      ∀ b broker, s.brokers[b]? = some broker →
        partOf received b = broker.stream.reduceOption ++ broker.sender.unsent) ∧
    (s.feed.feed.closed = false → ∀ broker ∈ s.brokers, none ∉ broker.stream) := by
  have hinv : (∃ received, Accounts s received) ∧ NilOnlyClosed s := by
    refine invariant (P := fun s ↦ (∃ received, Accounts s received) ∧ NilOnlyClosed s) ?_ ?_ hrun
    · rintro s e s' ⟨⟨received, h⟩, hnil⟩ hs
      obtain ⟨⟨more, h'⟩, hnil'⟩ := h.step hnil hs
      exact ⟨⟨_, h'⟩, hnil'⟩
    · exact ⟨⟨[], rfl, by simp, by simp⟩, by simp [NilOnlyClosed]⟩
  obtain ⟨⟨received, h⟩, hnil⟩ := hinv
  refine ⟨⟨received, h.pushed, h.known, h.taken⟩, fun hopen b hb hn ↦ ?_⟩
  exact absurd (hnil b hb (.inl hn)) (by simp [hopen])

end

/-- The two tasks of a store are pushed. The second broker is the first to receive, and the stream
of the other one fails. -/
def twoBrokers : List Event :=
  [.feed (turn .send), .feed (turn .send), .feed (turn .send), .feed (turn .send),
    .feed (turn .send), .feed (turn .send), .start, .start, .receive 1, .receive 0, .send 1 true,
    .send 0 false]

theorem received_in_order_twoBrokers : ∃ s, Runs.run step
    { feed := .init Resume.twoQueued (defaultConfig (lit "q")) } twoBrokers = some s ∧
    s.pushed = [Resume.queuedTask 3, Resume.queuedTask 7] ∧
    ∃ received : List (ℕ × Task), s.pushed = received.map Prod.snd ∧
      partOf received 0 = [Resume.queuedTask 7] ∧ partOf received 1 = [Resume.queuedTask 3] := by
  have hend : (Runs.run step { feed := .init Resume.twoQueued (defaultConfig (lit "q")) }
      twoBrokers).map (fun s ↦ (s.pushed, s.feed.feed.buf, s.brokers[0]?.map Broker.taken,
        s.brokers[1]?.map Broker.taken))
      = some ([Resume.queuedTask 3, Resume.queuedTask 7], [], some [Resume.queuedTask 7],
        some [Resume.queuedTask 3]) := by decide +kernel
  obtain ⟨s, hrun, hs⟩ := Option.map_eq_some_iff.mp hend
  obtain ⟨hpushed, hs⟩ := Prod.mk.inj hs
  obtain ⟨hbuf, hs⟩ := Prod.mk.inj hs
  obtain ⟨h₀, h₁⟩ := Prod.mk.inj hs
  obtain ⟨b₀, hb₀, ht₀⟩ := Option.map_eq_some_iff.mp h₀
  obtain ⟨b₁, hb₁, ht₁⟩ := Option.map_eq_some_iff.mp h₁
  obtain ⟨⟨received, hall, -, htaken⟩, -⟩ := received_in_order hrun
  refine ⟨s, hrun, hpushed, received, ?_, ?_, ?_⟩
  · rw [hall, hbuf, List.append_nil]
  · exact (htaken 0 b₀ hb₀).trans ht₀
  · exact (htaken 1 b₁ hb₁).trans ht₁

end Z4.Brokers
