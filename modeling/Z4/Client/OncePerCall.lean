import Z4.Client.StreamingProducer

/-!
# One request for each call

`CreateTask` sends its request again after a reconnect, and a reconnect gives up the stream but not
what the server has read from it. So it is to be shown that a call does not create two tasks: a
request goes onto a stream once, when `Send` has returned no error, and a round of `PushStream`
passes it to `createTask` once.

## What is recorded

The state of the producer does not say what the server has done with the requests of a stream, once
the answers are received. `Observed` adds this: for each stream, the requests that `PushStream` has
passed to `createTask`. Nothing is decided by it, and the steps are those of the producer.

## The bound

Calls take the lock one after the other and keep it until the request is sent or given up. So every
request that is on a stream, or was, is below the call under way (`State.upTo`), and the requests of
all the streams, in the order of the streams, are in the order of the calls. A future is completed
with the error of `Send` when its call gives up, and the bound then goes past it.
-/

namespace Z4.StreamingProducer

open Runs

/-! ## The requests the server has come to -/

/-- The producer, and what the server has done for it. -/
structure Observed where
  state : State := {}
  /-- For each stream, the requests that `PushStream` has passed to `createTask`. -/
  handled : ℕ → List ℕ := fun _ ↦ []

/-- A round of `PushStream` passes the next request of its stream to `createTask`, whatever comes
of it. -/
def handledBy (s : State) (handled : ℕ → List ℕ) : Event → ℕ → List ℕ
  | .serve g _ => Function.update handled g (handled g ++ (s.streams g).requests.take 1)
  | _ => handled

def Observed.step (x : Observed) (e : Event) : Option Observed :=
  (StreamingProducer.step x.state e).map fun s ↦ ⟨s, handledBy x.state x.handled e⟩

/-- The requests that `PushStream` can still come to: none once it has returned. -/
def Stream.toCome (x : Stream) : List ℕ := if x.ended then [] else x.requests

/-- The requests of a stream that the server has come to or can still come to. -/
def Observed.sentOn (x : Observed) (g : ℕ) : List ℕ :=
  x.handled g ++ (x.state.streams g).toCome

/-- The call that holds the lock, as long as its request is neither sent nor given up. -/
def Critical.unsent : Critical → Option ℕ
  | .sending f | .resetting (.createTask f) | .opening (.createTask f) => some f
  | .pushing _ | .resetting .callbacks | .opening .callbacks => none

def State.unsent (s : State) : Option ℕ := s.lock.bind Critical.unsent

/-- The calls before this one have sent their requests or given up. -/
def State.upTo (s : State) : ℕ := s.unsent.getD s.calls

section

variable {s s' : State} {x x' : Observed} {e : Event} {f : ℕ} {o : Created}

theorem State.upTo_of_unsent (h : s.unsent = some f) : s.upTo = f := by
  rw [State.upTo, h, Option.getD_some]

theorem State.upTo_of_none (h : s.unsent = none) : s.upTo = s.calls := by
  rw [State.upTo, h, Option.getD_none]

/-! ## Order -/

/-- The requests are on the streams in the order of the calls. -/
structure InOrder (x : Observed) : Prop where
  ordered : ∀ g, (x.sentOn g).Pairwise (· < ·)
  streams : ∀ g g', g < g' → ∀ f ∈ x.sentOn g, ∀ f' ∈ x.sentOn g', f < f'
  opened : ∀ g, x.state.stream < g → x.sentOn g = []
  bounded : ∀ g, ∀ f ∈ x.sentOn g, f < x.state.upTo
  notSent : ∀ f, (f, .notSent) ∈ x.state.completed → f < x.state.upTo ∧ ∀ g, f ∉ x.sentOn g
  /-- The call under way is the last one so far. -/
  last : ∀ f ∈ x.state.unsent, f + 1 = x.state.calls

theorem InOrder.upTo_le_calls (h : InOrder x) : x.state.upTo ≤ x.state.calls := by
  cases hu : x.state.unsent with
  | none => exact (State.upTo_of_none hu).le
  | some f =>
    have hlast := h.last f hu
    rw [State.upTo_of_unsent hu]
    omega

theorem InOrder.of_sublist (h : InOrder x) (hsent : ∀ g, (x'.sentOn g).Sublist (x.sentOn g))
    (hstream : x.state.stream ≤ x'.state.stream) (hupTo : x.state.upTo ≤ x'.state.upTo)
    (hlast : ∀ f ∈ x'.state.unsent, f + 1 = x'.state.calls)
    (hnotSent : ∀ f, (f, .notSent) ∈ x'.state.completed →
      (f, .notSent) ∈ x.state.completed ∨ f = x.state.upTo ∧ f < x'.state.upTo) :
    InOrder x' where
  ordered g := (h.ordered g).sublist (hsent g)
  streams g g' hg f hf f' hf' :=
    h.streams g g' hg f ((hsent g).subset hf) f' ((hsent g').subset hf')
  opened g hg := by
    have hnil := hsent g
    rw [h.opened g (hstream.trans_lt hg)] at hnil
    exact List.sublist_nil.mp hnil
  bounded g f hf := (h.bounded g f ((hsent g).subset hf)).trans_le hupTo
  notSent f hf := by
    rcases hnotSent f hf with hold | ⟨rfl, hlt⟩
    · obtain ⟨hlt, hmem⟩ := h.notSent f hold
      exact ⟨hlt.trans_le hupTo, fun g hg ↦ hmem g ((hsent g).subset hg)⟩
    · -- the call under way gives up: nothing on a stream is its request
      exact ⟨hlt, fun g hg ↦ (h.bounded g _ ((hsent g).subset hg)).false⟩
  last := hlast

/-- `Send` puts its request last on the current stream, where the server comes to it unless it has
left the stream. -/
theorem Observed.sentOn_afterSend (x : Observed) (f g : ℕ) :
    Observed.sentOn ⟨x.state.afterSend f .ok, x.handled⟩ g = x.sentOn g ++
      if g = x.state.stream ∧ (x.state.streams g).ended = false then [f] else [] := by
  by_cases hg : g = x.state.stream
  · subst hg
    cases hend : (x.state.streams x.state.stream).ended with
    | true => simp [Observed.sentOn, State.afterSend, Stream.toCome, hend]
    | false => simp [Observed.sentOn, State.afterSend, Stream.toCome, hend]
  · simp [Observed.sentOn, State.afterSend, hg]

theorem Observed.mem_sentOn_afterSend {f' g : ℕ}
    (h : f' ∈ Observed.sentOn ⟨x.state.afterSend f .ok, x.handled⟩ g) :
    f' ∈ x.sentOn g ∨ f' = f ∧ g = x.state.stream := by
  rw [Observed.sentOn_afterSend, List.mem_append] at h
  refine h.imp_right fun hnew ↦ ?_
  split at hnew
  · rename_i hg
    exact ⟨List.mem_singleton.mp hnew, hg.1⟩
  · exact absurd hnew List.not_mem_nil

/-- `Send` has put the request of the call under way onto the current stream. -/
theorem InOrder.sent (h : InOrder x) (hlock : x.state.lock = some (.sending f)) :
    InOrder ⟨x.state.afterSend f .ok, x.handled⟩ := by
  have hunsent : x.state.unsent = some f := by rw [State.unsent, hlock]; rfl
  have hbounded : ∀ g, ∀ a ∈ x.sentOn g, a < f := fun g a ha ↦
    State.upTo_of_unsent hunsent ▸ h.bounded g a ha
  have hupTo : (x.state.afterSend f .ok).upTo = f + 1 := (h.last f hunsent).symm
  refine ⟨fun g ↦ ?_, fun g g' hg a ha b hb ↦ ?_, fun g hg ↦ ?_, fun g a ha ↦ ?_, fun a ha ↦ ?_,
    fun a ha ↦ ?_⟩
  · rw [Observed.sentOn_afterSend, List.pairwise_append]
    refine ⟨h.ordered g, ?_, fun a ha b hb ↦ ?_⟩
    · split <;> simp
    · split at hb
      · rw [List.mem_singleton.mp hb]
        exact hbounded g a ha
      · exact absurd hb List.not_mem_nil
  · rcases Observed.mem_sentOn_afterSend ha with hold | ⟨-, rfl⟩
    · rcases Observed.mem_sentOn_afterSend hb with hold' | ⟨rfl, -⟩
      · exact h.streams g g' hg a hold b hold'
      · exact hbounded g a hold
    · -- a stream after the current one has no requests
      rcases Observed.mem_sentOn_afterSend hb with hold' | ⟨-, rfl⟩
      · rw [h.opened g' hg] at hold'
        exact absurd hold' List.not_mem_nil
      · exact absurd hg (lt_irrefl _)
  · have hne : g ≠ x.state.stream := Nat.ne_of_gt hg
    rw [Observed.sentOn_afterSend, if_neg fun hg' ↦ hne hg'.1, List.append_nil]
    exact h.opened g hg
  · rw [hupTo]
    rcases Observed.mem_sentOn_afterSend ha with hold | ⟨rfl, -⟩
    · exact (hbounded g a hold).trans (Nat.lt_succ_self f)
    · exact Nat.lt_succ_self _
  · obtain ⟨hlt, hnot⟩ := h.notSent a ha
    rw [State.upTo_of_unsent hunsent] at hlt
    refine ⟨hupTo ▸ hlt.trans (Nat.lt_succ_self f), fun g hg ↦ ?_⟩
    rcases Observed.mem_sentOn_afterSend hg with hold | ⟨rfl, -⟩
    · exact hnot g hold
    · exact hlt.false
  · exact absurd ha (by simp [State.unsent, State.afterSend, Critical.unsent])

/-- Of the requests that the server can still come to, a round takes the first, or takes the first
and ends the stream. -/
theorem Stream.toCome_of_serve {y y' : Stream} (h : y.serve o = some y') :
    (y.requests.take 1 ++ y'.toCome).Sublist y.toCome := by
  cases hend : y.ended with
  | true => simp [Stream.serve, hend] at h
  | false =>
    cases hreq : y.requests with
    | nil => simp [Stream.serve, hend, hreq] at h
    | cons r rest =>
      cases o with
      | ok hasTask forwardedTo =>
        simp only [Stream.serve, hend, hreq, Bool.false_eq_true, if_false] at h
        obtain rfl := Option.some.inj h
        simp [Stream.toCome, hend, hreq]
      | failed =>
        simp only [Stream.serve, hend, hreq, Bool.false_eq_true, if_false] at h
        obtain rfl := Option.some.inj h
        simp [Stream.toCome, hend, hreq]

theorem InOrder.serve {g : ℕ} {y : Stream} (h : InOrder x)
    (hserve : (x.state.streams g).serve o = some y) :
    InOrder ⟨{ x.state with streams := Function.update x.state.streams g y },
      handledBy x.state x.handled (.serve g o)⟩ := by
  refine h.of_sublist (fun g' ↦ ?_) le_rfl le_rfl h.last fun f hf ↦ .inl hf
  by_cases hg : g' = g
  · subst hg
    simp only [Observed.sentOn, handledBy, Function.update_self, List.append_assoc]
    exact (Stream.toCome_of_serve hserve).append_left _
  · simp [Observed.sentOn, handledBy, Function.update_of_ne hg]

theorem InOrder.of_eq (h : InOrder x) (hstreams : s.streams = x.state.streams)
    (hstream : s.stream = x.state.stream) (hcalls : s.calls = x.state.calls)
    (hunsent : s.unsent = x.state.unsent)
    (hnotSent : ∀ f, (f, .notSent) ∈ s.completed → (f, .notSent) ∈ x.state.completed) :
    InOrder ⟨s, x.handled⟩ := by
  refine h.of_sublist (fun g ↦ ?_) hstream.ge ?_ ?_ fun f hf ↦ .inl (hnotSent f hf)
  · rw [Observed.sentOn, Observed.sentOn, hstreams]
  · rw [State.upTo, State.upTo, hunsent, hcalls]
  · rw [hunsent, hcalls]
    exact h.last

theorem InOrder.giveUp (h : InOrder x) (hunsent : x.state.unsent = some f) :
    InOrder ⟨{ x.state.set f .notSent with lock := none }, x.handled⟩ := by
  have hupTo : x.state.upTo = f := State.upTo_of_unsent hunsent
  have hcalls : f + 1 = x.state.calls := h.last f hunsent
  refine h.of_sublist (fun g ↦ .refl _) le_rfl h.upTo_le_calls (by simp [State.unsent])
    fun f' hf' ↦ ?_
  rcases List.mem_append.mp hf' with hold | hnew
  · exact .inl hold
  · obtain rfl : f' = f := (Prod.mk.inj (List.mem_singleton.mp hnew)).1
    refine .inr ⟨hupTo.symm, ?_⟩
    change f' < x.state.calls
    omega

theorem InOrder.reconnected {c : Caller} (h : InOrder x)
    (hunsent : x.state.unsent = (Critical.opening c).unsent) (ok : Bool) :
    InOrder ⟨x.state.reconnected c ok, x.handled⟩ := by
  cases c with
  | createTask f =>
    cases ok with
    | true => exact h.of_eq rfl rfl rfl hunsent.symm fun _ hf ↦ hf
    | false => exact h.giveUp hunsent
  | callbacks =>
    cases ok with
    | true => exact h.of_eq rfl rfl rfl hunsent.symm fun _ hf ↦ hf
    | false => exact h.of_eq rfl rfl rfl hunsent.symm fun _ hf ↦ hf

theorem InOrder.openStream (h : InOrder x) : InOrder ⟨x.state.openStream, x.handled⟩ := by
  refine h.of_sublist (fun g ↦ ?_) (Nat.le_succ _) le_rfl h.last fun f hf ↦ .inl hf
  by_cases hg : g = x.state.stream + 1
  · subst hg
    have hnil : x.sentOn (x.state.stream + 1) = [] := h.opened _ (Nat.lt_succ_self _)
    rw [Observed.sentOn, List.append_eq_nil_iff] at hnil
    simp [Observed.sentOn, State.openStream, Stream.toCome, hnil.1]
  · simp [Observed.sentOn, State.openStream, Function.update_of_ne hg]

theorem InOrder.afterSend (h : InOrder x) (hlock : x.state.lock = some (.sending f))
    (r : SendResult) : InOrder ⟨x.state.afterSend f r, x.handled⟩ := by
  have hunsent : x.state.unsent = some f := by rw [State.unsent, hlock]; rfl
  cases r with
  | ok => exact h.sent hlock
  | unavailable => exact h.of_eq rfl rfl rfl hunsent.symm fun _ hf ↦ hf
  | failed => exact h.giveUp hunsent

theorem InOrder.transition (h : InOrder x) (ht : Transition x.state e s') :
    InOrder ⟨s', handledBy x.state x.handled e⟩ := by
  cases ht with
  | createTask hlock =>
    have hnone : x.state.unsent = none := by rw [State.unsent, hlock]; rfl
    refine h.of_sublist (fun g ↦ .refl _) le_rfl (State.upTo_of_none hnone).le ?_
      fun f hf ↦ .inl hf
    rintro f hf
    obtain rfl := Option.some.inj hf
    rfl
  | send r hlock => exact h.afterSend hlock r
  | pushBack hlock =>
    exact h.of_eq rfl rfl rfl (by simp [State.unsent, hlock, Critical.unsent]) fun _ hf ↦ hf
  | @interrupt c hlock =>
    refine h.of_eq rfl rfl rfl ?_ fun f hf ↦ ?_
    · cases c <;> simp [State.unsent, hlock, Critical.unsent]
    · simpa [State.interrupt] using hf
  | @notReset c hlock =>
    exact h.reconnected (by cases c <;> simp [State.unsent, hlock, Critical.unsent]) false
  | @opened c hlock =>
    refine h.openStream.reconnected ?_ true
    rw [State.unsent, State.openStream, hlock]
    rfl
  | @notOpened c hlock => exact h.reconnected (by rw [State.unsent, hlock]; rfl) false
  | serve hserve => exact h.serve hserve
  | @response g res rest hc hres =>
    refine h.of_sublist (fun g' ↦ ?_) le_rfl le_rfl h.last fun f hf ↦ .inl hf
    by_cases hg : g' = g
    · subst hg
      simp [Observed.sentOn, handledBy, Stream.toCome]
    · simp [Observed.sentOn, handledBy, Function.update_of_ne hg]
  | set hc =>
    refine h.of_eq rfl rfl rfl rfl fun f hf ↦ ?_
    rcases List.mem_append.mp hf with hold | hnew
    · exact hold
    · -- what is received is an answer to a request that was sent
      have hres := (Prod.mk.inj (List.mem_singleton.mp hnew)).2
      rw [Response.result] at hres
      split at hres <;> simp at hres
  | reconnect hc hlock =>
    exact h.of_eq rfl rfl rfl (by simp [State.unsent, hlock, Critical.unsent]) fun _ hf ↦ hf
  | select _ _ | disconnected _ | recvFailed _ | pop _ _ _ | popEmpty _ _ _ =>
    exact h.of_eq rfl rfl rfl rfl fun _ hf ↦ hf

theorem InOrder.init : InOrder {} := by
  have hnil : ∀ g, ({} : Observed).sentOn g = [] := fun g ↦ rfl
  exact ⟨by simp [hnil], by simp [hnil], by simp [hnil], by simp [hnil], by simp,
    by simp [State.unsent]⟩

/-! ## Answers -/

/-- The response that `handleCallbacks` has. -/
def Callbacks.response : Callbacks → Option Response
  | .received _ res | .popped _ res => some res
  | .top | .receiving _ | .disconnected | .reconnecting | .returned => none

/-- There is an answer to the request: on a stream, with `handleCallbacks` or in a future. -/
inductive Reports (s : State) : ℕ → Prop
  | waiting {g : ℕ} {res : Response} (h : res ∈ (s.streams g).responses) : Reports s res.request
  | held {res : Response} (h : s.callbacks.response = some res) : Reports s res.request
  | completed {f r : ℕ} (h : (f, .task r) ∈ s.completed) : Reports s r

theorem Reports.of_subset {r : ℕ} (h : Reports s' r)
    (hstreams : ∀ g, (s'.streams g).responses ⊆ (s.streams g).responses)
    (hcallbacks : ∀ res, s'.callbacks.response = some res → Reports s res.request)
    (hcompleted : ∀ f r, (f, .task r) ∈ s'.completed → (f, .task r) ∈ s.completed) :
    Reports s r := by
  cases h with
  | waiting h => exact .waiting (hstreams _ h)
  | held h => exact hcallbacks _ h
  | completed h => exact .completed (hcompleted _ _ h)

theorem Reports.of_kept {r : ℕ} (h : Reports s' r)
    (hstreams : ∀ g, (s'.streams g).responses ⊆ (s.streams g).responses)
    (hcallbacks : s'.callbacks = s.callbacks)
    (hcompleted : ∀ f r, (f, .task r) ∈ s'.completed → (f, .task r) ∈ s.completed) :
    Reports s r :=
  h.of_subset hstreams (fun _ hres ↦ .held (hcallbacks ▸ hres)) hcompleted

theorem Reports.of_dropped {r : ℕ} (h : Reports s' r)
    (hstreams : ∀ g, (s'.streams g).responses ⊆ (s.streams g).responses)
    (hcallbacks : s'.callbacks.response = none)
    (hcompleted : ∀ f r, (f, .task r) ∈ s'.completed → (f, .task r) ∈ s.completed) :
    Reports s r := by
  refine h.of_subset hstreams (fun res hres ↦ ?_) hcompleted
  rw [hcallbacks] at hres
  exact absurd hres (Option.some_ne_none res).symm

theorem Reports.of_set_notSent {f r : ℕ} (h : Reports { s.set f .notSent with lock := none } r) :
    Reports s r := by
  refine h.of_kept (fun _ ↦ List.Subset.refl _) rfl fun f' r' hmem ↦ ?_
  simpa [State.set] using hmem

theorem Reports.of_reconnected {c : Caller} {ok : Bool} {r : ℕ}
    (h : Reports (s.reconnected c ok) r) : Reports s r := by
  cases c with
  | createTask f =>
    cases ok with
    | true => exact h.of_kept (fun _ ↦ List.Subset.refl _) rfl fun _ _ hm ↦ hm
    | false => exact h.of_set_notSent
  | callbacks =>
    cases ok with
    | true => exact h.of_dropped (fun _ ↦ List.Subset.refl _) rfl fun _ _ hm ↦ hm
    | false => exact h.of_dropped (fun _ ↦ List.Subset.refl _) rfl fun _ _ hm ↦ hm

theorem Reports.of_openStream {r : ℕ} (h : Reports s.openStream r) : Reports s r := by
  refine h.of_kept (fun g ↦ ?_) rfl fun _ _ hm ↦ hm
  by_cases hg : g = s.stream + 1
  · subst hg
    simp [State.openStream]
  · simp [State.openStream, Function.update_of_ne hg]

theorem Reports.of_afterSend {f r : ℕ} {o : SendResult} (h : Reports (s.afterSend f o) r) :
    Reports s r := by
  cases o with
  | ok =>
    refine h.of_kept (fun g ↦ ?_) rfl fun _ _ hm ↦ hm
    by_cases hg : g = s.stream
    · subst hg
      simp [State.afterSend]
    · simp [State.afterSend, Function.update_of_ne hg]
  | unavailable => exact h.of_kept (fun _ ↦ List.Subset.refl _) rfl fun _ _ hm ↦ hm
  | failed => exact h.of_set_notSent

theorem Stream.mem_responses_of_serve {y y' : Stream} {res : Response} (h : y.serve o = some y')
    (hres : res ∈ y'.responses) : res ∈ y.responses ∨ res.request ∈ y.requests.take 1 := by
  cases hend : y.ended with
  | true => simp [Stream.serve, hend] at h
  | false =>
    cases hreq : y.requests with
    | nil => simp [Stream.serve, hend, hreq] at h
    | cons r rest =>
      cases o with
      | ok hasTask forwardedTo =>
        simp only [Stream.serve, hend, hreq, Bool.false_eq_true, if_false] at h
        obtain rfl := Option.some.inj h
        refine (List.mem_append.mp hres).imp_right fun hnew ↦ ?_
        rw [List.mem_singleton.mp hnew]
        simp
      | failed =>
        simp only [Stream.serve, hend, hreq, Bool.false_eq_true, if_false] at h
        obtain rfl := Option.some.inj h
        exact .inl hres

/-- Only a round of `PushStream` makes an answer. -/
theorem Reports.of_transition {r : ℕ} (h : Reports s' r) (ht : Transition s e s') :
    Reports s r ∨ ∃ g o, e = .serve g o ∧ r ∈ (s.streams g).requests.take 1 := by
  cases ht with
  | send o hlock => exact .inl h.of_afterSend
  | notReset hlock => exact .inl h.of_reconnected
  | opened hlock => exact .inl h.of_reconnected.of_openStream
  | notOpened hlock => exact .inl h.of_reconnected
  | interrupt hlock =>
    refine .inl (h.of_kept (fun _ ↦ List.Subset.refl _) rfl fun f r' hmem ↦ ?_)
    simpa [State.interrupt] using hmem
  | @serve g o y hserve =>
    cases h with
    | @waiting g' res hres =>
      by_cases hg : g' = g
      · subst hg
        simp only [Function.update_self] at hres
        refine (Stream.mem_responses_of_serve hserve hres).imp .waiting fun hnew ↦ ?_
        exact ⟨g', o, rfl, hnew⟩
      · simp only [Function.update_of_ne hg] at hres
        exact .inl (.waiting hres)
    | held hres => exact .inl (.held hres)
    | completed hmem => exact .inl (.completed hmem)
  | @response g res rest hc hres =>
    refine .inl (h.of_subset (fun g' ↦ ?_) (fun res' hres' ↦ ?_) fun _ _ hm ↦ hm)
    · by_cases hg : g' = g
      · subst hg
        simp [hres]
      · simp [Function.update_of_ne hg]
    · obtain rfl : res = res' := Option.some.inj hres'
      exact .waiting (hres ▸ List.mem_cons_self)
  | @pop g f res rest hc hlock hpending =>
    refine .inl (h.of_subset (fun _ ↦ List.Subset.refl _) (fun res' hres' ↦ ?_) fun _ _ hm ↦ hm)
    exact .held (hc ▸ hres')
  | @set f res hc =>
    have hheld : Reports s res.request := .held (by rw [hc]; rfl)
    refine .inl ?_
    cases h with
    | waiting hres => exact .waiting hres
    | held hres => exact absurd hres (by dsimp only; split <;> simp [Callbacks.response])
    | @completed f' r hmem =>
      rcases List.mem_append.mp hmem with hold | hnew
      · exact .completed hold
      · have hres := (Prod.mk.inj (List.mem_singleton.mp hnew)).2
        rw [Response.result] at hres
        split at hres
        · rw [Result.task.inj hres]
          exact hheld
        · simp at hres
  | createTask _ | pushBack _ | popEmpty _ _ _ =>
    exact .inl (h.of_kept (fun _ ↦ List.Subset.refl _) rfl fun _ _ hm ↦ hm)
  | select done hc =>
    refine .inl (h.of_dropped (fun _ ↦ List.Subset.refl _) ?_ fun _ _ hm ↦ hm)
    cases done <;> rfl
  | disconnected _ | recvFailed _ | reconnect _ _ =>
    exact .inl (h.of_dropped (fun _ ↦ List.Subset.refl _) rfl fun _ _ hm ↦ hm)

theorem subset_handledBy (s : State) (handled : ℕ → List ℕ) (e : Event) (g : ℕ) :
    handled g ⊆ handledBy s handled e g := by
  cases e with
  | serve g' o =>
    by_cases hg : g = g'
    · subst hg
      simp [handledBy]
    · simp [handledBy, Function.update_of_ne hg]
  | createTask | send _ | pushBack | resetConn _ | pushStream _ | callbacks _ =>
    exact List.Subset.refl _

/-- An answer is to a request that the server has come to. -/
def Answered (x : Observed) : Prop := ∀ r, Reports x.state r → ∃ g, r ∈ x.handled g

theorem Answered.transition (h : Answered x) (ht : Transition x.state e s') :
    Answered ⟨s', handledBy x.state x.handled e⟩ := by
  intro r hr
  rcases hr.of_transition ht with hold | ⟨g, o, rfl, hnew⟩
  · obtain ⟨g, hg⟩ := h r hold
    exact ⟨g, subset_handledBy _ _ _ g hg⟩
  · refine ⟨g, ?_⟩
    simp only [handledBy, Function.update_self]
    exact List.mem_append_right _ hnew

theorem Answered.init : Answered {} := by
  intro r hr
  cases hr with
  | waiting h => exact absurd h List.not_mem_nil
  | held h => exact absurd h (by simp [Callbacks.response])
  | completed h => exact absurd h List.not_mem_nil

/-! ## Every order of the steps -/

/-- **No call is handled twice.** Whatever the order of the steps of the callers,
`handleCallbacks`, the reconnects and the servers, and whatever each of them meets: on each stream
the server passes requests to `createTask` in the order of their calls and no request twice, and the
calls of an older stream come before those of a newer one. A call whose future has the error of
`Send`, or of the reconnect after it, is handled on no stream. And the task in a future, if not
always the one for its own call, is one that the server was asked for. -/
theorem handled_once {es : List Event} (hrun : run Observed.step {} es = some x) :
    (∀ g, (x.handled g).Pairwise (· < ·)) ∧
      (∀ g g', g < g' → ∀ f ∈ x.handled g, ∀ f' ∈ x.handled g', f < f') ∧
      (∀ f, (f, .notSent) ∈ x.state.completed → ∀ g, f ∉ x.handled g) ∧
      ∀ f r, (f, .task r) ∈ x.state.completed → ∃ g, r ∈ x.handled g := by
  have hstep : ∀ y e y', InOrder y ∧ Answered y → Observed.step y e = some y' →
      InOrder y' ∧ Answered y' := by
    intro y e y' hy hs
    obtain ⟨s', hs', rfl⟩ := Option.map_eq_some_iff.mp hs
    have ht := (Transition.of_step hs').2
    exact ⟨hy.1.transition ht, hy.2.transition ht⟩
  obtain ⟨horder, hanswered⟩ := Runs.invariant hstep ⟨.init, .init⟩ hrun
  have hsub : ∀ g, x.handled g ⊆ x.sentOn g := fun g ↦ List.subset_append_left _ _
  refine ⟨fun g ↦ ?_, fun g g' hg f hf f' hf' ↦ ?_, fun f hf g hg ↦ ?_, fun f r hmem ↦ ?_⟩
  · exact (horder.ordered g).sublist (List.sublist_append_left _ _)
  · exact horder.streams g g' hg f (hsub g hf) f' (hsub g' hf')
  · exact (horder.notSent f hf).2 g (hsub g hg)
  · exact hanswered r (.completed hmem)

/-- Two calls are sent. The third finds the connection gone and is sent on a new stream, and
`handleCallbacks`, with an answer from the old one, gives it to the third. The server still comes to
the second call. The fourth gives up. -/
theorem handled_once_resent :
    ∃ x, run Observed.step {} [.createTask, .send .ok, .pushBack, .createTask, .send .ok, .pushBack,
        .callbacks (.select false), .serve 0 (.ok true []), .callbacks (.recv .response),
        .createTask, .send .unavailable, .resetConn true, .pushStream true, .send .ok, .pushBack,
        .serve 1 (.ok true []), .serve 0 (.ok true []), .callbacks .pop, .callbacks .set,
        .createTask, .send .failed] = some x ∧
      (x.handled 0 = [0, 1] ∧ x.handled 1 = [2] ∧ x.state.completed =
        [(0, .interrupted), (1, .interrupted), (2, .task 0), (3, .notSent)]) ∧
      ∀ g, 3 ∉ x.handled g := by
  have heval : ((run Observed.step {} [.createTask, .send .ok, .pushBack, .createTask, .send .ok,
      .pushBack, .callbacks (.select false), .serve 0 (.ok true []), .callbacks (.recv .response),
      .createTask, .send .unavailable, .resetConn true, .pushStream true, .send .ok, .pushBack,
      .serve 1 (.ok true []), .serve 0 (.ok true []), .callbacks .pop, .callbacks .set,
      .createTask, .send .failed]).bind fun x ↦
      some (decide (x.handled 0 = [0, 1] ∧ x.handled 1 = [2] ∧ x.state.completed =
        [(0, .interrupted), (1, .interrupted), (2, .task 0), (3, .notSent)]))) = some true := by
    decide +kernel
  obtain ⟨x, hx, hfacts⟩ := Option.bind_eq_some_iff.mp heval
  have hfacts := of_decide_eq_true (Option.some.inj hfacts)
  refine ⟨x, hx, hfacts, (handled_once hx).2.2.1 3 ?_⟩
  rw [hfacts.2.2]
  decide

end

end Z4.StreamingProducer
