import Z4.Api.CreateTask
import Z4.Cluster.LeaderHandle
import Z4.Foundations.Halting

/-!
# Forwarding to the leader

A client may push to any peer. A peer that does not take itself for the leader passes the request
on through its handle, and the next peer does the same with it. Nothing in the request says that it
was passed on, and the peers do not know of each other's beliefs, which may change at any time.

## One call

The peers that a request comes to form a list. Each of them decides whether it leads, and if not
gets the client of its handle, forwards the request and waits for the reply. Waiting can end without
one: the connection breaks, or the deadline of the call passes. The peers further on know nothing of
this and go on with the request.

Only the last peer of the list has the request still to handle or to forward, so however the beliefs
change and whatever is lost, it is handled at most once. A task that is returned is the one that was
made where it was handled. An error of forwarding, on the other hand, says nothing: the request may
have been handled or may be handled yet.

While the beliefs stay as they are the way of a request is a partial function of the peer alone,
`Rpc.next`, and if no reply is lost the call returns exactly where that way ends. Two peers that
each take the other for the leader send it to and fro until the client gives up. In a cluster whose
peers have all been told who leads, every way ends at the leader after at most one step.
-/

namespace Z4

/-! ## Deleting a task -/

/-- `proto.DeleteTaskRequest`. -/
structure DeleteTaskRequest where
  reference : TaskReference
  async : Bool := false

/-- `proto.DeleteTaskResponse`. -/
structure DeleteTaskResponse where
  forwardedTo : GoString := []
deriving DecidableEq

/-- The errors of `Queue.Delete`. The code of each is `Internal`. -/
inductive DeleteError (ε : Type) where
  /-- What forwarding the request to the leader returned. -/
  | forward
  /-- "failed to delete task: " and the error of the replication. -/
  | delete (e : ε)
deriving DecidableEq

/-- `Queue.Delete`. `apply` is `ApplyAckCommand`. -/
def deleteTask {ε : Type} (isLeader : Bool) (leaderAddress : GoString)
    (forwarded : Except (DeleteError ε) DeleteTaskResponse) (req : DeleteTaskRequest)
    (apply : Ack → ApplyFuture ε) : Except (DeleteError ε) DeleteTaskResponse :=
  if isLeader then
    if req.async then .ok {}
    else match (apply ⟨req.reference⟩).error with
      | some e => .error (.delete e)
      | none => .ok {}
  else forwarded.map fun res ↦
    if res.forwardedTo = [] then { res with forwardedTo := leaderAddress } else res

namespace Forwarding

open Leadership hiding Event step Inv
open StateTransition Runs
open Client (Conn)

/-! ## Requests that only the leader handles -/

variable {ι ρ ε : Type}

/-- What is particular to a request that is forwarded. -/
structure Rpc (ι ρ : Type) where
  client : LeaderHandle → Option Conn
  /-- What a peer returns, given its `IsLeader` and `LeaderAddress` and what forwarding the request
  has returned. -/
  serve : ι → Bool → GoString → ρ → ρ
  /-- What forwarding returns where there is no client, or no reply. -/
  lost : ρ

/-- What a peer returns that takes itself for the leader. -/
def Rpc.handle (rpc : Rpc ι ρ) (i : ι) : ρ := rpc.serve i true [] rpc.lost

/-- What a peer makes a task from, and its `ApplySaveTaskCommand` and `ApplyAckCommand`. -/
structure Site (ε : Type) where
  created : Time
  now : Time
  index : Option UInt64
  saveTask : Task → ApplyFuture ε
  ack : Ack → ApplyFuture ε

/-- `Queue.Push`. -/
def push (site : ι → Site ε) (req : PushTaskRequest) :
    Rpc ι (Except (CreateError ε) PushTaskResponse) where
  client := LeaderHandle.queueClient
  serve i isLeader leader forwarded := createTask isLeader leader forwarded req (site i).created
    (site i).now (site i).index (site i).saveTask
  lost := .error .forward

/-- `Queue.Delete`. -/
def delete (site : ι → Site ε) (req : DeleteTaskRequest) :
    Rpc ι (Except (DeleteError ε) DeleteTaskResponse) where
  client := LeaderHandle.queueClient
  serve i isLeader leader forwarded := deleteTask isLeader leader forwarded req (site i).ack
  lost := .error .forward

/-- What a peer returns that leads, or that has got no reply. -/
structure Rpc.Lawful (rpc : Rpc ι ρ) : Prop where
  handles : ∀ i addr, rpc.serve i true addr rpc.lost = rpc.handle i
  loses : ∀ i addr, rpc.serve i false addr rpc.lost = rpc.lost

theorem lawful_push (site : ι → Site ε) (req : PushTaskRequest) : (push site req).Lawful :=
  ⟨fun _ _ ↦ rfl, fun _ _ ↦ rfl⟩

theorem lawful_delete (site : ι → Site ε) (req : DeleteTaskRequest) : (delete site req).Lawful :=
  ⟨fun _ _ ↦ rfl, fun _ _ ↦ rfl⟩

theorem task_serve_push {site : ι → Site ε} {req : PushTaskRequest} (i : ι) (addr : GoString)
    (r : Except (CreateError ε) PushTaskResponse) :
    ((push site req).serve i false addr r).map PushTaskResponse.task =
      r.map PushTaskResponse.task := by
  cases r with
  | error e => rfl
  | ok res =>
    simp only [push, createTask, Except.map, Bool.false_eq_true, if_false]
    split <;> rfl

/-- The leader's own reply names nobody it was forwarded to, so the first peer that passes it back
says whom. -/
theorem map_stamp {α β : Type} {r : Except β α} (get : α → GoString) {put : α → α}
    (hnil : ∀ res, r = .ok res → get res = []) :
    (r.map fun res ↦ if get res = [] then put res else res) = r.map put := by
  cases r with
  | error e => rfl
  | ok res => simp only [Except.map, hnil res rfl, if_true]

theorem forwardedTo_handle_push {site : ι → Site ε} {req : PushTaskRequest} {l : ι}
    {res : PushTaskResponse} (h : (push site req).handle l = .ok res) : res.forwardedTo = [] := by
  simp only [Rpc.handle, push, createTask, if_true] at h
  split at h
  · cases h
  · split at h
    · exact Except.ok.inj h ▸ rfl
    · split at h
      · cases h
      · exact Except.ok.inj h ▸ rfl

theorem forwardedTo_handle_delete {site : ι → Site ε} {req : DeleteTaskRequest} {l : ι}
    {res : DeleteTaskResponse} (h : (delete site req).handle l = .ok res) :
    res.forwardedTo = [] := by
  simp only [Rpc.handle, delete, deleteTask, if_true] at h
  split at h
  · exact Except.ok.inj h ▸ rfl
  · split at h
    · cases h
    · exact Except.ok.inj h ▸ rfl

/-- The peers, and which of them serves at an address. -/
structure Cluster (ι : Type) where
  me : ι → Identity
  serves : GoString → Option ι

/-- A step of one of the peers. -/
def Cluster.step [DecidableEq ι] (c : Cluster ι) (peers : ι → Peer) (e : ι × Leadership.Event) :
    Option (ι → Peer) :=
  (Leadership.step (c.me e.1) (peers e.1) e.2).map (Function.update peers e.1)

/-- The peer that the client of a handle reaches. -/
def Rpc.reached (rpc : Rpc ι ρ) (c : Cluster ι) (h : LeaderHandle) : Option ι :=
  (rpc.client h).bind fun conn ↦ c.serves conn.target

/-- The peer that a peer forwards to. -/
def Rpc.next (rpc : Rpc ι ρ) (c : Cluster ι) (peers : ι → Peer) (i : ι) : Option ι :=
  if (peers i).isLeader then none else rpc.reached c (peers i).handle

/-! ## The hops of a call -/

/-- Where the handler of a peer stands. -/
inductive Hop (ρ : Type) where
  /-- At `IsLeader`. -/
  | deciding
  /-- At `QueueClient`. -/
  | forwarding
  /-- The request was sent on. -/
  | waiting
  | returned (r : ρ)

/-- The peer has the request still to handle or to forward. -/
def Hop.Active : Hop ρ → Prop
  | .deciding | .forwarding => True
  | .waiting | .returned _ => False

def Hop.isWaiting : Hop ρ → Bool
  | .waiting => true
  | _ => false

structure State (ι ρ : Type) where
  peers : ι → Peer
  /-- The peers that the request has come to, in this order. -/
  hops : List (ι × Hop ρ)
  /-- Those that have handled it. -/
  handled : List ι := []

/-- A request comes to its first peer. -/
def State.start (peers : ι → Peer) (i : ι) : State ι ρ := { peers, hops := [(i, .deciding)] }

/-- What the client has got. -/
def State.result (s : State ι ρ) : Option ρ :=
  match s.hops with
  | (_, .returned r) :: _ => some r
  | _ => none

def State.set (s : State ι ρ) (n : ℕ) (i : ι) (x : Hop ρ) : State ι ρ :=
  { s with hops := s.hops.set n (i, x) }

/-- The request comes to another peer. -/
def State.add (s : State ι ρ) (j : ι) : State ι ρ :=
  { s with hops := s.hops ++ [(j, .deciding)] }

section

variable {rpc : Rpc ι ρ} {c : Cluster ι} {s : State ι ρ} {peers : ι → Peer} {i j : ι} {n m : ℕ}
  {x y : Hop ρ} {z : ι × Hop ρ}

theorem State.set_cases (h : (s.set n i x).hops[m]? = some z) :
    m = n ∧ z = (i, x) ∨ m ≠ n ∧ s.hops[m]? = some z := by
  rw [State.set] at h
  by_cases hm : m = n
  · subst hm
    rw [List.getElem?_set_self'] at h
    obtain ⟨-, -, rfl⟩ := Option.map_eq_some_iff.mp h
    exact .inl ⟨rfl, rfl⟩
  · rw [List.getElem?_set_ne (Ne.symm hm)] at h
    exact .inr ⟨hm, h⟩

theorem State.add_cases (h : (s.add j).hops[m]? = some z) :
    m = s.hops.length ∧ z = (j, .deciding) ∨ m < s.hops.length ∧ s.hops[m]? = some z := by
  rw [State.add] at h
  rcases Nat.lt_trichotomy m s.hops.length with hlt | heq | hgt
  · rw [List.getElem?_append_left hlt] at h
    exact .inr ⟨hlt, h⟩
  · subst heq
    rw [List.getElem?_concat_length] at h
    exact .inl ⟨rfl, (Option.some.inj h).symm⟩
  · rw [List.getElem?_eq_none (by simp; omega)] at h
    cases h

theorem State.getElem?_of_result {r : ρ} (h : s.result = some r) :
    ∃ i, s.hops[0]? = some (i, .returned r) := by
  rw [State.result] at h
  split at h
  · rename_i i r' hops heq
    rw [heq]
    exact ⟨i, by rw [← Option.some.inj h]; rfl⟩
  · cases h

/-- Only the last peer has the request still to handle or to forward, and only if nobody has
handled it. -/
structure Path (s : State ι ρ) : Prop where
  active : ∀ n z, s.hops[n]? = some z → z.2.Active → n + 1 = s.hops.length ∧ s.handled = []
  waits : ∀ (n : ℕ) (i : ι), s.hops[n]? = some (i, .waiting) → n + 1 < s.hops.length
  handled : s.handled.length ≤ 1

theorem path_start : Path (State.start (ρ := ρ) peers i) where
  active n z hn _ := by
    rcases n with _ | n
    · exact ⟨rfl, rfl⟩
    · simp [State.start] at hn
  waits n j hn := by rcases n with _ | n <;> simp [State.start] at hn
  handled := Nat.zero_le _

theorem Path.set (h : Path s) (x : Hop ρ) (hx : x ≠ .waiting)
    (hactive : x.Active → n + 1 = s.hops.length ∧ s.handled = []) : Path (s.set n i x) where
  active m z hm hz := by
    rw [State.set, List.length_set]
    rcases State.set_cases hm with ⟨rfl, rfl⟩ | ⟨-, hm⟩
    · exact hactive hz
    · exact h.active m z hm hz
  waits m j hm := by
    rw [State.set, List.length_set]
    rcases State.set_cases hm with ⟨-, heq⟩ | ⟨-, hm⟩
    · exact absurd (Prod.mk.inj heq).2.symm hx
    · exact h.waits m j hm
  handled := h.handled

theorem Path.not_active_set (h : Path s) (hn : s.hops[n]? = some (i, y)) (hy : y.Active)
    (hx : ¬x.Active) (hm : (s.set n i x).hops[m]? = some z) : ¬z.2.Active := by
  intro hz
  rcases State.set_cases hm with ⟨-, rfl⟩ | ⟨hne, hm⟩
  · exact hx hz
  · have hlast := (h.active n _ hn hy).1
    have hother := (h.active m z hm hz).1
    omega

theorem Path.handle (h : Path s) (hn : s.hops[n]? = some (i, .deciding)) (r : ρ) :
    Path { s.set n i (.returned r) with handled := s.handled ++ [i] } where
  active m z hm hz := absurd hz (h.not_active_set hn trivial id hm)
  waits := (h.set (i := i) (n := n) (.returned r) nofun False.elim).waits
  handled := by rw [(h.active n _ hn trivial).2]; rfl

theorem Path.send (h : Path s) (hn : s.hops[n]? = some (i, .forwarding)) (j : ι) :
    Path ((s.set n i .waiting).add j) where
  active m z hm hz := by
    rcases State.add_cases hm with ⟨rfl, -⟩ | ⟨-, hm⟩
    · exact ⟨by simp [State.add], (h.active n _ hn trivial).2⟩
    · exact absurd hz (h.not_active_set hn trivial id hm)
  waits m k hm := by
    have hlen : ((s.set n i .waiting).add j).hops.length = s.hops.length + 1 := by
      simp [State.add, State.set]
    rw [hlen]
    rcases State.add_cases hm with ⟨-, heq⟩ | ⟨hlt, -⟩
    · cases heq
    · rw [State.set, List.length_set] at hlt
      omega
  handled := h.handled

theorem Path.split (h : Path s) (hne : s.hops ≠ []) : ∃ pre k x rest,
    s.hops = pre ++ (k, x) :: rest ∧ (∀ w ∈ pre, w.2 = .waiting) ∧ x ≠ .waiting ∧
      (x.Active → rest = []) := by
  cases hfind : s.hops.find? fun w ↦ !w.2.isWaiting with
  | none =>
    -- the last one would wait for nobody
    obtain ⟨init, ⟨k, x⟩, hw⟩ := (List.eq_nil_or_concat s.hops).resolve_left hne
    rw [List.find?_eq_none] at hfind
    have hx := hfind (k, x) (by simp [hw])
    obtain rfl : x = .waiting := by
      cases x <;> simp_all [Hop.isWaiting]
    have := h.waits init.length k (by simp [hw])
    simp [hw] at this
  | some w =>
    obtain ⟨k, x⟩ := w
    obtain ⟨hx, pre, rest, hhops, hpre⟩ := List.find?_eq_some_iff_append.mp hfind
    refine ⟨pre, k, x, rest, hhops, fun w hw ↦ ?_, ?_, fun hx ↦ ?_⟩
    · have := hpre w hw
      cases hw2 : w.2 <;> simp_all [Hop.isWaiting]
    · rintro rfl
      simp [Hop.isWaiting] at hx
    · have hlast := (h.active pre.length (k, x) (by simp [hhops]) hx).1
      simpa [hhops] using hlast

/-! ## What a call returns -/

/-- What every peer that has returned the request has to do with what it returned. -/
def Answers (P : List ι → ι → ρ → Prop) (s : State ι ρ) : Prop :=
  ∀ (n : ℕ) (i : ι) (r : ρ), s.hops[n]? = some (i, .returned r) → P s.handled i r

variable {P : List ι → ι → ρ → Prop}

theorem answers_start : Answers P (.start peers i) := by
  intro n j r hn
  rcases n with _ | n <;> simp [State.start] at hn

theorem Answers.set (h : Answers P s) (x : Hop ρ) (hx : ∀ r, x = .returned r → P s.handled i r) :
    Answers P (s.set n i x) := by
  intro m j r hm
  rcases State.set_cases hm with ⟨-, heq⟩ | ⟨-, hm⟩
  · obtain ⟨rfl, hr⟩ := Prod.mk.inj heq
    exact hx r hr.symm
  · exact h m j r hm

theorem Answers.add (h : Answers P s) : Answers P (s.add j) := by
  intro m k r hm
  rcases State.add_cases hm with ⟨-, heq⟩ | ⟨-, hm⟩
  · cases heq
  · exact h m k r hm

theorem Answers.handle (h : Answers P s) (hnone : s.handled = [])
    (hlater : ∀ j k r, P [] k r → P [j] k r) {r : ρ} (hr : P [i] i r) :
    Answers P { s.set n i (.returned r) with handled := s.handled ++ [i] } := by
  intro m k r' hm
  rw [hnone]
  rcases State.set_cases hm with ⟨-, heq⟩ | ⟨-, hm⟩
  · obtain ⟨rfl, hr'⟩ := Prod.mk.inj heq
    rw [Hop.returned.inj hr']
    exact hr
  · exact hlater i k r' (hnone ▸ h m k r' hm)

/-! ## The way of a call -/

/-- The way of the request so far, while the beliefs stay as they are. -/
structure Way (rpc : Rpc ι ρ) (c : Cluster ι) (peers : ι → Peer) (i : ι) (s : State ι ρ) :
    Prop where
  peers_eq : s.peers = peers
  first : s.hops.head?.map Prod.fst = some i
  follows : ∀ n z w, s.hops[n]? = some z → s.hops[n + 1]? = some w →
    rpc.next c peers z.1 = some w.1
  declined : ∀ (n : ℕ) (j : ι), s.hops[n]? = some (j, .forwarding) → (peers j).isLeader = false

theorem way_start : Way rpc c peers i (.start peers i) where
  peers_eq := rfl
  first := rfl
  follows n z w _ hw := by simp [State.start] at hw
  declined n j hn := by rcases n with _ | n <;> simp [State.start] at hn

theorem Way.set (h : Way rpc c peers i s) (hn : s.hops[n]? = some (j, y)) (x : Hop ρ)
    (hx : x = .forwarding → (peers j).isLeader = false) : Way rpc c peers i (s.set n j x) := by
  -- the peers on the way are the same
  have hsame : ∀ (m : ℕ) (z : ι × Hop ρ), (s.set n j x).hops[m]? = some z →
      ∃ w, s.hops[m]? = some w ∧ w.1 = z.1 := by
    intro m z hm
    rcases State.set_cases hm with ⟨rfl, rfl⟩ | ⟨-, hm⟩
    · exact ⟨_, hn, rfl⟩
    · exact ⟨z, hm, rfl⟩
  refine ⟨h.peers_eq, ?_, fun m z w hz hw ↦ ?_, fun m k hm ↦ ?_⟩
  · obtain ⟨w, hw, hwi⟩ := Option.map_eq_some_iff.mp h.first
    cases hhops : s.hops with
    | nil => simp [hhops] at hw
    | cons a l =>
      rw [hhops] at hn hw
      cases n with
      | zero => simp_all [State.set]
      | succ n => simp_all [State.set]
  · obtain ⟨z', hz', hzeq⟩ := hsame m z hz
    obtain ⟨w', hw', hweq⟩ := hsame (m + 1) w hw
    rw [← hzeq, ← hweq]
    exact h.follows m z' w' hz' hw'
  · rcases State.set_cases hm with ⟨-, heq⟩ | ⟨-, hm⟩
    · obtain ⟨rfl, hk⟩ := Prod.mk.inj heq
      exact hx hk.symm
    · exact h.declined m k hm

theorem Way.add (h : Way rpc c peers i s)
    (hlast : ∀ n z, s.hops[n]? = some z → n + 1 = s.hops.length →
      rpc.next c peers z.1 = some j) : Way rpc c peers i (s.add j) := by
  refine ⟨h.peers_eq, ?_, fun m z w hz hw ↦ ?_, fun m k hm ↦ ?_⟩
  · obtain ⟨w, hw, hwi⟩ := Option.map_eq_some_iff.mp h.first
    simp [State.add, List.head?_append, hw, hwi]
  · rcases State.add_cases hw with ⟨hm, rfl⟩ | ⟨hlt, hw⟩
    · rcases State.add_cases hz with ⟨hm', -⟩ | ⟨-, hz⟩
      · omega
      · exact hlast m z hz hm
    · rcases State.add_cases hz with ⟨hm', -⟩ | ⟨-, hz⟩
      · omega
      · exact h.follows m z w hz hw
  · rcases State.add_cases hm with ⟨-, heq⟩ | ⟨-, hm⟩
    · cases heq
    · exact h.declined m k hm

theorem Way.getElem?_of_result (h : Way rpc c peers i s) {r : ρ} (hr : s.result = some r) :
    s.hops[0]? = some (i, .returned r) := by
  obtain ⟨k, hk⟩ := State.getElem?_of_result hr
  have hfirst := h.first
  rw [List.head?_eq_getElem?, hk] at hfirst
  obtain rfl : k = i := Option.some.inj hfirst
  exact hk

theorem Way.dom (h : Way rpc c peers i s) (hdom : (eval (rpc.next c peers) i).Dom)
    (hn : s.hops[n]? = some z) : (eval (rpc.next c peers) z.1).Dom := by
  induction n generalizing z with
  | zero =>
    rw [← List.head?_eq_getElem?] at hn
    have hi : z.1 = i := by simpa [hn] using h.first
    rwa [hi]
  | succ n ih =>
    obtain ⟨w, hw⟩ : ∃ w, s.hops[n]? = some w := by
      have hlt := (List.getElem?_eq_some_iff.mp hn).1
      exact ⟨_, List.getElem?_eq_getElem (Nat.lt_of_succ_lt hlt)⟩
    rw [← eval_of_eq_some (h.follows n w z hw hn)]
    exact ih hw

end

/-! ## The steps of a call -/

inductive Event (ι : Type) where
  /-- A step of a peer or of its Raft. -/
  | peer (i : ι) (e : Leadership.Event)
  | decide (n : ℕ)
  | forward (n : ℕ)
  /-- The reply of the next peer arrives. -/
  | reply (n : ℕ)
  /-- The client of the handle returns an error instead. -/
  | lose (n : ℕ)

/-- The event is one of the call. -/
def Event.OfCall : Event ι → Prop
  | .peer _ _ => False
  | _ => True

/-- The event is one of the call, and no reply is lost. -/
def Event.Quiet : Event ι → Prop
  | .peer _ _ | .lose _ => False
  | _ => True

theorem Event.Quiet.ofCall {e : Event ι} (h : e.Quiet) : e.OfCall := by
  cases e with
  | peer i e => exact h.elim
  | _ => trivial

variable [DecidableEq ι]

def step (rpc : Rpc ι ρ) (c : Cluster ι) (s : State ι ρ) : Event ι → Option (State ι ρ)
  | .peer i e => (c.step s.peers (i, e)).map fun peers ↦ { s with peers }
  | .decide n =>
    match s.hops[n]? with
    | some (i, .deciding) =>
      if (s.peers i).isLeader then
        some { s.set n i (.returned (rpc.serve i true (s.peers i).raft.leader rpc.lost)) with
          handled := s.handled ++ [i] }
      else some (s.set n i .forwarding)
    | _ => none
  | .forward n =>
    match s.hops[n]? with
    | some (i, .forwarding) =>
      match rpc.reached c (s.peers i).handle with
      | none => some (s.set n i (.returned (rpc.serve i false (s.peers i).raft.leader rpc.lost)))
      | some j => some ((s.set n i .waiting).add j)
    | _ => none
  | .reply n =>
    match s.hops[n]?, s.hops[n + 1]? with
    | some (i, .waiting), some (_, .returned r) =>
      some (s.set n i (.returned (rpc.serve i false (s.peers i).raft.leader r)))
    | _, _ => none
  | .lose n =>
    match s.hops[n]? with
    | some (i, .waiting) =>
      some (s.set n i (.returned (rpc.serve i false (s.peers i).raft.leader rpc.lost)))
    | _ => none

/-- The ways of a step. -/
inductive Moves (rpc : Rpc ι ρ) (c : Cluster ι) (s : State ι ρ) : Event ι → State ι ρ → Prop where
  | peer {i : ι} {e : Leadership.Event} (peers : ι → Peer) :
      Moves rpc c s (.peer i e) { s with peers }
  | handle {n : ℕ} {i : ι} (hn : s.hops[n]? = some (i, .deciding))
      (hl : (s.peers i).isLeader = true) : Moves rpc c s (.decide n)
        { s.set n i (.returned (rpc.serve i true (s.peers i).raft.leader rpc.lost)) with
          handled := s.handled ++ [i] }
  | decline {n : ℕ} {i : ι} (hn : s.hops[n]? = some (i, .deciding))
      (hl : (s.peers i).isLeader = false) : Moves rpc c s (.decide n) (s.set n i .forwarding)
  | refuse {n : ℕ} {i : ι} (hn : s.hops[n]? = some (i, .forwarding))
      (hj : rpc.reached c (s.peers i).handle = none) : Moves rpc c s (.forward n)
        (s.set n i (.returned (rpc.serve i false (s.peers i).raft.leader rpc.lost)))
  | send {n : ℕ} {i j : ι} (hn : s.hops[n]? = some (i, .forwarding))
      (hj : rpc.reached c (s.peers i).handle = some j) :
      Moves rpc c s (.forward n) ((s.set n i .waiting).add j)
  | reply {n : ℕ} {i j : ι} {r : ρ} (hn : s.hops[n]? = some (i, .waiting))
      (hr : s.hops[n + 1]? = some (j, .returned r)) : Moves rpc c s (.reply n)
        (s.set n i (.returned (rpc.serve i false (s.peers i).raft.leader r)))
  | lose {n : ℕ} {i : ι} (hn : s.hops[n]? = some (i, .waiting)) : Moves rpc c s (.lose n)
        (s.set n i (.returned (rpc.serve i false (s.peers i).raft.leader rpc.lost)))

section

variable {rpc : Rpc ι ρ} {c : Cluster ι} {s s' : State ι ρ} {e : Event ι} {peers : ι → Peer}
  {i : ι} {es : List (Event ι)}

theorem moves_of_step (h : step rpc c s e = some s') : Moves rpc c s e s' := by
  cases e with
  | peer i e =>
    obtain ⟨p, -, rfl⟩ := Option.map_eq_some_iff.mp h
    exact .peer _
  | decide n =>
    simp only [step] at h
    split at h
    · rename_i i hn
      split at h
      · rename_i hl
        exact Option.some.inj h ▸ .handle hn hl
      · rename_i hl
        exact Option.some.inj h ▸ .decline hn (Bool.eq_false_iff.mpr hl)
    · cases h
  | forward n =>
    simp only [step] at h
    split at h
    · rename_i i hn
      split at h
      · rename_i hj
        exact Option.some.inj h ▸ .refuse hn hj
      · rename_i j hj
        exact Option.some.inj h ▸ .send hn hj
    · cases h
  | reply n =>
    simp only [step] at h
    split at h
    · rename_i i j r hn hr
      exact Option.some.inj h ▸ .reply hn hr
    · cases h
  | lose n =>
    simp only [step] at h
    split at h
    · rename_i i hn
      exact Option.some.inj h ▸ .lose hn
    · cases h

theorem Path.step (h : Path s) (hs : step rpc c s e = some s') : Path s' := by
  cases moves_of_step hs with
  | peer peers => exact ⟨h.active, h.waits, h.handled⟩
  | handle hn hl => exact h.handle hn _
  | decline hn hl => exact h.set _ nofun fun _ ↦ h.active _ _ hn trivial
  | send hn hj => exact h.send hn _
  | refuse | reply | lose => exact h.set _ nofun False.elim

theorem path_run (hrun : run (step rpc c) (.start peers i) es = some s) : Path s :=
  invariant (fun _ _ _ h hs ↦ h.step hs) path_start hrun

/-- The step in which a request is handled finds that nobody has handled it. -/
theorem Path.handled_step (h : Path s) (hs : Forwarding.step rpc c s e = some s') :
    s'.handled = s.handled ∨
      ∃ j, s.handled = [] ∧ s'.handled = [j] ∧ (s.peers j).isLeader = true := by
  cases moves_of_step hs with
  | @handle n i hn hl =>
    have hnone := (h.active n _ hn trivial).2
    exact .inr ⟨i, hnone, by rw [hnone]; rfl, hl⟩
  | _ => exact .inl rfl

theorem Answers.step {P : List ι → ι → ρ → Prop} (h : Answers P s) (hpath : Path s)
    (hs : step rpc c s e = some s')
    (hlater : ∀ j k r, P [] k r → P [j] k r)
    (hhandle : ∀ k, (s.peers k).isLeader = true →
      P [k] k (rpc.serve k true (s.peers k).raft.leader rpc.lost))
    (hrefuse : ∀ (n : ℕ) (k : ι), s.hops[n]? = some (k, .forwarding) →
      rpc.reached c (s.peers k).handle = none →
      P s.handled k (rpc.serve k false (s.peers k).raft.leader rpc.lost))
    (hreply : ∀ (n : ℕ) (k z : ι) (r : ρ), s.hops[n]? = some (k, .waiting) →
      s.hops[n + 1]? = some (z, .returned r) →
      P s.handled z r → P s.handled k (rpc.serve k false (s.peers k).raft.leader r))
    (hlose : ∀ (n : ℕ) (k : ι), e = .lose n → s.hops[n]? = some (k, .waiting) →
      P s.handled k (rpc.serve k false (s.peers k).raft.leader rpc.lost)) : Answers P s' := by
  cases moves_of_step hs with
  | peer peers => exact h
  | handle hn hl => exact h.handle (hpath.active _ _ hn trivial).2 hlater (hhandle _ hl)
  | decline hn hl => exact h.set .forwarding nofun
  | refuse hn hj => exact h.set _ fun r hr ↦ Hop.returned.inj hr ▸ hrefuse _ _ hn hj
  | send hn hj => exact (h.set .waiting nofun).add
  | reply hn hr =>
    exact h.set _ fun r' hr' ↦ Hop.returned.inj hr' ▸ hreply _ _ _ _ hn hr (h _ _ _ hr)
  | lose hn => exact h.set _ fun r hr ↦ Hop.returned.inj hr ▸ hlose _ _ rfl hn

theorem Way.step (h : Way rpc c peers i s) (hpath : Path s) (hcall : e.OfCall)
    (hs : step rpc c s e = some s') : Way rpc c peers i s' := by
  cases moves_of_step hs with
  | peer peers => exact hcall.elim
  | @handle n k hn hl =>
    have hset := h.set hn (.returned (rpc.serve k true (s.peers k).raft.leader rpc.lost)) nofun
    exact ⟨hset.peers_eq, hset.first, hset.follows, hset.declined⟩
  | decline hn hl => exact h.set hn .forwarding fun _ ↦ h.peers_eq ▸ hl
  | @send n k j hn hj =>
    refine (h.set hn .waiting nofun).add fun m z hm hlast ↦ ?_
    have hn' := (hpath.active n _ hn trivial).1
    rw [State.set, List.length_set] at hlast
    rcases State.set_cases hm with ⟨-, rfl⟩ | ⟨hne, -⟩
    · rw [Rpc.next, h.declined n k hn, if_neg Bool.false_ne_true, ← h.peers_eq]
      exact hj
    · omega
  | refuse hn | reply hn | lose hn => exact h.set hn (.returned _) nofun

theorem way_run (hcall : ∀ e ∈ es, e.OfCall)
    (hrun : run (step rpc c) (.start peers i) es = some s) : Way rpc c peers i s := by
  have hok : Meets (step rpc c) (fun _ e ↦ e.OfCall) (.start peers i) es :=
    meets_of_forall_mem hcall
  have h : Path s ∧ Way rpc c peers i s :=
    Meets.invariant (P := fun s ↦ Path s ∧ Way rpc c peers i s)
      (fun _ _ _ h he hs ↦ ⟨h.1.step hs, h.2.step h.1 he hs⟩) ⟨path_start, way_start⟩ hok hrun
  exact h.2

/-! ## Handled at most once -/

/-- What is returned was made where the request was handled, or says that a reply was lost. -/
theorem backed_run (hlaw : rpc.Lawful) (same : ρ → ρ → Prop) (hrefl : ∀ r, same r r)
    (hsame : ∀ i addr r r', same r r' → same (rpc.serve i false addr r) r')
    (hrun : run (step rpc c) (.start peers i) es = some s) {r : ρ} (hr : s.result = some r) :
    (∃ j, s.handled = [j] ∧ same r (rpc.handle j)) ∨ r = rpc.lost := by
  let P : List ι → ι → ρ → Prop := fun handled _ r ↦
    (∃ j, handled = [j] ∧ same r (rpc.handle j)) ∨ r = rpc.lost
  have h : Path s ∧ Answers P s := by
    refine invariant (P := fun s ↦ Path s ∧ Answers P s) ?_ ⟨path_start, answers_start⟩ hrun
    rintro s e s' ⟨hpath, h⟩ hs
    refine ⟨hpath.step hs, h.step hpath hs ?_ ?_ ?_ ?_ ?_⟩
    · rintro j k r (⟨j', hj', -⟩ | rfl)
      · cases hj'
      · exact .inr rfl
    · intro k _
      rw [hlaw.handles]
      exact .inl ⟨k, rfl, hrefl _⟩
    · exact fun n k _ _ ↦ .inr (hlaw.loses k _)
    · rintro n k z r - - (⟨j, hj, hr⟩ | rfl)
      · exact .inl ⟨j, hj, hsame k _ r _ hr⟩
      · exact .inr (hlaw.loses k _)
    · exact fun n k _ _ ↦ .inr (hlaw.loses k _)
  obtain ⟨k, hk⟩ := State.getElem?_of_result hr
  exact h.2 0 k r hk

/-! ## Where a call returns -/

/-- While the beliefs stay as they are and no reply is lost, a peer that returns is one whose way
ends. -/
theorem dom_of_returned (hquiet : ∀ e ∈ es, e.Quiet)
    (hrun : run (step rpc c) (.start peers i) es = some s) {r : ρ} (hr : s.result = some r) :
    (eval (rpc.next c peers) i).Dom := by
  let P : List ι → ι → ρ → Prop := fun _ k _ ↦ (eval (rpc.next c peers) k).Dom
  have hok : Meets (step rpc c) (fun _ e ↦ e.Quiet) (.start peers i) es :=
    meets_of_forall_mem hquiet
  have h : (Path s ∧ Way rpc c peers i s) ∧ Answers P s := by
    refine Meets.invariant (P := fun s ↦ (Path s ∧ Way rpc c peers i s) ∧ Answers P s) ?_
      ⟨⟨path_start, way_start⟩, answers_start⟩ hok hrun
    rintro s e s' ⟨⟨hpath, hway⟩, h⟩ hq hs
    refine ⟨⟨hpath.step hs, hway.step hpath hq.ofCall hs⟩, h.step hpath hs ?_ ?_ ?_ ?_ ?_⟩
    · exact fun _ _ _ h ↦ h
    · intro k hl
      exact eval_dom_of_eq_none (if_pos (hway.peers_eq ▸ hl))
    · intro n k hk hj
      refine eval_dom_of_eq_none ?_
      rw [Rpc.next, hway.declined n k hk, if_neg Bool.false_ne_true, ← hway.peers_eq]
      exact hj
    · intro n k z r hk hz h
      have hnext := hway.follows n _ _ hk hz
      simp only [P]
      rwa [eval_of_eq_some hnext]
    · rintro n k rfl
      exact hq.elim
  exact h.2 0 i r (h.1.2.getElem?_of_result hr)

theorem leads_of_returned {pre : List (ι × Hop ρ)} (hpre : ∀ z ∈ pre, z.2 = .waiting) {k : ι}
    {r : ρ} {rest : List (ι × Hop ρ)} (h : s.hops = pre ++ (k, .returned r) :: rest) :
    Leads (step rpc c) Event.Quiet (fun t ↦ ∃ r, t.result = some r) s := by
  induction pre using List.reverseRecOn generalizing s k r rest with
  | nil => exact .here ⟨r, by simp [State.result, h]⟩
  | append_singleton pre z ih =>
    obtain ⟨j, x⟩ := z
    obtain rfl : x = .waiting := hpre (j, x) (by simp)
    rw [List.append_assoc, List.singleton_append] at h
    have hwait : s.hops[pre.length]? = some (j, .waiting) := by simp [h]
    have hret : s.hops[pre.length + 1]? = some (k, .returned r) := by simp [h]
    have hstep : step rpc c s (.reply pre.length) = some (s.set pre.length j
        (.returned (rpc.serve j false (s.peers j).raft.leader r))) := by
      simp only [step, hwait, hret]
    have hback : (s.set pre.length j
        (.returned (rpc.serve j false (s.peers j).raft.leader r))).hops =
          pre ++ (j, .returned (rpc.serve j false (s.peers j).raft.leader r)) ::
            (k, .returned r) :: rest := by
      simp [State.set, h]
    exact .head (a := .reply pre.length) trivial hstep
      (ih (fun z hz ↦ hpre z (List.mem_append_left _ hz)) hback)

theorem leads_of_declined {k : ι} (hl : (s.peers k).isLeader = false) {pre : List (ι × Hop ρ)}
    {x : Hop ρ} (h : s.hops = pre ++ [(k, x)]) (hx : x.Active) {P : State ι ρ → Prop}
    (hgo : ∀ t, t.peers = s.peers → t.hops = pre ++ [(k, .forwarding)] →
      Leads (step rpc c) Event.Quiet P t) : Leads (step rpc c) Event.Quiet P s := by
  cases x with
  | deciding =>
    have hn : s.hops[pre.length]? = some (k, .deciding) := by simp [h]
    have hstep : step rpc c s (.decide pre.length) = some (s.set pre.length k .forwarding) := by
      simp [step, hn, hl]
    refine .head (a := .decide pre.length) trivial hstep (hgo _ rfl ?_)
    rw [State.set, h]
    simp
  | forwarding => exact hgo s rfl h
  | waiting | returned => exact hx.elim

theorem leads_of_active {z k : ι} (hz : rpc.next c peers z = none)
    (hreach : Reaches (rpc.next c peers) k z) (hpeers : s.peers = peers)
    {pre : List (ι × Hop ρ)} {x : Hop ρ} (h : s.hops = pre ++ [(k, x)]) (hx : x.Active)
    (hdeclined : x = .forwarding → (peers k).isLeader = false) :
    Leads (step rpc c) Event.Quiet
      (fun t ↦ ∃ pre' r, t.hops = pre ++ pre' ++ [(z, .returned r)] ∧
        ∀ w ∈ pre', w.2 = .waiting) s := by
  induction hreach using Relation.ReflTransGen.head_induction_on generalizing s pre x with
  | refl =>
    by_cases hl : (peers z).isLeader = true
    · -- the leader decides, and has not declined
      obtain rfl : x = .deciding := by
        cases x with
        | deciding => rfl
        | forwarding => simp [hdeclined rfl] at hl
        | waiting | returned => exact hx.elim
      have hstep : (step rpc c s (.decide pre.length)).map State.hops = some (pre ++ [] ++
          [(z, .returned (rpc.serve z true (s.peers z).raft.leader rpc.lost))]) := by
        simp [step, hpeers, hl, State.set, h]
      obtain ⟨t, ht, hhops⟩ := Option.map_eq_some_iff.mp hstep
      exact .head (a := .decide pre.length) trivial ht (.here ⟨[], _, hhops, nofun⟩)
    · have hl : (peers z).isLeader = false := Bool.eq_false_iff.mpr hl
      have hj : rpc.reached c (peers z).handle = none := by simpa [Rpc.next, hl] using hz
      refine leads_of_declined (hpeers ▸ hl) h hx fun t ht hhops ↦ ?_
      have hstep : (step rpc c t (.forward pre.length)).map State.hops = some (pre ++ [] ++
          [(z, .returned (rpc.serve z false (t.peers z).raft.leader rpc.lost))]) := by
        simp [step, ht, hpeers, hj, State.set, hhops]
      obtain ⟨u, hu, hhops⟩ := Option.map_eq_some_iff.mp hstep
      exact .head (a := .forward pre.length) trivial hu (.here ⟨[], _, hhops, nofun⟩)
  | @head k b hkb hreach ih =>
    have hl : (peers k).isLeader = false := by
      by_contra hl
      simp [Rpc.next, hl] at hkb
    have hj : rpc.reached c (peers k).handle = some b := by
      simpa [Rpc.next, hl] using hkb
    refine leads_of_declined (hpeers ▸ hl) h hx fun t ht hhops ↦ ?_
    have hn : t.hops[pre.length]? = some (k, .forwarding) := by simp [hhops]
    have hstep : step rpc c t (.forward pre.length) =
        some ((t.set pre.length k .waiting).add b) := by
      simp [step, hn, ht, hpeers, hj]
    have hsent : ((t.set pre.length k .waiting).add b).hops =
        pre ++ [(k, .waiting)] ++ [(b, .deciding)] := by
      simp [State.set, State.add, hhops]
    refine .head (a := .forward pre.length) trivial hstep ?_
    have hpeers' : ((t.set pre.length k .waiting).add b).peers = peers := ht.trans hpeers
    refine (ih hpeers' hsent trivial (by simp)).trans fun u ⟨pre', r, hu, hpre'⟩ ↦ ?_
    refine .here ⟨(k, .waiting) :: pre', r, by simp [hu], ?_⟩
    exact List.forall_mem_cons.mpr ⟨rfl, hpre'⟩

/-- While the beliefs stay as they are and no reply is lost, a call whose way ends returns. -/
theorem leads_to_result (hquiet : ∀ e ∈ es, e.Quiet)
    (hrun : run (step rpc c) (.start peers i) es = some s)
    (hdom : (eval (rpc.next c peers) i).Dom) :
    Leads (step rpc c) Event.Quiet (fun t ↦ ∃ r, t.result = some r) s := by
  have hway := way_run (fun e he ↦ (hquiet e he).ofCall) hrun
  have hne : s.hops ≠ [] := by
    intro h
    simpa [h] using hway.first
  obtain ⟨pre, k, x, rest, hhops, hpre, hx, hrest⟩ := (path_run hrun).split hne
  have hn : s.hops[pre.length]? = some (k, x) := by simp [hhops]
  have hactive : x.Active → Leads (step rpc c) Event.Quiet (fun t ↦ ∃ r, t.result = some r) s := by
    intro hx
    obtain rfl := hrest hx
    obtain ⟨z, hz⟩ := Part.dom_iff_mem.mp (hway.dom hdom hn)
    obtain ⟨hreach, hz⟩ := mem_eval.mp hz
    refine (leads_of_active hz hreach hway.peers_eq hhops hx fun h ↦ ?_).trans
      fun t ⟨pre', r, ht, hpre'⟩ ↦ ?_
    · exact hway.declined _ k (h ▸ hn)
    · exact leads_of_returned (List.forall_mem_append.mpr ⟨hpre, hpre'⟩) ht
  cases x with
  | deciding | forwarding => exact hactive trivial
  | waiting => exact absurd rfl hx
  | returned r => exact leads_of_returned hpre hhops

end

/-- **A push is handled at most once.** Whatever the peers come to believe and whatever replies are
lost, the step in which a push is handled finds that nobody has handled it, and is one of a peer
that takes itself for the leader. A task that is returned is the one made there. An error of
forwarding is the only other reply, and says nothing.

While the beliefs stay as they are and no reply is lost, the push returns unless the beliefs send it
round in a circle, and then it never does. -/
theorem push_handled_once [Finite ι] (c : Cluster ι) (peers : ι → Peer) (site : ι → Site ε)
    (req : PushTaskRequest) (i : ι) :
    (∀ es s, run (step (push site req) c) (.start peers i) es = some s →
      (∀ e s', step (push site req) c s e = some s' → s'.handled = s.handled ∨
        ∃ j, s.handled = [] ∧ s'.handled = [j] ∧ (s.peers j).isLeader = true) ∧
      ∀ r, s.result = some r →
        (∃ j, s.handled = [j] ∧
          r.map PushTaskResponse.task = ((push site req).handle j).map PushTaskResponse.task) ∨
        r = .error .forward) ∧
    ∀ es s, (∀ e ∈ es, e.Quiet) → run (step (push site req) c) (.start peers i) es = some s →
      (¬Circles ((push site req).next c peers) i →
        Leads (step (push site req) c) Event.Quiet (fun t ↦ ∃ r, t.result = some r) s) ∧
      (Circles ((push site req).next c peers) i → s.result = none) := by
  refine ⟨fun es s hrun ↦ ⟨fun e s' hs ↦ (path_run hrun).handled_step hs, fun r hr ↦ ?_⟩,
    fun es s hquiet hrun ↦ ⟨fun hcircle ↦ ?_, fun hcircle ↦ ?_⟩⟩
  · exact backed_run (lawful_push site req)
      (fun r r' ↦ r.map PushTaskResponse.task = r'.map PushTaskResponse.task)
      (fun _ ↦ rfl) (fun k addr r r' h ↦ (task_serve_push k addr r).trans h) hrun hr
  · exact leads_to_result hquiet hrun
      ((eval_dom_iff_not_circles (Set.toFinite _)).mpr hcircle)
  · by_contra hr
    obtain ⟨r, hr⟩ := Option.ne_none_iff_exists'.mp hr
    exact hcircle.not_dom (dom_of_returned hquiet hrun hr)

/-- Two peers with the same ports. -/
def peerB : Identity where
  id := lit "b"
  addr := lit "10.0.0.2:6355"
  grpcPort := 6355
  id_ne := by decide
  addr_ne := by decide

def twoPeers : Cluster Bool where
  me b := if b then peerB else peerA
  serves addr :=
    if addr = lit "10.0.0.1:6355" then some false
    else if addr = lit "10.0.0.2:6355" then some true
    else none

/-- A site whose generator and whose Raft do not fail. -/
def goodSite : Site Unit where
  created := .zero
  now := .zero
  index := some 1
  saveTask _ := ⟨none, none⟩
  ack _ := ⟨none, none⟩

/-- A handle with a connection. -/
def connectedTo (addr : GoString) : LeaderHandle := (LeaderHandle.new.resetConn 6355 true addr).1

/-- Each peer takes the other for the leader. -/
def eachOther (b : Bool) : Peer :=
  { stage := .ready, handle := connectedTo (twoPeers.me !b).addr }

theorem push_handled_once_eachOther : ¬∃ es s r, (∀ e ∈ es, e.Quiet) ∧
    run (step (push (fun _ ↦ goodSite) { queue := lit "q" }) twoPeers) (.start eachOther false) es
      = some s ∧ s.result = some r := by
  rintro ⟨es, s, r, hquiet, hrun, hr⟩
  have hnext : ∀ b, (push (fun _ ↦ goodSite) { queue := lit "q" }).next twoPeers eachOther b
      = some !b := by
    intro b
    cases b <;> decide +kernel
  have hnone := ((push_handled_once twoPeers eachOther (fun _ ↦ goodSite) { queue := lit "q" }
    false).2 es s hquiet hrun).2 ⟨false, .refl, .head (hnext false) (.single (hnext true))⟩
  rw [hnone] at hr
  cases hr

/-- The leader handles a push and its reply is lost: the client gets the error of forwarding. -/
example :
    (run (step (push (fun _ ↦ goodSite) { queue := lit "q" }) twoPeers)
      (.start (fun b ↦ { eachOther b with isLeader := b }) false)
      [.decide 0, .forward 0, .decide 1, .lose 0]).map
        (fun s ↦ (s.handled, s.result.map Except.isOk)) = some ([true], some false) := by
  decide +kernel

/-! ## A cluster whose peers were told -/

section

/-- The peer misses no leader. -/
def Unmissed (c : Cluster ι) (peers : ι → Peer) (e : ι × Leadership.Event) : Prop :=
  Leadership.Unmissed (c.me e.1) (peers e.1) e.2

instance (c : Cluster ι) (peers : ι → Peer) (e : ι × Leadership.Event) :
    Decidable (Unmissed c peers e) :=
  inferInstanceAs (Decidable (Leadership.Unmissed _ _ _))

/-- Raft has one leader, and every peer's Raft knows it. -/
def Agreed (c : Cluster ι) (peers : ι → Peer) (l : ι) : Prop :=
  ∀ i, (peers i).raft.leader = (c.me l).addr ∧ ((peers i).raft.state = .leader ↔ i = l)

/-- The leader serves where the other peers look for it: at its host, with their gRPC port. -/
def Cluster.Finds (c : Cluster ι) (l : ι) : Prop :=
  ∀ i, (dialTarget (c.me i).grpcPort (c.me l).addr).bind c.serves = some l

variable {rpc : Rpc ι ρ} {c : Cluster ι} {s : State ι ρ} {peers : ι → Peer} {l i : ι}

theorem inv_run {es : List (ι × Leadership.Event)}
    (hok : Meets c.step (Unmissed c) (fun _ ↦ {}) es)
    (hrun : run c.step (fun _ ↦ {}) es = some peers) (i : ι) :
    Leadership.Inv (c.me i) (peers i) := by
  have hall : ∀ i, Leadership.Inv (c.me i) (peers i) := by
    refine Meets.invariant (P := fun s ↦ ∀ i, Leadership.Inv (c.me i) (s i)) ?_
      (fun i ↦ inv_init (c.me i)) hok hrun
    rintro s ⟨k, e⟩ s' h hok hs i
    obtain ⟨p, hp, rfl⟩ := Option.map_eq_some_iff.mp hs
    by_cases hi : i = k
    · subst hi
      rw [Function.update_self]
      exact (h i).step hok hp
    · rw [Function.update_of_ne hi]
      exact h i
  exact hall i

/-- What every peer does with a request in a settled cluster. -/
structure Settles (rpc : Rpc ι ρ) (c : Cluster ι) (peers : ι → Peer) (l : ι) : Prop where
  leads : ∀ i, (peers i).isLeader = decide (i = l)
  leader : ∀ i, (peers i).raft.leader = (c.me l).addr
  reached : ∀ i, rpc.reached c (peers i).handle = some l

theorem settles (hclient : ∀ h, rpc.client h = h.conn)
    (hagrees : ∀ i, (peers i).Agrees (c.me i)) (hagreed : Agreed c peers l) (hfinds : c.Finds l) :
    Settles rpc c peers l where
  leads i := by
    rw [(hagrees i).1]
    exact decide_eq_decide.mpr (hagreed i).2
  leader i := (hagreed i).1
  reached i := by
    obtain ⟨hleader, -⟩ := hagreed i
    have hconn := (hagrees i).2 (hleader ▸ (c.me l).addr_ne)
    have hserves : ((peers i).handle.conn.map Conn.target).bind c.serves = some l := by
      rw [hconn, hleader]
      exact hfinds i
    rw [Rpc.reached, hclient]
    rwa [Option.bind_map] at hserves

/-- The reply of a peer of a settled cluster. -/
def Rpc.reply (rpc : Rpc ι ρ) (c : Cluster ι) (l i : ι) : ρ :=
  if i = l then rpc.handle l else rpc.serve i false (c.me l).addr (rpc.handle l)

/-- A request at any peer of a settled cluster is handled by the leader and by nobody else, and
returns what the leader returns unless a reply is lost. -/
theorem reply_of_settles (hlaw : rpc.Lawful) (h : Settles rpc c peers l) {es : List (Event ι)}
    (hcall : ∀ e ∈ es, e.OfCall) (hrun : run (step rpc c) (.start peers i) es = some s) :
    (s.handled = [] ∨ s.handled = [l]) ∧
      ∀ r, s.result = some r → s.handled = [l] ∧ r = rpc.reply c l i ∨
        r = rpc.lost ∧ ∃ n, Event.lose n ∈ es := by
  let P : List ι → ι → ρ → Prop := fun handled k r ↦
    handled = [l] ∧ r = rpc.reply c l k ∨ r = rpc.lost ∧ ∃ n, Event.lose n ∈ es
  have hok : Meets (step rpc c) (fun _ e ↦ e.OfCall ∧ e ∈ es) (.start peers i) es :=
    meets_of_forall_mem fun e he ↦ ⟨hcall e he, he⟩
  have hinv : ((Path s ∧ Way rpc c peers i s) ∧ (s.handled = [] ∨ s.handled = [l])) ∧
      Answers P s := by
    refine Meets.invariant (P := fun s ↦ ((Path s ∧ Way rpc c peers i s) ∧
      (s.handled = [] ∨ s.handled = [l])) ∧ Answers P s) ?_
      ⟨⟨⟨path_start, way_start⟩, .inl rfl⟩, answers_start⟩ hok hrun
    rintro s e s' ⟨⟨⟨hpath, hway⟩, hhandled⟩, hans⟩ ⟨he, hmem⟩ hs
    refine ⟨⟨⟨hpath.step hs, hway.step hpath he hs⟩, ?_⟩, hans.step hpath hs ?_ ?_ ?_ ?_ ?_⟩
    · rcases hpath.handled_step hs with heq | ⟨j, -, hj, hl⟩
      · rwa [heq]
      · rw [hway.peers_eq, h.leads] at hl
        rw [hj, of_decide_eq_true hl]
        exact .inr rfl
    · rintro j k r (⟨hl, -⟩ | hr)
      · cases hl
      · exact .inr hr
    · intro k hl
      rw [hway.peers_eq, h.leads] at hl
      obtain rfl := of_decide_eq_true hl
      rw [hlaw.handles]
      exact .inl ⟨rfl, (if_pos rfl).symm⟩
    · intro n k _ hj
      rw [hway.peers_eq, h.reached] at hj
      cases hj
    · intro n k z r hk hz hr
      have hnext := hway.follows n _ _ hk hz
      have hkl : k ≠ l := by
        rintro rfl
        simp [Rpc.next, h.leads] at hnext
      obtain rfl : l = z := by
        simpa [Rpc.next, h.leads, h.reached, hkl] using hnext
      rcases hr with ⟨hl, rfl⟩ | ⟨rfl, hlose⟩
      · refine .inl ⟨hl, ?_⟩
        rw [hway.peers_eq, h.leader, Rpc.reply, Rpc.reply, if_pos rfl, if_neg hkl]
      · exact .inr ⟨hlaw.loses k _, hlose⟩
    · rintro n k rfl -
      exact .inr ⟨hlaw.loses k _, n, hmem⟩
  refine ⟨hinv.1.2, fun r hr ↦ ?_⟩
  exact hinv.2 0 i r (hinv.1.1.2.getElem?_of_result hr)

theorem Settles.dom (h : Settles rpc c peers l) (i : ι) : (eval (rpc.next c peers) i).Dom := by
  have hl : rpc.next c peers l = none := by simp [Rpc.next, h.leads]
  by_cases hi : i = l
  · exact eval_dom_of_eq_none (hi ▸ hl)
  · have hnext : rpc.next c peers i = some l := by simp [Rpc.next, h.leads, h.reached, hi]
    rw [eval_of_eq_some hnext]
    exact eval_dom_of_eq_none hl

/-- A call at `i` is handled by `l` and by nobody else. It returns `r` unless a reply is lost, and
can always go on to do so while none is. -/
def HandledBy (rpc : Rpc ι ρ) (c : Cluster ι) (peers : ι → Peer) (l i : ι) (r : ρ) : Prop :=
  ∀ es s, (∀ e ∈ es, e.OfCall) → run (step rpc c) (.start peers i) es = some s →
    (s.handled = [] ∨ s.handled = [l]) ∧
    (∀ r', s.result = some r' → s.handled = [l] ∧ r' = r ∨
      r' = rpc.lost ∧ ∃ n, Event.lose n ∈ es) ∧
    ((∀ e ∈ es, e.Quiet) → Leads (step rpc c) Event.Quiet
      (fun t ↦ t.handled = [l] ∧ t.result = some r) s)

theorem handledBy_of_settles (hlaw : rpc.Lawful) (h : Settles rpc c peers l) (i : ι) :
    HandledBy rpc c peers l i (rpc.reply c l i) := by
  intro es s hcall hrun
  obtain ⟨hhandled, hresult⟩ := reply_of_settles hlaw h hcall hrun
  refine ⟨hhandled, hresult, fun hquiet ↦ ?_⟩
  obtain ⟨es', t, hquiet', hrun', r, hr⟩ := leads_to_result hquiet hrun (h.dom i)
  have hall : ∀ e ∈ es ++ es', e.Quiet := List.forall_mem_append.mpr ⟨hquiet, hquiet'⟩
  have hfull : run (step rpc c) (.start peers i) (es ++ es') = some t := by
    rw [run_append, hrun, Option.bind_some, hrun']
  refine ⟨es', t, hquiet', hrun', ?_⟩
  rcases (reply_of_settles hlaw h (fun e he ↦ (hall e he).ofCall) hfull).2 r hr with
    ⟨hl, rfl⟩ | ⟨-, n, hn⟩
  · exact ⟨hl, hr⟩
  · exact (hall _ hn).elim

end

/-- Each of the two starts, the second wins an election and the first hears of it. -/
def secondLeads : List (Bool × Leadership.Event) :=
  ([.newTracker none, .register, .newHandle true, .addObserver] : List Leadership.Event).map
    (false, ·) ++
  ([.newTracker none, .register, .newHandle true, .addObserver, .raft .win, .raft .runLeader,
    .observe true, .update] : List Leadership.Event).map (true, ·) ++
  ([.raft (.contact (lit "10.0.0.2:6355")), .observe true] : List Leadership.Event).map (false, ·)

end Forwarding

end Z4
