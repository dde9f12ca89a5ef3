import Mathlib.Data.List.Basic
import Z4.Client.Connections
import Z4.Foundations.Runs

/-!
# Who leads, as a peer sees it

A peer hears from Raft in three ways. `raft.Leader()` is the address of the leader as of now. A
channel that holds one value says whether the peer itself leads, and a value that was not received
is replaced by the next. Each change of the leader's address is an observation, sent to whoever has
registered. `LeaderTracker` keeps what the channel said in `isLeader` and passes the observations
on, and `LeaderHandle` has a connection to the last address it was passed.

None of these is told of the others. What the peer believes agrees with Raft once the channel is
empty and no observation is under way.

## What can be missed

`NewHandle` asks for the leader and registers its handler afterwards, and the tracker registers with
Raft in a goroutine of its own. A leader that is found between the question and the two
registrations is not passed on, and the handle is without a connection, or has one to the leader
before, until the next change. `Unmissed` asks that there is none. It also asks that dialling
succeeds, which in gRPC does not wait for the peer.

One more way to be wrong is ruled out there: a tracker that starts while Raft has won an election
and not begun to lead takes itself for the leader, and if Raft then gives up nobody tells it.
-/

namespace Z4.Leadership

open Runs
open Client (Conn Connections)

/-! ## The handle -/

/-- `LeaderHandle`, with the connections that it has made. -/
structure LeaderHandle extends Connections where
  collectionClient : Option Conn
  adminClient : Option Conn
  /-- The clients are those of the connection. -/
  clients : collectionClient = conn ∧ adminClient = conn

/-- The errors of `resetConn`. -/
inductive ResetError where
  /-- "failed to close leader connection". -/
  | close
  /-- "unexpected host:port for leader". -/
  | address (leaderAddress : GoString)
  | dial
deriving DecidableEq

/-- The address `resetConn` dials: the host of the leader with the peer's own gRPC port. -/
def dialTarget (grpcPort : ℤ) (leaderAddress : GoString) : Option GoString :=
  match leaderAddress.splitOn 58 with
  | [host, _] => some (host ++ lit ":" ++ lit (toString grpcPort))
  | _ => none

namespace LeaderHandle

/-- The handle before its first `resetConn`. -/
def new : LeaderHandle where
  toConnections := .new
  collectionClient := none
  adminClient := none
  clients := ⟨rfl, rfl⟩

variable {h : LeaderHandle}

/-- The connection is closed, and it and its clients are set to `nil`. -/
def release (h : LeaderHandle) : LeaderHandle where
  toConnections := h.toConnections.drop
  collectionClient := none
  adminClient := none
  clients := ⟨rfl, rfl⟩

/-- A dial that succeeds, after the connection was released. -/
def redial (h : LeaderHandle) (target : GoString) : LeaderHandle where
  toConnections := h.toConnections.adopt target
  collectionClient := some ⟨h.dialled, target⟩
  adminClient := some ⟨h.dialled, target⟩
  clients := ⟨rfl, rfl⟩

/-- `resetConn`, with whether the dial succeeds. -/
def resetConn (h : LeaderHandle) (grpcPort : ℤ) (dials : Bool) (leaderAddress : GoString) :
    LeaderHandle × Option ResetError :=
  if leaderAddress = [] then (h, none)
  -- a connection that is closed already is closed with an error
  else if h.conn.any (·.id ∈ h.closed) then (h, some .close)
  else match dialTarget grpcPort leaderAddress with
    | none => (h.release, some (.address leaderAddress))
    | some target => if dials then (h.redial target, none) else (h.release, some .dial)

/-- `QueueClient`, by its connection; `none` is the error "leader not found". -/
def queueClient (h : LeaderHandle) : Option Conn :=
  if h.conn = none ∨ h.collectionClient = none then none else h.collectionClient

theorem queueClient_eq (h : LeaderHandle) : h.queueClient = h.conn := by
  rw [queueClient, h.clients.1]
  split <;> simp_all

/-- Closing the connection of a handle never fails, because it is open. -/
theorem conn_not_closed (h : LeaderHandle) : h.conn.any (·.id ∈ h.closed) = false := by
  cases hc : h.conn with
  | none => rfl
  | some c =>
    have hopen := Connections.isOpen_of_conn hc
    simpa using hopen.2

theorem resetConn_nil (grpcPort : ℤ) (dials : Bool) : h.resetConn grpcPort dials [] = (h, none) :=
  rfl

/-- With a dial that succeeds the handle ends up with the host of the leader, or with nothing if
the address is none. -/
theorem target_resetConn {grpcPort : ℤ} {addr : GoString} (haddr : addr ≠ []) :
    (h.resetConn grpcPort true addr).1.conn.map Conn.target = dialTarget grpcPort addr := by
  rw [resetConn, if_neg haddr, h.conn_not_closed, if_neg Bool.false_ne_true]
  cases dialTarget grpcPort addr <;> rfl

theorem target_of_resetConn {grpcPort : ℤ} {dials : Bool} {addr : GoString} {h' : LeaderHandle}
    (haddr : addr ≠ []) (hok : h.resetConn grpcPort dials addr = (h', none)) :
    h'.conn.map Conn.target = dialTarget grpcPort addr := by
  rw [resetConn, if_neg haddr, h.conn_not_closed, if_neg Bool.false_ne_true] at hok
  cases htarget : dialTarget grpcPort addr with
  | none => simp [htarget] at hok
  | some target =>
    cases dials with
    | false => simp [htarget] at hok
    | true =>
      simp only [htarget, if_true, Prod.mk.injEq, and_true] at hok
      rw [← hok]
      rfl

end LeaderHandle

/-! ## Raft -/

/-- Where Raft's main loop stands. A candidate is counted among the followers. -/
inductive RaftState where
  | follower
  /-- The election is won and `runLeader` has not begun. -/
  | elected
  | leader
deriving DecidableEq

/-- What a peer can see of its `raft.Raft`. -/
structure Raft where
  state : RaftState := .follower
  leader : GoString := []
  /-- The channel of `LeaderCh`, which holds one value. -/
  leaderCh : Option Bool := none
  /-- The observer of the tracker is registered. -/
  registered : Bool := false
  /-- The observations that were sent and not received. -/
  observations : List GoString := []

/-- `Raft.setLeader`. -/
def Raft.setLeader (r : Raft) (addr : GoString) : Raft :=
  if r.leader = addr then r
  else { r with
    leader := addr
    observations := if r.registered then r.observations ++ [addr] else r.observations }

inductive RaftEvent where
  /-- The election is won. -/
  | win
  | runLeader
  /-- `runLeader` returns. -/
  | stepDown
  /-- Raft turns to a new term before `runLeader` has begun. -/
  | giveUp
  /-- A message of the leader at the address. -/
  | contact (addr : GoString)
  /-- The leader was not heard of for too long. -/
  | lose

/-- A step of the Raft of the peer with the address `own`. -/
def Raft.step (own : GoString) (r : Raft) : RaftEvent → Option Raft
  | .win => if r.state = .follower then some { r.setLeader own with state := .elected } else none
  | .runLeader =>
    if r.state = .elected then some { r with state := .leader, leaderCh := some true } else none
  | .stepDown =>
    if r.state = .leader then
      -- the own address is cleared without an observation
      some { r with
        state := .follower
        leader := if r.leader = own then [] else r.leader
        leaderCh := some false }
    else none
  | .giveUp =>
    if r.state = .elected ∧ r.leader ≠ own then some { r with state := .follower } else none
  | .contact addr => if addr = own then none else some (r.setLeader addr)
  | .lose => some (r.setLeader [])

/-! ## The peer -/

/-- A peer, by what it is configured with. -/
structure Identity where
  id : GoString
  /-- The address of its Raft. -/
  addr : GoString
  grpcPort : ℤ
  id_ne : id ≠ []
  addr_ne : addr ≠ []

/-- `raft.Server`. -/
structure RaftServer where
  id : GoString
  address : GoString

/-- `LeaderTracker.getLeaderServerID`; the servers are `none` if Raft returns an error. -/
def getLeaderServerID (servers : Option (List RaftServer)) (leader : GoString) : GoString :=
  match servers.bind (List.find? fun x ↦ x.address = leader) with
  | none => []
  | some x => x.id

/-- How far `Server.Start` has come. -/
inductive Stage where
  | starting
  /-- `NewTracker` has returned. -/
  | tracking
  /-- `NewHandle` has its connection and no handler is added. -/
  | opened
  | ready
deriving DecidableEq

structure Peer where
  raft : Raft := {}
  stage : Stage := .starting
  isLeader : Bool := false
  handle : LeaderHandle := .new

inductive Event where
  | raft (e : RaftEvent)
  | newTracker (servers : Option (List RaftServer))
  /-- The tracker receives from `leaderUpdates`. -/
  | update
  /-- The tracker's goroutine registers its observer. -/
  | register
  /-- It receives an observation and calls the handlers. -/
  | observe (dials : Bool)
  /-- `NewHandle` up to its first `resetConn`. -/
  | newHandle (dials : Bool)
  | addObserver

/-- Steps of the peer and of its Raft. Without a handle the server does not start. -/
def step (me : Identity) (p : Peer) : Event → Option Peer
  | .raft e => (p.raft.step me.addr e).map fun raft ↦ { p with raft }
  | .newTracker servers =>
    if p.stage = .starting then
      some { p with
        isLeader := getLeaderServerID servers p.raft.leader = me.id
        stage := .tracking }
    else none
  | .update =>
    if p.stage = .starting then none
    else p.raft.leaderCh.map fun isLeader ↦
      { p with isLeader, raft := { p.raft with leaderCh := none } }
  | .register =>
    if p.stage = .starting ∨ p.raft.registered then none
    else some { p with raft := { p.raft with registered := true } }
  | .observe dials =>
    match p.raft.observations with
    | [] => none
    | addr :: observations =>
      some { p with
        raft := { p.raft with observations }
        handle := if p.stage = .ready then (p.handle.resetConn me.grpcPort dials addr).1
          else p.handle }
  | .newHandle dials =>
    if p.stage = .tracking then
      match p.handle.resetConn me.grpcPort dials p.raft.leader with
      | (handle, none) => some { p with handle, stage := .opened }
      | (_, some _) => none
    else none
  | .addObserver => if p.stage = .opened then some { p with stage := .ready } else none

/-- `NewHandle` has not asked for the leader, or the tracker is registered with Raft. -/
def Peer.Attentive (p : Peer) : Prop :=
  p.raft.registered = true ∨ p.stage = .starting ∨ p.stage = .tracking

instance (p : Peer) : Decidable p.Attentive := inferInstanceAs (Decidable (_ ∨ _))

/-- No leader is missed: one that is found between the question of `NewHandle` and the two
registrations. Dials succeed, no other peer is listed under the own id, and Raft does not give up
an election that made the tracker take itself for the leader. -/
def Unmissed (me : Identity) (p : Peer) : Event → Prop
  | .raft .win => p.Attentive
  | .raft (.contact addr) => p.Attentive ∨ addr = p.raft.leader
  | .raft .giveUp => p.raft.leaderCh = none → p.isLeader = false
  | .observe dials => dials = true ∧ p.stage ≠ .opened
  | .newTracker servers =>
    ∀ x ∈ servers.getD [], x.address = p.raft.leader → x.id = me.id → p.raft.leader = me.addr
  | _ => True

instance (me : Identity) (p : Peer) : (e : Event) → Decidable (Unmissed me p e)
  | .raft .win => inferInstanceAs (Decidable p.Attentive)
  | .raft (.contact addr) => inferInstanceAs (Decidable (p.Attentive ∨ addr = p.raft.leader))
  | .raft .giveUp => inferInstanceAs (Decidable (p.raft.leaderCh = none → p.isLeader = false))
  | .raft .runLeader | .raft .stepDown | .raft .lose => .isTrue trivial
  | .observe dials => inferInstanceAs (Decidable (dials = true ∧ p.stage ≠ .opened))
  | .newTracker servers => inferInstanceAs (Decidable (∀ x ∈ servers.getD [],
      x.address = p.raft.leader → x.id = me.id → p.raft.leader = me.addr))
  | .update | .register | .newHandle _ | .addObserver => .isTrue trivial

/-! ## What Raft tells -/

/-- The channel has what Raft is, the last observation is its leader, and its own address is the
leader's only after an election was won. -/
structure Raft.Inv (own : GoString) (r : Raft) : Prop where
  self_ne : r.leader = own → r.state ≠ .follower
  notified : ∀ b, r.leaderCh = some b → b = decide (r.state = .leader)
  unregistered : r.registered = false → r.observations = []
  last : r.leader ≠ [] → ∀ addr ∈ r.observations.getLast?, addr = r.leader

section

variable {own addr : GoString} {r r' : Raft}

@[simp] theorem Raft.leader_setLeader : (r.setLeader addr).leader = addr := by
  rw [setLeader]
  split
  · assumption
  · rfl

@[simp] theorem Raft.state_setLeader : (r.setLeader addr).state = r.state := by
  rw [setLeader]
  split <;> rfl

@[simp] theorem Raft.leaderCh_setLeader : (r.setLeader addr).leaderCh = r.leaderCh := by
  rw [setLeader]
  split <;> rfl

@[simp] theorem Raft.registered_setLeader : (r.setLeader addr).registered = r.registered := by
  rw [setLeader]
  split <;> rfl

theorem Raft.observations_setLeader (r : Raft) (addr : GoString) :
    r.leader = addr ∧ (r.setLeader addr).observations = r.observations ∨
      r.registered = true ∧ (r.setLeader addr).observations = r.observations ++ [addr] ∨
      r.registered = false ∧ (r.setLeader addr).observations = r.observations := by
  rw [setLeader]
  split
  · exact .inl ⟨‹_›, rfl⟩
  · cases hreg : r.registered with
    | true => exact .inr (.inl ⟨rfl, rfl⟩)
    | false => exact .inr (.inr ⟨rfl, rfl⟩)

theorem Raft.Inv.setLeader (h : r.Inv own) (hself : addr = own → r.state ≠ .follower) :
    (r.setLeader addr).Inv own where
  self_ne := by simpa using hself
  notified := by simpa using h.notified
  unregistered := by
    intro hreg
    rw [registered_setLeader] at hreg
    rcases r.observations_setLeader addr with ⟨-, heq⟩ | ⟨hreg', -⟩ | ⟨-, heq⟩
    · rw [heq, h.unregistered hreg]
    · simp [hreg] at hreg'
    · rw [heq, h.unregistered hreg]
  last := by
    rw [leader_setLeader]
    intro hne x hx
    rcases r.observations_setLeader addr with ⟨heq, hobs⟩ | ⟨-, hobs⟩ | ⟨hreg, hobs⟩
    · rw [hobs] at hx
      exact (h.last (heq ▸ hne) x hx).trans heq
    · rw [hobs, List.getLast?_concat] at hx
      exact (Option.some.inj hx).symm
    · rw [hobs, h.unregistered hreg] at hx
      simp at hx

theorem Raft.Inv.step {e : RaftEvent} (h : r.Inv own) (hself : own ≠ [])
    (hs : r.step own e = some r') : r'.Inv own := by
  cases e with
  | win =>
    rw [Raft.step, Option.ite_none_right_eq_some] at hs
    obtain ⟨hstate, hs⟩ := hs
    obtain rfl := Option.some.inj hs
    -- on the way the own address is the leader's while the state is still the follower's
    have hset : ({ r with state := .elected }.setLeader own).Inv own := by
      refine Inv.setLeader ⟨fun _ ↦ by simp, ?_, h.unregistered, h.last⟩ fun _ ↦ by simp
      intro b hb
      rw [h.notified b hb, hstate]
      rfl
    have heq : { r.setLeader own with state := .elected }
        = { r with state := .elected }.setLeader own := by
      rw [Raft.setLeader, Raft.setLeader]
      split <;> rfl
    exact heq ▸ hset
  | runLeader =>
    rw [Raft.step, Option.ite_none_right_eq_some] at hs
    obtain ⟨-, hs⟩ := hs
    obtain rfl := Option.some.inj hs
    exact ⟨fun _ ↦ by simp, fun b hb ↦ by simpa using hb.symm, h.unregistered, h.last⟩
  | stepDown =>
    rw [Raft.step, Option.ite_none_right_eq_some] at hs
    obtain ⟨-, hs⟩ := hs
    obtain rfl := Option.some.inj hs
    refine ⟨fun heq ↦ ?_, fun b hb ↦ by simpa using hb.symm, h.unregistered, fun hne ↦ ?_⟩
    · dsimp only at heq
      split at heq
      · exact absurd heq.symm hself
      · contradiction
    · dsimp only at hne ⊢
      split at hne
      · exact absurd rfl hne
      · rename_i hother
        rw [if_neg hother]
        exact h.last hne
  | giveUp =>
    rw [Raft.step, Option.ite_none_right_eq_some] at hs
    obtain ⟨⟨hstate, hother⟩, hs⟩ := hs
    obtain rfl := Option.some.inj hs
    refine ⟨fun heq ↦ absurd heq hother, fun b hb ↦ ?_, h.unregistered, h.last⟩
    rw [h.notified b hb, hstate]
    rfl
  | contact addr =>
    rw [Raft.step, Option.ite_none_left_eq_some] at hs
    obtain ⟨hother, hs⟩ := hs
    obtain rfl := Option.some.inj hs
    exact h.setLeader fun heq ↦ absurd heq hother
  | lose =>
    obtain rfl := Option.some.inj hs
    exact h.setLeader fun heq ↦ absurd heq.symm hself

end

/-! ## What the peer makes of it -/

/-- The peer believes what Raft is, unless it will be told, and its handle has the leader's host,
unless it will be passed an address. -/
structure Inv (me : Identity) (p : Peer) : Prop where
  raft : p.raft.Inv me.addr
  starting : p.stage = .starting → p.raft.leaderCh = none → p.raft.state ≠ .leader
  leads : p.stage ≠ .starting → p.raft.leaderCh = none → p.raft.state = .leader →
    p.isLeader = true
  follows : p.stage ≠ .starting → p.raft.leaderCh = none → p.raft.state = .follower →
    p.isLeader = false
  target : p.stage = .opened ∨ p.stage = .ready → p.raft.leader ≠ [] →
    (∃ addr ∈ p.raft.observations, addr ≠ []) ∨
      p.handle.conn.map Conn.target = dialTarget me.grpcPort p.raft.leader

section

variable {me : Identity} {p p' : Peer}

theorem inv_init (me : Identity) : Inv me {} where
  raft := ⟨fun h ↦ absurd h.symm me.addr_ne, by simp, fun _ ↦ rfl, by simp⟩
  starting _ _ := by simp
  leads h := absurd rfl h
  follows h := absurd rfl h
  target h := by simp at h

theorem Inv.target_frame (h : Inv me p) {raft : Raft} (hleader : raft.leader ≠ [] →
    raft.leader = p.raft.leader) (hobs : raft.observations = p.raft.observations)
    (hstage : p.stage = .opened ∨ p.stage = .ready) (hne : raft.leader ≠ []) :
    (∃ addr ∈ raft.observations, addr ≠ []) ∨
      p.handle.conn.map Conn.target = dialTarget me.grpcPort raft.leader := by
  rw [hobs, hleader hne]
  exact h.target hstage (hleader hne ▸ hne)

theorem Inv.target_setLeader (h : Inv me p) {addr : GoString}
    (hok : p.Attentive ∨ addr = p.raft.leader) (hstage : p.stage = .opened ∨ p.stage = .ready)
    (hne : addr ≠ []) :
    (∃ a ∈ (p.raft.setLeader addr).observations, a ≠ []) ∨
      p.handle.conn.map Conn.target = dialTarget me.grpcPort addr := by
  rcases p.raft.observations_setLeader addr with ⟨heq, hobs⟩ | ⟨-, hobs⟩ | ⟨hreg, hobs⟩
  · rw [hobs, ← heq]
    exact h.target hstage (heq ▸ hne)
  · exact .inl ⟨addr, by simp [hobs], hne⟩
  · rcases hok with (hreg' | hst | hst) | heq
    · simp [hreg] at hreg'
    · simp [hst] at hstage
    · simp [hst] at hstage
    · rw [hobs, heq]
      exact h.target hstage (heq ▸ hne)

theorem Inv.raftStep {e : RaftEvent} {raft : Raft} (h : Inv me p)
    (hok : Unmissed me p (.raft e)) (hs : p.raft.step me.addr e = some raft) :
    Inv me { p with raft } := by
  have hraft := h.raft.step me.addr_ne hs
  cases e with
  | win =>
    rw [Raft.step, Option.ite_none_right_eq_some] at hs
    obtain ⟨-, hs⟩ := hs
    obtain rfl := Option.some.inj hs
    exact ⟨hraft, by simp, by simp, by simp, fun hstage _ ↦ by
      simpa using h.target_setLeader (.inl hok) hstage me.addr_ne⟩
  | runLeader =>
    rw [Raft.step, Option.ite_none_right_eq_some] at hs
    obtain ⟨-, hs⟩ := hs
    obtain rfl := Option.some.inj hs
    exact ⟨hraft, by simp, by simp, by simp, h.target_frame (fun _ ↦ rfl) rfl⟩
  | stepDown =>
    rw [Raft.step, Option.ite_none_right_eq_some] at hs
    obtain ⟨-, hs⟩ := hs
    obtain rfl := Option.some.inj hs
    refine ⟨hraft, by simp, by simp, by simp, h.target_frame (fun hne ↦ ?_) rfl⟩
    dsimp only at hne ⊢
    split at hne
    · exact absurd rfl hne
    · exact if_neg ‹_›
  | giveUp =>
    rw [Raft.step, Option.ite_none_right_eq_some] at hs
    obtain ⟨-, hs⟩ := hs
    obtain rfl := Option.some.inj hs
    exact ⟨hraft, by simp, by simp, fun _ hch _ ↦ hok hch, h.target_frame (fun _ ↦ rfl) rfl⟩
  | contact addr =>
    rw [Raft.step, Option.ite_none_left_eq_some] at hs
    obtain ⟨-, hs⟩ := hs
    obtain rfl := Option.some.inj hs
    refine ⟨hraft, by simpa using h.starting, by simpa using h.leads, by simpa using h.follows,
      fun hstage hne ↦ ?_⟩
    rw [Raft.leader_setLeader] at hne ⊢
    exact h.target_setLeader hok hstage hne
  | lose =>
    obtain rfl := Option.some.inj hs
    exact ⟨hraft, by simpa using h.starting, by simpa using h.leads, by simpa using h.follows,
      by simp⟩

/-- The tracker finds itself to be the leader only where Raft has won an election. -/
theorem state_of_detected {servers : Option (List RaftServer)} (h : Inv me p)
    (hok : Unmissed me p (.newTracker servers))
    (hid : getLeaderServerID servers p.raft.leader = me.id) : p.raft.state ≠ .follower := by
  rw [getLeaderServerID] at hid
  split at hid
  · exact absurd hid.symm me.id_ne
  · rename_i x hx
    obtain ⟨l, rfl, hfind⟩ := Option.bind_eq_some_iff.mp hx
    have haddr : x.address = p.raft.leader := by simpa using List.find?_some hfind
    exact h.raft.self_ne (hok x (List.mem_of_find?_eq_some hfind) haddr hid)

/-- The last of several observations is the leader, so a leader that is the first of them and not
passed on later is the only one. -/
theorem eq_leader_of_observed {r : Raft} {addr : GoString} {rest : List GoString}
    (hlast : ∀ a ∈ (addr :: rest).getLast?, a = r.leader) (hne : r.leader ≠ [])
    (hrest : ¬∃ a ∈ rest, a ≠ []) : addr = r.leader := by
  cases hr : rest.getLast? with
  | none =>
    obtain rfl := List.getLast?_eq_none_iff.mp hr
    exact hlast addr rfl
  | some a =>
    have ha : a = r.leader := hlast a (by rw [List.getLast?_cons, hr]; rfl)
    exact absurd ⟨a, List.mem_of_getLast? hr, ha ▸ hne⟩ hrest

theorem Inv.observe {addr : GoString} {rest : List GoString} (h : Inv me p)
    (hobs : p.raft.observations = addr :: rest) (hstage : p.stage ≠ .opened) :
    Inv me { p with
      raft := { p.raft with observations := rest }
      handle := if p.stage = .ready then (p.handle.resetConn me.grpcPort true addr).1
        else p.handle } where
  raft := by
    refine ⟨h.raft.self_ne, h.raft.notified, fun hreg ↦ ?_, fun hne a ha ↦ ?_⟩
    · have hnil := h.raft.unregistered hreg
      rw [hobs] at hnil
      simp at hnil
    · refine h.raft.last hne a ?_
      rw [hobs, List.getLast?_cons]
      simp only [Option.mem_def] at ha
      rw [ha]
      rfl
  starting := h.starting
  leads := h.leads
  follows := h.follows
  target hst hne := by
    have hready : p.stage = .ready := hst.resolve_left hstage
    rw [or_iff_not_imp_left]
    intro hrest
    dsimp only at hrest hne ⊢
    rw [if_pos hready]
    by_cases haddr : addr = []
    · subst haddr
      rw [LeaderHandle.resetConn_nil]
      refine (h.target hst hne).resolve_left ?_
      rintro ⟨a, ha, hane⟩
      rw [hobs] at ha
      exact hrest ⟨a, (List.mem_cons.mp ha).resolve_left hane, hane⟩
    · have heq : addr = p.raft.leader := by
        have hlast := h.raft.last hne
        rw [hobs] at hlast
        exact eq_leader_of_observed hlast hne hrest
      rw [LeaderHandle.target_resetConn haddr, heq]

theorem Inv.step {e : Event} (h : Inv me p) (hok : Unmissed me p e)
    (hs : step me p e = some p') : Inv me p' := by
  cases e with
  | raft e =>
    obtain ⟨raft, hraft, rfl⟩ := Option.map_eq_some_iff.mp hs
    exact h.raftStep hok hraft
  | newTracker servers =>
    rw [Leadership.step, Option.ite_none_right_eq_some] at hs
    obtain ⟨hstage, hs⟩ := hs
    obtain rfl := Option.some.inj hs
    refine ⟨h.raft, by simp, fun _ hch hl ↦ absurd hl (h.starting hstage hch), fun _ _ hf ↦ ?_,
      by simp⟩
    exact decide_eq_false fun hid ↦ state_of_detected h hok hid hf
  | update =>
    rw [Leadership.step, Option.ite_none_left_eq_some] at hs
    obtain ⟨hstage, hs⟩ := hs
    obtain ⟨b, hb, rfl⟩ := Option.map_eq_some_iff.mp hs
    have hval := h.raft.notified b hb
    refine ⟨⟨h.raft.self_ne, by simp, h.raft.unregistered, h.raft.last⟩,
      fun hst ↦ absurd hst hstage, fun _ _ hl ↦ ?_, fun _ _ hf ↦ ?_, h.target⟩
    · exact hval.trans (decide_eq_true hl)
    · rw [hval]
      dsimp only at hf
      rw [hf]
      rfl
  | register =>
    rw [Leadership.step, Option.ite_none_left_eq_some] at hs
    obtain ⟨hstage, hs⟩ := hs
    obtain rfl := Option.some.inj hs
    exact ⟨⟨h.raft.self_ne, h.raft.notified, by simp, h.raft.last⟩, h.starting, h.leads, h.follows,
      h.target⟩
  | observe dials =>
    obtain ⟨rfl, hstage⟩ := hok
    rw [Leadership.step] at hs
    cases hobs : p.raft.observations with
    | nil => simp [hobs] at hs
    | cons addr rest =>
      simp only [hobs] at hs
      obtain rfl := Option.some.inj hs
      exact h.observe hobs hstage
  | newHandle dials =>
    rw [Leadership.step, Option.ite_none_right_eq_some] at hs
    obtain ⟨hstage, hs⟩ := hs
    split at hs
    · rename_i handle hreset
      obtain rfl := Option.some.inj hs
      refine ⟨h.raft, by simp, fun _ ↦ h.leads (by simp [hstage]),
        fun _ ↦ h.follows (by simp [hstage]), fun _ hne ↦ .inr ?_⟩
      exact LeaderHandle.target_of_resetConn hne hreset
    · simp at hs
  | addObserver =>
    rw [Leadership.step, Option.ite_none_right_eq_some] at hs
    obtain ⟨hstage, hs⟩ := hs
    obtain rfl := Option.some.inj hs
    exact ⟨h.raft, by simp, fun _ ↦ h.leads (by simp [hstage]),
      fun _ ↦ h.follows (by simp [hstage]), fun _ ↦ h.target (.inl hstage)⟩

end

/-! ## A peer that was told everything -/

/-- The peer serves, it has received what Raft sent, and Raft is not between an election and the
lead. -/
def Peer.Settled (p : Peer) : Prop :=
  p.stage = .ready ∧ p.raft.leaderCh = none ∧ p.raft.observations = [] ∧ p.raft.state ≠ .elected

instance (p : Peer) : Decidable p.Settled := inferInstanceAs (Decidable (_ ∧ _ ∧ _ ∧ _))

/-- What the peer believes is what Raft is. -/
def Peer.Agrees (me : Identity) (p : Peer) : Prop :=
  p.isLeader = decide (p.raft.state = .leader) ∧
    (p.raft.leader ≠ [] →
      p.handle.conn.map Conn.target = dialTarget me.grpcPort p.raft.leader)

theorem Inv.agrees {me : Identity} {p : Peer} (h : Inv me p) (hp : p.Settled) : p.Agrees me := by
  obtain ⟨hstage, hch, hobs, hstate⟩ := hp
  have hstarted : p.stage ≠ .starting := by simp [hstage]
  refine ⟨?_, fun hne ↦ (h.target (.inr hstage) hne).resolve_left (by simp [hobs])⟩
  cases hst : p.raft.state with
  | follower => rw [h.follows hstarted hch hst]; rfl
  | elected => exact absurd hst hstate
  | leader => rw [h.leads hstarted hch hst]; rfl

/-- A peer with an address. -/
def peerA : Identity where
  id := lit "a"
  addr := lit "10.0.0.1:6355"
  grpcPort := 6355
  id_ne := by decide
  addr_ne := by decide

/-- The peer finds another leader, leads itself, and steps down for a third. -/
def threeLeaders : List Event :=
  [.newTracker (some [⟨lit "a", lit "10.0.0.1:6355"⟩]), .register, .newHandle true, .addObserver,
    .raft (.contact (lit "10.0.0.2:6355")), .observe true, .raft .lose, .raft .win, .observe true,
    .raft .runLeader, .update, .observe true, .raft (.contact (lit "10.0.0.3:6355")),
    .raft .stepDown, .observe true, .update]

/-- A leader that is found after `NewHandle` has asked and before the tracker is registered: the
peer is settled and has no connection. -/
example : (run (step peerA) {} [.newTracker none, .newHandle true, .addObserver,
    .raft (.contact (lit "10.0.0.2:6355")), .register]).map
      (fun p ↦ (decide p.Settled, p.raft.leader, p.handle.conn))
    = some (true, lit "10.0.0.2:6355", none) := by
  decide +kernel

end Z4.Leadership
