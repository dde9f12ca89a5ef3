import Z4.Client.Connections
import Z4.Foundations.Halting

/-!
# The connection pool

`connectionPool` of the client has one connection, to the peer that it takes for the leader. `seed`
dials an address and asks the peer behind it who leads. A peer that names itself is kept, one that
names another is dropped and `seed` goes on with the other's address, and everything else is an
error.

## What `seed` gives up, and when it ends

`seed` closes the connection of the pool as soon as it has a new one, before it asks. Unless the
first dial fails, a failed `SetLeader` has lost the connection that it started with
(`Pool.closed_of_seed`). What it never touches on a failure are the addresses and the term
(`Pool.kept_of_failed`).

`seed` keeps no record of the peers that it has asked. Which peer comes after which is a partial
function of the address alone (`next`), so `seed` returns exactly where following that function ends
(`Pool.seed_returns_iff`): with finitely many peers, where it does not run in a circle.
-/

namespace Z4.Client

open StateTransition

variable {ε : Type*}

/-! ## Replies -/

/-- `proto.Server`, as far as the client reads it. -/
structure Server where
  id : GoString
  host : GoString
  queuePort : Int32
deriving DecidableEq

/-- `fmt.Sprintf("%s:%d", member.GetHost(), member.GetQueuePort())`. -/
def Server.peerAddr (member : Server) : GoString :=
  member.host ++ lit ":" ++ lit (toString member.queuePort.toInt)

/-- `proto.ClusterInfo`. -/
structure ClusterInfo where
  serverId : GoString
  leaderId : GoString
  members : List Server
deriving DecidableEq

/-- One round of the loop over the members: `addresses` and `leaderAddr`. -/
def ClusterInfo.collect (leaderId : GoString) (found : List GoString × GoString)
    (member : Server) : List GoString × GoString :=
  (found.1 ++ [member.peerAddr], if member.id = leaderId then member.peerAddr else found.2)

/-- `addresses` after the loop. -/
def ClusterInfo.addresses (info : ClusterInfo) : List GoString :=
  (info.members.foldl (collect info.leaderId) ([], [])).1

/-- `leaderAddr` after the loop: empty where no member has the id of the leader. -/
def ClusterInfo.leaderAddr (info : ClusterInfo) : GoString :=
  (info.members.foldl (collect info.leaderId) ([], [])).2

/-- What comes of dialling an address and asking for the cluster info. -/
inductive Reply (ε : Type*) where
  | dialError (e : ε)
  | infoError (e : ε)
  | info (i : ClusterInfo)

/-- The peer names itself as the leader. -/
def Reply.Leads : Reply ε → Prop
  | .info i => i.leaderId ≠ [] ∧ i.serverId = i.leaderId
  | _ => False

instance : DecidablePred (@Reply.Leads ε)
  | .dialError _ => .isFalse id
  | .infoError _ => .isFalse id
  | .info i => inferInstanceAs (Decidable (i.leaderId ≠ [] ∧ i.serverId = i.leaderId))

/-- The address that `seed` goes on with, where the peer names another one as the leader. -/
def Reply.redirect : Reply ε → Option GoString
  | .info i => if i.leaderId = [] ∨ i.serverId = i.leaderId then none else some i.leaderAddr
  | _ => none

/-- What each address replies. -/
abbrev View (ε : Type*) := GoString → Reply ε

/-- Which address comes after which. -/
def next (view : View ε) (addr : GoString) : Option GoString := (view addr).redirect

theorem info_of_next_ne_none {view : View ε} {addr : GoString} (h : next view addr ≠ none) :
    ∃ i, view addr = .info i := by
  rw [next] at h
  cases hview : view addr with
  | info i => exact ⟨i, rfl⟩
  | dialError e => exact absurd (hview ▸ rfl) h
  | infoError e => exact absurd (hview ▸ rfl) h

/-- An error of the client: `ErrNoLeader`, or what gRPC returned. -/
inductive Failure (ε : Type*) where
  | noLeader
  | grpc (e : ε)
deriving DecidableEq

/-! ## The pool -/

/-- `connectionPool`, with the connections that it has made. -/
structure Pool extends Connections where
  peerAddresses : List GoString
  term : ℕ

namespace Pool

open Connections

variable {p p' : Pool} {c : Conn} {addr z : GoString} {view : View ε}

/-- The pool of `newConnectionPool` before it is connected. -/
def new (addrs : List GoString) : Pool where
  toConnections := .new
  peerAddresses := addrs
  term := 0

/-- A dial that succeeds: the old connection is closed and `p.conn` is the new one. -/
def adopt (p : Pool) (addr : GoString) : Pool :=
  { p with toConnections := p.toConnections.adopt addr }

/-- `p.conn` is closed and set to `nil`. -/
def drop (p : Pool) : Pool := { p with toConnections := p.toConnections.drop }

@[simp] theorem conn_adopt : (p.adopt addr).conn = some ⟨p.dialled, addr⟩ := rfl

/-- `seed`. `fuel` bounds the depth of the recursion, which the code does not. -/
def seed (view : View ε) : ℕ → Pool → GoString → Option (Pool × Option (Failure ε))
  | 0, _, _ => none
  | fuel + 1, p, addr =>
    match view addr with
    | .dialError e => some (p, some (.grpc e))
    | .infoError e => some (p.adopt addr, some (.grpc e))
    | .info i =>
      if i.leaderId = [] then some ((p.adopt addr).drop, some .noLeader)
      else if i.serverId = i.leaderId then
        some ({ p.adopt addr with peerAddresses := i.addresses }, none)
      else seed view fuel (p.adopt addr).drop i.leaderAddr

/-- `SetLeader`, with the term that it read before it had the lock. -/
def setLeader (view : View ε) (fuel term : ℕ) (p : Pool) (addr : GoString) :
    Option (Pool × Option Conn × Option (Failure ε)) :=
  if term ≠ p.term then some (p, p.conn, none)
  else (seed view fuel p addr).map fun
    | (q, none) => ({ q with term := q.term + 1 }, q.conn, none)
    | (q, some e) => (q, q.conn, some e)

/-- `detectLeader`. -/
def detectLeader (view : View ε) (fuel : ℕ) :
    Pool → List GoString → Option (Pool × Option (Failure ε))
  | p, [] => some (p, some .noLeader)
  | p, addr :: addrs => (seed view fuel p addr).bind fun
    | (q, none) => some (q, none)
    | (q, some _) => detectLeader view fuel q addrs

/-- `backoff.Retry` of `detectLeader`: an attempt for each of `views`, the last of which ends with
`stop` if it fails. -/
def retry (fuel : ℕ) (stop : Failure ε) : Pool → List (View ε) →
    Option (Pool × Option (Failure ε))
  | p, [] => some (p, some stop)
  | p, view :: views => (detectLeader view fuel p p.peerAddresses).bind fun
    | (q, none) => some (q, none)
    | (q, some _) => retry fuel stop q views

/-- `ResetConn`, with the term that it read before it had the lock. -/
def resetConn (views : List (View ε)) (stop : Failure ε) (fuel term : ℕ) (p : Pool) :
    Option (Pool × Option Conn × Option (Failure ε)) :=
  if term ≠ p.term then some (p, p.conn, none)
  else (retry fuel stop p views).map fun
    | (q, none) => ({ q with term := q.term + 1 }, q.conn, none)
    | (q, some e) => (q, none, some e)

/-! ## The rounds of `seed` -/

/-- What `seed` returns from an address that does not redirect. -/
def answer (view : View ε) (p : Pool) (addr : GoString) : Pool × Option (Failure ε) :=
  match view addr with
  | .dialError e => (p, some (.grpc e))
  | .infoError e => (p.adopt addr, some (.grpc e))
  | .info i =>
    if i.leaderId = [] then ((p.adopt addr).drop, some .noLeader)
    else ({ p.adopt addr with peerAddresses := i.addresses }, none)

theorem seed_succ (fuel : ℕ) : seed view (fuel + 1) p addr = match next view addr with
    | none => some (answer view p addr)
    | some b => seed view fuel (p.adopt addr).drop b := by
  rw [seed, next, answer]
  cases view addr with
  | dialError e => rfl
  | infoError e => rfl
  | info i =>
    by_cases hno : i.leaderId = []
    · simp [Reply.redirect, hno]
    · by_cases hself : i.serverId = i.leaderId
      · simp [Reply.redirect, hno, hself]
      · simp [Reply.redirect, hno, hself]

theorem seed_succ_of_stop (h : next view addr = none) (fuel : ℕ) :
    seed view (fuel + 1) p addr = some (answer view p addr) := by
  rw [seed_succ, h]

theorem seed_succ_of_redirect {b : GoString} (h : next view addr = some b) (fuel : ℕ) :
    seed view (fuel + 1) p addr = seed view fuel (p.adopt addr).drop b := by
  rw [seed_succ, h]

/-- `q` comes from `p` by making and closing connections. -/
structure Since (p q : Pool) : Prop where
  closed : p.closed ⊆ q.closed
  peerAddresses : q.peerAddresses = p.peerAddresses
  term : q.term = p.term

theorem Since.refl (p : Pool) : Since p p := ⟨List.Subset.refl _, rfl, rfl⟩

theorem Since.trans {q r : Pool} (h : Since p q) (h' : Since q r) : Since p r :=
  ⟨List.Subset.trans h.closed h'.closed, h'.peerAddresses.trans h.peerAddresses,
    h'.term.trans h.term⟩

theorem since_adopt : Since p (p.adopt addr) := ⟨closed_subset_closing, rfl, rfl⟩

theorem since_drop : Since p p.drop := ⟨closed_subset_closing, rfl, rfl⟩

/-- A call that returns has followed the redirects to their end, and its result is the one from
there. -/
theorem answer_of_seed {fuel : ℕ} {r : Pool × Option (Failure ε)}
    (h : seed view fuel p addr = some r) :
    ∃ q, ∃ z ∈ eval (next view) addr, Since p q ∧ r = answer view q z := by
  induction fuel generalizing p addr with
  | zero => cases h
  | succ fuel ih =>
    cases hnext : next view addr with
    | none =>
      rw [seed_succ_of_stop hnext, Option.some.injEq] at h
      exact ⟨p, addr, mem_eval.mpr ⟨.refl, hnext⟩, .refl p, h.symm⟩
    | some b =>
      rw [seed_succ_of_redirect hnext] at h
      obtain ⟨q, z, hz, hq, hr⟩ := ih h
      rw [← eval_of_eq_some hnext] at hz
      exact ⟨q, z, hz, since_adopt.trans (since_drop.trans hq), hr⟩

/-- Where the redirects end, some depth of recursion is enough. -/
theorem seed_of_halts (hz : z ∈ eval (next view) addr) (p : Pool) :
    ∃ fuel q, seed view fuel p addr = some (answer view q z) := by
  obtain ⟨hreach, hstop⟩ := mem_eval.mp hz
  clear hz
  induction hreach using Relation.ReflTransGen.head_induction_on generalizing p with
  | refl => exact ⟨1, p, seed_succ_of_stop hstop 0⟩
  | @head a b hstep _ ih =>
    obtain ⟨fuel, q, hq⟩ := ih (p.adopt a).drop
    exact ⟨fuel + 1, q, (seed_succ_of_redirect hstep fuel).trans hq⟩

/-- **When `seed` returns.** -/
theorem seed_returns_iff : (∃ fuel r, seed view fuel p addr = some r) ↔
    (eval (next view) addr).Dom := by
  constructor
  · rintro ⟨fuel, r, h⟩
    obtain ⟨_, z, hz, -, -⟩ := answer_of_seed h
    exact Part.dom_iff_mem.mpr ⟨z, hz⟩
  · intro hdom
    obtain ⟨fuel, q, h⟩ := seed_of_halts (Part.get_mem hdom) p
    exact ⟨fuel, _, h⟩

/-! ## What a call leaves behind -/

theorem since_answer_of_failed {e : Failure ε} (h : answer view p addr = (p', some e)) :
    Since p p' := by
  rw [answer] at h
  cases hview : view addr with
  | dialError e =>
    simp only [hview, Prod.mk.injEq] at h
    exact h.1 ▸ .refl p
  | infoError e =>
    simp only [hview, Prod.mk.injEq] at h
    exact h.1 ▸ since_adopt
  | info i =>
    by_cases hno : i.leaderId = []
    · simp only [hview, if_pos hno, Prod.mk.injEq] at h
      exact h.1 ▸ since_adopt.trans since_drop
    · simp [hview, if_neg hno] at h

theorem answer_of_leads (h : next view addr = none) :
    (answer view p addr).2 = none ↔ (view addr).Leads := by
  rw [answer]
  rw [next] at h
  cases hview : view addr with
  | dialError e => simp [Reply.Leads]
  | infoError e => simp [Reply.Leads]
  | info i =>
    rw [hview, Reply.redirect] at h
    by_cases hno : i.leaderId = []
    · simp [Reply.Leads, hno]
    · have hself : i.serverId = i.leaderId := by simpa [hno] using h
      simp [Reply.Leads, hno, hself]

theorem conn_of_answer (h : answer view p addr = (p', none)) :
    p'.conn = some ⟨p.dialled, addr⟩ := by
  rw [answer] at h
  cases hview : view addr with
  | dialError e => simp [hview] at h
  | infoError e => simp [hview] at h
  | info i =>
    by_cases hno : i.leaderId = []
    · simp [hview, if_pos hno] at h
    · simp only [hview, if_neg hno, Prod.mk.injEq, and_true] at h
      exact h ▸ rfl

theorem kept_of_failed {fuel : ℕ} {e : Failure ε}
    (h : seed view fuel p addr = some (p', some e)) : Since p p' := by
  obtain ⟨q, z, -, hq, hr⟩ := answer_of_seed h
  exact hq.trans (since_answer_of_failed hr.symm)

/-- A success is a connection to a peer that names itself. -/
theorem leads_of_seed {fuel : ℕ} (h : seed view fuel p addr = some (p', none)) :
    ∃ c, p'.conn = some c ∧ (view c.target).Leads := by
  obtain ⟨q, z, hz, -, hr⟩ := answer_of_seed h
  have hnone : (answer view q z).2 = none := by rw [← hr]
  exact ⟨_, conn_of_answer hr.symm, (answer_of_leads (mem_eval.mp hz).2).mp hnone⟩

/-- Once the first dial has succeeded, the connection of the pool is closed. -/
theorem closed_of_seed {fuel : ℕ} {e : Failure ε}
    (h : seed view fuel p addr = some (p', some e)) (hc : p.conn = some c)
    (hdial : ∀ e, view addr ≠ .dialError e) : c.id ∈ p'.closed := by
  cases fuel with
  | zero => cases h
  | succ fuel =>
    cases hnext : next view addr with
    | some b =>
      rw [seed_succ_of_redirect hnext] at h
      exact (kept_of_failed h).closed (since_drop.closed (closed_of_adopt hc))
    | none =>
      rw [seed_succ_of_stop hnext, Option.some.injEq, answer] at h
      cases hview : view addr with
      | dialError e => exact absurd hview (hdial e)
      | infoError e =>
        simp only [hview, Prod.mk.injEq] at h
        exact h.1 ▸ closed_of_adopt hc
      | info i =>
        by_cases hno : i.leaderId = []
        · simp only [hview, if_pos hno, Prod.mk.injEq] at h
          exact h.1 ▸ since_drop.closed (closed_of_adopt hc)
        · simp [hview, if_neg hno] at h

/-! ## `SetLeader` -/

theorem setLeader_failed_iff {fuel term : ℕ} {r : Option Conn} {e : Failure ε} :
    setLeader view fuel term p addr = some (p', r, some e) ↔
      term = p.term ∧ seed view fuel p addr = some (p', some e) ∧ r = p'.conn := by
  rw [setLeader]
  by_cases hterm : term = p.term
  · rw [if_neg (not_not.mpr hterm), Option.map_eq_some_iff]
    constructor
    · rintro ⟨⟨q, _ | e'⟩, hseed, heq⟩
      · cases heq
      · cases heq
        exact ⟨hterm, hseed, rfl⟩
    · rintro ⟨-, hseed, rfl⟩
      exact ⟨_, hseed, rfl⟩
  · rw [if_pos hterm]
    simp [hterm]

/-- **When a failed `SetLeader` keeps the connection.** It does so in three cases: it does not try,
since the term has changed; it cannot dial the address; or it cannot fail, since the redirects from
the address do not end at a peer that gives an error. -/
theorem setLeader_keeps_iff (view : View ε) (p : Pool) (c : Conn) (hc : p.conn = some c)
    (term : ℕ) (addr : GoString) :
    (∀ fuel p' r e, setLeader view fuel term p addr = some (p', r, some e) →
      p'.conn = some c ∧ p'.IsOpen c ∧ p'.peerAddresses = p.peerAddresses ∧ p'.term = p.term) ↔
    term ≠ p.term ∨ (∃ e, view addr = .dialError e) ∨
      ∀ z ∈ eval (next view) addr, (view z).Leads := by
  constructor
  · intro hkeeps
    by_contra hcond
    push Not at hcond
    obtain ⟨hterm, hdial, z, hz, hleads⟩ := hcond
    obtain ⟨fuel, q, hseed⟩ := seed_of_halts hz p
    rcases hr : answer view q z with ⟨p', err⟩
    cases err with
    | none =>
      have hnone : (answer view q z).2 = none := by rw [hr]
      exact hleads ((answer_of_leads (mem_eval.mp hz).2).mp hnone)
    | some e =>
      rw [hr] at hseed
      have hset := hkeeps fuel p' _ e (setLeader_failed_iff.mpr ⟨hterm, hseed, rfl⟩)
      exact hset.2.1.2 (closed_of_seed hseed hc hdial)
  · intro hcond fuel p' r e hset
    obtain ⟨hterm, hseed, -⟩ := setLeader_failed_iff.mp hset
    obtain hne | ⟨e', hdial⟩ | hleads := hcond
    · exact absurd hterm hne
    · -- the dial fails before anything is closed
      have hnext : next view addr = none := by rw [next, hdial]; rfl
      cases fuel with
      | zero => cases hseed
      | succ fuel =>
        rw [seed_succ_of_stop hnext, answer, hdial] at hseed
        cases hseed
        exact ⟨hc, isOpen_of_conn hc, rfl, rfl⟩
    · obtain ⟨q, z, hz, -, hr⟩ := answer_of_seed hseed
      have hnone := (answer_of_leads (p := q) (mem_eval.mp hz).2).mpr (hleads z hz)
      rw [← hr] at hnone
      cases hnone

/-- A pool that is connected to `addr`. -/
def connectedTo (addr : GoString) : Pool := (Pool.new [addr]).adopt addr

/-- The address of the leader cannot be dialled: whatever `SetLeader` returns, the connection is as
it was. -/
theorem setLeader_keeps_of_dialError :
    (connectedTo (lit "a:1")).conn = some ⟨0, lit "a:1"⟩ ∧
      ∀ fuel p' r e, setLeader (fun _ ↦ .dialError ()) fuel 0 (connectedTo (lit "a:1"))
          (lit "b:1") = some (p', r, some e) →
        p'.conn = some ⟨0, lit "a:1"⟩ ∧ p'.IsOpen ⟨0, lit "a:1"⟩ ∧
          p'.peerAddresses = [lit "a:1"] ∧ p'.term = 0 :=
  ⟨rfl, (setLeader_keeps_iff _ (connectedTo (lit "a:1")) ⟨0, lit "a:1"⟩ rfl 0 (lit "b:1")).mpr
    (.inr (.inl ⟨(), rfl⟩))⟩

/-- The peer at the address that a response names does not answer. The client had a connection that
worked, and has one that does not. -/
theorem setLeader_loses_connection : ∃ (view : View Unit) (p p' : Pool) (c : Conn),
    p.conn = some c ∧ p.IsOpen c ∧
    setLeader view 1 p.term p (lit "b:1") = some (p', p'.conn, some (.grpc ())) ∧
    p'.conn ≠ some c ∧ ¬p'.IsOpen c :=
  ⟨fun _ ↦ .infoError (), connectedTo (lit "a:1"), (connectedTo (lit "a:1")).adopt (lit "b:1"),
    ⟨0, lit "a:1"⟩, rfl, by decide, rfl, by decide, by decide⟩

/-! ## Termination -/

/-- **When leader discovery ends.** With finitely many peers that answer, `seed` returns exactly
where the redirects do not run in a circle. What it returns with `nil` is always a connection to a
peer that names itself. -/
theorem seed_ends_iff (view : View ε) (hfin : {addr | ∃ i, view addr = .info i}.Finite) (p : Pool)
    (addr : GoString) :
    ((∃ fuel r, seed view fuel p addr = some r) ∧
      ∀ fuel p', seed view fuel p addr = some (p', none) →
        ∃ c, p'.conn = some c ∧ p'.IsOpen c ∧ (view c.target).Leads) ↔
    ¬Circles (next view) addr := by
  have hnext : {x | next view x ≠ none}.Finite := hfin.subset fun _ ↦ info_of_next_ne_none
  rw [seed_returns_iff, eval_dom_iff_not_circles hnext, and_iff_left_iff_imp]
  intro _ fuel p' h
  obtain ⟨c, hc, hleads⟩ := leads_of_seed h
  exact ⟨c, hc, isOpen_of_conn hc, hleads⟩

/-- Two peers: the first names the second as the leader, the second names `leader`. -/
def twoPeers (leader : GoString) : View Unit := fun addr ↦
  let members := [⟨lit "a", lit "a", 1⟩, ⟨lit "b", lit "b", 1⟩]
  if addr = lit "a:1" then .info ⟨lit "a", lit "b", members⟩
  else if addr = lit "b:1" then .info ⟨lit "b", leader, members⟩
  else .infoError ()

theorem finite_twoPeers (leader : GoString) :
    {addr | ∃ i, twoPeers leader addr = .info i}.Finite := by
  refine (Set.toFinite {lit "a:1", lit "b:1"}).subset ?_
  rintro addr ⟨i, hi⟩
  by_contra hmem
  rw [Set.mem_insert_iff, Set.mem_singleton_iff, not_or] at hmem
  rw [twoPeers, if_neg hmem.1, if_neg hmem.2] at hi
  cases hi

theorem seed_ends_of_redirect :
    {addr | ∃ i, twoPeers (lit "b") addr = .info i}.Finite ∧
      ¬Circles (next (twoPeers (lit "b"))) (lit "a:1") := by
  refine ⟨finite_twoPeers _, (seed_ends_iff _ (finite_twoPeers _) (.new []) _).mp ⟨?_, ?_⟩⟩
  · have hsome : (seed (twoPeers (lit "b")) 2 (.new []) (lit "a:1")).isSome := by decide +kernel
    exact ⟨2, Option.isSome_iff_exists.mp hsome⟩
  · intro fuel p' h
    obtain ⟨c, hc, hleads⟩ := leads_of_seed h
    exact ⟨c, hc, isOpen_of_conn hc, hleads⟩

/-- Two peers that name each other: `seed` does not return, at any depth. -/
theorem seed_runs_in_circle :
    {addr | ∃ i, twoPeers (lit "a") addr = .info i}.Finite ∧
      ∀ p fuel, seed (twoPeers (lit "a")) fuel p (lit "a:1") = none := by
  have hab : next (twoPeers (lit "a")) (lit "a:1") = some (lit "b:1") := by decide +kernel
  have hba : next (twoPeers (lit "a")) (lit "b:1") = some (lit "a:1") := by decide +kernel
  have hcircle : Circles (next (twoPeers (lit "a"))) (lit "a:1") :=
    ⟨lit "a:1", .refl, .tail (.single hab) hba⟩
  refine ⟨finite_twoPeers _, fun p fuel ↦ Option.eq_none_iff_forall_ne_some.mpr fun r h ↦ ?_⟩
  exact hcircle.not_dom (seed_returns_iff.mp ⟨fuel, r, h⟩)

/-! ## `ResetConn` -/

theorem detectLeader_ok {fuel : ℕ} {addrs : List GoString}
    (h : detectLeader view fuel p addrs = some (p', none)) :
    ∃ c, p'.conn = some c ∧ (view c.target).Leads := by
  induction addrs generalizing p with
  | nil => cases h
  | cons addr addrs ih =>
    rw [detectLeader, Option.bind_eq_some_iff] at h
    obtain ⟨⟨q, _ | e⟩, hseed, hrest⟩ := h
    · cases hrest
      exact leads_of_seed hseed
    · exact ih hrest

theorem retry_ok {fuel : ℕ} {stop : Failure ε} {views : List (View ε)}
    (h : retry fuel stop p views = some (p', none)) :
    ∃ view ∈ views, ∃ c, p'.conn = some c ∧ (view c.target).Leads := by
  induction views generalizing p with
  | nil => cases h
  | cons view views ih =>
    rw [retry, Option.bind_eq_some_iff] at h
    obtain ⟨⟨q, _ | e⟩, hdetect, hrest⟩ := h
    · cases hrest
      exact ⟨view, List.mem_cons_self, detectLeader_ok hdetect⟩
    · obtain ⟨v, hv, hc⟩ := ih hrest
      exact ⟨v, List.mem_cons_of_mem _ hv, hc⟩

/-- **`ResetConn`.** A call that reconnects without an error returns the connection of the pool,
which is open and goes to a peer that named itself when it was asked. -/
theorem resetConn_ok {fuel : ℕ} {stop : Failure ε} {views : List (View ε)} {r : Option Conn}
    (h : resetConn views stop fuel p.term p = some (p', r, none)) :
    ∃ view ∈ views, ∃ c, r = some c ∧ p'.conn = some c ∧ p'.IsOpen c ∧
      (view c.target).Leads := by
  rw [resetConn, if_neg (not_not.mpr rfl), Option.map_eq_some_iff] at h
  obtain ⟨⟨q, _ | e⟩, hretry, heq⟩ := h
  · cases heq
    obtain ⟨view, hview, c, hc, hleads⟩ := retry_ok hretry
    exact ⟨view, hview, c, hc, hc, isOpen_of_conn hc, hleads⟩
  · cases heq

end Pool

end Z4.Client
