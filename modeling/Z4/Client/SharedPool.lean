import Mathlib.Logic.Function.Basic
import Z4.Client.ConnectionPool
import Z4.Foundations.Runs

/-!
# Goroutines that share a pool

The producers and consumers of a client share its `connectionPool`. When the leader is lost they all
call `ResetConn`, and those that were forwarded call `SetLeader`. Both read the term, take the lock
and read the term again: if another call has found a leader meanwhile, they return the connection
that it has left in the pool, and else they look for the leader themselves, and raise the term when
they have found it.

## What a late call finds

A call that finds a later term gives the lock back *before* it reads `p.conn`. By then another call
may be under way, with a connection to a peer that it has yet to ask, or with none, and a call that
has failed leaves the pool in such a state too. The late call returns what it finds, and no error.
`Undisturbed` rules this out, and then every call that returns without an error returns an open
connection to a peer that has named itself as the leader, in a later term than the one that the
caller had read.

A call that nobody interrupts does what `Pool.setLeader` and `Pool.resetConn` do (`run_setLeader`,
`run_resetConn`).
-/

namespace Z4.Client.Sharing

variable {ι ε : Type}

/-! ## Calls -/

inductive Op where
  | setLeader (addr : GoString)
  | resetConn
deriving DecidableEq

/-- Where a call stands, with the term that it has read. -/
inductive Stage (ε : Type) where
  | idle
  /-- At `p.mu.Lock`. -/
  | entered (op : Op) (term : ℕ)
  /-- At the `grpc.Dial` of `seed`; `detectLeader` has the addresses `rest` still to try. -/
  | dialling (op : Op) (term : ℕ) (addr : GoString) (rest : List GoString)
  /-- At its `GetClusterInfo`. -/
  | asking (op : Op) (term : ℕ) (addr : GoString) (rest : List GoString)
  /-- Between two calls of `detectLeader`. -/
  | backingOff (term : ℕ)
  /-- The term has changed, and the lock was given back. -/
  | late (term : ℕ)
  | returned (term : ℕ) (conn : Option Conn) (err : Option (Failure ε))
deriving DecidableEq

structure State (ι ε : Type) where
  pool : Pool
  mu : Option ι := none
  calls : ι → Stage ε := fun _ ↦ .idle
  /-- The connections to peers that named themselves as the leader, each with the term that began
  with it. -/
  confirmed : List (ℕ × ℕ)
  /-- Whether the last call that gave the lock back has found the leader. -/
  found : Bool := true

/-- A pool that `newConnectionPool` has connected. -/
def State.init (p : Pool) (c : Conn) : State ι ε := { pool := p, confirmed := [(p.term, c.id)] }

variable [DecidableEq ι]

def State.set (s : State ι ε) (i : ι) (x : Stage ε) : State ι ε :=
  { s with calls := Function.update s.calls i x }

/-- The loop of `detectLeader`, with the addresses that are left. -/
def tryNext (term : ℕ) : List GoString → Stage ε
  | addr :: rest => .dialling .resetConn term addr rest
  | [] => .backingOff term

/-- `seed` returns an error. `SetLeader` returns it, `detectLeader` goes on. -/
def State.fail (s : State ι ε) (i : ι) (term : ℕ) (e : Failure ε) (rest : List GoString) :
    Op → State ι ε
  | .setLeader _ =>
    { s.set i (.returned term s.pool.conn (some e)) with mu := none, found := false }
  | .resetConn => s.set i (tryNext term rest)

/-- `seed` returns without an error. -/
def State.succeed (s : State ι ε) (i : ι) (term : ℕ) : State ι ε :=
  { s.set i (.returned term s.pool.conn none) with
    pool := { s.pool with term := s.pool.term + 1 }
    mu := none
    confirmed := (s.pool.conn.map fun c ↦ (s.pool.term + 1, c.id)).toList ++ s.confirmed
    found := true }

inductive Event (ι ε : Type) where
  /-- `term := p.term`. -/
  | enter (i : ι) (op : Op)
  /-- The lock is taken, and given back if the term has changed. -/
  | lock (i : ι)
  | dial (i : ι) (err : Option ε)
  | reply (i : ι) (info : Except ε ClusterInfo)
  /-- `backoff.Retry` tries again, or returns with an error. -/
  | retry (i : ι) (stop : Option (Failure ε))
  /-- A late call reads `p.conn`. -/
  | read (i : ι)

def step (s : State ι ε) : Event ι ε → Option (State ι ε)
  | .enter i op =>
    match s.calls i with
    | .idle => some (s.set i (.entered op s.pool.term))
    | _ => none
  | .lock i =>
    match s.calls i, s.mu with
    | .entered op term, none =>
      if term ≠ s.pool.term then some (s.set i (.late term))
      else match op with
        | .setLeader addr => some { s.set i (.dialling op term addr []) with mu := some i }
        | .resetConn => some { s.set i (tryNext term s.pool.peerAddresses) with mu := some i }
    | _, _ => none
  | .dial i err =>
    match s.calls i, err with
    | .dialling op term _ rest, some e => some (s.fail i term (.grpc e) rest op)
    | .dialling op term addr rest, none =>
      some { s.set i (.asking op term addr rest) with pool := s.pool.adopt addr }
    | _, _ => none
  | .reply i info =>
    match s.calls i, info with
    | .asking op term _ rest, .error e => some (s.fail i term (.grpc e) rest op)
    | .asking op term _ rest, .ok info =>
      if info.leaderId = [] then
        some (State.fail { s with pool := s.pool.drop } i term .noLeader rest op)
      else if info.serverId = info.leaderId then
        some (State.succeed
          { s with pool := { s.pool with peerAddresses := info.addresses } } i term)
      else some { s.set i (.dialling op term info.leaderAddr rest) with pool := s.pool.drop }
    | _, _ => none
  | .retry i stop =>
    match s.calls i, stop with
    | .backingOff term, none => some (s.set i (tryNext term s.pool.peerAddresses))
    | .backingOff term, some e =>
      some { s.set i (.returned term none (some e)) with mu := none, found := false }
    | _, _ => none
  | .read i =>
    match s.calls i with
    | .late term => some (s.set i (.returned term s.pool.conn none))
    | _ => none

/-- A late call reads `p.conn` while no call is under way and the last one has found the leader. -/
def Undisturbed (s : State ι ε) : Event ι ε → Prop
  | .read _ => s.mu = none ∧ s.found = true
  | _ => True

instance (s : State ι ε) : (e : Event ι ε) → Decidable (Undisturbed s e)
  | .read _ => inferInstanceAs (Decidable (_ ∧ _))
  | .enter _ _ | .lock _ | .dial _ _ | .reply _ _ | .retry _ _ => .isTrue trivial

/-- The ways of a step. -/
inductive Moves (s : State ι ε) : Event ι ε → State ι ε → Prop where
  | enter {i : ι} {op : Op} : Moves s (.enter i op) (s.set i (.entered op s.pool.term))
  | late {i : ι} {op : Op} {term : ℕ} (hx : s.calls i = .entered op term)
      (hne : term ≠ s.pool.term) : Moves s (.lock i) (s.set i (.late term))
  | setLeader {i : ι} {addr : GoString} (hmu : s.mu = none) :
      Moves s (.lock i)
        { s.set i (.dialling (.setLeader addr) s.pool.term addr []) with mu := some i }
  | resetConn {i : ι} (hmu : s.mu = none) :
      Moves s (.lock i)
        { s.set i (tryNext s.pool.term s.pool.peerAddresses) with mu := some i }
  | dialError {i : ι} {op : Op} {term : ℕ} {addr : GoString} {rest : List GoString} {e : ε}
      (hx : s.calls i = .dialling op term addr rest) :
      Moves s (.dial i (some e)) (s.fail i term (.grpc e) rest op)
  | dialled {i : ι} {op : Op} {term : ℕ} {addr : GoString} {rest : List GoString}
      (hx : s.calls i = .dialling op term addr rest) :
      Moves s (.dial i none) { s.set i (.asking op term addr rest) with pool := s.pool.adopt addr }
  | infoError {i : ι} {op : Op} {term : ℕ} {addr : GoString} {rest : List GoString} {e : ε}
      (hx : s.calls i = .asking op term addr rest) :
      Moves s (.reply i (.error e)) (s.fail i term (.grpc e) rest op)
  | noLeader {i : ι} {op : Op} {term : ℕ} {addr : GoString} {rest : List GoString}
      {info : ClusterInfo} (hx : s.calls i = .asking op term addr rest) :
      Moves s (.reply i (.ok info))
        (State.fail { s with pool := s.pool.drop } i term .noLeader rest op)
  | leads {i : ι} {op : Op} {term : ℕ} {addr : GoString} {rest : List GoString}
      {info : ClusterInfo} (hx : s.calls i = .asking op term addr rest)
      (hleads : (Reply.info info : Reply ε).Leads) :
      Moves s (.reply i (.ok info)) (State.succeed
        { s with pool := { s.pool with peerAddresses := info.addresses } } i term)
  | redirect {i : ι} {op : Op} {term : ℕ} {addr : GoString} {rest : List GoString}
      {info : ClusterInfo} (hx : s.calls i = .asking op term addr rest) :
      Moves s (.reply i (.ok info))
        { s.set i (.dialling op term info.leaderAddr rest) with pool := s.pool.drop }
  | again {i : ι} {term : ℕ} (hx : s.calls i = .backingOff term) :
      Moves s (.retry i none) (s.set i (tryNext term s.pool.peerAddresses))
  | stop {i : ι} {term : ℕ} {e : Failure ε} (hx : s.calls i = .backingOff term) :
      Moves s (.retry i (some e))
        { s.set i (.returned term none (some e)) with mu := none, found := false }
  | read {i : ι} {term : ℕ} (hx : s.calls i = .late term) :
      Moves s (.read i) (s.set i (.returned term s.pool.conn none))

theorem moves_of_step {s s' : State ι ε} {e : Event ι ε} (h : step s e = some s') :
    Moves s e s' := by
  cases e with
  | enter i op =>
    simp only [step] at h
    split at h
    · exact Option.some.inj h ▸ .enter
    · simp at h
  | lock i =>
    simp only [step] at h
    split at h
    · rename_i op term hx hmu
      split at h
      · rename_i hne
        exact Option.some.inj h ▸ .late hx hne
      · rename_i heq
        obtain rfl := not_not.mp heq
        cases op with
        | setLeader addr => exact Option.some.inj h ▸ .setLeader hmu
        | resetConn => exact Option.some.inj h ▸ .resetConn hmu
    · simp at h
  | dial i err =>
    simp only [step] at h
    split at h
    · rename_i hx
      exact Option.some.inj h ▸ .dialError hx
    · rename_i hx
      exact Option.some.inj h ▸ .dialled hx
    · simp at h
  | reply i info =>
    simp only [step] at h
    split at h
    · rename_i hx
      exact Option.some.inj h ▸ .infoError hx
    · rename_i hx
      split at h
      · exact Option.some.inj h ▸ .noLeader hx
      · rename_i hsome
        split at h
        · rename_i hself
          exact Option.some.inj h ▸ .leads hx ⟨hsome, hself⟩
        · exact Option.some.inj h ▸ .redirect hx
    · simp at h
  | retry i stop =>
    simp only [step] at h
    split at h
    · rename_i hx
      exact Option.some.inj h ▸ .again hx
    · rename_i hx
      exact Option.some.inj h ▸ .stop hx
    · simp at h
  | read i =>
    simp only [step] at h
    split at h
    · rename_i hx
      exact Option.some.inj h ▸ .read hx
    · simp at h

/-! ## The invariant -/

/-- What is known about a call. -/
def Stage.Fits (p : Pool) (mu : Option ι) (i : ι) : Stage ε → Prop
  | .idle => True
  | .entered _ term => term ≤ p.term
  | .dialling _ term _ _ => mu = some i ∧ term = p.term
  | .asking _ term _ _ => mu = some i ∧ term = p.term ∧ p.conn ≠ none
  | .backingOff term => mu = some i ∧ term = p.term
  | .late term => term < p.term
  | .returned _ _ _ => True

/-- The pool has a connection to a peer that named itself as the leader of its term. -/
def State.Connected (s : State ι ε) : Prop :=
  ∃ c, s.pool.conn = some c ∧ (s.pool.term, c.id) ∈ s.confirmed

structure Inv (s : State ι ε) : Prop where
  calls : ∀ i, (s.calls i).Fits s.pool s.mu i
  connected : s.mu = none → s.found = true → s.Connected

omit [DecidableEq ι] in
theorem inv_init {p : Pool} {c : Conn} (hc : p.conn = some c) :
    Inv (State.init p c : State ι ε) where
  calls _ := trivial
  connected _ _ := ⟨c, hc, List.mem_singleton.mpr rfl⟩

section

variable {s s' : State ι ε} {i j : ι} {x : Stage ε} {p : Pool} {mu : Option ι}

omit [DecidableEq ι] in
/-- A call that does not have the lock is not concerned by what the one that has it does. -/
theorem Stage.Fits.other (h : x.Fits s.pool s.mu j) (hj : s.mu ≠ some j)
    (hle : s.pool.term ≤ p.term) : x.Fits p mu j := by
  cases x with
  | idle => trivial
  | returned term conn err => trivial
  | entered op term => exact Nat.le_trans h hle
  | late term => exact Nat.lt_of_lt_of_le h hle
  | dialling op term addr rest => exact absurd h.1 hj
  | asking op term addr rest => exact absurd h.1 hj
  | backingOff term => exact absurd h.1 hj

theorem Inv.set (h : Inv s) (hcalls : s'.calls = Function.update s.calls i x)
    (hx : x.Fits s'.pool s'.mu i) (hle : s.pool.term ≤ s'.pool.term)
    (hlock : s.mu = none ∨ s.mu = some i ∨ s'.pool = s.pool ∧ s'.mu = s.mu)
    (hconnected : s'.mu = none → s'.found = true → s'.Connected) : Inv s' := by
  refine ⟨fun j ↦ ?_, hconnected⟩
  rw [hcalls]
  by_cases hj : j = i
  · subst hj
    rw [Function.update_self]
    exact hx
  · rw [Function.update_of_ne hj]
    rcases hlock with hmu | hmu | ⟨hpool, hmu⟩
    · exact (h.calls j).other (by simp [hmu]) hle
    · exact (h.calls j).other (by simpa [hmu] using Ne.symm hj) hle
    · rw [hpool, hmu]
      exact h.calls j

theorem Inv.quiet (h : Inv s) (hx : x.Fits s.pool s.mu i) : Inv (s.set i x) :=
  h.set rfl hx le_rfl (.inr (.inr ⟨rfl, rfl⟩)) h.connected

omit [DecidableEq ι] in
theorem fits_tryNext {term : ℕ} (hmu : mu = some i) (hterm : term = p.term)
    (rest : List GoString) : (tryNext term rest : Stage ε).Fits p mu i := by
  cases rest with
  | nil => exact ⟨hmu, hterm⟩
  | cons addr rest => exact ⟨hmu, hterm⟩

omit [DecidableEq ι] in
theorem Inv.fits (h : Inv s) (hx : s.calls i = x) : x.Fits s.pool s.mu i := hx ▸ h.calls i

theorem Inv.take (h : Inv s) (hmu : s.mu = none) (hx : x.Fits s.pool (some i) i) :
    Inv { s.set i x with mu := some i } :=
  h.set rfl hx le_rfl (.inl hmu) fun hnone ↦ absurd hnone (by simp)

theorem Inv.hold (h : Inv s) (hmu : s.mu = some i) (hterm : p.term = s.pool.term)
    (hx : x.Fits p s.mu i) : Inv { s.set i x with pool := p } :=
  h.set rfl hx hterm.ge (.inr (.inl hmu)) fun hnone ↦ absurd (hmu.symm.trans hnone) (by simp)

theorem Inv.giveUp (h : Inv s) (hmu : s.mu = some i) (hterm : p.term = s.pool.term)
    (term : ℕ) (conn : Option Conn) (e : Failure ε) :
    Inv { s.set i (.returned term conn (some e)) with pool := p, mu := none, found := false } :=
  h.set rfl trivial hterm.ge (.inr (.inl hmu)) fun _ hfound ↦ absurd hfound (by simp)

theorem Inv.fail (h : Inv s) (hmu : s.mu = some i) (hterm : p.term = s.pool.term)
    (e : Failure ε) (rest : List GoString) (op : Op) :
    Inv (State.fail { s with pool := p } i s.pool.term e rest op) := by
  cases op with
  | setLeader addr => exact h.giveUp hmu hterm _ _ e
  | resetConn => exact h.hold hmu hterm (fits_tryNext hmu hterm.symm rest)

theorem Inv.succeed (h : Inv s) (hmu : s.mu = some i) (hterm : p.term = s.pool.term)
    (hconn : p.conn ≠ none) (term : ℕ) : Inv (State.succeed { s with pool := p } i term) := by
  obtain ⟨c, hc⟩ := Option.ne_none_iff_exists'.mp hconn
  refine h.set rfl trivial (hterm.ge.trans (Nat.le_succ _)) (.inr (.inl hmu)) fun _ _ ↦ ⟨c, hc, ?_⟩
  simp [State.succeed, hc]

theorem Inv.step {e : Event ι ε} (h : Inv s) (hs : step s e = some s') : Inv s' := by
  cases moves_of_step hs with
  | enter => exact h.quiet (Nat.le_refl _)
  | late hx hne => exact h.quiet (Nat.lt_of_le_of_ne (h.fits hx) hne)
  | setLeader hmu => exact h.take hmu ⟨rfl, rfl⟩
  | resetConn hmu => exact h.take hmu (fits_tryNext rfl rfl _)
  | dialError hx =>
    obtain ⟨hmu, rfl⟩ := h.fits hx
    exact h.fail (p := s.pool) hmu rfl _ _ _
  | dialled hx =>
    obtain ⟨hmu, rfl⟩ := h.fits hx
    exact h.hold hmu rfl ⟨hmu, rfl, by simp⟩
  | infoError hx =>
    obtain ⟨hmu, rfl, -⟩ := h.fits hx
    exact h.fail (p := s.pool) hmu rfl _ _ _
  | noLeader hx =>
    obtain ⟨hmu, rfl, -⟩ := h.fits hx
    exact h.fail (p := s.pool.drop) hmu rfl _ _ _
  | @leads i op term addr rest info hx hleads =>
    obtain ⟨hmu, rfl, hconn⟩ := h.fits hx
    exact h.succeed (p := { s.pool with peerAddresses := info.addresses }) hmu rfl hconn _
  | redirect hx =>
    obtain ⟨hmu, rfl, -⟩ := h.fits hx
    exact h.hold hmu rfl ⟨hmu, rfl⟩
  | again hx =>
    obtain ⟨hmu, rfl⟩ := h.fits hx
    exact h.quiet (fits_tryNext hmu rfl _)
  | stop hx =>
    obtain ⟨hmu, rfl⟩ := h.fits hx
    exact h.giveUp (p := s.pool) hmu rfl _ _ _
  | read hx => exact h.quiet trivial

end

/-! ## Terms -/

/-- Each term began with one connection, and none is later than that of the pool. -/
structure Terms (s : State ι ε) : Prop where
  le : ∀ x ∈ s.confirmed, x.1 ≤ s.pool.term
  unique : ∀ t m n, (t, m) ∈ s.confirmed → (t, n) ∈ s.confirmed → m = n

section

variable {s s' : State ι ε} {i : ι}

omit [DecidableEq ι] in
theorem terms_init (p : Pool) (c : Conn) : Terms (State.init p c : State ι ε) where
  le := by simp [State.init]
  unique := by simp +contextual [State.init]

omit [DecidableEq ι] in
theorem Terms.withPool (h : Terms s) {p : Pool} (hp : p.term = s.pool.term) :
    Terms { s with pool := p } := ⟨fun x hx ↦ (h.le x hx).trans hp.ge, h.unique⟩

theorem Terms.fail (h : Terms s) (term : ℕ) (e : Failure ε) (rest : List GoString) (op : Op) :
    Terms (s.fail i term e rest op) := by
  cases op with
  | setLeader addr => exact ⟨h.le, h.unique⟩
  | resetConn => exact ⟨h.le, h.unique⟩

theorem Terms.succeed (h : Terms s) (term : ℕ) : Terms (s.succeed i term) := by
  cases hc : s.pool.conn with
  | none =>
    have hsame : (s.succeed i term).confirmed = s.confirmed := by simp [State.succeed, hc]
    refine ⟨fun x hx ↦ ?_, fun t m n hm hn ↦ ?_⟩
    · exact (h.le x (hsame ▸ hx)).trans (Nat.le_succ _)
    · exact h.unique t m n (hsame ▸ hm) (hsame ▸ hn)
  | some c =>
    have hcons : (s.succeed i term).confirmed = (s.pool.term + 1, c.id) :: s.confirmed := by
      simp [State.succeed, hc]
    -- the new term is past those of the connections before
    have hnew : ∀ n, (s.pool.term + 1, n) ∉ s.confirmed := fun n hn ↦
      absurd (h.le _ hn) (Nat.not_succ_le_self _)
    refine ⟨fun x hx ↦ ?_, fun t m n hm hn ↦ ?_⟩
    · rw [hcons, List.mem_cons] at hx
      rcases hx with rfl | hx
      · exact le_rfl
      · exact (h.le x hx).trans (Nat.le_succ _)
    · rw [hcons, List.mem_cons, Prod.mk.injEq] at hm hn
      rcases hm with ⟨rfl, rfl⟩ | hm
      · rcases hn with ⟨-, rfl⟩ | hn
        · rfl
        · exact absurd hn (hnew n)
      · rcases hn with ⟨rfl, rfl⟩ | hn
        · exact absurd hm (hnew m)
        · exact h.unique t m n hm hn

theorem Terms.step {e : Event ι ε} (h : Terms s) (hs : step s e = some s') : Terms s' := by
  cases moves_of_step hs with
  | dialError hx => exact h.fail _ _ _ _
  | infoError hx => exact h.fail _ _ _ _
  | noLeader hx => exact (h.withPool (p := s.pool.drop) rfl).fail _ _ _ _
  | @leads i op term addr rest info hx hleads =>
    exact (h.withPool (p := { s.pool with peerAddresses := info.addresses }) rfl).succeed _
  | _ => exact ⟨h.le, h.unique⟩

end

/-! ## What a call returns -/

/-- The connection that a call returns is the pool's, it is open, and its peer has named itself as
the leader in a term after the one that the call had read. It is the only one of that term. -/
def Returns (s : State ι ε) (term : ℕ) (conn : Option Conn) : Prop :=
  ∃ c, conn = some c ∧ s.pool.conn = some c ∧ s.pool.IsOpen c ∧ term < s.pool.term ∧
    ∀ n, (s.pool.term, n) ∈ s.confirmed ↔ n = c.id

section

variable {s s' : State ι ε} {i j : ι} {x : Stage ε} {term : ℕ} {conn : Option Conn}

theorem eq_of_set (h : (s.set j x).calls i = .returned term conn none)
    (hbefore : s.calls i ≠ .returned term conn none) : x = .returned term conn none := by
  have hcalls : Function.update s.calls j x i = .returned term conn none := h
  by_cases hij : i = j
  · subst hij
    rwa [Function.update_self] at hcalls
  · rw [Function.update_of_ne hij] at hcalls
    exact absurd hcalls hbefore

theorem not_set_tryNext {term' : ℕ} {rest : List GoString}
    (h : (s.set j (tryNext term' rest)).calls i = .returned term conn none)
    (hbefore : s.calls i ≠ .returned term conn none) : False := by
  have hx := eq_of_set h hbefore
  cases rest <;> simp [tryNext] at hx

theorem not_fail {e : Failure ε} {rest : List GoString} {op : Op} {term' : ℕ}
    (h : (s.fail j term' e rest op).calls i = .returned term conn none)
    (hbefore : s.calls i ≠ .returned term conn none) : False := by
  cases op with
  | setLeader addr => simpa using eq_of_set h hbefore
  | resetConn => exact not_set_tryNext h hbefore

/-- A call that returns without an error has found the leader, or is late. -/
theorem Inv.returns {e : Event ι ε} (h : Inv s) (hok : Undisturbed s e)
    (hs : Sharing.step s e = some s') (hbefore : s.calls i ≠ .returned term conn none)
    (hafter : s'.calls i = .returned term conn none) :
    s'.Connected ∧ conn = s'.pool.conn ∧ term < s'.pool.term := by
  cases moves_of_step hs with
  | dialError hx => exact (not_fail hafter hbefore).elim
  | infoError hx => exact (not_fail hafter hbefore).elim
  | noLeader hx => exact (not_fail (s := { s with pool := s.pool.drop }) hafter hbefore).elim
  | resetConn hmu => exact (not_set_tryNext hafter hbefore).elim
  | again hx => exact (not_set_tryNext hafter hbefore).elim
  | leads hx hleads =>
    obtain ⟨-, hterm, hconn⟩ := h.fits hx
    obtain ⟨c, hc⟩ := Option.ne_none_iff_exists'.mp hconn
    obtain ⟨rfl, rfl⟩ : _ ∧ _ := by simpa using eq_of_set hafter hbefore
    exact ⟨⟨c, hc, by simp [State.succeed, hc]⟩, rfl, Nat.lt_succ_of_le hterm.le⟩
  | read hx =>
    obtain ⟨rfl, rfl⟩ : _ ∧ _ := by simpa using eq_of_set hafter hbefore
    exact ⟨h.connected hok.1 hok.2, rfl, h.fits hx⟩
  | _ => simpa using eq_of_set hafter hbefore

end

/-- **Calls that return have the leader.** For any number of goroutines that share a pool, in any
order of their steps and with any replies, a call that returns without an error returns an open
connection whose peer has named itself as the leader, in a term after the one that the call had
read, and all calls that return in one term return the same one, if late calls are undisturbed. -/
theorem returns_connection_of_leader {p : Pool} {c : Conn} {es : List (Event ι ε)}
    {e : Event ι ε} {s s' : State ι ε} {i : ι} {term : ℕ} {conn : Option Conn}
    (hc : p.conn = some c) (hok : Runs.Meets step Undisturbed (.init p c) (es ++ [e]))
    (hrun : Runs.run step (.init p c) es = some s) (hs : step s e = some s')
    (hbefore : s.calls i ≠ .returned term conn none)
    (hafter : s'.calls i = .returned term conn none) : Returns s' term conn := by
  have hinv : Inv s ∧ Terms s := Runs.invariant (P := fun s ↦ Inv s ∧ Terms s)
    (fun _ _ _ h hs ↦ ⟨h.1.step hs, h.2.step hs⟩) ⟨inv_init hc, terms_init p c⟩ hrun
  have hlast := ((Runs.meets_append hrun).mp hok).2.head
  obtain ⟨⟨c', hc', hconfirmed⟩, rfl, hlt⟩ := hinv.1.returns hlast hs hbefore hafter
  have hterms := hinv.2.step hs
  refine ⟨c', hc', hc', Connections.isOpen_of_conn hc', hlt, fun n ↦ ⟨fun hn ↦ ?_, ?_⟩⟩
  · exact hterms.unique _ n c'.id hn hconfirmed
  · rintro rfl
    exact hconfirmed

/-! ## A call that is not interrupted -/

section

variable {s : State ι ε} {i : ι} {op : Op} {term fuel : ℕ} {addr : GoString}
  {rest addrs : List GoString} {view : View ε} {stop : Failure ε}

/-- The state once `seed` has returned. -/
def State.after (s : State ι ε) (i : ι) (op : Op) (term : ℕ) (rest : List GoString) :
    Pool × Option (Failure ε) → State ι ε
  | (q, none) => State.succeed { s with pool := q } i term
  | (q, some e) => State.fail { s with pool := q } i term e rest op

theorem after_set (x : Stage ε) (p : Pool) (r : Pool × Option (Failure ε)) :
    State.after { s.set i x with pool := p } i op term rest r = s.after i op term rest r := by
  obtain ⟨q, _ | e⟩ := r
  · simp [State.after, State.succeed, State.set]
  · cases op <;> simp [State.after, State.fail, State.set]

theorem exists_asking (hx : s.calls i = .dialling op term addr rest) :
    ∃ s₁, step s (.dial i none) = some s₁ ∧ s₁.calls i = .asking op term addr rest ∧
      s₁.pool = s.pool.adopt addr ∧
      ∀ r, s₁.after i op term rest r = s.after i op term rest r := by
  refine ⟨{ s.set i (.asking op term addr rest) with pool := s.pool.adopt addr }, ?_,
    Function.update_self .., rfl, after_set _ _⟩
  simp only [step, hx]

/-- **The steps of a call with the peers are those of `seed`**, if the peers reply as `view` has
it. -/
theorem run_seed {r : Pool × Option (Failure ε)} (h : Pool.seed view fuel s.pool addr = some r)
    (hx : s.calls i = .dialling op term addr rest) :
    ∃ es, Runs.run step s es = some (s.after i op term rest r) := by
  induction fuel generalizing s addr with
  | zero => cases h
  | succ fuel ih =>
    obtain ⟨s₁, hs₁, hask, hpool, hafter⟩ := exists_asking hx
    rw [Pool.seed] at h
    cases hview : view addr with
    | dialError e =>
      simp only [hview, Option.some.injEq] at h
      subst h
      refine ⟨[.dial i (some e)], ?_⟩
      simp only [Runs.run_cons, step, hx]
      rfl
    | infoError e =>
      simp only [hview, Option.some.injEq] at h
      subst h
      refine ⟨[.dial i none, .reply i (.error e)], ?_⟩
      rw [Runs.run_cons, hs₁, Option.bind_some, Runs.run_cons, ← hafter, ← hpool]
      simp only [step, hask]
      rfl
    | info info =>
      simp only [hview] at h
      split_ifs at h with hno hself
      · obtain rfl := Option.some.inj h
        refine ⟨[.dial i none, .reply i (.ok info)], ?_⟩
        rw [Runs.run_cons, hs₁, Option.bind_some, Runs.run_cons, ← hafter, ← hpool]
        simp only [step, hask, if_pos hno]
        rfl
      · obtain rfl := Option.some.inj h
        refine ⟨[.dial i none, .reply i (.ok info)], ?_⟩
        rw [Runs.run_cons, hs₁, Option.bind_some, Runs.run_cons, ← hafter, ← hpool]
        simp only [step, hask, if_neg hno, if_pos hself]
        rfl
      · -- the call goes on with the peer that was named
        rw [← hpool] at h
        obtain ⟨es, hes⟩ := ih (s := { s₁.set i (.dialling op term info.leaderAddr rest) with
          pool := s₁.pool.drop }) h (Function.update_self ..)
        refine ⟨.dial i none :: .reply i (.ok info) :: es, ?_⟩
        rw [Runs.run_cons, hs₁, Option.bind_some, Runs.run_cons, ← hafter]
        simp only [step, hask, if_neg hno, if_neg hself, Option.bind_some]
        rw [hes, after_set]

/-- The state once `detectLeader` has returned. -/
def State.detected (s : State ι ε) (i : ι) (term : ℕ) : Pool × Option (Failure ε) → State ι ε
  | (q, none) => State.succeed { s with pool := q } i term
  | (q, some _) => State.set { s with pool := q } i (.backingOff term)

theorem detected_set (x : Stage ε) (p : Pool) (r : Pool × Option (Failure ε)) :
    State.detected { s.set i x with pool := p } i term r = s.detected i term r := by
  obtain ⟨q, _ | e⟩ := r
  · simp [State.detected, State.succeed, State.set]
  · simp [State.detected, State.set]

theorem run_detectLeader {r : Pool × Option (Failure ε)}
    (h : Pool.detectLeader view fuel s.pool addrs = some r)
    (hx : s.calls i = tryNext term addrs) :
    ∃ es, Runs.run step s es = some (s.detected i term r) := by
  induction addrs generalizing s with
  | nil =>
    obtain rfl := Option.some.inj h
    refine ⟨[], ?_⟩
    have hself : s.set i (.backingOff term) = s := by
      rw [State.set, ← show s.calls i = .backingOff term from hx, Function.update_eq_self]
    exact congrArg some hself.symm
  | cons addr addrs ih =>
    rw [Pool.detectLeader, Option.bind_eq_some_iff] at h
    obtain ⟨⟨q, _ | e⟩, hseed, hrest⟩ := h
    · obtain rfl := Option.some.inj hrest
      exact run_seed hseed hx
    · obtain ⟨es, hes⟩ := run_seed hseed hx
      obtain ⟨es', hes'⟩ := ih (s := State.set { s with pool := q } i (tryNext term addrs)) hrest
        (Function.update_self ..)
      refine ⟨es ++ es', ?_⟩
      rw [Runs.run_append, hes]
      exact hes'.trans (congrArg some (detected_set (s := s) _ q r))

/-- The state once `backoff.Retry` has returned. -/
def State.retried (s : State ι ε) (i : ι) (term : ℕ) : Pool × Option (Failure ε) → State ι ε
  | (q, none) => State.succeed { s with pool := q } i term
  | (q, some e) => { State.set { s with pool := q } i (.returned term none (some e)) with
      mu := none, found := false }

theorem retried_set (x : Stage ε) (p : Pool) (r : Pool × Option (Failure ε)) :
    State.retried { s.set i x with pool := p } i term r = s.retried i term r := by
  obtain ⟨q, _ | e⟩ := r
  · simp [State.retried, State.succeed, State.set]
  · simp [State.retried, State.set]

theorem run_retry {views : List (View ε)} {r : Pool × Option (Failure ε)}
    (h : Pool.retry fuel stop s.pool (view :: views) = some r)
    (hx : s.calls i = tryNext term s.pool.peerAddresses) :
    ∃ es, Runs.run step s es = some (s.retried i term r) := by
  induction views generalizing s view with
  | nil =>
    rw [Pool.retry, Option.bind_eq_some_iff] at h
    obtain ⟨⟨q, _ | e⟩, hdetect, hrest⟩ := h
    · obtain rfl := Option.some.inj hrest
      exact run_detectLeader hdetect hx
    · obtain ⟨es, hes⟩ := run_detectLeader hdetect hx
      obtain rfl := Option.some.inj hrest
      refine ⟨es ++ [.retry i (some stop)], ?_⟩
      rw [Runs.run_append, hes, Option.bind_some, State.detected, Runs.run_cons]
      simp [step, State.set, State.retried]
  | cons view' views ih =>
    rw [Pool.retry, Option.bind_eq_some_iff] at h
    obtain ⟨⟨q, _ | e⟩, hdetect, hrest⟩ := h
    · obtain rfl := Option.some.inj hrest
      exact run_detectLeader hdetect hx
    · obtain ⟨es, hes⟩ := run_detectLeader hdetect hx
      obtain ⟨es', hes'⟩ := ih (s := State.set { s with pool := q } i
        (tryNext term q.peerAddresses)) hrest (Function.update_self ..)
      refine ⟨es ++ .retry i none :: es', ?_⟩
      rw [Runs.run_append, hes, Option.bind_some, State.detected, Runs.run_cons]
      have hstep : step (State.set { s with pool := q } i (.backingOff term)) (.retry i none) =
          some (State.set { s with pool := q } i (tryNext term q.peerAddresses)) := by
        simp [step, State.set]
      rw [hstep, Option.bind_some, hes']
      exact congrArg some (retried_set (s := s) _ q r)

theorem run_late (hmu : s.mu = none) (hx : s.calls i = .entered op term)
    (hterm : term ≠ s.pool.term) : ∃ es t, Runs.run step s es = some t ∧ t.pool = s.pool ∧
      t.calls i = .returned term s.pool.conn none := by
  refine ⟨[.lock i, .read i], (s.set i (.late term)).set i (.returned term s.pool.conn none), ?_,
    rfl, Function.update_self ..⟩
  simp [step, hx, hmu, hterm, State.set]

/-- The stage of a call that has taken the lock. -/
def Op.first (p : Pool) : Op → Stage ε
  | .setLeader addr => .dialling (.setLeader addr) p.term addr []
  | .resetConn => tryNext p.term p.peerAddresses

theorem exists_locked (hmu : s.mu = none) (hx : s.calls i = .entered op s.pool.term) :
    ∃ s₁, step s (.lock i) = some s₁ ∧ s₁.pool = s.pool ∧ s₁.calls i = op.first s.pool := by
  refine ⟨{ s.set i (op.first s.pool) with mu := some i }, ?_, rfl, Function.update_self ..⟩
  cases op <;> simp [step, hx, hmu, Op.first]

/-- A call that has read the term can do what `Pool.setLeader` does, with the same pool and the same
return values. -/
theorem run_setLeader {q : Pool} {conn : Option Conn} {err : Option (Failure ε)}
    (h : Pool.setLeader view fuel term s.pool addr = some (q, conn, err)) (hmu : s.mu = none)
    (hx : s.calls i = .entered (.setLeader addr) term) :
    ∃ es t, Runs.run step s es = some t ∧ t.pool = q ∧ t.calls i = .returned term conn err := by
  rw [Pool.setLeader] at h
  split_ifs at h with hterm
  · obtain ⟨rfl, rfl, rfl⟩ : s.pool = q ∧ s.pool.conn = conn ∧ none = err := by simpa using h
    exact run_late hmu hx hterm
  · obtain rfl := not_not.mp hterm
    obtain ⟨r, hseed, hr⟩ := Option.map_eq_some_iff.mp h
    obtain ⟨s₁, hs₁, hpool, hcalls⟩ := exists_locked hmu hx
    obtain ⟨es, hes⟩ := run_seed (hpool ▸ hseed) hcalls
    refine ⟨.lock i :: es, _, Runs.run_cons_eq_some.mpr ⟨s₁, hs₁, hes⟩, ?_⟩
    obtain ⟨q', _ | e⟩ := r
    · obtain ⟨rfl, rfl, rfl⟩ : _ ∧ _ ∧ _ := by simpa using hr
      exact ⟨rfl, Function.update_self ..⟩
    · obtain ⟨rfl, rfl, rfl⟩ : _ ∧ _ ∧ _ := by simpa using hr
      exact ⟨rfl, Function.update_self ..⟩

/-- And so for `Pool.resetConn`, where there is at least one attempt. -/
theorem run_resetConn {views : List (View ε)} {q : Pool} {conn : Option Conn}
    {err : Option (Failure ε)}
    (h : Pool.resetConn (view :: views) stop fuel term s.pool = some (q, conn, err))
    (hmu : s.mu = none) (hx : s.calls i = .entered .resetConn term) :
    ∃ es t, Runs.run step s es = some t ∧ t.pool = q ∧ t.calls i = .returned term conn err := by
  rw [Pool.resetConn] at h
  split_ifs at h with hterm
  · obtain ⟨rfl, rfl, rfl⟩ : s.pool = q ∧ s.pool.conn = conn ∧ none = err := by simpa using h
    exact run_late hmu hx hterm
  · obtain rfl := not_not.mp hterm
    obtain ⟨r, hretry, hr⟩ := Option.map_eq_some_iff.mp h
    obtain ⟨s₁, hs₁, hpool, hcalls⟩ := exists_locked hmu hx
    have hfirst : s₁.calls i = tryNext s.pool.term s₁.pool.peerAddresses := by
      rw [hcalls, hpool]
      rfl
    obtain ⟨es, hes⟩ := run_retry (hpool ▸ hretry) hfirst
    refine ⟨.lock i :: es, _, Runs.run_cons_eq_some.mpr ⟨s₁, hs₁, hes⟩, ?_⟩
    obtain ⟨q', _ | e⟩ := r
    · obtain ⟨rfl, rfl, rfl⟩ : _ ∧ _ ∧ _ := by simpa using hr
      exact ⟨rfl, Function.update_self ..⟩
    · obtain ⟨rfl, rfl, rfl⟩ : _ ∧ _ ∧ _ := by simpa using hr
      exact ⟨rfl, Function.update_self ..⟩

end

/-- The reply of a peer that leads. -/
def leading : ClusterInfo := ⟨lit "a", lit "a", [⟨lit "a", lit "h", 6355⟩]⟩

/-- Two goroutines lose the leader. The second has read the term and waits while the first finds the
leader again. -/
def bothReset : List (Event ℕ Unit) :=
  [.enter 0 .resetConn, .enter 1 .resetConn, .lock 0, .dial 0 none, .reply 0 (.ok leading), .lock 1]

theorem returns_connection_of_leader_bothReset : ∃ s s' : State ℕ Unit,
    Runs.run step (.init (Pool.connectedTo (lit "h:6355")) ⟨0, lit "h:6355"⟩) bothReset = some s ∧
      step s (.read 1) = some s' ∧ Returns s' 0 (some ⟨1, lit "h:6355"⟩) := by
  have heval : ((Runs.run step (.init (Pool.connectedTo (lit "h:6355")) ⟨0, lit "h:6355"⟩)
      bothReset : Option (State ℕ Unit)).bind fun s ↦ (step s (.read 1)).map fun s' ↦
        decide (s.mu = none ∧ s.found = true ∧ s.calls 1 = .late 0 ∧
          s'.calls 1 = .returned 0 (some ⟨1, lit "h:6355"⟩) none)) = some true := by
    decide +kernel
  obtain ⟨s, hrun, heval⟩ := Option.bind_eq_some_iff.mp heval
  obtain ⟨s', hs, heval⟩ := Option.map_eq_some_iff.mp heval
  obtain ⟨hmu, hfound, hbefore, hafter⟩ := of_decide_eq_true heval
  have hok : Runs.Meets step Undisturbed
      (.init (Pool.connectedTo (lit "h:6355")) ⟨0, lit "h:6355"⟩ : State ℕ Unit)
      (bothReset ++ [.read 1]) := by
    refine (Runs.meets_append hrun).mpr ⟨?_, ⟨hmu, hfound⟩, by rw [hs]; trivial⟩
    decide +kernel
  exact ⟨s, s', hrun, hs, returns_connection_of_leader rfl hok hrun hs (by simp [hbefore]) hafter⟩

/-- A third call finds a peer that knows no leader, before the late call reads `p.conn`: the late
call returns neither a connection nor an error. -/
example : (Runs.run step (.init (Pool.connectedTo (lit "h:6355")) ⟨0, lit "h:6355"⟩)
    (bothReset ++ [.enter 2 (.setLeader (lit "h:6355")), .lock 2, .dial 2 none,
      .reply 2 (.ok ⟨lit "a", [], []⟩), .read 1]) : Option (State ℕ Unit)).map (·.calls 1)
    = some (.returned 0 none none) := by
  decide +kernel

end Z4.Client.Sharing
