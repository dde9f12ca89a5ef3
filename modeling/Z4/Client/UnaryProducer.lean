import Mathlib.Logic.Function.Basic
import Z4.Client.ConnectionPool
import Z4.Foundations.Runs
import Z4.Proto.Model

/-!
# The unary producer

`UnaryProducer.CreateTask` of the client holds `p.mu` from its first statement to its return, since
the unlock is deferred. Where the push reports that the server is unavailable it reconnects and
calls itself, and the inner call starts with `p.mu.Lock()`.

## The mutex

A Go mutex has no owner and is not re-entrant. A call that is at `Lock` with an unlock still to be
done waits for itself. Nobody else can release the mutex either: the calls that hold no lock are all
at their own first statement (`State.WaitsForItself.stays`). So one `Unavailable` stops the
producer, not only the call (`no_return_after_wait`).

The invariant is one equation: a call has one unlock to be done if it has the mutex, and none if not
(`State.Exclusive`). In particular no call is ever two deep, and no unlock finds the mutex unlocked.

## The leader

A push that was forwarded names the peer that handled it, and the call goes on with `SetLeader`
before it returns, with the mutex. `SetLeader` follows redirects and does not return where they run
in a circle. Then the call keeps the mutex for ever, although it was answered at once.

## The steps

Calls are numbered and share the mutex, the pool and the client. What the server and the peers
answer to the calls is a parameter, so a step is only the choice of the call that takes it, and of
the depth that the recursion of a call of the pool is given. Nothing else uses the pool, and the
calls come to it one at a time.
-/

namespace Z4.Client

open Runs StateTransition

variable {ε : Type*}

namespace UnaryProducer

/-- `codes.Unavailable`. -/
def unavailable : UInt32 := 14

/-- What is answered to one round of `CreateTask`. -/
structure Round (ε : Type*) where
  /-- `Push`: the code of the error, and the error. -/
  pushed : Except (UInt32 × ε) PushTaskResponse
  /-- What the peers reply to `SetLeader`, where it is called. -/
  view : View ε
  /-- What they reply to each attempt of `ResetConn`, where it is called. -/
  views : List (View ε)
  /-- The error with which `ResetConn` gives up after these. -/
  stop : Failure ε

/-- What `CreateTask` returns for the answer to a push that it does not try again. -/
def Round.result (r : Round ε) : Except (Failure ε) Task :=
  match r.pushed with
  | .error (_, e) => .error (.grpc e)
  | .ok res => .ok res.task

/-- Where a call is. `depth` is the number of the nested call that it is in. -/
inductive Status (ε : Type*) where
  | idle
  /-- At `p.mu.Lock()`, with the unlocks of the calls around it still to be done. -/
  | locking (depth : ℕ)
  | pushing (depth : ℕ)
  | resetting (depth : ℕ)
  | following (depth : ℕ) (res : PushTaskResponse)
  /-- At the deferred unlock. -/
  | returning (depth : ℕ) (result : Except (Failure ε) Task)
  | returned (result : Except (Failure ε) Task)
  /-- Unlock of an unlocked mutex. -/
  | fatal

/-- How many unlocks the call has deferred. -/
def Status.locks : Status ε → ℕ
  | .idle | .returned _ | .fatal => 0
  | .locking depth => depth
  | .pushing depth | .resetting depth | .following depth _ | .returning depth _ => depth + 1

structure State (ε : Type*) where
  /-- The call that has `p.mu`. -/
  mu : Option ℕ := none
  pool : Pool
  /-- The connection of `p.client`. -/
  client : Option Conn
  calls : ℕ → Status ε := fun _ ↦ .idle

/-- The call `i` gets to `x`. -/
def State.set (s : State ε) (i : ℕ) (x : Status ε) : State ε :=
  { s with calls := Function.update s.calls i x }

/-- The call that takes the next step, and the depth of recursion for `seed`. -/
structure Turn where
  call : ℕ
  fuel : ℕ := 0

/-- The next step of a call of `CreateTask`, or `none` where it has to wait, is over, or needs more
depth. -/
def step (script : ℕ → ℕ → Round ε) (s : State ε) (turn : Turn) : Option (State ε) :=
  let i := turn.call
  match s.calls i with
  | .idle => some (s.set i (.locking 0))
  | .locking depth =>
    if s.mu = none then some { s.set i (.pushing depth) with mu := some i } else none
  | .pushing depth =>
    match (script i depth).pushed with
    | .error (code, e) =>
      if code = unavailable then some (s.set i (.resetting depth))
      else some (s.set i (.returning depth (.error (.grpc e))))
    | .ok res =>
      if res.forwardedTo ≠ [] then some (s.set i (.following depth res))
      else some (s.set i (.returning depth (.ok res.task)))
  | .resetting depth =>
    (Pool.resetConn (script i depth).views (script i depth).stop turn.fuel s.pool.term
      s.pool).map fun
      | (pool, _, some e) => { s.set i (.returning depth (.error e)) with pool }
      | (pool, conn, none) => { s.set i (.locking (depth + 1)) with pool, client := conn }
  | .following depth res =>
    (Pool.setLeader (script i depth).view turn.fuel s.pool.term s.pool res.forwardedTo).map fun
      -- only printed
      | (pool, _, some _) => { s.set i (.returning depth (.ok res.task)) with pool }
      | (pool, conn, none) =>
        { s.set i (.returning depth (.ok res.task)) with pool, client := conn }
  | .returning depth result =>
    if s.mu = none then some (s.set i .fatal)
    else match depth with
      | 0 => some { s.set i (.returned result) with mu := none }
      | depth + 1 => some { s.set i (.returning depth result) with mu := none }
  | .returned _ | .fatal => none

/-! ## What a step does -/

variable {script : ℕ → ℕ → Round ε} {s t : State ε} {i j : ℕ} {turn : Turn}

/-- The ways a call can go on, with what becomes of the mutex. -/
inductive Moves (script : ℕ → ℕ → Round ε) (i : ℕ) (mu : Option ℕ) :
    Status ε → Status ε → Option ℕ → Prop
  | start : Moves script i mu .idle (.locking 0) mu
  | lock {depth} (h : mu = none) : Moves script i mu (.locking depth) (.pushing depth) (some i)
  | unavailable {depth e} (h : (script i depth).pushed = .error (UnaryProducer.unavailable, e)) :
    Moves script i mu (.pushing depth) (.resetting depth) mu
  | failed {depth code e} (h : (script i depth).pushed = .error (code, e))
      (hcode : code ≠ UnaryProducer.unavailable) :
    Moves script i mu (.pushing depth) (.returning depth (.error (.grpc e))) mu
  | forwarded {depth res} (h : (script i depth).pushed = .ok res) (hto : res.forwardedTo ≠ []) :
    Moves script i mu (.pushing depth) (.following depth res) mu
  | created {depth res} (h : (script i depth).pushed = .ok res) :
    Moves script i mu (.pushing depth) (.returning depth (.ok res.task)) mu
  | resetFailed {depth e} :
    Moves script i mu (.resetting depth) (.returning depth (.error e)) mu
  | again {depth} :
    Moves script i mu (.resetting depth) (.locking (depth + 1)) mu
  | followed {depth res} :
    Moves script i mu (.following depth res) (.returning depth (.ok res.task)) mu
  | unlockFree {depth result} (h : mu = none) :
    Moves script i mu (.returning depth result) .fatal mu
  | unlockLast {result} (h : mu ≠ none) :
    Moves script i mu (.returning 0 result) (.returned result) none
  | unlock {depth result} (h : mu ≠ none) :
    Moves script i mu (.returning (depth + 1) result) (.returning depth result) none

theorem moves_of_step (h : step script s turn = some t) :
    Moves script turn.call s.mu (s.calls turn.call) (t.calls turn.call) t.mu ∧
      ∀ j ≠ turn.call, t.calls j = s.calls j := by
  obtain ⟨i, fuel⟩ := turn
  have hself (x : Status ε) : (s.set i x).calls i = x := Function.update_self ..
  have hother (x : Status ε) : ∀ j ≠ i, (s.set i x).calls j = s.calls j :=
    fun j hj ↦ Function.update_of_ne hj ..
  dsimp only
  simp only [step] at h
  cases hstatus : s.calls i with
  | idle =>
    simp only [hstatus, Option.some.injEq] at h
    subst h
    exact ⟨hself _ ▸ .start, hother _⟩
  | locking depth =>
    simp only [hstatus, Option.ite_none_right_eq_some, Option.some.injEq] at h
    obtain ⟨hmu, rfl⟩ := h
    exact ⟨hself _ ▸ .lock hmu, hother _⟩
  | pushing depth =>
    simp only [hstatus] at h
    rcases hpushed : (script i depth).pushed with ⟨code, e⟩ | res
    · simp only [hpushed] at h
      by_cases hcode : code = unavailable
      · rw [if_pos hcode, Option.some.injEq] at h
        subst h hcode
        exact ⟨hself _ ▸ .unavailable hpushed, hother _⟩
      · rw [if_neg hcode, Option.some.injEq] at h
        subst h
        exact ⟨hself _ ▸ .failed hpushed hcode, hother _⟩
    · simp only [hpushed] at h
      by_cases hto : res.forwardedTo ≠ []
      · rw [if_pos hto, Option.some.injEq] at h
        subst h
        exact ⟨hself _ ▸ .forwarded hpushed hto, hother _⟩
      · rw [if_neg hto, Option.some.injEq] at h
        subst h
        exact ⟨hself _ ▸ .created hpushed, hother _⟩
  | resetting depth =>
    simp only [hstatus, Option.map_eq_some_iff] at h
    obtain ⟨⟨pool, conn, _ | e⟩, -, rfl⟩ := h
    · exact ⟨hself _ ▸ .again, hother _⟩
    · exact ⟨hself _ ▸ .resetFailed, hother _⟩
  | following depth res =>
    simp only [hstatus, Option.map_eq_some_iff] at h
    obtain ⟨⟨pool, conn, _ | e⟩, -, rfl⟩ := h
    · exact ⟨hself _ ▸ .followed, hother _⟩
    · exact ⟨hself _ ▸ .followed, hother _⟩
  | returning depth result =>
    simp only [hstatus] at h
    by_cases hmu : s.mu = none
    · rw [if_pos hmu, Option.some.injEq] at h
      subst h
      exact ⟨hself _ ▸ .unlockFree hmu, hother _⟩
    · rw [if_neg hmu] at h
      cases depth with
      | zero =>
        obtain rfl := Option.some.inj h
        exact ⟨hself _ ▸ .unlockLast hmu, hother _⟩
      | succ depth =>
        obtain rfl := Option.some.inj h
        exact ⟨hself _ ▸ .unlock hmu, hother _⟩
  | returned result => simp [hstatus] at h
  | fatal => simp [hstatus] at h

/-- At `Lock` a call waits while another one has the mutex, or it has it itself. -/
theorem step_locking {depth : ℕ} (hi : s.calls turn.call = .locking depth) (hmu : s.mu ≠ none) :
    step script s turn = none := by
  simp only [step, hi, if_neg hmu]

/-! ## The mutex -/

/-- Who has the mutex, in terms of the unlocks that are still to be done. -/
structure State.Exclusive (s : State ε) : Prop where
  locks : ∀ i, (s.calls i).locks = if s.mu = some i then 1 else 0
  not_fatal : ∀ i, s.calls i ≠ .fatal

variable {x y : Status ε} {mu mu' : Option ℕ}

/-- What a call that obeys the invariant does with the mutex: nothing, take it when it is free, or
give it back when it has it. -/
theorem Moves.locked (h : Moves script i mu x y mu') (hx : x.locks = if mu = some i then 1 else 0) :
    (y.locks = if mu' = some i then 1 else 0) ∧ y ≠ .fatal ∧
      (mu' = mu ∨ mu = none ∧ mu' = some i ∨ mu = some i ∧ mu' = none) := by
  cases h with
  | lock hmu =>
    subst hmu
    simp only [Status.locks, reduceCtorEq, if_false] at hx
    simp [Status.locks, hx]
  | unlockFree hmu => simp [Status.locks, hmu] at hx
  | unlockLast _ =>
    by_cases hmu : mu = some i
    · simp [Status.locks, hmu]
    · simp [Status.locks, hmu] at hx
  | unlock _ =>
    simp only [Status.locks] at hx
    split at hx <;> omega
  | _ => exact ⟨hx, nofun, .inl rfl⟩

theorem State.Exclusive.step (hs : s.Exclusive) (h : step script s turn = some t) :
    t.Exclusive := by
  obtain ⟨hmoves, hother⟩ := moves_of_step h
  obtain ⟨hlocks, hfatal, hmu⟩ := hmoves.locked (hs.locks turn.call)
  constructor
  · intro j
    by_cases hj : j = turn.call
    · exact hj ▸ hlocks
    · rw [hother j hj, hs.locks j]
      obtain hmu | ⟨hfree, htaken⟩ | ⟨htaken, hfree⟩ := hmu
      · rw [hmu]
      · simp [hfree, htaken, Ne.symm hj]
      · simp [hfree, htaken, Ne.symm hj]
  · intro j
    by_cases hj : j = turn.call
    · exact hj ▸ hfatal
    · exact hother j hj ▸ hs.not_fatal j

/-- The producer before its first call. -/
def init (pool : Pool) : State ε := { pool, client := pool.conn }

theorem exclusive_init (pool : Pool) : (init pool : State ε).Exclusive :=
  ⟨fun _ ↦ rfl, fun _ ↦ nofun⟩

theorem exclusive_of_run {pool : Pool} {schedule : List Turn}
    (h : run (step script) (init pool) schedule = some s) : s.Exclusive :=
  invariant (fun _ _ _ hs ht ↦ hs.step ht) (exclusive_init pool) h

/-! ## Waiting for oneself -/

/-- The call `i` is at `Lock`, and it has the mutex itself. -/
def State.WaitsForItself (s : State ε) (i : ℕ) : Prop :=
  (∃ depth, s.calls i = .locking depth) ∧ s.mu = some i

/-- While a call waits for itself, all that happens is that others come to wait too. -/
theorem State.WaitsForItself.stays (hs : s.Exclusive) (hwait : s.WaitsForItself i)
    (h : step script s turn = some t) :
    t.WaitsForItself i ∧ ∀ k r, t.calls k = .returned r → s.calls k = .returned r := by
  obtain ⟨⟨depth, hi⟩, hmu⟩ := hwait
  obtain ⟨hmoves, hother⟩ := moves_of_step h
  generalize hcall : turn.call = j at hmoves hother
  have hj : j ≠ i := by
    rintro rfl
    rw [step_locking (by rw [hcall, hi]) (by simp [hmu])] at h
    cases h
  have hlocks : (s.calls j).locks = 0 := by
    rw [hs.locks j, hmu, if_neg fun heq ↦ hj (Option.some.inj heq).symm]
  -- a call with no unlock to be done is at its start or at its first `Lock`
  have hmoved : t.mu = s.mu ∧ ∀ r, t.calls j ≠ .returned r := by
    rw [hmu] at hmoves ⊢
    generalize s.calls j = x at hmoves hlocks
    generalize t.calls j = y at hmoves
    generalize t.mu = mu' at hmoves
    cases hmoves with
    | start => exact ⟨rfl, nofun⟩
    | lock hfree => cases hfree
    | _ => cases hlocks
  refine ⟨⟨⟨depth, (hother i hj.symm).trans hi⟩, hmoved.1.trans hmu⟩, fun k r hk ↦ ?_⟩
  by_cases hkj : k = j
  · subst hkj
    exact absurd hk (hmoved.2 r)
  · rwa [hother k hkj] at hk

/-- **The producer stops.** Once a call waits for itself it does so forever, and no call that has
not returned by then ever returns. -/
theorem no_return_after_wait {schedule : List Turn} (hs : s.Exclusive) (hwait : s.WaitsForItself i)
    (hrun : run (step script) s schedule = some t) :
    t.WaitsForItself i ∧ ∀ k r, t.calls k = .returned r → s.calls k = .returned r := by
  have hinv : t.Exclusive ∧ t.WaitsForItself i ∧
      ∀ k r, t.calls k = .returned r → s.calls k = .returned r := by
    refine invariant (P := fun t ↦ t.Exclusive ∧ t.WaitsForItself i ∧
      ∀ k r, t.calls k = .returned r → s.calls k = .returned r) ?_ ⟨hs, hwait, fun _ _ ↦ id⟩ hrun
    rintro u j v ⟨hu, hwait, hback⟩ hstep
    obtain ⟨hwait', hback'⟩ := hwait.stays hu hstep
    exact ⟨hu.step hstep, hwait', fun k r hk ↦ hback k r (hback' k r hk)⟩
  exact hinv.2

theorem resets_of_unavailable (hidle : s.calls i = .idle) (hmu : s.mu = none) {e : ε}
    (hpushed : (script i 0).pushed = .error (unavailable, e)) :
    ∃ t, run (step script) s [⟨i, 0⟩, ⟨i, 0⟩, ⟨i, 0⟩] = some t ∧ t.calls i = .resetting 0 ∧
      t.mu = some i := by
  refine ⟨⟨some i, s.pool, s.client, Function.update s.calls i (.resetting 0)⟩, ?_, ?_, rfl⟩
  · simp [run, step, State.set, hidle, hmu, hpushed]
  · exact Function.update_self ..

theorem waits_of_reset {depth : ℕ} (hi : s.calls i = .resetting depth) (hmu : s.mu = some i)
    {fuel : ℕ} {q : Pool} {conn : Option Conn} (hreset : Pool.resetConn (script i depth).views
      (script i depth).stop fuel s.pool.term s.pool = some (q, conn, none)) :
    ∃ t, step script s ⟨i, fuel⟩ = some t ∧ t.WaitsForItself i := by
  refine ⟨{ s.set i (.locking (depth + 1)) with pool := q, client := conn }, ?_,
    ⟨depth + 1, Function.update_self ..⟩, hmu⟩
  simp only [step, hi, hreset, Option.map_some]

/-! ## A call that is not tried again -/

/-- The places of a call whose first push is not reported as unavailable. -/
def Plain (script : ℕ → ℕ → Round ε) (i : ℕ) : Status ε → Prop
  | .idle => True
  | .locking depth | .pushing depth => depth = 0
  | .following depth res =>
    depth = 0 ∧ (script i 0).pushed = .ok res ∧ res.forwardedTo ≠ []
  | .returning depth result => depth = 0 ∧ result = (script i 0).result
  | .returned result => result = (script i 0).result
  | .resetting _ | .fatal => False

/-- How many more steps such a call takes at most. -/
def Status.left : Status ε → ℕ
  | .idle => 5
  | .locking _ => 4
  | .pushing _ => 3
  | .following _ _ => 2
  | .returning _ _ => 1
  | _ => 0

theorem Moves.plain (h : Moves script i mu x y mu') (hx : Plain script i x)
    (hlocks : x.locks = if mu = some i then 1 else 0)
    (hfinal : ∀ e, (script i 0).pushed ≠ .error (UnaryProducer.unavailable, e)) :
    Plain script i y ∧ y.left < x.left := by
  cases h with
  | start => exact ⟨rfl, by simp [Status.left]⟩
  | lock _ => exact ⟨hx, by simp [Status.left]⟩
  | unavailable hpushed =>
    obtain rfl : _ = 0 := hx
    exact absurd hpushed (hfinal _)
  | failed hpushed _ =>
    obtain rfl : _ = 0 := hx
    exact ⟨⟨rfl, by rw [Round.result, hpushed]⟩, by simp [Status.left]⟩
  | forwarded hpushed hto =>
    obtain rfl : _ = 0 := hx
    exact ⟨⟨rfl, hpushed, hto⟩, by simp [Status.left]⟩
  | created hpushed =>
    obtain rfl : _ = 0 := hx
    exact ⟨⟨rfl, by rw [Round.result, hpushed]⟩, by simp [Status.left]⟩
  | resetFailed => exact absurd hx id
  | again => exact absurd hx id
  | followed => exact ⟨⟨hx.1, by rw [Round.result, hx.2.1]⟩, by simp [Status.left]⟩
  | unlockFree hmu => simp [Status.locks, hmu] at hlocks
  | unlockLast _ => exact ⟨hx.2, by simp [Status.left]⟩
  | unlock _ => exact absurd hx.1 (Nat.succ_ne_zero _)

/-- Run alone, the call `i` returns `r` and leaves the mutex free. -/
def Returns (script : ℕ → ℕ → Round ε) (s : State ε) (i : ℕ) (r : Except (Failure ε) Task) :
    Prop :=
  ∃ turns t, (∀ turn ∈ turns, turn.call = i) ∧ run (step script) s turns = some t ∧
    t.calls i = .returned r ∧ t.mu = none

theorem Returns.of_step {r : Except (Failure ε) Task} {fuel : ℕ}
    (h : step script s ⟨i, fuel⟩ = some t) (ht : Returns script t i r) : Returns script s i r := by
  obtain ⟨turns, u, hturns, hrun, hu⟩ := ht
  exact ⟨⟨i, fuel⟩ :: turns, u, List.forall_mem_cons.mpr ⟨rfl, hturns⟩,
    run_cons_eq_some.mpr ⟨t, h, hrun⟩, hu⟩

/-- Where the answer of the round names a peer, following the redirects from there comes to an
end. -/
def Round.Found (r : Round ε) : Prop :=
  ∀ res, r.pushed = .ok res → res.forwardedTo ≠ [] →
    (eval (next r.view) res.forwardedTo).Dom

/-- `SetLeader` returns, if it is given enough depth, exactly if the redirects come to an end. -/
theorem setLeader_returns_iff {view : View ε} {pool : Pool} {addr : GoString} :
    (∃ fuel, (Pool.setLeader view fuel pool.term pool addr).isSome) ↔
      (eval (next view) addr).Dom := by
  rw [← Pool.seed_returns_iff (p := pool)]
  simp only [Pool.setLeader, if_neg (not_not.mpr rfl), Option.isSome_map,
    Option.isSome_iff_exists]

theorem exists_step (hplain : Plain script i (s.calls i)) (hs : s.Exclusive)
    (hmu : s.mu = none ∨ s.mu = some i) (hfound : (script i 0).Found)
    (hnot : ∀ r, s.calls i ≠ .returned r) : ∃ fuel t, step script s ⟨i, fuel⟩ = some t := by
  have hlocks := hs.locks i
  cases hstatus : s.calls i with
  | idle => exact ⟨0, s.set i (.locking 0), by simp only [step, hstatus]⟩
  | locking depth =>
    rw [hstatus] at hplain hlocks
    obtain rfl : depth = 0 := hplain
    have hfree : s.mu = none := by
      refine hmu.resolve_right fun hself ↦ ?_
      simp [Status.locks, hself] at hlocks
    exact ⟨0, { s.set i (.pushing 0) with mu := some i },
      by simp only [step, hstatus, if_pos hfree]⟩
  | pushing depth =>
    refine ⟨0, Option.isSome_iff_exists.mp ?_⟩
    simp only [step, hstatus]
    split
    · split <;> rfl
    · split <;> rfl
  | resetting depth =>
    rw [hstatus] at hplain
    exact absurd hplain id
  | following depth res =>
    rw [hstatus] at hplain
    obtain ⟨rfl, hpushed, hto⟩ := hplain
    obtain ⟨fuel, hfuel⟩ := setLeader_returns_iff.mpr (hfound res hpushed hto)
    refine ⟨fuel, Option.isSome_iff_exists.mp ?_⟩
    simp only [step, hstatus, Option.isSome_map]
    exact hfuel
  | returning depth result =>
    refine ⟨0, Option.isSome_iff_exists.mp ?_⟩
    simp only [step, hstatus]
    split
    · rfl
    · cases depth <;> rfl
  | returned r => exact absurd hstatus (hnot r)
  | fatal => exact absurd hstatus (hs.not_fatal i)

theorem returns_of_plain (hplain : Plain script i (s.calls i)) (hs : s.Exclusive)
    (hmu : s.mu = none ∨ s.mu = some i) (hfound : (script i 0).Found)
    (hfinal : ∀ e, (script i 0).pushed ≠ .error (unavailable, e)) :
    Returns script s i (script i 0).result := by
  -- induction on the number of steps that the call has left
  induction hleft : (s.calls i).left using Nat.strong_induction_on generalizing s with
  | _ n ih =>
    by_cases hret : ∃ r, s.calls i = .returned r
    · obtain ⟨r, hr⟩ := hret
      rw [hr] at hplain
      have hlocks := hs.locks i
      have hfree : s.mu = none := by
        refine hmu.resolve_right fun hself ↦ ?_
        simp [hr, Status.locks, hself] at hlocks
      obtain rfl : r = (script i 0).result := hplain
      exact ⟨[], s, nofun, rfl, hr, hfree⟩
    · push Not at hret
      obtain ⟨fuel, t, ht⟩ := exists_step hplain hs hmu hfound hret
      obtain ⟨hmoves, -⟩ := moves_of_step ht
      obtain ⟨hplain', hlt⟩ := hmoves.plain hplain (hs.locks i) hfinal
      have hmu' : t.mu = none ∨ t.mu = some i := by
        obtain heq | ⟨-, heq⟩ | ⟨-, heq⟩ := (hmoves.locked (hs.locks i)).2.2
        · exact heq ▸ hmu
        · exact .inr heq
        · exact .inl heq
      exact .of_step ht (ih _ (hleft ▸ hlt) hplain' (hs.step ht) hmu' rfl)

theorem plain_of_run {pool : Pool} {schedule : List Turn}
    (hfinal : ∀ e, (script i 0).pushed ≠ .error (unavailable, e))
    (hrun : run (step script) (init pool) schedule = some s) : Plain script i (s.calls i) := by
  have hstart : (init pool : State ε).Exclusive ∧ Plain script i .idle :=
    ⟨exclusive_init pool, trivial⟩
  have hinv : s.Exclusive ∧ Plain script i (s.calls i) := by
    refine invariant (P := fun s ↦ s.Exclusive ∧ Plain script i (s.calls i)) ?_ hstart hrun
    rintro s turn t ⟨hs, hplain⟩ hstep
    obtain ⟨hmoves, hother⟩ := moves_of_step hstep
    refine ⟨hs.step hstep, ?_⟩
    by_cases hj : i = turn.call
    · subst hj
      exact (hmoves.plain hplain (hs.locks _) hfinal).1
    · exact hother i hj ▸ hplain
  exact hinv.2

/-! ## Redirects that do not end -/

theorem follows_of_forwarded (hidle : s.calls i = .idle) (hmu : s.mu = none)
    {res : PushTaskResponse} (hpushed : (script i 0).pushed = .ok res)
    (hto : res.forwardedTo ≠ []) :
    ∃ t, run (step script) s [⟨i, 0⟩, ⟨i, 0⟩, ⟨i, 0⟩] = some t ∧
      t.calls i = .following 0 res ∧ t.mu = some i := by
  refine ⟨⟨some i, s.pool, s.client, Function.update s.calls i (.following 0 res)⟩, ?_, ?_, rfl⟩
  · simp [run, step, State.set, hidle, hmu, hpushed, hto]
  · exact Function.update_self ..

theorem not_returns_of_following {depth : ℕ} {res : PushTaskResponse}
    (hi : s.calls i = .following depth res)
    (hdom : ¬(eval (next (script i depth).view) res.forwardedTo).Dom)
    (r : Except (Failure ε) Task) : ¬Returns script s i r := by
  rintro ⟨turns, t, hturns, hrun, ht, -⟩
  cases turns with
  | nil =>
    obtain rfl := Option.some.inj hrun
    rw [hi] at ht
    cases ht
  | cons turn turns =>
    obtain ⟨u, hstep, -⟩ := run_cons_eq_some.mp hrun
    have hcall := hturns turn List.mem_cons_self
    simp only [step, hcall, hi, Option.map_eq_some_iff] at hstep
    obtain ⟨result, hset, -⟩ := hstep
    exact hdom (setLeader_returns_iff.mp ⟨turn.fuel, Option.isSome_of_eq_some hset⟩)

/-! ## Retries -/

/-- The pushes of the call `i`: the first `n` are reported as unavailable and are followed by a
reconnect that succeeds, and the next one is not. -/
structure Outage (script : ℕ → ℕ → Round ε) (pool : Pool) (i n : ℕ) : Prop where
  unavailable : ∀ k < n, ∃ e, (script i k).pushed = .error (UnaryProducer.unavailable, e)
  reset : ∀ k < n, ∀ schedule s, run (step script) (init pool) schedule = some s →
    s.calls i = .resetting k → ∃ fuel q conn, Pool.resetConn (script i k).views (script i k).stop
      fuel s.pool.term s.pool = some (q, conn, none)
  final : ∀ e, (script i n).pushed ≠ .error (UnaryProducer.unavailable, e)

/-- After one `Unavailable` a call can come to wait for itself. -/
theorem Outage.waits {pool : Pool} {n : ℕ} (h : Outage script pool i n) (hn : 0 < n) :
    ∃ schedule s, run (step script) (init pool) schedule = some s ∧ s.WaitsForItself i := by
  obtain ⟨e, hpushed⟩ := h.unavailable 0 hn
  obtain ⟨s, hrun, hi, hmu⟩ := resets_of_unavailable (s := init pool) rfl rfl hpushed
  obtain ⟨fuel, q, conn, hreset⟩ := h.reset 0 hn _ s hrun hi
  obtain ⟨t, ht, hwait⟩ := waits_of_reset hi hmu hreset
  refine ⟨[⟨i, 0⟩, ⟨i, 0⟩, ⟨i, 0⟩] ++ [⟨i, fuel⟩], t, ?_, hwait⟩
  rw [run_append, hrun]
  exact run_cons_eq_some.mpr ⟨t, ht, rfl⟩

/-- Behind every address is the peer `b`, which leads. -/
def leading : View Unit := fun _ ↦ .info ⟨lit "b", lit "b", [⟨lit "b", lit "b", 1⟩]⟩

/-- The first `n` pushes of every call are reported as unavailable, and the next one was forwarded
to `b`. -/
def outage (n : ℕ) : ℕ → ℕ → Round Unit := fun _ k ↦
  { pushed := if k < n then .error (unavailable, ()) else .ok ⟨⟨lit "t", lit "q", [], [], none,
      none, none⟩, lit "b:1"⟩
    view := leading
    views := [leading]
    stop := .noLeader }

theorem seed_leading (fuel : ℕ) (p : Pool) (addr : GoString) :
    Pool.seed leading (fuel + 1) p addr =
      some ({ p.adopt addr with peerAddresses := [lit "b:1"] }, none) := rfl

theorem peerAddresses_of_seed {fuel : ℕ} {p : Pool} {addr : GoString}
    {r : Pool × Option (Failure Unit)} (h : Pool.seed leading fuel p addr = some r) :
    r.1.peerAddresses = [lit "b:1"] := by
  cases fuel with
  | zero => cases h
  | succ fuel =>
    rw [seed_leading] at h
    exact Option.some.inj h ▸ rfl

theorem resetConn_leading (fuel : ℕ) {p : Pool} {addr : GoString} {addrs : List GoString}
    (hp : p.peerAddresses = addr :: addrs) :
    Pool.resetConn [leading] .noLeader (fuel + 1) p.term p =
      some ({ p.adopt addr with peerAddresses := [lit "b:1"], term := p.term + 1 },
        some ⟨p.dialled, addr⟩, none) := by
  rw [Pool.resetConn, if_neg (not_not.mpr rfl), Pool.retry, hp, Pool.detectLeader, seed_leading]
  rfl

theorem peerAddresses_of_step {n : ℕ} {s t : State Unit} (hs : s.pool.peerAddresses ≠ [])
    (h : step (outage n) s turn = some t) : t.pool.peerAddresses ≠ [] := by
  simp only [step] at h
  cases hstatus : s.calls turn.call with
  | idle =>
    simp only [hstatus, Option.some.injEq] at h
    exact h ▸ hs
  | locking depth =>
    simp only [hstatus, Option.ite_none_right_eq_some, Option.some.injEq] at h
    exact h.2 ▸ hs
  | pushing depth =>
    simp only [hstatus] at h
    split at h <;> split at h <;> exact Option.some.inj h ▸ hs
  | resetting depth =>
    obtain ⟨addr, addrs, hp⟩ := List.exists_cons_of_ne_nil hs
    simp only [hstatus] at h
    rcases hfuel : turn.fuel with _ | fuel
    · simp [hfuel, outage, Pool.resetConn, Pool.retry, hp, Pool.detectLeader, Pool.seed] at h
    · simp only [hfuel, outage, resetConn_leading fuel hp, Option.map_some,
        Option.some.injEq] at h
      exact h ▸ List.cons_ne_nil _ _
  | following depth res =>
    simp only [hstatus, outage, Pool.setLeader, if_neg (not_not.mpr rfl), Option.map_map,
      Option.map_eq_some_iff] at h
    obtain ⟨⟨q, _ | e⟩, hseed, rfl⟩ := h
    · exact peerAddresses_of_seed hseed ▸ List.cons_ne_nil _ _
    · exact peerAddresses_of_seed hseed ▸ List.cons_ne_nil _ _
  | returning depth result =>
    simp only [hstatus] at h
    split at h
    · exact Option.some.inj h ▸ hs
    · cases depth <;> exact Option.some.inj h ▸ hs
  | returned result => simp [hstatus] at h
  | fatal => simp [hstatus] at h

theorem outage_outage (i n : ℕ) : Outage (outage n) (.new [lit "b:1"]) i n where
  unavailable := fun k hk ↦ ⟨(), if_pos hk⟩
  reset := by
    intro k _ schedule s hrun _
    have hpool : s.pool.peerAddresses ≠ [] :=
      invariant (P := fun s ↦ s.pool.peerAddresses ≠ []) (fun _ _ _ ↦ peerAddresses_of_step)
        (List.cons_ne_nil _ _) hrun
    obtain ⟨addr, addrs, hp⟩ := List.exists_cons_of_ne_nil hpool
    exact ⟨1, _, _, resetConn_leading 0 hp⟩
  final := by simp [outage]

theorem found_outage (i k n : ℕ) : (outage n i k).Found := fun res _ _ ↦
  Part.dom_iff_mem.mpr ⟨res.forwardedTo, mem_eval.mpr ⟨.refl, rfl⟩⟩

end UnaryProducer

end Z4.Client
