import Z4.Storage.Sequence
import Z4.Foundations.Runs

/-!
# Counting across restarts

A `Sequence` lives in incarnations: it is opened on its key, hands out indexes, and ends with a
`Close` that writes back the exact position or with a crash that leaves the end of the lease in the
store. `Incarnations` runs one key through any number of them.

A sequence is `Leased` when the store holds the end of its lease, which its position has not passed
and from which it is less than one lease away. Opening one establishes this and `Next` keeps it; a
crash therefore resumes past every index in use and skips less than a lease.

## Writes that fail

A reservation that cannot be stored is not made again: the sequence goes on as if it had been.
`Reservations.calls_sound` says under which conditions no index past the stored value is returned.
-/

namespace Z4

open KeyValue Runs

/-! ## The lease of an open sequence -/

/-- The store holds the end of the lease, and the position is within it. -/
structure Sequence.Leased (key : Key) (lease : UInt64) (s : Sequence) (db : DB) : Prop where
  key_eq : s.key = key
  leaseSize_eq : s.leaseSize = lease
  stored : storedIndex db key = s.nextLease
  le_nextLease : s.i.toNat ≤ s.nextLease.toNat
  nextLease_lt : s.nextLease.toNat < s.i.toNat + lease.toNat

namespace Sequence

variable {key : Key} {lease : UInt64} {s : Sequence} {db : DB}

theorem storedIndex_insert (db : DB) (key : Key) (v : UInt64) :
    storedIndex (db.insert key (.index v)) key = v := by
  rw [storedIndex, getElem?_insert, if_pos rfl]

theorem toNat_leaseEnd {i : UInt64} (hlease : 2 ≤ lease) (hlt : i.toNat + lease.toNat ≤ 2 ^ 64) :
    (i + lease - 1).toNat = i.toNat + lease.toNat - 1 := by
  have h2 : 2 ≤ lease.toNat := UInt64.le_iff_toNat_le.mp hlease
  have hi := i.toNat_lt
  rw [UInt64.toNat_sub, UInt64.toNat_add, UInt64.toNat_one]
  omega

theorem leased_reserve (s : Sequence) (db : DB) (hk : s.key = key) (hl : s.leaseSize = lease)
    (hlease : 2 ≤ lease) (hlt : s.i.toNat + lease.toNat ≤ 2 ^ 64) :
    Leased key lease (s.reserve db true).1 (s.reserve db true).2 ∧
      (s.reserve db true).1.i = s.i ∧ s.i.toNat < (s.reserve db true).1.nextLease.toNat := by
  have h2 : 2 ≤ lease.toNat := UInt64.le_iff_toNat_le.mp hlease
  have hend : (s.reserve db true).1.nextLease.toNat = s.i.toNat + lease.toNat - 1 := by
    rw [← toNat_leaseEnd hlease hlt, ← hl]
    rfl
  have hi : (s.reserve db true).1.i = s.i := rfl
  refine ⟨⟨hk, hl, ?_, ?_, ?_⟩, hi, ?_⟩
  · rw [← hk]
    exact storedIndex_insert db s.key _
  · rw [hi]
    omega
  · rw [hi]
    omega
  · omega

theorem leased_new (hlease : 2 ≤ lease) (hlt : (storedIndex db key).toNat + lease.toNat ≤ 2 ^ 64) :
    ∃ s, (new db key lease true).1 = some s ∧ s.i = storedIndex db key ∧
      Leased key lease s (new db key lease true).2 :=
  have h := leased_reserve ⟨lease, 0, storedIndex db key, key⟩ db rfl rfl hlease hlt
  ⟨_, rfl, h.2.1, h.1⟩

/-- `Next` under a lease: it returns the index after the position, and a new lease is taken exactly
where the old one is used up. -/
theorem Leased.next (h : Leased key lease s db) (hlease : 2 ≤ lease)
    (hlt : s.i = s.nextLease → s.i.toNat + lease.toNat ≤ 2 ^ 64) :
    ∃ idx, (s.next db true).2.2 = some idx ∧ idx.toNat = s.i.toNat + 1 ∧
      (s.next db true).1.i = idx ∧
      Leased key lease (s.next db true).1 (s.next db true).2.1 := by
  -- the position moves by one inside a lease that reaches past it
  have hmove : ∀ (u : Sequence) (db' : DB), Leased key lease u db' →
      u.i.toNat < u.nextLease.toNat → (u.i + 1).toNat = u.i.toNat + 1 ∧
        Leased key lease { u with i := u.i + 1 } db' := by
    intro u db' hu hroom
    have hi := u.nextLease.toNat_lt
    have hsucc : (u.i + 1).toNat = u.i.toNat + 1 := by
      rw [UInt64.toNat_add, UInt64.toNat_one]
      omega
    have hend := hu.nextLease_lt
    refine ⟨hsucc, ⟨hu.key_eq, hu.leaseSize_eq, hu.stored, ?_, ?_⟩⟩
    · show (u.i + 1).toNat ≤ u.nextLease.toNat
      omega
    · show u.nextLease.toNat < (u.i + 1).toNat + lease.toNat
      omega
  by_cases hused : s.i = s.nextLease
  · obtain ⟨hleased, hi, hroom⟩ :=
      leased_reserve s db h.key_eq h.leaseSize_eq hlease (hlt hused)
    obtain ⟨hsucc, hnext⟩ := hmove _ _ hleased (hi ▸ hroom)
    have heq : s.next db true = ({ (s.reserve db true).1 with i := (s.reserve db true).1.i + 1 },
        (s.reserve db true).2, some ((s.reserve db true).1.i + 1)) := by
      rw [Sequence.next, if_pos hused]
      rfl
    rw [heq]
    exact ⟨_, rfl, hi ▸ hsucc, rfl, hnext⟩
  · have hne : s.i.toNat ≠ s.nextLease.toNat := fun hc ↦ hused (UInt64.toNat_inj.mp hc)
    obtain ⟨hsucc, hnext⟩ := hmove s db h (lt_of_le_of_ne h.le_nextLease hne)
    have heq : s.next db true = ({ s with i := s.i + 1 }, db, some (s.i + 1)) := by
      rw [Sequence.next, if_neg hused]
    rw [heq]
    exact ⟨_, rfl, hsucc, rfl, hnext⟩

end Sequence

/-! ## Incarnations -/

namespace Incarnations

/-- How an incarnation ends. -/
inductive Ending where
  | closed
  | crashed
deriving DecidableEq

/-- The store and the open sequence of one key, with the history the results speak of: the last
ending with the position it happened at, the indexes returned so far, and for each re-opening how
the incarnation before it ended and how far past its position the new one starts. -/
structure State where
  db : DB
  seq : Option Sequence := none
  ended : Option (Ending × UInt64) := none
  returned : List UInt64 := []
  gaps : List (Ending × ℤ) := []

inductive Event where
  | new
  | next
  | close
  | crash
deriving DecidableEq

/-- One operation on the key. Every write succeeds. -/
def step (key : Key) (lease : UInt64) (s : State) : Event → Option State
  | .new =>
    match s.seq, Sequence.new s.db key lease true with
    | none, (some q, db) => some { s with
        db, seq := some q
        gaps := s.gaps ++ (s.ended.map fun e ↦ (e.1, (q.i.toNat - e.2.toNat : ℤ))).toList }
    | _, _ => none
  | .next =>
    match s.seq with
    | some q =>
      let (q', db, idx) := q.next s.db true
      some { s with db, seq := some q', returned := s.returned ++ idx.toList }
    | none => none
  | .close =>
    s.seq.map fun q ↦
      { s with db := q.close s.db true, seq := none, ended := some (.closed, q.i) }
  | .crash =>
    s.seq.map fun q ↦ { s with seq := none, ended := some (.crashed, q.i) }

/-- The reservation an operation makes, if it makes one, ends below `2 ^ 64`. -/
def Below (key : Key) (lease : UInt64) (s : State) : Event → Prop
  | .new => (storedIndex s.db key).toNat + lease.toNat ≤ 2 ^ 64
  | .next => ∀ q ∈ s.seq, q.i = q.nextLease → q.i.toNat + lease.toNat ≤ 2 ^ 64
  | .close => True
  | .crash => True

instance (key : Key) (lease : UInt64) (s : State) (e : Event) : Decidable (Below key lease s e) :=
  match e with
  | .new => inferInstanceAs (Decidable (_ ≤ _))
  | .next => inferInstanceAs (Decidable (∀ q ∈ s.seq, _))
  | .close => .isTrue trivial
  | .crash => .isTrue trivial

/-- What is lost between two incarnations. -/
def Ending.Loses (lease : UInt64) : Ending → ℤ → Prop
  | .closed, n => n = 0
  | .crashed, n => 0 ≤ n ∧ n < lease.toNat

instance (lease : UInt64) (e : Ending) (n : ℤ) : Decidable (e.Loses lease n) :=
  match e with
  | .closed => inferInstanceAs (Decidable (n = 0))
  | .crashed => inferInstanceAs (Decidable (0 ≤ n ∧ n < lease.toNat))

/-- The index after which the key goes on. -/
def position (key : Key) (s : State) : UInt64 :=
  match s.seq with
  | some q => q.i
  | none => storedIndex s.db key

/-- The invariant of all incarnations together; `start` is the value stored before the first. -/
structure Counts (key : Key) (lease : UInt64) (start : ℕ) (s : State) : Prop where
  leased : ∀ q, s.seq = some q → q.Leased key lease s.db
  resumes : s.seq = none → ∀ e, s.ended = some e →
    e.1.Loses lease ((storedIndex s.db key).toNat - e.2.toNat)
  increasing : s.returned.Pairwise (· < ·)
  bounds : ∀ r ∈ s.returned, start < r.toNat ∧ r.toNat ≤ (position key s).toNat
  start_le : start ≤ (position key s).toNat
  losses : ∀ g ∈ s.gaps, g.1.Loses lease g.2

section

variable {key : Key} {lease : UInt64} {start : ℕ} {s t : State} {db : DB}

theorem counts_start (db : DB) : Counts key lease (storedIndex db key).toNat { db } where
  leased := by simp
  resumes := by simp
  increasing := .nil
  bounds := by simp
  start_le := le_rfl
  losses := by simp

theorem Counts.new (h : Counts key lease start s) (hlease : 2 ≤ lease)
    (hlt : Below key lease s .new) (hs : step key lease s .new = some t) :
    Counts key lease start t := by
  obtain ⟨q, hq, hi, hleased⟩ := Sequence.leased_new hlease hlt
  have hseq : s.seq = none := by
    cases hseq : s.seq with
    | none => rfl
    | some u => simp [step, hseq] at hs
  have hnew : Sequence.new s.db key lease true = (some q, (Sequence.new s.db key lease true).2) :=
    Prod.ext hq rfl
  rw [step, hseq, hnew, Option.some.injEq] at hs
  subst hs
  have hpos : position key s = storedIndex s.db key := by rw [position, hseq]
  refine ⟨?_, by simp, h.increasing, ?_, ?_, ?_⟩
  · intro u hu
    exact Option.some.inj hu ▸ hleased
  · intro r hr
    show start < r.toNat ∧ r.toNat ≤ q.i.toNat
    rw [hi, ← hpos]
    exact h.bounds r hr
  · show start ≤ q.i.toNat
    rw [hi, ← hpos]
    exact h.start_le
  · intro g hg
    rcases List.mem_append.mp hg with hg | hg
    · exact h.losses g hg
    · rw [Option.mem_toList, Option.map_eq_some_iff] at hg
      obtain ⟨e, he, rfl⟩ := hg
      rw [hi]
      exact h.resumes hseq e he

theorem Counts.next (h : Counts key lease start s) (hlease : 2 ≤ lease)
    (hlt : Below key lease s .next) (hs : step key lease s .next = some t) :
    Counts key lease start t := by
  cases hseq : s.seq with
  | none => simp [step, hseq] at hs
  | some q =>
    obtain ⟨idx, hidx, hsucc, hi, hleased⟩ := (h.leased q hseq).next hlease (hlt q hseq)
    rw [step, hseq, Option.some.injEq] at hs
    subst hs
    have hpos : position key s = q.i := by rw [position, hseq]
    have hret : s.returned ++ (q.next s.db true).2.2.toList = s.returned ++ [idx] := by
      rw [hidx]
      rfl
    refine ⟨?_, by simp, ?_, ?_, ?_, h.losses⟩
    · intro u hu
      exact Option.some.inj hu ▸ hleased
    · -- the new index is one past the position, which bounds the indexes so far
      show (s.returned ++ (q.next s.db true).2.2.toList).Pairwise (· < ·)
      rw [hret, List.pairwise_append]
      refine ⟨h.increasing, List.pairwise_singleton _ _, fun r hr r' hr' ↦ ?_⟩
      obtain ⟨-, hle⟩ := h.bounds r hr
      rw [List.mem_singleton.mp hr', UInt64.lt_iff_toNat_lt, hsucc]
      rw [hpos] at hle
      omega
    · show ∀ r ∈ s.returned ++ (q.next s.db true).2.2.toList,
        start < r.toNat ∧ r.toNat ≤ (q.next s.db true).1.i.toNat
      rw [hret, hi, hsucc]
      have hstart := h.start_le
      rw [hpos] at hstart
      intro r hr
      rcases List.mem_append.mp hr with hr | hr
      · obtain ⟨hlo, hle⟩ := h.bounds r hr
        rw [hpos] at hle
        exact ⟨hlo, by omega⟩
      · rw [List.mem_singleton.mp hr, hsucc]
        exact ⟨by omega, le_rfl⟩
    · show start ≤ (q.next s.db true).1.i.toNat
      have hstart := h.start_le
      rw [hpos] at hstart
      rw [hi, hsucc]
      omega

/-- An ending keeps the invariant when the store then holds a value the ending allows. -/
private theorem Counts.finish (h : Counts key lease start s) {q : Sequence} (hseq : s.seq = some q)
    {db : DB} {e : Ending} (hdb : e.Loses lease ((storedIndex db key).toNat - q.i.toNat))
    (hle : q.i.toNat ≤ (storedIndex db key).toNat) :
    Counts key lease start { s with db, seq := none, ended := some (e, q.i) } := by
  have hpos : position key s = q.i := by rw [position, hseq]
  refine ⟨by simp, ?_, h.increasing, ?_, ?_, h.losses⟩
  · intro _ e' he'
    exact Option.some.inj he' ▸ hdb
  · intro r hr
    obtain ⟨hlo, hr⟩ := h.bounds r hr
    rw [hpos] at hr
    exact ⟨hlo, hr.trans hle⟩
  · exact (hpos ▸ h.start_le).trans hle

theorem Counts.step (h : Counts key lease start s) (hlease : 2 ≤ lease) {e : Event}
    (hlt : Below key lease s e) (hs : step key lease s e = some t) : Counts key lease start t := by
  cases e with
  | new => exact h.new hlease hlt hs
  | next => exact h.next hlease hlt hs
  | close =>
    obtain ⟨q, hseq, rfl⟩ := Option.map_eq_some_iff.mp hs
    have hstored : storedIndex (q.close s.db true) key = q.i := by
      rw [storedIndex, Sequence.getElem?_close, if_pos (h.leased q hseq).key_eq]
    refine h.finish hseq ?_ (by rw [hstored])
    rw [hstored]
    exact sub_self _
  | crash =>
    obtain ⟨q, hseq, rfl⟩ := Option.map_eq_some_iff.mp hs
    obtain ⟨-, -, hstored, hle, hend⟩ := h.leased q hseq
    refine h.finish hseq ?_ (by rwa [hstored])
    rw [hstored]
    exact ⟨by omega, by omega⟩

theorem counts_of_run {es : List Event} (hlease : 2 ≤ lease)
    (hok : Meets (Incarnations.step key lease) (Below key lease) { db } es)
    (hrun : run (Incarnations.step key lease) { db } es = some s) :
    Counts key lease (storedIndex db key).toNat s :=
  Meets.invariant (fun _ _ _ h hlt hs ↦ h.step hlease hlt hs) (counts_start db) hok hrun

/-- **A sequence survives crashes.** Whatever is stored at first, over any number of incarnations
of any endings the indexes returned increase strictly, a closed incarnation is resumed where it
stopped, and a crash skips less than one lease. -/
theorem returned_increasing {es : List Event} (hlease : 2 ≤ lease)
    (hok : Meets (Incarnations.step key lease) (Below key lease) { db } es)
    (hrun : run (Incarnations.step key lease) { db } es = some s) :
    s.returned.Pairwise (· < ·) ∧ ∀ g ∈ s.gaps, g.1.Loses lease g.2 :=
  have h := counts_of_run hlease hok hrun
  ⟨h.increasing, h.losses⟩

end

/-- Three incarnations with a lease of three: one that outlives its first lease and is closed, one
that crashes with an index of its lease unused, and one more. -/
def threeLives : List Event :=
  [.new, .next, .next, .next, .close, .new, .next, .crash, .new, .next]

theorem returned_increasing_threeLives :
    ∃ s, run (step (getSeqKey (lit "q")) 3) { db := ∅ } threeLives = some s ∧
      s.returned = [1, 2, 3, 4, 6] ∧ s.returned.Pairwise (· < ·) ∧
      ∀ g ∈ s.gaps, g.1.Loses 3 g.2 := by
  have hret : (run (step (getSeqKey (lit "q")) 3) { db := ∅ } threeLives).map (·.returned)
      = some [1, 2, 3, 4, 6] := by decide +kernel
  have hok : Meets (step (getSeqKey (lit "q")) 3) (Below (getSeqKey (lit "q")) 3) { db := ∅ }
      threeLives := by decide +kernel
  obtain ⟨s, hrun, hs⟩ := Option.map_eq_some_iff.mp hret
  exact ⟨s, hrun, hs, returned_increasing (by decide) hok hrun⟩

end Incarnations

/-! ## Writes that fail

`reserve` moves the end of the lease before it writes it. When the write fails, `Next` returns the
error and the position stays, but the next call finds itself inside the lease that was not stored.
-/

namespace Reservations

/-- What a call of `Next` leaves behind: its result, the value that is then stored under the key,
and whether the next call starts with a reservation. -/
structure Call where
  result : Option UInt64
  stored : UInt64
  reserves : Bool
deriving DecidableEq

/-- An index that is returned is not past the stored value, and a call that fails leaves the
reservation to the next one. -/
def Call.Sound (c : Call) : Prop :=
  (∀ idx ∈ c.result, idx ≤ c.stored) ∧ (c.result = none → c.reserves = true)

instance (c : Call) : Decidable c.Sound :=
  inferInstanceAs (Decidable ((∀ idx ∈ c.result, _) ∧ (_ → _)))

/-- One sequence and its store, with the calls of `Next` so far. -/
structure State where
  db : DB
  seq : Option Sequence := none
  /-- `Close` has stored the position. -/
  closed : Bool := false
  calls : List Call := []

/-- The operations of one sequence, each with the outcome of the write it makes, if it makes one. -/
inductive Event where
  | new (ok : Bool)
  | next (ok : Bool)
  | close (ok : Bool)
deriving DecidableEq

def step (key : Key) (lease : UInt64) (s : State) : Event → Option State
  | .new ok =>
    match s.seq with
    | none =>
      let (seq, db) := Sequence.new s.db key lease ok
      some { s with db, seq }
    | some _ => none
  | .next ok =>
    s.seq.map fun q ↦
      let (q', db, result) := q.next s.db ok
      { s with
        db, seq := some q'
        calls := s.calls ++ [⟨result, storedIndex db key, decide (q'.i = q'.nextLease)⟩] }
  | .close ok => s.seq.map fun q ↦ { s with db := q.close s.db ok, closed := s.closed || ok }

/-- `Next` is not called after `Close` has stored the position, and its reservation, if it makes
one, is stored and ends below `2 ^ 64`. -/
def Backed (key : Key) (lease : UInt64) (s : State) : Event → Prop
  | .new ok => ok = true → (storedIndex s.db key).toNat + lease.toNat ≤ 2 ^ 64
  | .next ok => s.closed = false ∧
      ∀ q ∈ s.seq, q.i = q.nextLease → ok = true ∧ q.i.toNat + lease.toNat ≤ 2 ^ 64
  | .close _ => True

instance (key : Key) (lease : UInt64) (s : State) (e : Event) : Decidable (Backed key lease s e) :=
  match e with
  | .new _ => inferInstanceAs (Decidable (_ → _))
  | .next _ => inferInstanceAs (Decidable (_ ∧ ∀ q ∈ s.seq, _))
  | .close _ => .isTrue trivial

section

variable {key : Key} {lease : UInt64} {s t : State} {db : DB}

/-- Inside the lease the outcome of a write plays no part. -/
theorem next_eq_next_true {q : Sequence} {ok : Bool} (h : q.i = q.nextLease → ok = true) :
    q.next db ok = q.next db true := by
  by_cases hused : q.i = q.nextLease
  · rw [h hused]
  · rw [Sequence.next, if_neg hused, Sequence.next, if_neg hused]

/-- Until it is closed the sequence is within its stored lease, and every call so far is sound. -/
def Reserved (key : Key) (lease : UInt64) (s : State) : Prop :=
  (s.closed = false → ∀ q ∈ s.seq, q.Leased key lease s.db) ∧ ∀ c ∈ s.calls, c.Sound

theorem Reserved.new (h : Reserved key lease s) (hlease : 2 ≤ lease) {ok : Bool}
    (hok : Backed key lease s (.new ok)) (hs : step key lease s (.new ok) = some t) :
    Reserved key lease t := by
  cases hseq : s.seq with
  | some q => simp [step, hseq] at hs
  | none =>
    rw [step, hseq, Option.some.injEq] at hs
    subst hs
    refine ⟨fun _ q hq ↦ ?_, h.2⟩
    cases ok with
    | false => simp [Sequence.new] at hq
    | true =>
      obtain ⟨q', hq', -, hleased⟩ := Sequence.leased_new hlease (hok rfl)
      obtain rfl : q' = q := Option.some.inj (hq'.symm.trans hq)
      exact hleased

theorem Reserved.next (h : Reserved key lease s) (hlease : 2 ≤ lease) {ok : Bool}
    (hok : Backed key lease s (.next ok)) (hs : step key lease s (.next ok) = some t) :
    Reserved key lease t := by
  obtain ⟨q, hseq, rfl⟩ := Option.map_eq_some_iff.mp hs
  obtain ⟨hopen, hreserve⟩ := hok
  have hleased := h.1 hopen q hseq
  obtain ⟨idx, hidx, -, hi, hleased'⟩ := hleased.next hlease fun hused ↦ (hreserve q hseq hused).2
  simp only [next_eq_next_true fun hused ↦ (hreserve q hseq hused).1]
  refine ⟨?_, fun c hc ↦ ?_⟩
  · intro _ q' hq'
    exact Option.some.inj hq' ▸ hleased'
  · rcases List.mem_append.mp hc with hc | hc
    · exact h.2 c hc
    · rw [List.mem_singleton.mp hc]
      constructor
      · intro idx' hidx'
        obtain rfl : idx = idx' := Option.some.inj (hidx.symm.trans hidx')
        show idx ≤ storedIndex (q.next s.db true).2.1 key
        rw [hleased'.stored, UInt64.le_iff_toNat_le, ← hi]
        exact hleased'.le_nextLease
      · intro hnone
        exact absurd (hidx.symm.trans hnone) (by simp)

theorem Reserved.step (h : Reserved key lease s) (hlease : 2 ≤ lease) {e : Event}
    (hok : Backed key lease s e) (hs : step key lease s e = some t) : Reserved key lease t := by
  cases e with
  | new ok => exact h.new hlease hok hs
  | next ok => exact h.next hlease hok hs
  | close ok =>
    obtain ⟨q, hseq, rfl⟩ := Option.map_eq_some_iff.mp hs
    refine ⟨fun hopen ↦ ?_, h.2⟩
    obtain ⟨hclosed, rfl⟩ : s.closed = false ∧ ok = false := by simpa using hopen
    -- a write that fails leaves the store as it was
    exact h.1 hclosed

/-- **When no unreserved index leaks.** With leases of two or more, if every reservation of `Next`
is stored and `Next` is not called once `Close` has stored the position, then every call returns an
index that the stored value covers. -/
theorem calls_sound {es : List Event} (hlease : 2 ≤ lease)
    (hok : Meets (Reservations.step key lease) (Backed key lease) { db } es)
    (hrun : run (Reservations.step key lease) { db } es = some s) : ∀ c ∈ s.calls, c.Sound := by
  have h0 : Reserved key lease { db } := ⟨by simp, by simp⟩
  exact (Meets.invariant (fun _ _ _ h hok hs ↦ h.step hlease hok hs) h0 hok hrun).2

end

/-- A lease of three that is opened at the second attempt and outlived once. The write of `Close`
fails, so the store still holds the end of the lease. -/
def secondAttempt : List Event :=
  [.new false, .new true, .next true, .next false, .next true, .close false, .next false]

theorem calls_sound_secondAttempt :
    ∃ s, run (step (getSeqKey (lit "q")) 3) { db := ∅ } secondAttempt = some s ∧
      s.calls.map (·.result) = [some 1, some 2, some 3, some 4] ∧ ∀ c ∈ s.calls, c.Sound := by
  have hret : (run (step (getSeqKey (lit "q")) 3) { db := ∅ } secondAttempt).map
      (fun s ↦ s.calls.map (·.result)) = some [some 1, some 2, some 3, some 4] := by
    decide +kernel
  have hok : Meets (step (getSeqKey (lit "q")) 3) (Backed (getSeqKey (lit "q")) 3) { db := ∅ }
      secondAttempt := by decide +kernel
  obtain ⟨s, hrun, hs⟩ := Option.map_eq_some_iff.mp hret
  exact ⟨s, hrun, hs, calls_sound (by decide) hok hrun⟩

section

variable {key : Key} {lease : UInt64} {s : State} {q : Sequence}

theorem step_next_of_ne (hq : s.seq = some q) (hne : q.i ≠ q.nextLease) (ok : Bool) :
    step key lease s (.next ok) = some
      { s with
        seq := some { q with i := q.i + 1 }
        calls := s.calls ++
          [⟨some (q.i + 1), storedIndex s.db key, decide (q.i + 1 = q.nextLease)⟩] } := by
  rw [step, hq, Option.map_some, Sequence.next, if_neg hne]

/-- A call at the end of the lease whose reservation fails: the next one is inside a lease again. -/
theorem step_next_failed (hq : s.seq = some q) (hused : q.i = q.nextLease) :
    step key lease s (.next false) = some
      { s with
        seq := some { q with nextLease := q.i + q.leaseSize - 1 }
        calls := s.calls ++
          [⟨none, storedIndex s.db key, decide (q.i = q.i + q.leaseSize - 1)⟩] } := by
  rw [step, hq, Option.map_some, Sequence.next, if_pos hused]
  rfl

theorem run_replicate_next (hq : s.seq = some q) {n : ℕ}
    (hn : q.i.toNat + n ≤ q.nextLease.toNat) :
    ∃ t, run (step key lease) s (List.replicate n (.next true)) = some t ∧ t.db = s.db ∧
      t.seq = some { q with i := q.i + .ofNat n } := by
  induction n with
  | zero => exact ⟨s, rfl, rfl, by rw [hq]; simp⟩
  | succ n ih =>
    obtain ⟨t, hrun, hdb, hseq⟩ := ih (by omega)
    have hlt := q.nextLease.toNat_lt
    have hi : (q.i + .ofNat n).toNat = q.i.toNat + n := by
      rw [UInt64.toNat_add, UInt64.toNat_ofNat']
      omega
    have hne : q.i + .ofNat n ≠ q.nextLease := by
      intro hc
      rw [← hc, hi] at hn
      omega
    have hsucc : q.i + UInt64.ofNat (n + 1) = q.i + .ofNat n + 1 := by
      rw [UInt64.ofNat_add, ← UInt64.add_assoc]
      rfl
    rw [List.replicate_succ', run_append, hrun, Option.bind_some, run_cons,
      step_next_of_ne hseq hne, hsucc]
    exact ⟨_, rfl, hdb, rfl⟩

end

/-- The counter of the queue `q` on an empty store, opened with the program's lease. -/
def opened : State where
  db := (∅ : DB).insert (getSeqKey (lit "q")) (.index 9999)
  seq := some ⟨10000, 9999, 0, getSeqKey (lit "q")⟩

/-- The lease is used up and the reservation after it fails. The next call returns an index past the
stored value. -/
theorem calls_unsound_of_failed_reservation :
    ∃ s, run (step (getSeqKey (lit "q")) sequenceLeaseSize) { db := ∅ }
        (.new true :: (List.replicate 9999 (.next true) ++ [.next false, .next true])) = some s ∧
      ⟨none, 9999, false⟩ ∈ s.calls ∧ ⟨some 10000, 9999, false⟩ ∈ s.calls ∧
      ¬∀ c ∈ s.calls, c.Sound := by
  have hnew : step (getSeqKey (lit "q")) sequenceLeaseSize { db := ∅ } (.new true) = some opened :=
    rfl
  have hroom : (0 : UInt64).toNat + 9999 ≤ (9999 : UInt64).toNat := by decide
  obtain ⟨t, hrun, hdb, hseq⟩ : ∃ t, run (step (getSeqKey (lit "q")) sequenceLeaseSize) opened
      (List.replicate 9999 (.next true)) = some t ∧ t.db = opened.db ∧
        t.seq = some ⟨10000, 9999, 0 + .ofNat 9999, getSeqKey (lit "q")⟩ :=
    run_replicate_next (s := opened) rfl hroom
  have hstored : storedIndex t.db (getSeqKey (lit "q")) = 9999 := by
    rw [hdb]
    exact Sequence.storedIndex_insert _ _ _
  have hend : (0 : UInt64) + .ofNat 9999 = 9999 := by decide
  rw [hend] at hseq
  rw [run_cons, hnew, Option.bind_some, run_append, hrun, Option.bind_some, run_cons,
    step_next_failed hseq rfl, Option.bind_some, run_cons, step_next_of_ne rfl (by decide), hstored]
  refine ⟨_, rfl, ?_, ?_, fun h ↦ ?_⟩
  · exact List.mem_append_left _ (List.mem_append_right _ List.mem_cons_self)
  · exact List.mem_append_right _ List.mem_cons_self
  · have hsound := h ⟨some 10000, 9999, false⟩ (List.mem_append_right _ List.mem_cons_self)
    exact absurd (hsound.1 10000 rfl) (by decide)

end Reservations

end Z4
