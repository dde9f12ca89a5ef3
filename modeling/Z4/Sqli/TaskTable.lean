import Z4.Api.Push
import Z4.Sqli.Bounds
import Z4.Storage.Scan

/-!
# The task table

A query of the table of scheduled tasks is answered by a scan of one queue between two ids. The ids
have the times that `initBounds` found and the index zero. `Next` makes a row of every task of the
scan, evaluates the filters on it and returns it if all are true.

## What the scan leaves out

The filters are evaluated on what the scan hands out, so it is enough that the scan leaves out
nothing that they want. Its ends are those of the last comparison of `deliver_at` that has the
column on the left (`lastEnds`). The lower end is no problem: an id with a time and any index is not
before the one with the index zero. The upper end is: of the tasks at that very instant only one
with the index zero is within the range, and the indexes of a queue start at one. So
`deliver_at <= t` and `deliver_at BETWEEN s AND t` lose the tasks at `t`, and `deliver_at = t` loses
all. The rows are right if no id of a task that satisfies the filters is outside the ends, and only
then; for tasks whose ids keep their times that says that none is at the upper end
(`rows_perm_iff`).

## Filters

A filter is a comparison of `deliver_at` with a literal, an equality of `queue` with one, on either
side, or an expression in which neither column occurs, with an arbitrary meaning. The engine is
taken to evaluate these rightly, and a literal to mean the time that the code reads from it.
-/

namespace Z4.Sqli

open KeyValue

variable {ε : Type*}

/-! ## The iterator -/

/-- `rowFromTask`. -/
def rowFromTask (task : Task) : Row where
  queue := task.queue
  id := task.id
  deliverAt := (task.scheduleTime.getD ⟨0, 0⟩).asTime
  lastRetry := task.lastRetry.map Timestamp.asTime
  metadata := task.metadata
  payload := task.payload

/-- `taskTableIterator`. -/
structure TaskTableIterator where
  filters : List Expr
  bounds : Bounds
  it : TaskIterator

/-- The range that is scanned. -/
def Bounds.range (r : Bounds) : TaskRange :=
  .scheduled r.queue (.new r.rangeStart 0) (.new r.rangeEnd 0)

/-- `newTaskTableIterator`. -/
def newTaskTableIterator (parseAny : GoString → Option Time) (filters : List Expr) (db : DB) :
    Except BoundsError TaskTableIterator :=
  (initBounds parseAny filters).map fun r ↦ ⟨filters, r, newTaskIterator db r.range⟩

/-- `Eval` of the engine. -/
abbrev Engine (ε : Type*) := Expr → Row → Except ε (Option Bool)

/-- The loop of `Next` over the filters: whether the row passes all of them. `NULL` is converted to
false. -/
def passes (engine : Engine ε) (row : Row) : List Expr → Except ε Bool
  | [] => .ok true
  | filter :: filters =>
    match engine filter row with
    | .error e => .error e
    | .ok result => if result = some true then passes engine row filters else .ok false

inductive RowError (ε : Type*) where
  | eof
  | eval (e : ε)

/-- `Next`, with the entries that the underlying iterator has ahead of it. Every error of that
iterator ends the rows. -/
def nextFrom (engine : Engine ε) (filters : List Expr) (stop pre : Key) :
    List (Key × Value) → List (Key × Value) × Except (RowError ε) Row
  | [] => ([], .error .eof)
  | e :: rest =>
    match TaskIterator.next ⟨e :: rest, stop, pre⟩ with
    | (ti, .error _) => (ti.it, .error .eof)
    | (_, .ok task) =>
      match passes engine (rowFromTask task) filters with
      | .error err => (rest, .error (.eval err))
      | .ok true => (rest, .ok (rowFromTask task))
      | .ok false => nextFrom engine filters stop pre rest

/-- `Next`. -/
def TaskTableIterator.next (engine : Engine ε) (r : TaskTableIterator) :
    TaskTableIterator × Except (RowError ε) Row :=
  let (it, result) := nextFrom engine r.filters r.it.stop r.it.pre r.it.it
  ({ r with it := { r.it with it } }, result)

/-- The rows of `n` calls of `Next` at most, if the last of them is the first to return `io.EOF`. -/
def TaskTableIterator.rows (engine : Engine ε) : ℕ → TaskTableIterator → Option (List Row)
  | 0, _ => none
  | n + 1, r =>
    match r.next engine with
    | (r, .ok row) => (rows engine n r).map (row :: ·)
    | (_, .error .eof) => some []
    | (_, .error (.eval _)) => none

/-! ## Filters -/

/-- The order of two times. -/
def compareTimes (t u : Time) : Ordering :=
  if t.before u then .lt else if u.before t then .gt else .eq

/-- The instant of a literal. -/
def instant (parseAny : GoString → Option Time) (text : GoString) : Time :=
  getTime parseAny (.literal (some text))

/-- The filters that are looked at, with what they mean. -/
inductive Filter where
  /-- `deliver_at op text`, or with the literal on the left. -/
  | deliverAt (literalFirst : Bool) (op : Op) (text : GoString)
  /-- `deliver_at BETWEEN lower AND upper`. -/
  | between (lower upper : GoString)
  /-- `queue = name`, or with the literal on the left. -/
  | queue (literalFirst : Bool) (name : GoString)
  /-- An expression in which neither column occurs. -/
  | other (e : Expr) (deliverAt_not : ¬(Expr.getField taskColumnDeliverAt).PartOf e)
      (queue_not : ¬(Expr.getField taskColumnQueue).PartOf e) (holds : Row → Bool)

/-- A comparison of a column with a literal. -/
def columnCompare (literalFirst : Bool) (op : Op) (column text : GoString) : Expr :=
  if literalFirst then .compare op (.literal (some text)) (.getField column)
  else .compare op (.getField column) (.literal (some text))

/-- The expression of a filter. -/
def Filter.expr : Filter → Expr
  | .deliverAt literalFirst op text => columnCompare literalFirst op taskColumnDeliverAt text
  | .between lower upper =>
    .between (.getField taskColumnDeliverAt) (.literal (some lower)) (.literal (some upper))
  | .queue literalFirst name => columnCompare literalFirst .eq taskColumnQueue name
  | .other e _ _ _ => e

/-- The row satisfies the filter. -/
def Filter.Holds (parseAny : GoString → Option Time) (row : Row) : Filter → Prop
  | .deliverAt literalFirst op text =>
    let o := compareTimes row.deliverAt (instant parseAny text)
    op.holds (if literalFirst then o.swap else o) = true
  | .between lower upper =>
    Op.ge.holds (compareTimes row.deliverAt (instant parseAny lower)) = true ∧
      Op.le.holds (compareTimes row.deliverAt (instant parseAny upper)) = true
  | .queue _ name => row.queue = name
  | .other _ _ _ holds => holds row = true

instance (parseAny : GoString → Option Time) (row : Row) :
    DecidablePred (Filter.Holds parseAny row)
  | .deliverAt .. => inferInstanceAs (Decidable (_ = true))
  | .between .. => inferInstanceAs (Decidable (_ ∧ _))
  | .queue _ name => inferInstanceAs (Decidable (row.queue = name))
  | .other _ _ _ holds => inferInstanceAs (Decidable (holds row = true))

/-- The row satisfies all filters. -/
def Filter.All (parseAny : GoString → Option Time) (filters : List Filter) (row : Row) : Prop :=
  ∀ f ∈ filters, f.Holds parseAny row

instance (parseAny : GoString → Option Time) (filters : List Filter) :
    DecidablePred (Filter.All parseAny filters) := fun row ↦
  inferInstanceAs (Decidable (∀ f ∈ filters, f.Holds parseAny row))

/-- The engine evaluates the filters rightly. -/
def Decides (parseAny : GoString → Option Time) (engine : Engine ε) (filters : List Filter) :
    Prop :=
  ∀ f ∈ filters, ∀ row, ∃ v, engine f.expr row = .ok v ∧ (v = some true ↔ f.Holds parseAny row)

variable {parseAny : GoString → Option Time} {engine : Engine ε} {filters : List Filter} {db : DB}

theorem Filter.all_cons {f : Filter} {row : Row} : Filter.All parseAny (f :: filters) row ↔
    f.Holds parseAny row ∧ Filter.All parseAny filters row := List.forall_mem_cons

theorem passes_of_decides (h : Decides parseAny engine filters) (row : Row) :
    passes engine row (filters.map Filter.expr) =
      .ok (decide (Filter.All parseAny filters row)) := by
  induction filters with
  | nil =>
    have hall : Filter.All parseAny [] row := nofun
    rw [List.map_nil, passes, decide_eq_true hall]
  | cons f filters ih =>
    rw [Decides, List.forall_mem_cons] at h
    obtain ⟨v, hv, hiff⟩ := h.1 row
    simp only [List.map_cons, passes, hv, Filter.all_cons]
    by_cases hf : f.Holds parseAny row
    · rw [if_pos (hiff.mpr hf), ih h.2]
      simp [hf]
    · rw [if_neg (mt hiff.mp hf)]
      simp [hf]

/-! ## The rows of a scan -/

/-- The tasks whose rows satisfy the filters. -/
def wanted (parseAny : GoString → Option Time) (filters : List Filter) (ts : List Task) :
    List Task :=
  ts.filter fun t ↦ Filter.All parseAny filters (rowFromTask t)

theorem wanted_cons_of_all {t : Task} (h : Filter.All parseAny filters (rowFromTask t))
    (ts : List Task) :
    wanted parseAny filters (t :: ts) = t :: wanted parseAny filters ts :=
  List.filter_cons_of_pos (by simpa using h)

theorem wanted_cons_of_not {t : Task} (h : ¬Filter.All parseAny filters (rowFromTask t))
    (ts : List Task) : wanted parseAny filters (t :: ts) = wanted parseAny filters ts :=
  List.filter_cons_of_neg (by simpa using h)

theorem nextFrom_cases (h : Decides parseAny engine filters) {stop pre : Key}
    {entries : List (Key × Value)} (hti : TaskIterator.Sound ⟨entries, stop, pre⟩) :
    (∃ rest t, nextFrom engine (filters.map Filter.expr) stop pre entries =
        (rest, .ok (rowFromTask t)) ∧ TaskIterator.Sound ⟨rest, stop, pre⟩ ∧
        rest.length < entries.length ∧
        wanted parseAny filters (TaskIterator.ahead ⟨entries, stop, pre⟩) =
          t :: wanted parseAny filters (TaskIterator.ahead ⟨rest, stop, pre⟩)) ∨
      (nextFrom engine (filters.map Filter.expr) stop pre entries).2 = .error .eof ∧
        wanted parseAny filters (TaskIterator.ahead ⟨entries, stop, pre⟩) = [] := by
  induction entries with
  | nil => exact .inr ⟨rfl, rfl⟩
  | cons e rest ih =>
    rw [nextFrom]
    obtain ⟨ti', t, hnext⟩ | ⟨heof, hahead⟩ := hti.next_cases
    · obtain ⟨e', rest', hit, rfl, -, -⟩ := TaskIterator.next_eq_ok hnext
      obtain ⟨rfl, rfl⟩ := List.cons.inj hit
      have hsound := hti.next hnext
      rw [hnext, TaskIterator.ahead_of_next hnext]
      by_cases hall : Filter.All parseAny filters (rowFromTask t)
      · simp only [passes_of_decides h, decide_eq_true hall]
        exact .inl ⟨rest, t, rfl, hsound, Nat.lt_succ_self _, wanted_cons_of_all hall _⟩
      · simp only [passes_of_decides h, decide_eq_false hall]
        rw [wanted_cons_of_not hall]
        refine (ih hsound).imp_left ?_
        rintro ⟨rest', u, hrow, hsound', hlt, hwanted⟩
        exact ⟨rest', u, hrow, hsound', Nat.lt_succ_of_lt hlt, hwanted⟩
    · refine .inr ⟨?_, by rw [hahead]; rfl⟩
      rcases hn : TaskIterator.next ⟨e :: rest, stop, pre⟩ with ⟨ti', err | t⟩
      · rfl
      · rw [hn] at heof
        cases heof

namespace TaskTableIterator

variable {r : TaskTableIterator}

/-- The rows that an iterator has still to return. -/
def remaining (parseAny : GoString → Option Time) (filters : List Filter)
    (r : TaskTableIterator) : List Row :=
  (wanted parseAny filters r.it.ahead).map rowFromTask

theorem next_cases (h : Decides parseAny engine filters) (hr : r.filters = filters.map Filter.expr)
    (hsound : r.it.Sound) :
    (∃ r' row, r.next engine = (r', .ok row) ∧ r'.filters = r.filters ∧ r'.it.Sound ∧
        r'.it.it.length < r.it.it.length ∧
        r.remaining parseAny filters = row :: r'.remaining parseAny filters) ∨
      (r.next engine).2 = .error .eof ∧ r.remaining parseAny filters = [] := by
  rw [next, hr]
  obtain ⟨rest, t, hnext, hsound', hlt, hwanted⟩ | ⟨heof, hwanted⟩ := nextFrom_cases h hsound
  · rw [hnext]
    refine .inl ⟨_, _, rfl, rfl, hsound', hlt, ?_⟩
    rw [remaining, hwanted]
    rfl
  · refine .inr ⟨heof, ?_⟩
    rw [remaining, hwanted]
    rfl

/-- Repeated calls of `Next` come to the end. -/
theorem exists_rows (h : Decides parseAny engine filters) (hr : r.filters = filters.map Filter.expr)
    (hsound : r.it.Sound) : ∃ n, r.rows engine n = some (r.remaining parseAny filters) := by
  induction hlen : r.it.it.length using Nat.strong_induction_on generalizing r with
  | _ len ih =>
    obtain ⟨r', row, hnext, hfilters, hsound', hlt, hrem⟩ | ⟨heof, hrem⟩ := next_cases h hr hsound
    · obtain ⟨n, hn⟩ := ih _ (hlen ▸ hlt) (hfilters.trans hr) hsound' rfl
      refine ⟨n + 1, ?_⟩
      rw [rows, hnext, hrem]
      simp only [hn, Option.map_some]
    · refine ⟨1, ?_⟩
      rw [rows, hrem]
      rcases hn : r.next engine with ⟨r', err | row⟩
      · rw [hn] at heof
        cases heof
        rfl
      · rw [hn] at heof
        cases heof

theorem rows_eq (h : Decides parseAny engine filters) (hr : r.filters = filters.map Filter.expr)
    (hsound : r.it.Sound) {n : ℕ} {rs : List Row} (hrows : r.rows engine n = some rs) :
    rs = r.remaining parseAny filters := by
  induction n generalizing r rs with
  | zero => cases hrows
  | succ n ih =>
    rw [rows] at hrows
    obtain ⟨r', row, hnext, hfilters, hsound', -, hrem⟩ | ⟨heof, hrem⟩ := next_cases h hr hsound
    · simp only [hnext, Option.map_eq_some_iff] at hrows
      obtain ⟨rest, hrest, rfl⟩ := hrows
      rw [hrem, ih (hfilters.trans hr) hsound' hrest]
    · rcases hn : r.next engine with ⟨r', err | row⟩
      · rw [hn] at heof hrows
        cases heof
        exact (Option.some.inj hrows).symm.trans hrem.symm
      · rw [hn] at heof
        cases heof

end TaskTableIterator

/-! ## What is noted of the filters -/

/-- What `initBounds` notes of a filter. A comparison with the literal on the left is overlooked. -/
def Filter.note (parseAny : GoString → Option Time) (r : Bounds) : Filter → Bounds
  | .deliverAt false .eq text => { r with
      rangeStart := instant parseAny text
      rangeEnd := instant parseAny text }
  | .deliverAt false .lt text | .deliverAt false .le text => { r with
      rangeStart := TaskID.min.mustTime
      rangeEnd := instant parseAny text }
  | .deliverAt false .gt text | .deliverAt false .ge text => { r with
      rangeStart := instant parseAny text
      rangeEnd := TaskID.max.mustTime }
  | .between lower upper => { r with
      rangeStart := instant parseAny lower
      rangeEnd := instant parseAny upper }
  | .queue false name => { r with queue := name, queueFound := true }
  | .deliverAt true _ _ | .queue true _ | .other .. => r

theorem inspect_literalFirst (r : Bounds) (op : Op) (column text : GoString) :
    inspect (detect parseAny) r (columnCompare true op column text) = r := by
  have hdetect : detect parseAny r (columnCompare true op column text) = (r, true) := by
    cases op <;> rfl
  rw [inspect_of_go hdetect]
  rfl

theorem inspect_expr (r : Bounds) (f : Filter) :
    inspect (detect parseAny) r f.expr = f.note parseAny r := by
  have hne : taskColumnQueue ≠ taskColumnDeliverAt := by decide
  cases f with
  | deliverAt literalFirst op text =>
    cases literalFirst with
    | true => exact inspect_literalFirst r op _ text
    | false =>
      refine inspect_of_stop ?_
      cases op <;>
        simp [detect, Filter.expr, columnCompare, detectTimeBounds, isFieldExpression_getField,
          Filter.note, instant]
  | between lower upper =>
    refine inspect_of_stop ?_
    simp [detect, Filter.expr, detectTimeBounds, isFieldExpression_getField, Filter.note, instant]
  | queue literalFirst name =>
    cases literalFirst with
    | true => exact inspect_literalFirst r .eq _ name
    | false =>
      refine inspect_of_stop ?_
      have hname : getQueue (.literal (some name)) = name := by simp [getQueue, inspect]
      simp [detect, Filter.expr, columnCompare, detectTimeBounds, detectQueue,
        isFieldExpression_getField, hne, hname, Filter.note]
  | other e deliverAt_not queue_not holds =>
    exact inspect_detect_of_neither r deliverAt_not queue_not

theorem boundsOf_expr (filters : List Filter) :
    boundsOf parseAny (filters.map Filter.expr) = filters.foldl (Filter.note parseAny) {} := by
  rw [boundsOf, List.foldl_map]
  exact congrArg (fun note ↦ filters.foldl note {}) (funext₂ inspect_expr)

theorem note_deliverAt (r : Bounds) (literalFirst : Bool) (op : Op) (text : GoString) :
    ((Filter.deliverAt literalFirst op text).note parseAny r).queueFound = r.queueFound ∧
      ((Filter.deliverAt literalFirst op text).note parseAny r).queue = r.queue := by
  cases literalFirst <;> cases op <;> simp only [Filter.note, and_self]

/-- The ends of a range of times. Without a literal an end is that of all ids. -/
structure Ends where
  lower : Option GoString
  upper : Option GoString

/-- The ends that a filter gives. A comparison with the literal on the left gives none. -/
def Filter.ends : Filter → Option Ends
  | .deliverAt false .eq text => some ⟨some text, some text⟩
  | .deliverAt false .lt text | .deliverAt false .le text => some ⟨none, some text⟩
  | .deliverAt false .gt text | .deliverAt false .ge text => some ⟨some text, none⟩
  | .between lower upper => some ⟨some lower, some upper⟩
  | .deliverAt true _ _ | .queue .. | .other .. => none

/-- The ends that the last of the filters gives that gives any. -/
def lastEnds (filters : List Filter) : Option Ends :=
  filters.foldl (fun last f ↦ f.ends.or last) none

/-- The times of the ends. -/
def Ends.times (parseAny : GoString → Option Time) (e : Ends) : Time × Time :=
  (e.lower.elim TaskID.min.mustTime (instant parseAny),
    e.upper.elim TaskID.max.mustTime (instant parseAny))

theorem range_note (r : Bounds) (f : Filter) :
    ((f.note parseAny r).rangeStart, (f.note parseAny r).rangeEnd) =
      (f.ends.map (Ends.times parseAny)).getD (r.rangeStart, r.rangeEnd) := by
  cases f with
  | deliverAt literalFirst op text =>
    cases literalFirst <;> cases op <;>
      simp only [Filter.note, Filter.ends, Ends.times, Option.map_some, Option.map_none,
        Option.getD_some, Option.getD_none, Option.elim_some, Option.elim_none]
  | queue literalFirst name => cases literalFirst <;> rfl
  | _ => rfl

theorem range_foldl_note (parseAny : GoString → Option Time) (filters : List Filter) (r : Bounds)
    (last : Option Ends)
    (h : (r.rangeStart, r.rangeEnd) = (last.map (Ends.times parseAny)).getD (.zero, .zero)) :
    ((filters.foldl (Filter.note parseAny) r).rangeStart,
        (filters.foldl (Filter.note parseAny) r).rangeEnd) =
      ((filters.foldl (fun last f ↦ f.ends.or last) last).map (Ends.times parseAny)).getD
        (.zero, .zero) := by
  induction filters generalizing r last with
  | nil => exact h
  | cons f filters ih =>
    refine ih _ _ ?_
    rw [range_note, h]
    beta_reduce
    cases f.ends <;> rfl

/-- **What the range is.** The iterator scans between the ends of the last filter that gives
some. -/
theorem range_of_initBounds {r : Bounds}
    (h : initBounds parseAny (filters.map Filter.expr) = .ok r) :
    ∃ e, lastEnds filters = some e ∧ (r.rangeStart, r.rangeEnd) = e.times parseAny := by
  obtain ⟨rfl, hstart, -⟩ := initBounds_eq_ok h
  rw [boundsOf_expr] at hstart ⊢
  have hrange := range_foldl_note parseAny filters {} none rfl
  cases hlast : lastEnds filters with
  | none =>
    rw [lastEnds] at hlast
    rw [hlast] at hrange
    rw [(Prod.mk.inj hrange).1] at hstart
    cases hstart
  | some e =>
    rw [lastEnds] at hlast
    rw [hlast] at hrange
    exact ⟨e, rfl, hrange⟩

theorem queue_of_all {row : Row} (h : Filter.All parseAny filters row)
    (hfound : (filters.foldl (Filter.note parseAny) {}).queueFound = true) :
    row.queue = (filters.foldl (Filter.note parseAny) {}).queue := by
  refine List.foldlRecOn filters (Filter.note parseAny)
    (motive := fun r ↦ r.queueFound = true → row.queue = r.queue) Bool.false_ne_true.elim
    (fun r hr f hf ↦ ?_) hfound
  have hholds := h f hf
  cases f with
  | queue literalFirst name =>
    cases literalFirst with
    | true => exact hr
    | false => exact fun _ ↦ hholds
  | deliverAt literalFirst op text =>
    rw [(note_deliverAt r literalFirst op text).1, (note_deliverAt r literalFirst op text).2]
    exact hr
  | _ => exact hr

/-! ## The range of the scan -/

/-- The time of an id is between two stamps, the upper one excluded but for the index zero. -/
def Between (lower upper : UInt64) (id : TaskID) : Prop :=
  lower ≤ id.timestamp ∧ (id.timestamp < upper ∨ id.timestamp = upper ∧ id.index = 0)

instance (lower upper : UInt64) (id : TaskID) : Decidable (Between lower upper id) :=
  inferInstanceAs (Decidable (_ ∧ (_ ∨ _ ∧ _)))

/-- The id is within the range that is scanned. -/
def Bounds.Covers (r : Bounds) (id : TaskID) : Prop :=
  Between r.rangeStart.unixNano.toUInt64 r.rangeEnd.unixNano.toUInt64 id

/-- The id is between the ends: from the stamp of the lower literal on, or from zero, and up to that
of the upper one, or to that of `iden.Max`. -/
def Ends.Covers (parseAny : GoString → Option Time) (e : Ends) (id : TaskID) : Prop :=
  Between (e.lower.elim 0 fun text ↦ (instant parseAny text).unixNano.toUInt64)
    (e.upper.elim (2 ^ 64 - 10 ^ 9) fun text ↦ (instant parseAny text).unixNano.toUInt64) id

instance (e : Ends) (id : TaskID) : Decidable (e.Covers parseAny id) :=
  inferInstanceAs (Decidable (Between _ _ _))

theorem Bounds.covers_iff {r : Bounds} {id : TaskID} :
    r.Covers id ↔ (compare (TaskID.new r.rangeStart 0).bytes id.bytes).isLE ∧
      (compare id.bytes (TaskID.new r.rangeEnd 0).bytes).isLE := by
  have hindex := id.index.toNat_lt
  rw [TaskID.compare_bytes, TaskID.compare_bytes, Nat.isLE_compare, Nat.isLE_compare,
    TaskID.toNat_new, TaskID.toNat_new, id.toNat_eq, UInt64.toNat_zero, Covers, Between,
    UInt64.le_iff_toNat_le, UInt64.lt_iff_toNat_lt, ← UInt64.toNat_inj, ← UInt64.toNat_inj,
    UInt64.toNat_zero]
  omega

theorem stamp_min : TaskID.min.mustTime.unixNano.toUInt64 = 0 := by
  rw [TaskID.unixNano_mustTime]
  decide

theorem stamp_max : TaskID.max.mustTime.unixNano.toUInt64 = 2 ^ 64 - 10 ^ 9 := by
  rw [TaskID.unixNano_mustTime]
  decide +kernel

theorem Bounds.covers_iff_ends {r : Bounds} {e : Ends}
    (h : (r.rangeStart, r.rangeEnd) = e.times parseAny) {id : TaskID} :
    r.Covers id ↔ e.Covers parseAny id := by
  obtain ⟨hstart, hend⟩ := Prod.mk.inj h
  rw [Covers, Ends.Covers, hstart, hend]
  rcases e with ⟨_ | lower, _ | upper⟩ <;>
    simp only [Option.elim_none, Option.elim_some, stamp_min, stamp_max]

theorem Bounds.wants_range {r : Bounds} {t : Task} : r.range.Wants t ↔
    t.queue = r.queue ∧ t.scheduleTime ≠ none ∧ ∃ id ∈ mustParseString t.id, r.Covers id := by
  simp only [Bounds.covers_iff]
  rfl

/-! ## Times that an id keeps -/

/-- An id keeps the exact instant: it is from 1970 up to the second before that of `iden.Max`. -/
def Stampable (t : Time) : Prop := 0 ≤ t.nanos ∧ t.nanos < 2 ^ 64 - 10 ^ 9

/-- The ids keep the instants of the literals that `deliver_at` is compared with. -/
def Filter.Exact (parseAny : GoString → Option Time) : Filter → Prop
  | .deliverAt _ _ text => Stampable (instant parseAny text)
  | .between lower upper => Stampable (instant parseAny lower) ∧
      Stampable (instant parseAny upper)
  | .queue .. | .other .. => True

theorem compareTimes_eq {t u : Time} (ht : Stampable t) (hu : Stampable u) :
    compareTimes t u = compare t.nanos u.nanos := by
  obtain ⟨h1, h2⟩ := ht
  obtain ⟨h3, h4⟩ := hu
  have htu : t.before u = true ↔ t.nanos < u.nanos :=
    Time.before_iff_nanos_lt ⟨by omega, by omega⟩ ⟨by omega, by omega⟩
  have hut : u.before t = true ↔ u.nanos < t.nanos :=
    Time.before_iff_nanos_lt ⟨by omega, by omega⟩ ⟨by omega, by omega⟩
  rw [compareTimes]
  rcases lt_trichotomy t.nanos u.nanos with hlt | heq | hgt
  · rw [if_pos (htu.mpr hlt), compare_lt_iff_lt.mpr hlt]
  · rw [if_neg (mt htu.mp heq.not_lt), if_neg (mt hut.mp heq.not_gt), compare_eq_iff_eq.mpr heq]
  · rw [if_neg (mt htu.mp hgt.not_gt), if_pos (hut.mpr hgt), compare_gt_iff_gt.mpr hgt]

theorem stamp_le_of_nanos_le {t u : Time} (ht : Stampable t) (hu : Stampable u)
    (hle : t.nanos ≤ u.nanos) : t.unixNano.toUInt64 ≤ u.unixNano.toUInt64 := by
  have h1 := toNat_unixNano t ht.1 (by have := ht.2; omega)
  have h2 := toNat_unixNano u hu.1 (by have := hu.2; omega)
  rw [UInt64.le_iff_toNat_le]
  omega

theorem stamp_min_le (t : Time) :
    TaskID.min.mustTime.unixNano.toUInt64 ≤ t.unixNano.toUInt64 := by
  rw [stamp_min, UInt64.le_iff_toNat_le]
  exact Nat.zero_le _

theorem stamp_le_max {t : Time} (ht : Stampable t) :
    t.unixNano.toUInt64 ≤ TaskID.max.mustTime.unixNano.toUInt64 := by
  have hmax : (2 ^ 64 - 10 ^ 9 : UInt64).toNat = 2 ^ 64 - 10 ^ 9 := by decide +kernel
  obtain ⟨hlo, hhi⟩ := ht
  have hstamp := toNat_unixNano t hlo (by omega)
  rw [stamp_max, UInt64.le_iff_toNat_le, hmax]
  omega

/-- The stamp of the time is between those of the ends, if there are ends. -/
def Bounds.Spans (r : Bounds) (t : Time) : Prop := r.rangeStart.isZero = false →
  r.rangeStart.unixNano.toUInt64 ≤ t.unixNano.toUInt64 ∧
    t.unixNano.toUInt64 ≤ r.rangeEnd.unixNano.toUInt64

theorem Bounds.Spans.note {r : Bounds} {row : Row} (hr : r.Spans row.deliverAt)
    (hrow : Stampable row.deliverAt) {f : Filter} (hf : f.Exact parseAny)
    (hholds : f.Holds parseAny row) : (f.note parseAny r).Spans row.deliverAt := by
  cases f with
  | deliverAt literalFirst op text =>
    cases literalFirst with
    | true => exact hr
    | false =>
      rw [Filter.Holds, if_neg Bool.false_ne_true, compareTimes_eq hrow hf] at hholds
      cases op with
      | eq =>
        have heq := compare_eq_iff_eq.mp (beq_iff_eq.mp hholds)
        exact fun _ ↦ ⟨stamp_le_of_nanos_le hf hrow heq.ge, stamp_le_of_nanos_le hrow hf heq.le⟩
      | lt =>
        have hlt := compare_lt_iff_lt.mp (beq_iff_eq.mp hholds)
        exact fun _ ↦ ⟨stamp_min_le _, stamp_le_of_nanos_le hrow hf hlt.le⟩
      | le =>
        have hle := compare_le_iff_le.mp (bne_iff_ne.mp hholds)
        exact fun _ ↦ ⟨stamp_min_le _, stamp_le_of_nanos_le hrow hf hle⟩
      | gt =>
        have hgt := compare_gt_iff_gt.mp (beq_iff_eq.mp hholds)
        exact fun _ ↦ ⟨stamp_le_of_nanos_le hf hrow hgt.le, stamp_le_max hrow⟩
      | ge =>
        have hge := compare_ge_iff_ge.mp (bne_iff_ne.mp hholds)
        exact fun _ ↦ ⟨stamp_le_of_nanos_le hf hrow hge, stamp_le_max hrow⟩
  | between lower upper =>
    obtain ⟨hlower, hupper⟩ := hf
    rw [Filter.Holds, compareTimes_eq hrow hlower, compareTimes_eq hrow hupper] at hholds
    have hge := compare_ge_iff_ge.mp (bne_iff_ne.mp hholds.1)
    have hle := compare_le_iff_le.mp (bne_iff_ne.mp hholds.2)
    exact fun _ ↦ ⟨stamp_le_of_nanos_le hlower hrow hge, stamp_le_of_nanos_le hrow hupper hle⟩
  | queue literalFirst name => cases literalFirst <;> exact hr
  | other e deliverAt_not queue_not holds => exact hr

/-- **Only at the upper end.** Where an id keeps the time of its task and the times of the filters
are kept too, the id of a task that satisfies the filters is within the range, unless its time is
the end of the range and its index is not zero. -/
theorem covers_iff_of_stamp {r : Bounds}
    (hr : initBounds parseAny (filters.map Filter.expr) = .ok r)
    (hexact : ∀ f ∈ filters, f.Exact parseAny) {row : Row}
    (hall : Filter.All parseAny filters row) (hrow : Stampable row.deliverAt) {id : TaskID}
    (hid : id.timestamp = row.deliverAt.unixNano.toUInt64) :
    r.Covers id ↔ id.timestamp ≠ r.rangeEnd.unixNano.toUInt64 ∨ id.index = 0 := by
  obtain ⟨rfl, hstart, -⟩ := initBounds_eq_ok hr
  rw [boundsOf_expr] at hstart ⊢
  have hspans : (filters.foldl (Filter.note parseAny) {}).Spans row.deliverAt :=
    List.foldlRecOn filters _ (motive := (Bounds.Spans · row.deliverAt)) Bool.noConfusion
      fun r hr f hf ↦ hr.note hrow (hexact f hf) (hall f hf)
  obtain ⟨hlo, hhi⟩ := hspans hstart
  rw [← hid] at hlo hhi
  rw [Bounds.Covers, Between, and_iff_right hlo]
  constructor
  · rintro (hlt | ⟨-, hindex⟩)
    · exact .inl (UInt64.ne_of_lt hlt)
    · exact .inr hindex
  · intro h
    by_cases heq : id.timestamp =
        (filters.foldl (Filter.note parseAny) {}).rangeEnd.unixNano.toUInt64
    · exact .inr ⟨heq, h.resolve_left (not_not_intro heq)⟩
    · exact .inl (UInt64.lt_of_le_of_ne hhi heq)

/-- A push whose id keeps its time, before the second of `iden.Max`. -/
structure Dated (p : Push) : Prop where
  scheduled : p.Scheduled
  le_nanos : 2 ^ 56 ≤ p.runTime.nanos
  nanos_lt : p.runTime.nanos < 2 ^ 64 - 10 ^ 9

theorem Dated.stampable {p : Push} (hp : Dated p) : Stampable p.runTime :=
  ⟨by have := hp.le_nanos; omega, hp.nanos_lt⟩

theorem stamp_eq_iff {t u : Time} (ht : Stampable t) (hu : Stampable u) :
    t.unixNano.toUInt64 = u.unixNano.toUInt64 ↔ t.nanos = u.nanos := by
  have h1 := toNat_unixNano t ht.1 (by have := ht.2; omega)
  have h2 := toNat_unixNano u hu.1 (by have := hu.2; omega)
  rw [← UInt64.toNat_inj]
  omega

/-- So of the pushes that satisfy the filters only those for the instant of the upper literal are
lost, unless they have the index zero. -/
theorem covers_push_iff {r : Bounds} {e : Ends}
    (hr : initBounds parseAny (filters.map Filter.expr) = .ok r)
    (he : (r.rangeStart, r.rangeEnd) = e.times parseAny)
    (hupper : ∀ text ∈ e.upper, Stampable (instant parseAny text))
    (hexact : ∀ f ∈ filters, f.Exact parseAny) {p : Push} (hp : Dated p)
    (hall : Filter.All parseAny filters (rowFromTask p.task)) :
    (∃ id ∈ mustParseString p.task.id, r.Covers id) ↔
      ∀ text ∈ e.upper, p.runTime.nanos = (instant parseAny text).nanos → p.index = 0 := by
  obtain ⟨hlo, hhi⟩ := hp.stampable
  have hstamp := toNat_unixNano p.runTime hlo (by omega)
  have hrow : (rowFromTask p.task).deliverAt = p.runTime := by
    rw [rowFromTask, p.scheduleTime_of_scheduled hp.scheduled, Option.getD_some,
      Timestamp.asTime_new]
  have hid : p.id.timestamp = p.runTime.unixNano.toUInt64 := TaskID.timestamp_new _ _
  have hcovers := covers_iff_of_stamp hr hexact hall (by rw [hrow]; exact hp.stampable)
    (hid.trans (by rw [hrow]))
  have hread : p.id.reparsed = p.id :=
    TaskID.reparsed_of_le (p.le_toNat_id (by have := hp.le_nanos; omega))
  rw [p.mustParseString_task, hread]
  simp only [Option.mem_some_iff, exists_eq_left', hcovers, hid, Push.index_id,
    (Prod.mk.inj he).2]
  rcases e with ⟨lower, _ | text⟩
  · -- there is no literal, and the push is before the end of all ids
    refine iff_of_true (.inl ?_) nofun
    rw [Option.elim_none, stamp_max, ne_eq, ← UInt64.toNat_inj]
    have hmax : (2 ^ 64 - 10 ^ 9 : UInt64).toNat = 2 ^ 64 - 10 ^ 9 := by decide +kernel
    omega
  · rw [Option.elim_some, ne_eq, stamp_eq_iff hp.stampable (hupper text rfl)]
    simp only [Option.mem_some_iff, forall_eq', ← imp_iff_not_or]

theorem stampable_upper {e : Ends} (hlast : lastEnds filters = some e)
    (hexact : ∀ f ∈ filters, f.Exact parseAny) :
    ∀ text ∈ e.upper, Stampable (instant parseAny text) := by
  have hof : ∀ f : Filter, f.Exact parseAny → ∀ e ∈ f.ends, ∀ text ∈ e.upper,
      Stampable (instant parseAny text) := by
    intro f hf e he text htext
    cases f with
    | deliverAt literalFirst op t =>
      cases literalFirst <;> cases op <;>
        simp only [Filter.ends, Option.mem_some_iff, Option.not_mem_none] at he <;>
        subst he <;> cases htext <;> exact hf
    | between lower upper =>
      cases he
      cases htext
      exact hf.2
    | queue literalFirst name => cases he
    | other c deliverAt_not queue_not holds => cases he
  refine List.foldlRecOn filters (fun (last : Option Ends) (f : Filter) ↦ f.ends.or last)
    (motive := fun last ↦ ∀ e ∈ last, ∀ text ∈ e.upper, Stampable (instant parseAny text))
    nofun (fun last hl f hf e he ↦ ?_) e hlast
  rcases Option.or_eq_some_iff.mp he with hends | ⟨-, hold⟩
  · exact hof f (hexact f hf) e hends
  · exact hl e hold

/-! ## The stored tasks -/

/-- The stored tasks with a schedule time, in the order of their keys. -/
def scheduledTasks (db : DB) : List Task :=
  ((db.toList.filter (IsTaskKey ·.1)).filterMap TaskIterator.taskOf).filter (·.scheduleTime ≠ none)

theorem mem_scheduledTasks (hdb : Filed db) {t : Task} :
    t ∈ scheduledTasks db ↔ Stored db t ∧ t.scheduleTime ≠ none := by
  rw [scheduledTasks, List.mem_filter, decide_eq_true_eq, List.mem_filterMap]
  refine and_congr_left fun _ ↦ ⟨?_, ?_⟩
  · rintro ⟨⟨k, v⟩, he, ht⟩
    rw [List.mem_filter, decide_eq_true_eq] at he
    obtain ⟨u, rfl, hk⟩ := hdb k v he.2 (mem_toList.mp he.1)
    obtain rfl : u = t := Option.some.inj ht
    exact ⟨k, hk, mem_toList.mp he.1⟩
  · rintro ⟨k, hk, hget⟩
    refine ⟨(k, .task t), ?_, rfl⟩
    rw [List.mem_filter, decide_eq_true_eq]
    exact ⟨mem_toList.mpr hget, isTaskKey_recordKey hk⟩

theorem nodup_scheduledTasks (hdb : Filed db) : (scheduledTasks db).Nodup := by
  refine List.Nodup.filter _ ?_
  rw [List.Nodup, List.pairwise_filterMap]
  refine ((pairwise_toList db).filter _).imp_of_mem fun {a b} ha hb hab t ht u hu ↦ ?_
  rw [List.mem_filter, decide_eq_true_eq] at ha hb
  have hk := hdb.recordKey_of_taskOf ha.1 ha.2 ht
  have hl := hdb.recordKey_of_taskOf hb.1 hb.2 hu
  exact ne_of_apply_ne recordKey (recordKey_ne_of_lt hk hl hab)

theorem mem_wanted {t : Task} {ts : List Task} : t ∈ wanted parseAny filters ts ↔
    t ∈ ts ∧ Filter.All parseAny filters (rowFromTask t) := by
  rw [wanted, List.mem_filter, decide_eq_true_eq]

/-- The wanted tasks of the scan are those of the store that are within its range. -/
theorem mem_wanted_handedOut (hdb : Filed db) {r : Bounds}
    (hqueue : ∀ row, Filter.All parseAny filters row → row.queue = r.queue) {t : Task} :
    t ∈ wanted parseAny filters (handedOut db r.range) ↔
      t ∈ wanted parseAny filters (scheduledTasks db) ∧
        ∃ id ∈ mustParseString t.id, r.Covers id := by
  rw [mem_wanted, mem_wanted, mem_scheduledTasks hdb]
  by_cases hall : Filter.All parseAny filters (rowFromTask t)
  · have hq : t.queue = r.range.getQueue := hqueue _ hall
    have hmem := mem_filter_handedOut hdb (r := r.range) (t := t)
    rw [List.mem_filter, decide_eq_true_eq, and_iff_left hq, Bounds.wants_range] at hmem
    rw [hmem]
    tauto
  · tauto

theorem newTaskTableIterator_eq_ok {x : TaskTableIterator}
    (h : newTaskTableIterator parseAny (filters.map Filter.expr) db = .ok x) :
    x = ⟨filters.map Filter.expr, x.bounds, newTaskIterator db x.bounds.range⟩ ∧
      initBounds parseAny (filters.map Filter.expr) = .ok x.bounds := by
  rw [newTaskTableIterator] at h
  cases hr : initBounds parseAny (filters.map Filter.expr) with
  | error e => rw [hr] at h; cases h
  | ok r =>
    rw [hr] at h
    obtain rfl := Except.ok.inj h
    exact ⟨rfl, rfl⟩

theorem queue_of_initBounds {r : Bounds} (h : initBounds parseAny (filters.map Filter.expr) = .ok r)
    {row : Row} (hall : Filter.All parseAny filters row) : row.queue = r.queue := by
  obtain ⟨rfl, -, hfound⟩ := initBounds_eq_ok h
  rw [boundsOf_expr] at hfound ⊢
  exact queue_of_all hall hfound

/-- The rows up to the end are those of the wanted tasks exactly if none of these is outside the
range that is scanned. -/
theorem rows_perm_iff_covers (hdb : Filed db) (h : Decides parseAny engine filters)
    {x : TaskTableIterator}
    (hx : newTaskTableIterator parseAny (filters.map Filter.expr) db = .ok x) :
    (∃ n rs, x.rows engine n = some rs ∧
        rs.Perm ((wanted parseAny filters (scheduledTasks db)).map rowFromTask)) ↔
      ∀ t ∈ wanted parseAny filters (scheduledTasks db),
        ∃ id ∈ mustParseString t.id, x.bounds.Covers id := by
  obtain ⟨hx, hinit⟩ := newTaskTableIterator_eq_ok hx
  have hfilters : x.filters = filters.map Filter.expr := by rw [hx]
  have hit : x.it = newTaskIterator db x.bounds.range := by rw [hx]
  have hsound : x.it.Sound := hit ▸ hdb.sound _
  have hrem : x.remaining parseAny filters =
      (wanted parseAny filters (handedOut db x.bounds.range)).map rowFromTask := by
    rw [TaskTableIterator.remaining, hit, ahead_newTaskIterator hdb]
  have hscan : (wanted parseAny filters (handedOut db x.bounds.range)).Nodup :=
    (nodup_handedOut hdb _).filter _
  have hstore : (wanted parseAny filters (scheduledTasks db)).Nodup :=
    (nodup_scheduledTasks hdb).filter _
  have hmem := fun t ↦ mem_wanted_handedOut hdb (fun _ ↦ queue_of_initBounds hinit) (t := t)
  constructor
  · rintro ⟨n, rs, hrows, hperm⟩ t ht
    rw [TaskTableIterator.rows_eq h hfilters hsound hrows, hrem] at hperm
    -- the scan hands out a part of the store, and so all of it if their numbers agree
    have hsub : wanted parseAny filters (handedOut db x.bounds.range) ⊆
        wanted parseAny filters (scheduledTasks db) := fun u hu ↦ ((hmem u).mp hu).1
    have hlen := hperm.length_eq
    rw [List.length_map, List.length_map] at hlen
    have hall := (hscan.subperm hsub).perm_of_length_le hlen.ge
    exact ((hmem t).mp (hall.mem_iff.mpr ht)).2
  · intro hcovers
    obtain ⟨n, hrows⟩ := TaskTableIterator.exists_rows h hfilters hsound
    refine ⟨n, _, hrows, ?_⟩
    rw [hrem]
    refine List.Perm.map _ ((List.perm_ext_iff_of_nodup hscan hstore).mpr fun t ↦ ?_)
    rw [hmem t]
    exact and_iff_left_of_imp (hcovers t)

/-- **What a query returns.** Let `e` be the ends that the last filter with ends gives. Repeated
calls of `Next` come to the end with exactly the rows of the stored scheduled tasks that satisfy the
filters, if and only if the ids of these tasks are all between the ends. Where the tasks are pushes
whose ids keep their times, and ids keep the instants of the literals too, that says that the only
one of them at the very instant of the upper literal is one with the index zero. -/
theorem rows_perm_iff (hdb : Filed db) (h : Decides parseAny engine filters)
    {x : TaskTableIterator}
    (hx : newTaskTableIterator parseAny (filters.map Filter.expr) db = .ok x) :
    ∃ e, lastEnds filters = some e ∧
      ((∃ n rs, x.rows engine n = some rs ∧
          rs.Perm ((wanted parseAny filters (scheduledTasks db)).map rowFromTask)) ↔
        ∀ t ∈ wanted parseAny filters (scheduledTasks db),
          ∃ id ∈ mustParseString t.id, e.Covers parseAny id) ∧
      ((∀ f ∈ filters, f.Exact parseAny) →
        (∀ t ∈ wanted parseAny filters (scheduledTasks db), ∃ p, Dated p ∧ p.task = t) →
        ((∃ n rs, x.rows engine n = some rs ∧
            rs.Perm ((wanted parseAny filters (scheduledTasks db)).map rowFromTask)) ↔
          ∀ p, Dated p → p.task ∈ wanted parseAny filters (scheduledTasks db) →
            ∀ text ∈ e.upper, p.runTime.nanos = (instant parseAny text).nanos → p.index = 0)) := by
  have hinit := (newTaskTableIterator_eq_ok hx).2
  obtain ⟨e, hlast, htimes⟩ := range_of_initBounds hinit
  rw [rows_perm_iff_covers hdb h hx]
  refine ⟨e, hlast, ?_, fun hexact hpush ↦ ?_⟩
  · simp only [Bounds.covers_iff_ends htimes]
  · have hcovers : ∀ {p}, Dated p → p.task ∈ wanted parseAny filters (scheduledTasks db) → _ :=
      fun {p} hp hmem ↦ covers_push_iff hinit htimes (stampable_upper hlast hexact) hexact hp
        (mem_wanted.mp hmem).2
    constructor
    · exact fun hall p hp hmem ↦ (hcovers hp hmem).mp (hall _ hmem)
    · intro hall t ht
      obtain ⟨p, hp, rfl⟩ := hpush t ht
      exact (hcovers hp ht).mpr (hall p hp ht)

/-- `queue = 'q' AND deliver_at BETWEEN '2022-04-16' AND '2022-04-17'`. -/
def aprilFilters : List Filter :=
  [.queue false (lit "q"), .between (lit "2022-04-16") (lit "2022-04-17")]

/-- An engine for these filters. -/
def aprilEngine : Engine Empty
  | .compare _ _ (.literal (some name)), row => .ok (some (decide (row.queue = name)))
  | .between _ (.literal (some lower)) (.literal (some upper)), row =>
    .ok (some (decide ((Filter.between lower upper).Holds aprilDays row)))
  | _, _ => .ok none

/-- What is noted of these filters. -/
def aprilBounds : Bounds := ⟨.ofUnix 1650067200 0, .ofUnix 1650153600 0, lit "q", true⟩

/-- The first task of the queue, scheduled for that second of the Unix clock. -/
def taskAt (sec : Int64) : Task :=
  makeTask { queue := lit "q", schedule := .scheduleTime ⟨sec, 0⟩ } (.ofUnix 1650000000 0)
    (.ofUnix 1650000000 0) 1

theorem decides_aprilEngine : Decides aprilDays aprilEngine aprilFilters := by
  intro f hf row
  rw [aprilFilters, List.mem_cons, List.mem_singleton] at hf
  obtain rfl | rfl := hf
  · exact ⟨_, rfl, by rw [Option.some_inj, decide_eq_true_eq]; rfl⟩
  · exact ⟨_, rfl, by rw [Option.some_inj, decide_eq_true_eq]⟩

theorem newTaskTableIterator_aprilFilters (db : DB) :
    newTaskTableIterator aprilDays (aprilFilters.map Filter.expr) db =
      .ok ⟨aprilFilters.map Filter.expr, aprilBounds, newTaskIterator db aprilBounds.range⟩ := by
  have hinit : initBounds aprilDays (aprilFilters.map Filter.expr) = .ok aprilBounds := by
    decide +kernel
  rw [newTaskTableIterator, hinit]
  rfl

/-- A task in the morning of the sixteenth is returned. -/
theorem rows_perm_iff_sixteenth : ∃ db x, saves [([taskAt 1650100000], true)] = some db ∧
    newTaskTableIterator aprilDays (aprilFilters.map Filter.expr) db = .ok x ∧
    wanted aprilDays aprilFilters (scheduledTasks db) = [taskAt 1650100000] ∧
    ∃ n rs, x.rows aprilEngine n = some rs ∧
      rs.Perm ((wanted aprilDays aprilFilters (scheduledTasks db)).map rowFromTask) := by
  have hstore : (saves [([taskAt 1650100000], true)]).map
      (fun db ↦ decide (wanted aprilDays aprilFilters (scheduledTasks db) = [taskAt 1650100000]))
      = some true := by decide +kernel
  obtain ⟨db, hdb, hwanted⟩ := Option.map_eq_some_iff.mp hstore
  rw [decide_eq_true_eq] at hwanted
  have hx := newTaskTableIterator_aprilFilters db
  obtain ⟨e, he, hiff, -⟩ := rows_perm_iff (filed_saves hdb) decides_aprilEngine hx
  refine ⟨db, _, hdb, hx, hwanted, hiff.mpr ?_⟩
  obtain rfl := Option.some.inj he
  have hcovers : ∀ t ∈ [taskAt 1650100000], ∃ id ∈ mustParseString t.id,
      Ends.Covers aprilDays ⟨some (lit "2022-04-16"), some (lit "2022-04-17")⟩ id := by
    decide +kernel
  exact hwanted ▸ hcovers

/-- A task at the first instant of the seventeenth satisfies the filters and is not returned. -/
theorem rows_lose_seventeenth : ∃ db x, saves [([taskAt 1650153600], true)] = some db ∧
    newTaskTableIterator aprilDays (aprilFilters.map Filter.expr) db = .ok x ∧
    Decides aprilDays aprilEngine aprilFilters ∧ x.rows aprilEngine 1 = some [] ∧
    wanted aprilDays aprilFilters (scheduledTasks db) = [taskAt 1650153600] ∧
    ¬∃ n rs, x.rows aprilEngine n = some rs ∧
      rs.Perm ((wanted aprilDays aprilFilters (scheduledTasks db)).map rowFromTask) := by
  have hstore : (saves [([taskAt 1650153600], true)]).map (fun db ↦ decide
      (wanted aprilDays aprilFilters (scheduledTasks db) = [taskAt 1650153600] ∧
        TaskTableIterator.rows aprilEngine 1 ⟨aprilFilters.map Filter.expr, aprilBounds,
          newTaskIterator db aprilBounds.range⟩ = some [])) = some true := by decide +kernel
  obtain ⟨db, hdb, hd⟩ := Option.map_eq_some_iff.mp hstore
  rw [decide_eq_true_eq] at hd
  obtain ⟨hwanted, hempty⟩ := hd
  have hx := newTaskTableIterator_aprilFilters db
  refine ⟨db, _, hdb, hx, decides_aprilEngine, hempty, hwanted, ?_⟩
  rintro ⟨n, rs, hrows, hperm⟩
  have hsound := (filed_saves hdb).sound aprilBounds.range
  rw [TaskTableIterator.rows_eq decides_aprilEngine rfl hsound hrows,
    ← TaskTableIterator.rows_eq decides_aprilEngine rfl hsound hempty, hwanted] at hperm
  exact absurd hperm.length_eq (by decide)

end Z4.Sqli
