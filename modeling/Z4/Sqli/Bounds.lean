import Z4.Foundations.Lexicographic
import Z4.Storage.Iterator

/-!
# The bounds of a task query

The SQL interface has a table of scheduled tasks. It tells the engine that it handles every filter,
and scans a part of one queue that it reads off the filters. `initBounds` walks through each filter
and notes the last comparison of `deliver_at` and the last equality of `queue` that it comes to.

## Whatever stands above them

The walk does not look at the connectives. Of `queue = 'a' OR queue = 'b'` it keeps `b`, and of
`NOT queue = 'a'` it keeps `a`, although rows of other queues satisfy these filters. It notes the
name of the last equality with the column on the left, in the order of the text (`noted_boundsOf`).
That is the right queue if the equality, or another one with the same name, is reached through `AND`
only. In general there are several ways to make all filters true, each a list of comparisons with
the values that they need to have, and the name is the right one if no way is open to a row of
another queue (`detected_sound_iff`). Where only comparisons with literals look at the queue, a way
says nothing about a queue except how its name compares with these, so finitely many names are
enough to find out.

## Expressions

Of the engine's expressions those are told apart that the code or the meaning of `AND`, `OR` and
`NOT` tells apart. Everything else is `other`, with its children. A condition is an expression of
comparisons between columns and literals. A row satisfies a filter that evaluates to true, and what
the engine makes of a comparison that is not between the queue and a string literal is left open.
-/

namespace Z4.Sqli

open Lexicographic

/-! ## Columns and rows -/

/-- `taskColumnQueue`. -/
def taskColumnQueue : GoString := lit "queue"

/-- `taskColumnDeliverAt`. -/
def taskColumnDeliverAt : GoString := lit "deliver_at"

/-- A row of the table. -/
structure Row where
  queue : GoString
  id : GoString
  deliverAt : Time
  lastRetry : Option Time
  metadata : List (GoString × GoString)
  payload : List UInt8
deriving DecidableEq

/-! ## Expressions -/

/-- `Equals`, `LessThan`, `LessThanOrEqual`, `GreaterThan` and `GreaterThanOrEqual`. -/
inductive Op where
  | eq
  | lt
  | le
  | gt
  | ge
deriving DecidableEq

/-- `sql.Expression`. -/
inductive Expr where
  | getField (name : GoString)
  /-- A literal, with its text if it has a string type. -/
  | literal (text : Option GoString)
  | compare (op : Op) (left right : Expr)
  | between (val lower upper : Expr)
  | and (left right : Expr)
  | or (left right : Expr)
  | not (child : Expr)
  | other (children : List Expr)

/-- `Children`. -/
def Expr.children : Expr → List Expr
  | .getField _ | .literal _ => []
  | .compare _ left right | .and left right | .or left right => [left, right]
  | .between val lower upper => [val, lower, upper]
  | .not child => [child]
  | .other children => children

/-- Induction over expressions: what holds of an expression when it holds of its children holds of
all. -/
@[elab_as_elim]
theorem Expr.childInduction {P : Expr → Prop} (step : ∀ e, (∀ c ∈ e.children, P c) → P e)
    (e : Expr) : P e := by
  refine @Expr.rec P (fun cs ↦ ∀ c ∈ cs, P c) ?_ ?_ ?_ ?_ ?_ ?_ ?_ ?_ ?_ ?_ e
  · exact fun name ↦ step _ nofun
  · exact fun text ↦ step _ nofun
  · exact fun op left right hl hr ↦ step _ (by simp [children, hl, hr])
  · exact fun val lower upper hv hl hu ↦ step _ (by simp [children, hv, hl, hu])
  · exact fun left right hl hr ↦ step _ (by simp [children, hl, hr])
  · exact fun left right hl hr ↦ step _ (by simp [children, hl, hr])
  · exact fun child hc ↦ step _ (by simp [children, hc])
  · exact fun children hcs ↦ step _ hcs
  · exact nofun
  · exact fun c cs hc hcs ↦ List.forall_mem_cons.mpr ⟨hc, hcs⟩

mutual

/-- `sql.Inspect` with a function that keeps a state and says whether to go on to the children. -/
def inspect {σ : Type*} (visit : σ → Expr → σ × Bool) (s : σ) (e : Expr) : σ :=
  match visit s e with
  | (s, false) => s
  | (s, true) =>
    match e with
    | .getField _ | .literal _ => s
    | .compare _ left right | .and left right | .or left right =>
      inspect visit (inspect visit s left) right
    | .between val lower upper => inspect visit (inspect visit (inspect visit s val) lower) upper
    | .not child => inspect visit s child
    | .other children => inspectAll visit s children

/-- The expressions one after the other. -/
def inspectAll {σ : Type*} (visit : σ → Expr → σ × Bool) (s : σ) : List Expr → σ
  | [] => s
  | e :: es => inspectAll visit (inspect visit s e) es

end

section

variable {σ : Type*} {visit : σ → Expr → σ × Bool} {s s' : σ} {e : Expr}

theorem inspectAll_eq_foldl (es : List Expr) :
    inspectAll visit s es = es.foldl (inspect visit) s := by
  induction es generalizing s with
  | nil => rw [inspectAll, List.foldl_nil]
  | cons e es ih => rw [inspectAll, ih, List.foldl_cons]

theorem inspect_of_stop (h : visit s e = (s', false)) : inspect visit s e = s' := by
  rw [inspect, h]

theorem inspect_of_go (h : visit s e = (s', true)) :
    inspect visit s e = e.children.foldl (inspect visit) s' := by
  rw [inspect, h]
  cases e with
  | other children => exact inspectAll_eq_foldl children
  | _ => rfl

/-- The expression is a node of the tree below `e`. -/
inductive Expr.PartOf (d : Expr) : Expr → Prop
  | refl : PartOf d d
  | child {e c : Expr} (hc : c ∈ e.children) (h : PartOf d c) : PartOf d e

theorem Expr.PartOf.trans {c d e : Expr} (h : c.PartOf d) (h' : d.PartOf e) : c.PartOf e := by
  induction h' with
  | refl => exact h
  | child hc _ ih => exact .child hc ih

/-- **The rule for walks.** What every visit of a node keeps is kept by the walk, wherever it goes
on. -/
theorem inspect_invariant {P : σ → Prop} {e : Expr}
    (hvisit : ∀ d s, d.PartOf e → P s → P (visit s d).1) (hs : P s) : P (inspect visit s e) := by
  induction e using Expr.childInduction generalizing s with
  | step e ih =>
    have hfirst := hvisit e s .refl hs
    rcases hv : visit s e with ⟨s', _ | _⟩
    · rw [hv] at hfirst
      rw [inspect_of_stop hv]
      exact hfirst
    · rw [hv] at hfirst
      rw [inspect_of_go hv]
      refine List.foldlRecOn _ _ hfirst fun s hs c hc ↦ ?_
      exact ih c hc (fun d s hd ↦ hvisit d s (.child hc hd)) hs

end

/-! ## Detection -/

/-- `isFieldExpression`. -/
def isFieldExpression (f : Expr) (field : GoString) : Bool :=
  inspect (fun found e ↦ match e with
    | .getField name => if name = field then (true, false) else (found, true)
    | _ => (found, true)) false f

/-- `getQueue`: the first string literal that is not empty. -/
def getQueue (f : Expr) : GoString :=
  inspect (fun queue e ↦
    if queue ≠ [] then (queue, false)
    else match e with
      | .literal (some text) => (text, false)
      | _ => (queue, true)) [] f

/-- `getTime`, with the times that `dateparse.ParseAny` reads. -/
def getTime (parseAny : GoString → Option Time) (f : Expr) : Time :=
  inspect (fun ts e ↦
    if ts.isZero = false then (ts, false)
    else match e with
      | .literal (some text) =>
        match parseAny text with
        | some ts => (ts, false)
        | none => (.zero, true)
      | _ => (ts, true)) .zero f

/-- What a `taskTableIterator` notes of its filters. -/
structure Bounds where
  rangeStart : Time := .zero
  rangeEnd : Time := .zero
  queue : GoString := []
  queueFound : Bool := false
deriving DecidableEq

/-- `detectTimeBounds`: the new bounds, or `none` where it returns false. -/
def detectTimeBounds (parseAny : GoString → Option Time) (r : Bounds) (f : Expr) : Option Bounds :=
  match f with
  | .between val lower upper =>
    if isFieldExpression val taskColumnDeliverAt then
      some { r with rangeStart := getTime parseAny lower, rangeEnd := getTime parseAny upper }
    else none
  | .compare op left right =>
    if isFieldExpression left taskColumnDeliverAt then
      match op with
      | .gt | .ge => some { r with
          rangeStart := getTime parseAny right, rangeEnd := TaskID.max.mustTime }
      | .lt | .le => some { r with
          rangeStart := TaskID.min.mustTime, rangeEnd := getTime parseAny right }
      | .eq => some { r with
          rangeStart := getTime parseAny right, rangeEnd := getTime parseAny right }
    else none
  | _ => none

/-- `detectQueue`: the new bounds, or `none` where it returns false. -/
def detectQueue (r : Bounds) (f : Expr) : Option Bounds :=
  match f with
  | .compare .eq left right =>
    if isFieldExpression left taskColumnQueue then
      some { r with queue := getQueue right, queueFound := true }
    else none
  | _ => none

/-- The function with which `initBounds` walks through a filter. -/
def detect (parseAny : GoString → Option Time) (r : Bounds) (f : Expr) : Bounds × Bool :=
  match detectTimeBounds parseAny r f with
  | some r => (r, false)
  | none =>
    match detectQueue r f with
    | some r => (r, false)
    | none => (r, true)

inductive BoundsError where
  /-- "invalid or missing range query for field: deliver_at". -/
  | invalidRange
  /-- "missing required queue in query". -/
  | missingQueue
deriving DecidableEq

/-- The bounds after all filters. -/
def boundsOf (parseAny : GoString → Option Time) (filters : List Expr) : Bounds :=
  filters.foldl (inspect (detect parseAny)) {}

/-- `initBounds`, up to the iterator that it opens. -/
def initBounds (parseAny : GoString → Option Time) (filters : List Expr) :
    Except BoundsError Bounds :=
  let r := boundsOf parseAny filters
  if r.rangeStart.isZero ∨ r.rangeEnd.isZero then .error .invalidRange
  else if ¬r.queueFound then .error .missingQueue
  else .ok r

theorem partOf_of_isFieldExpression {e : Expr} {field : GoString}
    (h : isFieldExpression e field = true) : (Expr.getField field).PartOf e := by
  refine inspect_invariant (P := fun found ↦ found = true → (Expr.getField field).PartOf e)
    (fun d found hd hfound ↦ ?_) Bool.false_ne_true.elim h
  cases d with
  | getField name =>
    by_cases hname : name = field
    · exact fun _ ↦ hname ▸ hd
    · simpa [hname] using hfound
  | _ => exact hfound

theorem detect_of_neither {parseAny : GoString → Option Time} {d : Expr} (r : Bounds)
    (htime : ∀ c ∈ d.children, isFieldExpression c taskColumnDeliverAt = false)
    (hqueue : ∀ c ∈ d.children, isFieldExpression c taskColumnQueue = false) :
    detect parseAny r d = (r, true) := by
  cases d with
  | compare op left right =>
    have hl := htime left (by simp [Expr.children])
    have hl' := hqueue left (by simp [Expr.children])
    cases op <;> simp [detect, detectTimeBounds, detectQueue, hl, hl']
  | between val lower upper =>
    have hv := htime val (by simp [Expr.children])
    simp [detect, detectTimeBounds, detectQueue, hv]
  | _ => rfl

/-- An expression with neither of the two columns in it leaves the bounds as they are. -/
theorem inspect_detect_of_neither {parseAny : GoString → Option Time} {e : Expr} (r : Bounds)
    (htime : ¬(Expr.getField taskColumnDeliverAt).PartOf e)
    (hqueue : ¬(Expr.getField taskColumnQueue).PartOf e) : inspect (detect parseAny) r e = r := by
  have hchild : ∀ {field : GoString} {d : Expr}, ¬(Expr.getField field).PartOf e → d.PartOf e →
      ∀ c ∈ d.children, isFieldExpression c field = false := by
    intro field d hno hd c hc
    rw [← Bool.not_eq_true]
    exact fun htrue ↦ hno ((Expr.PartOf.child hc (partOf_of_isFieldExpression htrue)).trans hd)
  refine inspect_invariant (P := fun s ↦ s = r) (fun d s hd hs ↦ ?_) rfl
  rw [hs, detect_of_neither r (hchild htime hd) (hchild hqueue hd)]

theorem initBounds_eq_ok {parseAny : GoString → Option Time} {filters : List Expr} {r : Bounds}
    (h : initBounds parseAny filters = .ok r) :
    r = boundsOf parseAny filters ∧ r.rangeStart.isZero = false ∧ r.queueFound = true := by
  rw [initBounds] at h
  split_ifs at h with hrange hfound
  rw [not_or, Bool.not_eq_true] at hrange
  rw [Except.ok.injEq] at h
  exact ⟨h.symm, h ▸ hrange.1, h ▸ hfound⟩

theorem isFieldExpression_getField (name field : GoString) :
    isFieldExpression (.getField name) field = decide (name = field) := by
  by_cases h : name = field <;> simp [isFieldExpression, inspect, h]

/-! ## Conditions -/

/-- What is compared. -/
inductive Operand where
  | column (name : GoString)
  /-- A literal, with its text if it has a string type. -/
  | literal (text : Option GoString)
deriving DecidableEq

/-- Comparisons with `AND`, `OR` and `NOT` above them. -/
inductive Condition where
  | compare (op : Op) (left right : Operand)
  | between (val lower upper : Operand)
  | and (left right : Condition)
  | or (left right : Condition)
  | not (child : Condition)
deriving DecidableEq

def Operand.expr : Operand → Expr
  | .column name => .getField name
  | .literal text => .literal text

def Condition.expr : Condition → Expr
  | .compare op left right => .compare op left.expr right.expr
  | .between val lower upper => .between val.expr lower.expr upper.expr
  | .and left right => .and left.expr right.expr
  | .or left right => .or left.expr right.expr
  | .not child => .not child.expr

/-- The text of a string literal, and no text of anything else. -/
def Operand.text : Operand → GoString
  | .literal (some text) => text
  | _ => []

/-- The name in the last equality with the queue column on the left. -/
def Condition.lastQueue : Condition → Option GoString
  | .compare .eq (.column name) right => if name = taskColumnQueue then some right.text else none
  | .compare .. | .between .. => none
  | .and left right | .or left right => right.lastQueue.or left.lastQueue
  | .not child => child.lastQueue

/-- The name in the last such equality of the filters. -/
def lastQueue (filters : List Condition) : Option GoString :=
  filters.foldl (fun last f ↦ f.lastQueue.or last) none

/-- The queue that has been noted. -/
def Bounds.noted (r : Bounds) : Option GoString := if r.queueFound then some r.queue else none

section

variable {parseAny : GoString → Option Time} {r r' : Bounds}

theorem inspect_operand (r : Bounds) (o : Operand) : inspect (detect parseAny) r o.expr = r := by
  cases o <;> rfl

theorem getQueue_operand (o : Operand) : getQueue o.expr = o.text := by
  rcases o with name | _ | text <;> simp [getQueue, Operand.expr, Operand.text, inspect]

theorem isFieldExpression_operand (o : Operand) (field : GoString) :
    isFieldExpression o.expr field = decide (o = .column field) := by
  cases o with
  | column name => simp [Operand.expr, isFieldExpression_getField]
  | literal text => simp [Operand.expr, isFieldExpression, inspect]

theorem noted_detectTimeBounds {e : Expr} (h : detectTimeBounds parseAny r e = some r') :
    r'.noted = r.noted := by
  cases e with
  | between val lower upper =>
    rw [detectTimeBounds, Option.ite_none_right_eq_some, Option.some.injEq] at h
    rw [← h.2]
    rfl
  | compare op left right =>
    simp only [detectTimeBounds, Option.ite_none_right_eq_some] at h
    cases op <;> simp only [← Option.some.inj h.2, Bounds.noted]
  | _ => cases h

/-- A comparison in which nothing is detected leaves the bounds as they are, since its operands are
leaves. -/
theorem inspect_of_undetected {e : Expr} (htime : detectTimeBounds parseAny r e = none)
    (hqueue : detectQueue r e = none) :
    inspect (detect parseAny) r e = e.children.foldl (inspect (detect parseAny)) r :=
  inspect_of_go (by rw [detect, htime, hqueue])

theorem noted_inspect_compare (r : Bounds) (op : Op) (left right : Operand) :
    (inspect (detect parseAny) r (Condition.compare op left right).expr).noted =
      (Condition.compare op left right).lastQueue.or r.noted := by
  have hne : taskColumnDeliverAt ≠ taskColumnQueue := by decide
  cases htime : detectTimeBounds parseAny r (Condition.compare op left right).expr with
  | some r' =>
    rw [inspect_of_stop (show detect parseAny r _ = (r', false) by rw [detect, htime]),
      noted_detectTimeBounds htime]
    -- the column on the left is the other one
    simp only [Condition.expr, detectTimeBounds, isFieldExpression_operand,
      Option.ite_none_right_eq_some, decide_eq_true_eq] at htime
    rw [htime.1]
    cases op <;> simp [Condition.lastQueue, hne]
  | none =>
    cases hqueue : detectQueue r (Condition.compare op left right).expr with
    | some r' =>
      rw [inspect_of_stop (show detect parseAny r _ = (r', false) by rw [detect, htime, hqueue])]
      cases op with
      | eq =>
        rw [Condition.expr, detectQueue, isFieldExpression_operand,
          Option.ite_none_right_eq_some, decide_eq_true_eq, getQueue_operand,
          Option.some.injEq] at hqueue
        rw [hqueue.1, ← hqueue.2, Condition.lastQueue, if_pos rfl]
        rfl
      | _ => cases hqueue
    | none =>
      rw [inspect_of_undetected htime hqueue]
      have hsame : (Condition.compare op left right).expr.children.foldl
          (inspect (detect parseAny)) r = r := by
        simp [Condition.expr, Expr.children, inspect_operand]
      rw [hsame]
      cases op with
      | eq =>
        rw [Condition.expr, detectQueue, isFieldExpression_operand,
          ite_eq_right_iff] at hqueue
        cases left with
        | column name =>
          rw [Condition.lastQueue, if_neg fun hname ↦ ?_, Option.none_or]
          simp [hname] at hqueue
        | literal text => rfl
      | _ => rfl

/-- **What the walk notes.** Whatever connectives are above the comparisons, it is the name in the
last equality. -/
theorem noted_inspect (r : Bounds) (c : Condition) :
    (inspect (detect parseAny) r c.expr).noted = c.lastQueue.or r.noted := by
  induction c generalizing r with
  | compare op left right => exact noted_inspect_compare r op left right
  | between val lower upper =>
    rw [Condition.lastQueue, Option.none_or]
    cases htime : detectTimeBounds parseAny r (Condition.between val lower upper).expr with
    | some r' =>
      rw [inspect_of_stop (show detect parseAny r _ = (r', false) by rw [detect, htime]),
      noted_detectTimeBounds htime]
    | none =>
      rw [inspect_of_undetected htime rfl]
      simp [Condition.expr, Expr.children, inspect_operand]
  | and left right ihl ihr =>
    have hgo : inspect (detect parseAny) r (Condition.and left right).expr =
        inspect (detect parseAny) (inspect (detect parseAny) r left.expr) right.expr :=
      inspect_of_go rfl
    rw [hgo, ihr, ihl, Condition.lastQueue, Option.or_assoc]
  | or left right ihl ihr =>
    have hgo : inspect (detect parseAny) r (Condition.or left right).expr =
        inspect (detect parseAny) (inspect (detect parseAny) r left.expr) right.expr :=
      inspect_of_go rfl
    rw [hgo, ihr, ihl, Condition.lastQueue, Option.or_assoc]
  | not child ih =>
    have hgo : inspect (detect parseAny) r (Condition.not child).expr =
        inspect (detect parseAny) r child.expr := inspect_of_go rfl
    rw [hgo, ih, Condition.lastQueue]

theorem noted_boundsOf (filters : List Condition) :
    (boundsOf parseAny (filters.map Condition.expr)).noted = lastQueue filters := by
  have hfold : ∀ (fs : List Condition) (r : Bounds),
      (fs.foldl (fun r c ↦ inspect (detect parseAny) r c.expr) r).noted =
        fs.foldl (fun last f ↦ f.lastQueue.or last) r.noted := by
    intro fs
    induction fs with
    | nil => exact fun _ ↦ rfl
    | cons f fs ih =>
      intro r
      rw [List.foldl_cons, List.foldl_cons, ih, noted_inspect]
  rw [boundsOf, List.foldl_map, hfold, lastQueue]
  rfl

theorem lastQueue_of_initBounds {filters : List Condition}
    (h : initBounds parseAny (filters.map Condition.expr) = .ok r) :
    lastQueue filters = some r.queue := by
  obtain ⟨rfl, -, hfound⟩ := initBounds_eq_ok h
  have hnoted : (boundsOf parseAny (filters.map Condition.expr)).noted = lastQueue filters :=
    noted_boundsOf filters
  rw [← hnoted, Bounds.noted, if_pos hfound]

end

/-! ## The meaning of a condition -/

/-- The values of a condition. An evaluation may fail. -/
inductive Truth where
  | yes
  | no
  | null
  | error
deriving DecidableEq

/-- `And.Eval`. The right side is not looked at if the left one is false. -/
def evalAnd : Truth → Truth → Truth
  | .error, _ => .error
  | .no, _ => .no
  | _, .error => .error
  | _, .no => .no
  | .yes, .yes => .yes
  | _, _ => .null

/-- `Or.Eval`. The right side is not looked at if the left one is true. Of two sides that are not
true only two `NULL`s make a `NULL`. -/
def evalOr : Truth → Truth → Truth
  | .error, _ => .error
  | .yes, _ => .yes
  | _, .error => .error
  | _, .yes => .yes
  | .null, .null => .null
  | _, _ => .no

/-- `Not.Eval`. -/
def evalNot : Truth → Truth
  | .yes => .no
  | .no => .yes
  | .null => .null
  | .error => .error

/-- What a comparison says about the order of its operands. -/
def Op.holds : Op → Ordering → Bool
  | .eq, o => o == .eq
  | .lt, o => o == .lt
  | .le, o => o != .gt
  | .gt, o => o == .gt
  | .ge, o => o != .lt

/-- A comparison of the queue column with string literals. -/
inductive QueueTest where
  | compare (op : Op) (text : GoString)
  /-- The literal is on the left. -/
  | flipped (text : GoString) (op : Op)
  | between (lower upper : GoString)

/-- The literals of a test. -/
def QueueTest.texts : QueueTest → List GoString
  | .compare _ text | .flipped text _ => [text]
  | .between lower upper => [lower, upper]

/-- Strings are compared byte by byte. -/
def QueueTest.holds (queue : GoString) : QueueTest → Bool
  | .compare op text => op.holds (Ord.compare queue text)
  | .flipped text op => op.holds (Ord.compare queue text).swap
  | .between lower upper =>
    Op.ge.holds (Ord.compare queue lower) && Op.le.holds (Ord.compare queue upper)

/-- The test that a comparison is, if it is one. -/
def Condition.queueTest : Condition → Option QueueTest
  | .compare op (.column name) (.literal (some text)) =>
    if name = taskColumnQueue then some (.compare op text) else none
  | .compare op (.literal (some text)) (.column name) =>
    if name = taskColumnQueue then some (.flipped text op) else none
  | .between (.column name) (.literal (some lower)) (.literal (some upper)) =>
    if name = taskColumnQueue then some (.between lower upper) else none
  | _ => none

/-- The value of a comparison. -/
def evalAtom (queue : GoString) (holds : Condition → Truth) (c : Condition) : Truth :=
  match c.queueTest with
  | some test => if test.holds queue then .yes else .no
  | none => holds c

/-- The value of a condition in a queue, with the values of the other comparisons. -/
def eval (queue : GoString) (holds : Condition → Truth) : Condition → Truth
  | .and left right => evalAnd (eval queue holds left) (eval queue holds right)
  | .or left right => evalOr (eval queue holds left) (eval queue holds right)
  | .not child => evalNot (eval queue holds child)
  | c => evalAtom queue holds c

/-- The row satisfies the filters, for an engine that says what it makes of the other comparisons on
each row. -/
def Satisfies (engine : Row → Condition → Truth) (filters : List Condition) (row : Row) : Prop :=
  ∀ f ∈ filters, eval row.queue (engine row) f = .yes

instance (engine : Row → Condition → Truth) (filters : List Condition) (row : Row) :
    Decidable (Satisfies engine filters row) :=
  inferInstanceAs (Decidable (∀ f ∈ filters, eval row.queue (engine row) f = .yes))

/-! ## Equalities below `AND` -/

/-- `queue = name`. -/
def queueIs (name : GoString) : Condition :=
  .compare .eq (.column taskColumnQueue) (.literal (some name))

theorem eval_queueIs (q name : GoString) (holds : Condition → Truth) :
    eval q holds (queueIs name) = .yes ↔ q = name := by
  have hatom : eval q holds (queueIs name) =
      if Op.eq.holds (Ord.compare q name) then .yes else .no := rfl
  have hop : Op.eq.holds (Ord.compare q name) = true ↔ q = name := by
    rw [Op.holds, beq_iff_eq]
    exact Std.LawfulEqOrd.compare_eq_iff_eq
  rw [hatom, ← hop]
  split_ifs with h <;> simp [h]

/-- The condition is reached from the filter through `AND` only. -/
inductive Conjunct (c : Condition) : Condition → Prop
  | self : Conjunct c c
  | left {l r : Condition} (h : Conjunct c l) : Conjunct c (.and l r)
  | right {l r : Condition} (h : Conjunct c r) : Conjunct c (.and l r)

theorem evalAnd_eq_yes {a b : Truth} : evalAnd a b = .yes ↔ a = .yes ∧ b = .yes := by
  cases a <;> cases b <;> decide

theorem Conjunct.eval_eq_yes {q : GoString} {holds : Condition → Truth} {c f : Condition}
    (h : Conjunct c f) (hf : eval q holds f = .yes) : eval q holds c = .yes := by
  induction h with
  | self => exact hf
  | left _ ih =>
    rw [eval, evalAnd_eq_yes] at hf
    exact ih hf.1
  | right _ ih =>
    rw [eval, evalAnd_eq_yes] at hf
    exact ih hf.2

theorem queue_of_conjunct {engine : Row → Condition → Truth} {filters : List Condition} {row : Row}
    {f : Condition} {name : GoString} (hf : f ∈ filters) (h : Conjunct (queueIs name) f)
    (hsat : Satisfies engine filters row) : row.queue = name :=
  (eval_queueIs _ _ _).mp (h.eval_eq_yes (hsat f hf))

/-! ## Ways to make the filters true -/

/-- A list of comparisons, with the values that they need to have. -/
structure Way where
  queue : List (QueueTest × Bool) := []
  others : List (Condition × Truth) := []

namespace Way

def append (w w' : Way) : Way := ⟨w.queue ++ w'.queue, w.others ++ w'.others⟩

/-- The queue has the name that the way needs. -/
def QueueMet (w : Way) (queue : GoString) : Prop := ∀ d ∈ w.queue, d.1.holds queue = d.2

/-- The other comparisons have the values that the way needs. -/
def OthersMet (w : Way) (holds : Condition → Truth) : Prop := ∀ d ∈ w.others, holds d.1 = d.2

instance (w : Way) (queue : GoString) : Decidable (w.QueueMet queue) :=
  inferInstanceAs (Decidable (∀ d ∈ w.queue, d.1.holds queue = d.2))

/-- One of the ways is open. -/
def AnyMet (queue : GoString) (holds : Condition → Truth) (ws : List Way) : Prop :=
  ∃ w ∈ ws, w.QueueMet queue ∧ w.OthersMet holds

/-- A way of the one and a way of the other. -/
def both (ws ws' : List Way) : List Way := ws.flatMap fun w ↦ ws'.map w.append

variable {queue : GoString} {holds : Condition → Truth}

theorem anyMet_both {ws ws' : List Way} :
    AnyMet queue holds (both ws ws') ↔ AnyMet queue holds ws ∧ AnyMet queue holds ws' := by
  simp only [AnyMet, both, List.mem_flatMap, List.mem_map]
  constructor
  · rintro ⟨_, ⟨w, hw, w', hw', rfl⟩, hq, ho⟩
    rw [QueueMet, append, List.forall_mem_append] at hq
    rw [OthersMet, append, List.forall_mem_append] at ho
    exact ⟨⟨w, hw, hq.1, ho.1⟩, w', hw', hq.2, ho.2⟩
  · rintro ⟨⟨w, hw, hq, ho⟩, w', hw', hq', ho'⟩
    exact ⟨_, ⟨w, hw, w', hw', rfl⟩, List.forall_mem_append.mpr ⟨hq, hq'⟩,
      List.forall_mem_append.mpr ⟨ho, ho'⟩⟩

theorem anyMet_flatMap {α : Type*} {as : List α} {ws : α → List Way} :
    AnyMet queue holds (as.flatMap ws) ↔ ∃ a ∈ as, AnyMet queue holds (ws a) := by
  simp only [AnyMet, List.mem_flatMap]
  constructor
  · rintro ⟨w, ⟨a, ha, hw⟩, hmet⟩
    exact ⟨a, ha, w, hw, hmet⟩
  · rintro ⟨a, ha, w, hw, hmet⟩
    exact ⟨w, ⟨a, ha, hw⟩, hmet⟩

end Way

def Truth.all : List Truth := [.yes, .no, .null, .error]

theorem Truth.mem_all (v : Truth) : v ∈ all := by
  cases v <;> decide

/-- The ways to give a comparison a value. A comparison of the queue with a literal is true or
false. -/
def Condition.atomWays (c : Condition) (v : Truth) : List Way :=
  match c.queueTest, v with
  | some test, .yes => [{ queue := [(test, true)] }]
  | some test, .no => [{ queue := [(test, false)] }]
  | some _, _ => []
  | none, v => [{ others := [(c, v)] }]

/-- The ways to give a condition a value. -/
def Condition.ways : Condition → Truth → List Way
  | .and left right, v => Truth.all.flatMap fun a ↦
    (Truth.all.filter (evalAnd a · = v)).flatMap fun b ↦ Way.both (left.ways a) (right.ways b)
  | .or left right, v => Truth.all.flatMap fun a ↦
    (Truth.all.filter (evalOr a · = v)).flatMap fun b ↦ Way.both (left.ways a) (right.ways b)
  | .not child, v => (Truth.all.filter (evalNot · = v)).flatMap child.ways
  | c, v => c.atomWays v

/-- The ways to make all filters true. -/
def ways : List Condition → List Way
  | [] => [{}]
  | f :: fs => Way.both (f.ways .yes) (ways fs)

section

variable {queue : GoString} {holds : Condition → Truth}

theorem evalAtom_eq_iff {c : Condition} {v : Truth} :
    evalAtom queue holds c = v ↔ Way.AnyMet queue holds (c.atomWays v) := by
  unfold evalAtom Condition.atomWays Way.AnyMet
  cases c.queueTest with
  | none => simp [Way.QueueMet, Way.OthersMet]
  | some test =>
    cases v <;> cases hq : test.holds queue <;> simp [Way.QueueMet, Way.OthersMet, hq]

theorem anyMet_connective {op : Truth → Truth → Truth} {l r : Truth} {v : Truth}
    {ws ws' : Truth → List Way} (hl : ∀ a, l = a ↔ Way.AnyMet queue holds (ws a))
    (hr : ∀ b, r = b ↔ Way.AnyMet queue holds (ws' b)) :
    op l r = v ↔ Way.AnyMet queue holds (Truth.all.flatMap fun a ↦
      (Truth.all.filter (op a · = v)).flatMap fun b ↦ Way.both (ws a) (ws' b)) := by
  simp only [Way.anyMet_flatMap, Way.anyMet_both, ← hl, ← hr, List.mem_filter, Truth.mem_all,
    true_and, decide_eq_true_eq]
  constructor
  · exact fun hv ↦ ⟨l, r, hv, rfl, rfl⟩
  · rintro ⟨a, b, hv, rfl, rfl⟩
    exact hv

theorem eval_eq_iff {c : Condition} {v : Truth} :
    eval queue holds c = v ↔ Way.AnyMet queue holds (c.ways v) := by
  induction c generalizing v with
  | compare op left right => exact evalAtom_eq_iff
  | between val lower upper => exact evalAtom_eq_iff
  | and left right ihl ihr => exact anyMet_connective (fun _ ↦ ihl) (fun _ ↦ ihr)
  | or left right ihl ihr => exact anyMet_connective (fun _ ↦ ihl) (fun _ ↦ ihr)
  | not child ih =>
    rw [Condition.ways, Way.anyMet_flatMap]
    simp only [← ih, List.mem_filter, Truth.mem_all, true_and, decide_eq_true_eq]
    rw [eval, exists_eq_right']

theorem satisfies_iff {engine : Row → Condition → Truth} {filters : List Condition} {row : Row} :
    Satisfies engine filters row ↔ Way.AnyMet row.queue (engine row) (ways filters) := by
  induction filters with
  | nil => simp [Satisfies, ways, Way.AnyMet, Way.QueueMet, Way.OthersMet]
  | cons f fs ih =>
    have hcons : Satisfies engine (f :: fs) row ↔
        eval row.queue (engine row) f = .yes ∧ Satisfies engine fs row := List.forall_mem_cons
    rw [hcons, ways, Way.anyMet_both, ih, eval_eq_iff]

end

/-! ## Candidates -/

theorem isLE_zero (b : UInt8) : (Ord.compare 0 b).isLE := by
  rw [Std.isLE_compare, UInt8.le_iff_toNat_le]
  exact Nat.zero_le _

theorem QueueTest.holds_congr {q q' : GoString} (test : QueueTest)
    (h : ∀ text ∈ test.texts, Ord.compare q text = Ord.compare q' text) :
    test.holds q = test.holds q' := by
  cases test with
  | compare op text => rw [holds, holds, h text List.mem_cons_self]
  | flipped text op => rw [holds, holds, h text List.mem_cons_self]
  | between lower upper =>
    rw [holds, holds, h lower List.mem_cons_self, h upper (by simp [texts])]

namespace Way

/-- The names that the way compares the queue with. -/
def texts (w : Way) : List GoString := w.queue.flatMap (·.1.texts)

/-- The way is open in no other queue, as far as names can show that compare in every possible way
with the name and with those of the way. -/
def Pins (w : Way) (name : GoString) : Prop :=
  ∀ q ∈ representatives 0 (name :: w.texts), w.QueueMet q → q = name

instance (w : Way) (name : GoString) : Decidable (w.Pins name) :=
  inferInstanceAs (Decidable (∀ q ∈ representatives 0 (name :: w.texts), w.QueueMet q → q = name))

theorem pins_iff {w : Way} {name : GoString} :
    w.Pins name ↔ ∀ q, w.QueueMet q → q = name := by
  refine ⟨fun hpins q hq ↦ ?_, fun hall q _ ↦ hall q⟩
  obtain ⟨z, hz, hlike⟩ := exists_representative isLE_zero (name :: w.texts) q
  rw [List.forall_mem_cons] at hlike
  have hmet : w.QueueMet z := fun d hd ↦ by
    rw [← hq d hd]
    exact (d.1.holds_congr fun text ht ↦
      hlike.2 text (List.mem_flatMap.mpr ⟨d, hd, ht⟩)).symm
  -- what compares like the name itself is the name
  have hself : Ord.compare name name = .eq := Std.ReflCmp.compare_self
  rw [hpins z hz hmet] at hlike
  exact Std.LawfulEqOrd.eq_of_compare (hlike.1.trans hself)

end Way

/-- Only the comparisons with string literals look at the queue. -/
def QueueBlind (engine : Row → Condition → Truth) : Prop :=
  ∀ row queue, engine { row with queue := queue } = engine row

/-- **When the detected queue is the right one.** For the name in the last equality of the filters:
it is enough that an equality with this name is reached through `AND` only. And it is the right one
exactly if no way to make the filters true is open to a row of another queue, which for an engine
whose other comparisons do not look at the queue says that each way that is open to some row pins
the queue to the name. -/
theorem detected_sound_iff {parseAny : GoString → Option Time}
    (engine : Row → Condition → Truth) {filters : List Condition} {r : Bounds}
    (hr : initBounds parseAny (filters.map Condition.expr) = .ok r) :
    ∃ name, lastQueue filters = some name ∧
      ((∃ f ∈ filters, Conjunct (queueIs name) f) →
        ∀ row, Satisfies engine filters row → row.queue = r.queue) ∧
      ((∀ row, Satisfies engine filters row → row.queue = r.queue) ↔
        ∀ w ∈ ways filters, ∀ row, w.OthersMet (engine row) → row.queue ≠ name →
          ¬w.QueueMet row.queue) ∧
      (QueueBlind engine →
        ((∀ row, Satisfies engine filters row → row.queue = r.queue) ↔
          ∀ w ∈ ways filters, (∃ row, w.OthersMet (engine row)) → w.Pins name)) := by
  refine ⟨r.queue, lastQueue_of_initBounds hr, ?_, ?_, fun hblind ↦ ?_⟩
  · rintro ⟨f, hf, hconj⟩ row hsat
    exact queue_of_conjunct hf hconj hsat
  · simp only [satisfies_iff]
    constructor
    · exact fun hsound w hw row ho hne hq ↦ hne (hsound row ⟨w, hw, hq, ho⟩)
    · rintro hways row ⟨w, hw, hq, ho⟩
      by_contra hne
      exact hways w hw row ho hne hq
  · simp only [satisfies_iff, Way.pins_iff]
    constructor
    · rintro hsound w hw ⟨row, ho⟩ q hq
      exact hsound { row with queue := q } ⟨w, hw, hq, by rwa [hblind row q]⟩
    · rintro hways row ⟨w, hw, hq, ho⟩
      exact hways w hw ⟨row, ho⟩ row.queue hq

/-- Two days of April 2022. -/
def aprilDays (text : GoString) : Option Time :=
  if text = lit "2022-04-16" then some (.ofUnix 1650067200 0)
  else if text = lit "2022-04-17" then some (.ofUnix 1650153600 0)
  else none

/-- `deliver_at BETWEEN '2022-04-16' AND '2022-04-17'`. -/
def inApril : Condition :=
  .between (.column taskColumnDeliverAt) (.literal (some (lit "2022-04-16")))
    (.literal (some (lit "2022-04-17")))

/-- The row of a task of the queue `a`. -/
def rowOfA : Row := ⟨lit "a", lit "1", .ofUnix 1650100000 0, none, [], []⟩

/-- `WHERE queue = 'a' AND deliver_at BETWEEN '2022-04-16' AND '2022-04-17'`, a query as the
documentation has it: rows satisfy it, and they are all in the queue that is scanned. -/
theorem detected_sound_and : ∃ r, initBounds aprilDays
      ([.and (queueIs (lit "a")) inApril].map Condition.expr) = .ok r ∧
    Satisfies (fun _ _ ↦ .yes) [.and (queueIs (lit "a")) inApril] rowOfA ∧
    ∀ row, Satisfies (fun _ _ ↦ .yes) [.and (queueIs (lit "a")) inApril] row →
      row.queue = r.queue := by
  have hr : initBounds aprilDays ([.and (queueIs (lit "a")) inApril].map Condition.expr) =
      .ok ⟨.ofUnix 1650067200 0, .ofUnix 1650153600 0, lit "a", true⟩ := by decide +kernel
  refine ⟨_, hr, by decide +kernel, ?_⟩
  obtain ⟨name, hname, hand, -⟩ := detected_sound_iff (fun _ _ ↦ .yes) hr
  obtain rfl : lit "a" = name := Option.some.inj hname
  exact hand ⟨_, List.mem_singleton_self _, .left .self⟩

/-- `WHERE (queue = 'a' OR queue = 'b') AND deliver_at BETWEEN '2022-04-16' AND '2022-04-17'`: the
queue that is scanned is `b`, and a row of the queue `a` satisfies both filters. -/
theorem detected_unsound_or : ∃ r, initBounds aprilDays
      ([.or (queueIs (lit "a")) (queueIs (lit "b")), inApril].map Condition.expr) = .ok r ∧
    Satisfies (fun _ _ ↦ .yes) [.or (queueIs (lit "a")) (queueIs (lit "b")), inApril] rowOfA ∧
    rowOfA.queue ≠ r.queue :=
  ⟨⟨.ofUnix 1650067200 0, .ofUnix 1650153600 0, lit "b", true⟩, by decide +kernel,
    by decide +kernel, by decide⟩

end Z4.Sqli
