import Mathlib.Data.List.Basic

/-!
# Runs of a partial step function

A concurrent program is modelled as a state, a type of labels that carry every scheduling choice
and every outcome the environment may decide, and a partial step function `σ → α → Option σ`. The
step is `none` where the label is not enabled. A run is a list of labels, executed by `foldlM` in
the `Option` monad, so it is a computation and a concrete schedule can be evaluated.

## Guards

`Meets step ok s as` says that every step of the run `as` from `s` is taken in a state that
satisfies `ok`. It is stated on the state *before* the step, which is the only place where a
condition on a schedule can be read off without running it further. The induction rule
`Meets.invariant` is the one induction every safety result rests on. `rel_run` is the one for two
systems side by side.

What a run may still do is said by `Leads`: some labels of a kind lead from here to a state with a
property.
-/

namespace Runs

variable {σ α : Type*} {step : σ → α → Option σ} {ok ok' : σ → α → Prop} {P : σ → Prop}
  {s s' : σ} {as bs : List α}

/-- The state reached from `s` by the labels `as`, or `none` where some label is not enabled. -/
def run (step : σ → α → Option σ) (s : σ) (as : List α) : Option σ := as.foldlM step s

@[simp] theorem run_nil : run step s [] = some s := rfl

@[simp] theorem run_cons (a : α) : run step s (a :: as) = (step s a).bind (run step · as) := rfl

theorem run_append : run step s (as ++ bs) = (run step s as).bind (run step · bs) :=
  List.foldlM_append

theorem run_cons_eq_some {a : α} :
    run step s (a :: as) = some s' ↔ ∃ t, step s a = some t ∧ run step t as = some s' := by
  rw [run_cons, Option.bind_eq_some_iff]

/-- Every step of the run is taken in a state that satisfies `ok`. -/
def Meets (step : σ → α → Option σ) (ok : σ → α → Prop) : σ → List α → Prop
  | _, [] => True
  | s, a :: as => ok s a ∧ match step s a with
    | none => True
    | some t => Meets step ok t as

instance Meets.decidable [∀ s a, Decidable (ok s a)] :
    ∀ (s : σ) (as : List α), Decidable (Meets step ok s as)
  | _, [] => .isTrue trivial
  | s, a :: as =>
    match h : step s a with
    | none => decidable_of_iff (ok s a) (by simp [Meets, h])
    | some t =>
      have := Meets.decidable t as
      decidable_of_iff (ok s a ∧ Meets step ok t as) (by simp [Meets, h])

theorem Meets.head {a : α} (h : Meets step ok s (a :: as)) : ok s a := h.1

theorem Meets.tail {a : α} {t : σ} (h : Meets step ok s (a :: as)) (hs : step s a = some t) :
    Meets step ok t as := by
  have h2 := h.2
  rw [hs] at h2
  exact h2

/-- A run meets the guard when its first part does and, from where that leads, the rest does. -/
theorem meets_append (hs : run step s as = some s') :
    Meets step ok s (as ++ bs) ↔ Meets step ok s as ∧ Meets step ok s' bs := by
  induction as generalizing s with
  | nil =>
    obtain rfl : s = s' := by simpa using hs
    exact (and_iff_right trivial).symm
  | cons a as ih =>
    obtain ⟨t, ht, hrest⟩ := run_cons_eq_some.mp hs
    simp only [List.cons_append, Meets, ht, ih hrest, and_assoc]

theorem Meets.and (h : Meets step ok s as) (h' : Meets step ok' s as) :
    Meets step (fun s a ↦ ok s a ∧ ok' s a) s as := by
  induction as generalizing s with
  | nil => trivial
  | cons a as ih =>
    refine ⟨⟨h.head, h'.head⟩, ?_⟩
    cases hs : step s a with
    | none => trivial
    | some t => exact ih (h.tail hs) (h'.tail hs)

theorem meets_of_forall_mem {G : α → Prop} (h : ∀ a ∈ as, G a) :
    Meets step (fun _ a ↦ G a) s as := by
  induction as generalizing s with
  | nil => trivial
  | cons a as ih =>
    refine ⟨h a List.mem_cons_self, ?_⟩
    cases step s a with
    | none => trivial
    | some t => exact ih fun b hb ↦ h b (List.mem_cons_of_mem a hb)

theorem meets_congr (h0 : P s) (hstep : ∀ a ∈ as, ∀ s t, P s → step s a = some t → P t)
    (hiff : ∀ a ∈ as, ∀ s, P s → (ok s a ↔ ok' s a)) :
    Meets step ok s as ↔ Meets step ok' s as := by
  induction as generalizing s with
  | nil => exact Iff.rfl
  | cons a as ih =>
    have hhead := hiff a List.mem_cons_self s h0
    rw [Meets, Meets, hhead]
    cases hs : step s a with
    | none => exact Iff.rfl
    | some t =>
      exact and_congr_right fun _ ↦ ih (hstep a List.mem_cons_self s t h0 hs)
        (fun b hb ↦ hstep b (List.mem_cons_of_mem a hb))
        fun b hb ↦ hiff b (List.mem_cons_of_mem a hb)

/-- **The invariant rule.** What holds at the start and is kept by every step that meets the guard
holds wherever a run that meets the guard leads. -/
theorem Meets.invariant (hstep : ∀ s a t, P s → ok s a → step s a = some t → P t)
    (h0 : P s) (hok : Meets step ok s as) (hrun : run step s as = some s') : P s' := by
  induction as generalizing s with
  | nil =>
    rw [run_nil, Option.some.injEq] at hrun
    exact hrun ▸ h0
  | cons a as ih =>
    obtain ⟨t, ht, hrest⟩ := run_cons_eq_some.mp hrun
    exact ih (hstep s a t h0 hok.head ht) (hok.tail ht) hrest

theorem invariant (hstep : ∀ s a t, P s → step s a = some t → P t) (h0 : P s)
    (hrun : run step s as = some s') : P s' := by
  have hok : Meets step (fun _ _ ↦ True) s as := meets_of_forall_mem fun _ _ ↦ trivial
  exact Meets.invariant (fun s a t h _ ↦ hstep s a t h) h0 hok hrun

/-- **The simulation rule.** Two systems whose steps keep a relation, and are enabled together, keep
it over every run. -/
theorem rel_run {τ : Type*} {step' : τ → α → Option τ} {R : σ → τ → Prop}
    (hstep : ∀ s t a, R s t → Option.Rel R (step s a) (step' t a)) {t : τ} (h0 : R s t)
    (as : List α) : Option.Rel R (run step s as) (run step' t as) := by
  induction as generalizing s t with
  | nil => exact .some h0
  | cons a as ih =>
    rw [run_cons, run_cons]
    have h := hstep s t a h0
    generalize step s a = x at h
    generalize step' t a = y at h
    cases h with
    | none => exact .none
    | some h => exact ih h

/-! ## Where a run can go -/

/-- Labels that satisfy `G` lead from `s` to a state that satisfies `P`. -/
def Leads (step : σ → α → Option σ) (G : α → Prop) (P : σ → Prop) (s : σ) : Prop :=
  ∃ as t, (∀ a ∈ as, G a) ∧ run step s as = some t ∧ P t

section

variable {G : α → Prop} {Q : σ → Prop}

theorem Leads.here (h : P s) : Leads step G P s := ⟨[], s, nofun, rfl, h⟩

theorem Leads.head {a : α} {t : σ} (ha : G a) (hs : step s a = some t) (h : Leads step G P t) :
    Leads step G P s := by
  obtain ⟨as, u, hG, hrun, hu⟩ := h
  exact ⟨a :: as, u, List.forall_mem_cons.mpr ⟨ha, hG⟩, run_cons_eq_some.mpr ⟨t, hs, hrun⟩, hu⟩

theorem Leads.trans (h : Leads step G P s) (hPQ : ∀ t, P t → Leads step G Q t) :
    Leads step G Q s := by
  obtain ⟨as, t, hG, hrun, ht⟩ := h
  obtain ⟨bs, u, hG', hrun', hu⟩ := hPQ t ht
  refine ⟨as ++ bs, u, List.forall_mem_append.mpr ⟨hG, hG'⟩, ?_, hu⟩
  rw [run_append, hrun, Option.bind_some, hrun']

end

end Runs
