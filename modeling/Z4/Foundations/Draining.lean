import Mathlib.Data.Prod.Lex
import Mathlib.Order.WellFounded
import Z4.Foundations.Runs

/-!
# Systems that finish their work

A label of a system is *work* if it continues something that has begun, and not work if it starts
something new. A state satisfies `Inevitable step work P` when doing work, in whatever order,
cannot go on for ever without reaching `P` and cannot get stuck before. There is no fairness
assumption: a schedule that only does work does all of it.

`Inevitable.of_measure` reduces this to two facts about one state: some work is enabled, and every
work makes a measure smaller. The measure may take its values in any well-founded order. The weight
of a list, `weight`, is the usual summand of a measure: the processes are a list and each is as many
steps from its end as its place says.

Where labels that are not work neither start nor undo any, they may come between the work in any
number. `amid` is the system whose labels are a list of labels followed by one more, and
`Inevitable.amid_of_measure` is the rule for it.
-/

namespace Runs

variable {σ α : Type*} {step : σ → α → Option σ} {work : α → Prop} {P I : σ → Prop} {s t : σ}

/-- Every run of work from `s` is finite if it avoids `P`, and can go on until `P` holds. -/
inductive Inevitable (step : σ → α → Option σ) (work : α → Prop) (P : σ → Prop) : σ → Prop
  | now {s : σ} (h : P s) : Inevitable step work P s
  | later {s : σ} (henabled : ∃ a, work a ∧ (step s a).isSome)
      (hall : ∀ a t, work a → step s a = some t → Inevitable step work P t) :
      Inevitable step work P s

/-- **The drain rule.** -/
theorem Inevitable.of_measure {β : Type*} [LT β] [WellFoundedLT β] (μ : σ → β)
    (hkeep : ∀ s a t, I s → work a → step s a = some t → I t)
    (hless : ∀ s a t, I s → work a → step s a = some t → μ t < μ s)
    (henabled : ∀ s, I s → ¬P s → ∃ a, work a ∧ (step s a).isSome) (hs : I s) :
    Inevitable step work P s := by
  induction hμ : μ s using WellFoundedLT.induction generalizing s with
  | ind b ih =>
    by_cases hP : P s
    · exact .now hP
    · refine .later (henabled s hs hP) fun a t ha ht ↦ ?_
      exact ih (μ t) (hμ ▸ hless s a t hs ha ht) (hkeep s a t hs ha ht) rfl

/-- Some labels, and then one. -/
def amid (step : σ → α → Option σ) (s : σ) (x : List α × α) : Option σ :=
  (run step s x.1).bind fun t ↦ step t x.2

theorem amid_eq_some {x : List α × α} :
    amid step s x = some t ↔ ∃ u, run step s x.1 = some u ∧ step u x.2 = some t :=
  Option.bind_eq_some_iff

/-- The drain rule with labels in between that leave the measure alone. -/
theorem Inevitable.amid_of_measure {β : Type*} [LT β] [WellFoundedLT β] (μ : σ → β)
    {other : α → Prop} (hother : ∀ s a t, I s → other a → step s a = some t → I t ∧ μ t = μ s)
    (hwork : ∀ s a t, I s → work a → step s a = some t → I t ∧ μ t < μ s)
    (henabled : ∀ s, I s → ¬P s → ∃ a, work a ∧ (step s a).isSome) (hs : I s) :
    Inevitable (amid step) (fun x ↦ (∀ a ∈ x.1, other a) ∧ work x.2) P s := by
  have hothers : ∀ (as : List α) {s t : σ}, I s → (∀ a ∈ as, other a) → run step s as = some t →
      I t ∧ μ t = μ s := by
    intro as
    induction as with
    | nil =>
      intro s t hs _ hrun
      obtain rfl : s = t := by simpa using hrun
      exact ⟨hs, rfl⟩
    | cons a as ih =>
      intro s t hs has hrun
      obtain ⟨u, hu, hrest⟩ := run_cons_eq_some.mp hrun
      obtain ⟨hIu, hμu⟩ := hother s a u hs (has a List.mem_cons_self) hu
      obtain ⟨hIt, hμt⟩ := ih hIu (fun b hb ↦ has b (List.mem_cons_of_mem a hb)) hrest
      exact ⟨hIt, hμt.trans hμu⟩
  have hstep : ∀ s x t, I s → ((∀ a ∈ x.1, other a) ∧ work x.2) → amid step s x = some t →
      I t ∧ μ t < μ s := by
    intro s x t hs hx ht
    obtain ⟨u, hu, ht⟩ := amid_eq_some.mp ht
    obtain ⟨hIu, hμu⟩ := hothers x.1 hs hx.1 hu
    obtain ⟨hIt, hμt⟩ := hwork u x.2 t hIu hx.2 ht
    exact ⟨hIt, hμu ▸ hμt⟩
  refine .of_measure μ (fun s x t hI hx ht ↦ (hstep s x t hI hx ht).1)
    (fun s x t hI hx ht ↦ (hstep s x t hI hx ht).2) (fun s hI hP ↦ ?_) hs
  obtain ⟨a, ha, hsome⟩ := henabled s hI hP
  exact ⟨([], a), ⟨by simp, ha⟩, hsome⟩

end Runs

namespace Draining

variable {α : Type*} {l : List α} {a b : α} {i : ℕ}

/-- The sum of the weights of the members of a list. -/
def weight (w : α → ℕ) : List α → ℕ
  | [] => 0
  | a :: l => w a + weight w l

@[simp] theorem weight_nil (w : α → ℕ) : weight w [] = 0 := rfl

@[simp] theorem weight_concat (w : α → ℕ) (l : List α) (a : α) :
    weight w (l ++ [a]) = weight w l + w a := by
  induction l with
  | nil => exact Nat.add_comm (w a) 0
  | cons b l ih => rw [List.cons_append, weight, weight, ih, Nat.add_assoc]

theorem weight_eraseIdx (w : α → ℕ) (h : l[i]? = some a) :
    weight w (l.eraseIdx i) + w a = weight w l := by
  induction l generalizing i with
  | nil => simp at h
  | cons b l ih =>
    cases i with
    | zero =>
      obtain rfl := Option.some.inj h
      rw [List.eraseIdx_cons_zero, weight, Nat.add_comm]
    | succ i =>
      rw [List.eraseIdx_cons_succ, weight, weight, Nat.add_assoc]
      exact congrArg _ (ih h)

theorem weight_set (w : α → ℕ) (h : l[i]? = some a) (b : α) :
    weight w (l.set i b) + w a = weight w l + w b := by
  induction l generalizing i with
  | nil => simp at h
  | cons c l ih =>
    cases i with
    | zero =>
      obtain rfl := Option.some.inj h
      rw [List.set_cons_zero, weight, weight]
      omega
    | succ i =>
      rw [List.set_cons_succ, weight, weight, Nat.add_assoc, Nat.add_assoc]
      exact congrArg _ (ih h)

theorem weight_modify (w : α → ℕ) (h : l[i]? = some a) (f : α → α) :
    weight w (l.modify i f) + w a = weight w l + w (f a) := by
  rw [List.modify_eq_set_getElem?, h]
  exact weight_set w h (f a)

end Draining
