import Mathlib.Computability.StateTransition
import Mathlib.Data.Fintype.Card
import Mathlib.Data.Set.Finite.Lattice

/-!
# Halting of a deterministic iteration over finitely many states

`StateTransition.eval f a` follows a partial function `f` from `a` until it is undefined. Over
infinitely many states there is no reason why it should end. Where only finitely many states can be
reached there is exactly one way not to end: to come back to a state that was left.
-/

namespace StateTransition

variable {σ : Type*} {f : σ → Option σ} {a b z : σ}

/-- From `a` the iteration reaches a state that it comes back to. -/
def Circles (f : σ → Option σ) (a : σ) : Prop := ∃ b, Reaches f a b ∧ Reaches₁ f b b

theorem not_reaches₁_self_of_halts (h : z ∈ eval f b) : ¬Reaches₁ f b b := by
  rw [mem_eval] at h
  obtain ⟨hreach, hz⟩ := h
  induction hreach using Relation.ReflTransGen.head_induction_on with
  | refl =>
    intro hcircle
    obtain ⟨y, hy, -⟩ := Relation.TransGen.head'_iff.mp hcircle
    rw [Option.mem_def, hz] at hy
    cases hy
  | head hstep _ ih =>
    -- a circle through a state is a circle through its successor
    intro hcircle
    exact ih (Relation.TransGen.tail' (reaches₁_fwd hcircle hstep) hstep)

theorem Circles.not_dom (h : Circles f a) : ¬(eval f a).Dom := by
  obtain ⟨b, hab, hb⟩ := h
  rw [reaches_eval hab]
  intro hdom
  exact not_reaches₁_self_of_halts (Part.get_mem hdom) hb

theorem eval_dom_of_eq_none (h : f a = none) : (eval f a).Dom :=
  Part.dom_iff_mem.mpr ⟨a, mem_eval.mpr ⟨.refl, h⟩⟩

theorem eval_of_eq_some (h : f a = some b) : eval f a = eval f b :=
  reaches_eval (.single h)

theorem finite_reaches (hfin : {x | f x ≠ none}.Finite) (a : σ) : {x | Reaches f a x}.Finite := by
  have hsub : {x | Reaches f a x} ⊆ {a} ∪ (fun x ↦ (f x).getD a) '' {x | f x ≠ none} := by
    intro x hx
    obtain rfl | ⟨y, -, hy⟩ := Relation.ReflTransGen.cases_tail hx
    · exact .inl rfl
    · rw [Option.mem_def] at hy
      exact .inr ⟨y, by simp [hy], by simp [hy]⟩
  exact ((Set.finite_singleton a).union (hfin.image _)).subset hsub

/-- Without a circle the states that are reached are well-founded under "comes after". -/
theorem eval_dom_of_not_circles (hfin : {x | Reaches f a x}.Finite) (h : ¬Circles f a) :
    (eval f a).Dom := by
  let S := {x | Reaches f a x}
  let after : S → S → Prop := fun x y ↦ Reaches₁ f y.1 x.1
  have : Finite S := hfin
  have : IsTrans S after := ⟨fun _ _ _ hxy hyz ↦ hyz.trans hxy⟩
  have : Std.Irrefl after := ⟨fun x hx ↦ h ⟨x.1, x.2, hx⟩⟩
  have key : ∀ x : S, (eval f x.1).Dom := by
    intro x
    induction x using (Finite.wellFounded_of_trans_of_irrefl after).induction with
    | _ x ih =>
      cases hx : f x.1 with
      | none => exact eval_dom_of_eq_none hx
      | some y =>
        rw [eval_of_eq_some hx]
        exact ih ⟨y, x.2.tail hx⟩ (.single hx)
  exact key ⟨a, .refl⟩

/-- **Halting over finitely many states.** The iteration ends exactly when it reaches no circle. -/
theorem eval_dom_iff_not_circles (hfin : {x | f x ≠ none}.Finite) :
    (eval f a).Dom ↔ ¬Circles f a :=
  ⟨fun hdom hcircle ↦ hcircle.not_dom hdom, eval_dom_of_not_circles (finite_reaches hfin a)⟩

end StateTransition
