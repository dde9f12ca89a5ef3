import Mathlib.Data.List.Basic
import Mathlib.Order.Compare

/-!
# Lexicographic order

Lists over an ordered type with a least element, in lexicographic order. A list has a next one: its
extension by the least element. So finitely many lists cut the order into finitely many pieces, and
every piece that is not empty has a first element that is known: one of the lists, the next one
after one of them, or the empty list. A test that compares its argument with given lists only has to
be tried on these (`exists_representative`).
-/

namespace Lexicographic

open Std

variable {α : Type*} [Ord α] {least : α} {x y : List α}

theorem compare_append_singleton [ReflOrd α] (x : List α) (a : α) :
    compare x (x ++ [a]) = .lt := by
  induction x with
  | nil => rfl
  | cons b x ih =>
    have hb : compare b b = .eq := ReflCmp.compare_self
    rw [List.cons_append, List.compare_cons_cons, ih, hb]
    rfl

/-- Nothing lies between a list and its extension by the least element. -/
theorem isLE_append_least (hleast : ∀ a, (compare least a).isLE) (h : compare x y = .lt) :
    (compare (x ++ [least]) y).isLE := by
  induction x generalizing y with
  | nil =>
    cases y with
    | nil => cases h
    | cons b y =>
      rw [List.nil_append, List.compare_cons_cons]
      have hb := hleast b
      cases hc : compare least b with
      | lt => rfl
      | eq => cases y <;> rfl
      | gt => rw [hc] at hb; cases hb
  | cons a x ih =>
    cases y with
    | nil => cases h
    | cons b y =>
      rw [List.compare_cons_cons] at h
      rw [List.cons_append, List.compare_cons_cons]
      cases hc : compare a b with
      | lt => rfl
      | eq =>
        rw [hc] at h
        exact ih h
      | gt => rw [hc] at h; cases h

theorem isLE_nil (x : List α) : (compare [] x).isLE := by
  cases x <;> rfl

variable [TransOrd α]

theorem exists_below (hleast : ∀ a, (compare least a).isLE) (xs : List (List α)) (y : List α) :
    ∃ z ∈ [] :: xs.map (· ++ [least]), (compare z y).isLE ∧
      ∀ x ∈ xs, compare x y = .lt → compare x z = .lt := by
  induction xs with
  | nil => exact ⟨[], List.mem_cons_self, isLE_nil y, nofun⟩
  | cons x xs ih =>
    obtain ⟨z, hz, hzy, hbelow⟩ := ih
    have hmem : z ∈ [] :: (x :: xs).map (· ++ [least]) := by
      rw [List.map_cons]
      exact (List.mem_cons.mp hz).elim (fun h ↦ h ▸ List.mem_cons_self)
        fun h ↦ List.mem_cons_of_mem _ (List.mem_cons_of_mem _ h)
    by_cases hxy : compare x y = .lt
    · by_cases hxz : compare x z = .lt
      · exact ⟨z, hmem, hzy, List.forall_mem_cons.mpr ⟨fun _ ↦ hxz, hbelow⟩⟩
      · -- the extension of `x` is between `z` and `y`
        have hzx : (compare z x).isLE := by
          rw [OrientedOrd.eq_swap]
          cases hc : compare x z with
          | lt => exact absurd hc hxz
          | eq => rfl
          | gt => rfl
        have hnext := compare_append_singleton x least
        refine ⟨x ++ [least], ?_, isLE_append_least hleast hxy,
          List.forall_mem_cons.mpr ⟨fun _ ↦ hnext, fun w hw hwy ↦ ?_⟩⟩
        · exact List.mem_cons_of_mem _ List.mem_cons_self
        · exact TransCmp.lt_trans (TransCmp.lt_of_lt_of_isLE (hbelow w hw hwy) hzx) hnext
    · exact ⟨z, hmem, hzy, List.forall_mem_cons.mpr ⟨fun h ↦ absurd h hxy, hbelow⟩⟩

/-- The lists to try: the empty one, the given ones and the next one after each. -/
def representatives (least : α) (xs : List (List α)) : List (List α) :=
  [] :: xs.map (· ++ [least]) ++ xs

/-- **Finitely many pieces.** Every list compares with the given ones as some representative
does. -/
theorem exists_representative [LawfulEqOrd α] (hleast : ∀ a, (compare least a).isLE)
    (xs : List (List α)) (y : List α) :
    ∃ z ∈ representatives least xs, ∀ x ∈ xs, compare y x = compare z x := by
  by_cases hmem : y ∈ xs
  · exact ⟨y, List.mem_append_right _ hmem, fun _ _ ↦ rfl⟩
  · obtain ⟨z, hz, hzy, hbelow⟩ := exists_below hleast xs y
    refine ⟨z, List.mem_append_left _ hz, fun x hx ↦ ?_⟩
    cases hyx : compare y x with
    | lt => exact (TransCmp.lt_of_isLE_of_lt hzy hyx).symm
    | eq => exact absurd (LawfulEqOrd.eq_of_compare hyx ▸ hx) hmem
    | gt => exact (OrientedCmp.gt_iff_lt.mpr (hbelow x hx (OrientedCmp.gt_iff_lt.mp hyx))).symm

end Lexicographic
