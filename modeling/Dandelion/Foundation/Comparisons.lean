import Mathlib.Data.List.Lex
import Mathlib.Order.Lattice

/-! # Signs of comparisons

A comparison returns a number whose sign says how its arguments are ordered. The
rules for lists compare them element by element.
-/

namespace Dandelion.Foundation.Comparisons

set_option autoImplicit false

universe u

/-- How the sign of a comparison reflects an order. -/
def Signs {α : Type u} [LT α] (result : Int) (x y : α) : Prop :=
  (result < 0 ↔ x < y) ∧ (result = 0 ↔ x = y) ∧ (result > 0 ↔ y < x)

variable {α : Type u} [LinearOrder α] {i j : α} {x y z : List α} {result first second third : Int}

theorem signs_equal (x : List α) : Signs 0 x x := by
  simp [Signs]

theorem signs_nil_cons (i : α) (x : List α) : Signs (-1) [] (i :: x) := by
  simp [Signs]

theorem signs_cons_nil (i : α) (x : List α) : Signs 1 (i :: x) [] := by
  simp [Signs]

theorem signs_cons : Signs result (i :: x) (i :: y) ↔ Signs result x y := by
  simp [Signs]

theorem signs_differ (x y : List α) (h : i ≠ j) : Signs (if i < j then -1 else 1) (i :: x)
    (j :: y) := by
  rcases lt_or_gt_of_ne h with hLt | hLt
  · simp [Signs, List.cons_lt_cons_iff, hLt, h, h.symm, lt_asymm hLt]
  · simp [Signs, List.cons_lt_cons_iff, hLt, h, h.symm, lt_asymm hLt]

theorem Signs.le_iff (h : Signs result x y) : result ≤ 0 ↔ x ≤ y := by
  rw [← Int.not_lt, ← not_lt]
  exact not_congr h.2.2

theorem Signs.trans (hxy : Signs first x y) (hyz : Signs second y z) (hxz : Signs third x z)
    (hFirst : first ≤ 0) (hSecond : second ≤ 0) :
    third ≤ 0 ∧ (third = 0 → first = 0 ∧ second = 0) := by
  have hxy' := hxy.le_iff.mp hFirst
  have hyz' := hyz.le_iff.mp hSecond
  refine ⟨hxz.le_iff.mpr (le_trans hxy' hyz'), fun hZero => ?_⟩
  have hSame := hxz.2.1.mp hZero
  constructor
  · exact hxy.2.1.mpr (le_antisymm hxy' (hSame ▸ hyz'))
  · exact hyz.2.1.mpr (le_antisymm hyz' (hSame ▸ hxy'))

end Dandelion.Foundation.Comparisons
