import Mathlib.Data.List.Basic

/-! # Named forests

A forest is a list of leaves with values and of branches with forests below them.
Its leaves are listed depth first, each with the names on the way to it.
-/

namespace Dandelion.Foundation.Forests

set_option autoImplicit false

universe u v

/-- The first entry and the forest of the entries behind it. -/
inductive Forest (α : Type u) (β : Type v) where
  | nil
  | leaf (name : α) (value : β) (rest : Forest α β)
  | branch (name : α) (inner rest : Forest α β)
  deriving DecidableEq

variable {α : Type u} {β : Type v}

def Forest.leaves : Forest α β → List (List α × β)
  | nil => []
  | leaf name value rest => ([name], value) :: rest.leaves
  | branch name inner rest => inner.leaves.map (fun x => (name :: x.1, x.2)) ++ rest.leaves

def Forest.height : Forest α β → Nat
  | nil => 0
  | leaf _ _ rest => rest.height + 1
  | branch _ inner rest => max inner.height rest.height + 1

/-- The entries of the forest that have a name to be kept. -/
def Forest.keep (kept : α → Bool) : Forest α β → Forest α β
  | nil => nil
  | leaf name value rest => if kept name then leaf name value (rest.keep kept) else rest.keep kept
  | branch name inner rest =>
    if kept name then branch name inner (rest.keep kept) else rest.keep kept

theorem Forest.names_ne_nil {F : Forest α β} {x : List α × β} (h : x ∈ F.leaves) : x.1 ≠ [] := by
  induction F with
  | nil => exact absurd h List.not_mem_nil
  | leaf name value rest ih =>
    rcases List.mem_cons.mp h with rfl | hRest
    · exact List.cons_ne_nil _ _
    · exact ih hRest
  | branch name inner rest _ ih =>
    rcases List.mem_append.mp h with hInner | hRest
    · obtain ⟨y, -, rfl⟩ := List.mem_map.mp hInner
      exact List.cons_ne_nil _ _
    · exact ih hRest

/-- The leaves with their names joined by a separator, behind what comes before. -/
def Forest.spelled (separator : List β) {γ : Type v} (before : List β) (F : Forest (List β) γ) :
    List (List β × γ) :=
  F.leaves.map fun x => (before ++ separator.intercalate x.1, x.2)

section Spelling

variable {γ : Type v} {separator before : List β}

theorem Forest.spelled_leaf (name : List β) (value : γ) (rest : Forest (List β) γ) :
    (leaf name value rest).spelled separator before =
    (before ++ name, value) :: rest.spelled separator before := by
  simp [spelled, leaves, List.intercalate]

theorem Forest.spelled_branch (name : List β) (inner rest : Forest (List β) γ) :
    (branch name inner rest).spelled separator before =
      inner.spelled separator (before ++ name ++ separator) ++ rest.spelled separator before := by
  rw [spelled, leaves, List.map_append, List.map_map]
  congr 1
  refine List.map_congr_left fun x hx => ?_
  obtain ⟨first, others, hNames⟩ := List.exists_cons_of_ne_nil (names_ne_nil hx)
  simp only [Function.comp_apply, hNames, List.intercalate, List.intersperse_cons_cons,
    List.flatten_cons, List.append_assoc]

end Spelling

end Dandelion.Foundation.Forests
