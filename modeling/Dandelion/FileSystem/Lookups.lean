import Dandelion.FileSystem.Positions

/-! # Paths and what they lead to

The components of a path have no slash and no terminator, and a lookup changes
nothing: it goes where the names of the tree lead.
-/

namespace Dandelion.FileSystem

open Foundation.Triples

variable {P : Platform} {s : State} {m : Memory} {L : Ptr → List Ptr} {d : Ptr} {path file : Path}

section Components

theorem componentsWithin_mem {rounds : Nat} {c : Path} (h : c ∈ componentsWithin rounds path) :
    c ≠ [] ∧ slash ∉ c ∧ ∀ x ∈ c, x ∈ path := by
  induction rounds generalizing path with
  | zero => exact absurd h List.not_mem_nil
  | succ rounds ih =>
    rw [componentsWithin] at h
    split at h
    · exact absurd h List.not_mem_nil
    · rename_i hne
      have hSub : ∀ x ∈ path.dropWhile (· = slash), x ∈ path :=
        fun x hx => (List.dropWhile_sublist _).subset hx
      rcases List.mem_cons.mp h with rfl | h
      · refine ⟨hne, fun hSlash => ?_, fun x hx => hSub x ((List.takeWhile_prefix _).subset hx)⟩
        have := List.mem_takeWhile_imp hSlash
        simp at this
      · obtain ⟨h₁, h₂, h₃⟩ := ih h
        exact ⟨h₁, h₂, fun x hx => hSub x ((List.dropWhile_sublist _).subset (h₃ x hx))⟩

theorem components_mem {c : Path} (h : c ∈ components path) :
    c ≠ [] ∧ slash ∉ c ∧ ∀ x ∈ c, x ∈ path :=
  componentsWithin_mem h

theorem zero_not_mem_pathOf (name : List UInt8) : 0 ∉ pathOf name := by
  intro hZero
  have := List.mem_takeWhile_imp hZero
  simp at this

theorem getDirectories_mem {x : UInt8} (h : x ∈ getDirectories path) : x ∈ path :=
  List.mem_of_mem_take h

theorem getFile_mem {x : UInt8} (h : getFile path = some file) (hx : x ∈ file) : x ∈ path := by
  unfold getFile at h
  split at h
  · cases h
  · obtain rfl := Option.some.inj h
    exact List.mem_of_mem_drop hx

theorem components_clean (hZero : 0 ∉ path) : ∀ c ∈ components path, 0 ∉ c ∧ slash ∉ c := by
  intro c hc
  obtain ⟨_, hSlash, hSub⟩ := components_mem hc
  exact ⟨fun h => hZero (hSub 0 h), hSlash⟩

theorem zero_not_mem_getDirectories (hZero : 0 ∉ path) : 0 ∉ getDirectories path := fun h =>
  hZero (getDirectories_mem h)

end Components

section Lookup

theorem ensures_pathFromString (name : List UInt8) :
    Ensures (pathFromString name) s fun r s' => s' = s ∧ r = pathOf name ∧
      (pathOf name).length < fsPathLength := by
  by_cases h : (pathOf name).length < fsPathLength
  · exact .of_ok (pathFromString_ok h) ⟨rfl, rfl, h⟩
  · have hLong : (name.takeWhile (· ≠ 0)).length ≥ fsPathLength := Nat.le_of_not_lt h
    refine .of_error (e := .exit eNAMETOOLONG) ?_ trivial
    rw [pathFromString, if_pos hLong]
    rfl

theorem ensures_findFile (hListing : Listing P s.memory L) (name : List UInt8) :
    Ensures (findFile P name) s fun r s' => s' = s ∧ r = resolve s.memory L name ∧
      (r ≠ 0 → Rooted L r) := by
  rw [findFile]
  refine (ensures_pathFromString name).bind fun path s₁ h => ?_
  obtain ⟨rfl, rfl, _⟩ := h
  exact .of_ok (findFrom_ok hListing .root _) ⟨rfl, rfl, fun hr => Rooted.walk hListing .root hr⟩

theorem ensures_findFile_short (name : List UInt8) :
    Ensures (findFile P name) s fun _ _ => (pathOf name).length < fsPathLength := by
  rw [findFile]
  refine (ensures_pathFromString name).bind fun path s₁ h => ?_
  exact (Meets.any _ _).imp fun _ _ _ => h.2.2

theorem walk_append {names rest : List Path} (h : walk m L d names ≠ 0) :
    walk m L d (names ++ rest) = walk m L (walk m L d names) rest := by
  induction names generalizing d with
  | nil => rfl
  | cons c names ih =>
    rw [walk] at h
    split at h
    · rename_i hDir
      split at h
      · exact absurd rfl h
      · rename_i hStep
        rw [List.cons_append, walk, walk, if_pos hDir, if_pos hDir, if_neg hStep, if_neg hStep]
        exact ih h
    · exact absurd rfl h

end Lookup

end Dandelion.FileSystem
