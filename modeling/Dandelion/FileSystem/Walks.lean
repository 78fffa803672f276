import Mathlib.Logic.Relation
import Dandelion.FileSystem.Tree

/-! # Walks through the tree

A lookup follows the components of a path from directory to directory. It ends
at a node of the tree or nowhere, and it changes nothing.
-/

namespace Dandelion.FileSystem

open Foundation.Triples

def isDirectory (m : Memory) (p : Ptr) : Bool := (m.files p).any fun f => f.type = .directory

def parentOf (m : Memory) (p : Ptr) : Ptr := ((m.files p).map (·.parent)).getD 0

/-- The node a component leads to from a directory, or null. -/
def stepTo (m : Memory) (L : Ptr → List Ptr) (d : Ptr) (name : Path) : Ptr :=
  if name = [dot] then d else if name = [dot, dot] then parentOf m d else lookupIn m name (L d)

def walk (m : Memory) (L : Ptr → List Ptr) : Ptr → List Path → Ptr
  | d, [] => d
  | d, name :: rest =>
    if isDirectory m d then
      if stepTo m L d name = 0 then 0 else walk m L (stepTo m L d name) rest
    else 0

def Below (L : Ptr → List Ptr) (d p : Ptr) : Prop := Relation.ReflTransGen (fun c q => q ∈ L c) d p

def Rooted (L : Ptr → List Ptr) (p : Ptr) : Prop := Below L fsRoot p

variable {P : Platform} {s : State} {m : Memory} {L : Ptr → List Ptr} {d p q : Ptr} {l : List Ptr}
  {f : DFile}

theorem isDirectory_iff : isDirectory m p = true ↔
    ∃ f, m.files p = some f ∧ f.type = .directory := by
  rw [isDirectory, Option.any_eq_true_iff_get]
  constructor
  · rintro ⟨hSome, hType⟩
    exact ⟨_, Option.some_get hSome |>.symm, of_decide_eq_true hType⟩
  · rintro ⟨f, hf, hType⟩
    refine ⟨by rw [hf]; rfl, ?_⟩
    simp only [hf, Option.get_some, hType, decide_true]

theorem isDirectory_of (hf : m.files p = some f) :
    isDirectory m p = decide (f.type = .directory) := by
  rw [isDirectory, hf, Option.any_some]

theorem parentOf_of (hf : m.files p = some f) : parentOf m p = f.parent := by
  rw [parentOf, hf, Option.map_some, Option.getD_some]

theorem stepTo_name {name : Path} (hDot : name ≠ [dot]) (hDots : name ≠ [dot, dot]) :
    stepTo m L d name = lookupIn m name (L d) := by
  rw [stepTo, if_neg hDot, if_neg hDots]

theorem stepTo_dots : stepTo m L d [dot, dot] = parentOf m d := rfl

theorem walk_cons {name : Path} {rest : List Path} (hDir : isDirectory m d = true)
    (hStep : stepTo m L d name = q) (hq : q ≠ 0) : walk m L d (name :: rest) = walk m L q rest := by
  rw [walk, if_pos hDir, hStep, if_neg hq]

theorem walk_stuck {name : Path} {rest : List Path}
    (h : isDirectory m d = true → stepTo m L d name = 0) :
    walk m L d (name :: rest) = 0 := by
  rw [walk]
  split
  · rename_i hDir
    rw [if_pos (h hDir)]
  · rfl

theorem lookupIn_mem {name : Path} (h : lookupIn m name l ≠ 0) :
    lookupIn m name l ∈ l ∧ trim (nameOf m (lookupIn m name l)) fsNameLength =
      trim name name.length := by
  unfold lookupIn at h ⊢
  cases hFind : l.find? fun q =>
    decide (trim (nameOf m q) fsNameLength = trim name name.length) with
  | none => rw [hFind] at h; exact absurd rfl h
  | some q =>
    rw [Option.getD_some]
    have hName := List.find?_some hFind
    exact ⟨List.mem_of_find?_eq_some hFind, of_decide_eq_true hName⟩

theorem lookupIn_eq_zero {name : Path} (hne : 0 ∉ l) :
    lookupIn m name l = 0 ↔ ∀ q ∈ l, trim (nameOf m q) fsNameLength ≠ trim name name.length := by
  unfold lookupIn
  constructor
  · intro h q hq hName
    cases hFind : l.find? fun q =>
      decide (trim (nameOf m q) fsNameLength = trim name name.length) with
    | none => exact List.find?_eq_none.mp hFind q hq (decide_eq_true hName)
    | some r =>
      rw [hFind, Option.getD_some] at h
      exact hne (h ▸ List.mem_of_find?_eq_some hFind)
  · intro h
    rw [List.find?_eq_none.mpr fun q hq hName => h q hq (of_decide_eq_true hName), Option.getD_none]

theorem Listing.zero_unlisted (h : Listing P m L) (d : Ptr) : 0 ∉ L d := h.unlisted_of_none h.null d

theorem Rooted.root : Rooted L fsRoot := .refl

theorem Listing.isDirectory_root (h : Listing P m L) : isDirectory m fsRoot = true := by
  obtain ⟨f, hf, hType, -⟩ := h.root
  exact isDirectory_iff.mpr ⟨f, hf, hType⟩

theorem Rooted.child (h : Rooted L d) (hp : p ∈ L d) : Rooted L p := .tail h hp

theorem Rooted.cases (h : Rooted L p) : p = fsRoot ∨ ∃ d, Rooted L d ∧ p ∈ L d := by
  rcases Relation.ReflTransGen.cases_tail h with hEq | ⟨d, hd, hp⟩
  · exact Or.inl hEq
  · exact Or.inr ⟨d, hd, hp⟩

theorem Rooted.live (hListing : Listing P m L) (h : Rooted L p) : ∃ f, m.files p = some f := by
  rcases h.cases with rfl | ⟨d, _, hp⟩
  · obtain ⟨f, hf, _⟩ := hListing.root
    exact ⟨f, hf⟩
  · obtain ⟨f, hf, _⟩ := hListing.live hp
    exact ⟨f, hf⟩

theorem Rooted.parent (hListing : Listing P m L) (h : Rooted L p) :
    p = fsRoot ∧ parentOf m p = 0 ∨ p ∈ L (parentOf m p) ∧ Rooted L (parentOf m p) := by
  rcases h.cases with rfl | ⟨d, hd, hp⟩
  · obtain ⟨f, hf, _, hParent⟩ := hListing.root
    exact Or.inl ⟨rfl, (parentOf_of hf).trans hParent⟩
  · obtain ⟨f, hf, rfl⟩ := hListing.live hp
    rw [parentOf_of hf]
    exact Or.inr ⟨hp, hd⟩

theorem Rooted.step (hListing : Listing P m L) (h : Rooted L d) {name : Path}
    (hStep : stepTo m L d name ≠ 0) :
    Rooted L (stepTo m L d name) := by
  unfold stepTo at hStep ⊢
  split
  · exact h
  · rename_i hDot
    rw [if_neg hDot] at hStep
    split
    · rename_i hDots
      rw [if_pos hDots] at hStep
      rcases h.parent hListing with ⟨_, hZero⟩ | ⟨_, hUp⟩
      · exact absurd hZero hStep
      · exact hUp
    · rename_i hDots
      rw [if_neg hDots] at hStep
      exact h.child (lookupIn_mem hStep).1

theorem Rooted.walk (hListing : Listing P m L) (h : Rooted L d) {names : List Path}
    (hWalk : walk m L d names ≠ 0) :
    Rooted L (walk m L d names) := by
  induction names generalizing d with
  | nil => exact h
  | cons name rest ih =>
    rw [FileSystem.walk] at hWalk ⊢
    split at hWalk
    · rename_i hDir
      rw [if_pos hDir]
      split at hWalk
      · exact absurd rfl hWalk
      · rename_i hStep
        rw [if_neg hStep]
        exact ih (h.step hListing hStep) hWalk
    · exact absurd rfl hWalk

theorem findFileInDir_step (hListing : Listing P s.memory L) (hf : s.memory.files d = some f)
    (hDir : f.type = .directory) (name : Path) :
    findFileInDir P d name s = .ok (stepTo s.memory L d name, s) := by
  unfold stepTo
  by_cases hDot : name = [dot]
  · rw [findFileInDir, if_pos hDot, if_pos hDot]
    rfl
  · by_cases hDots : name = [dot, dot]
    · rw [findFileInDir, if_neg hDot, if_pos hDots, if_neg hDot, if_pos hDots,
        bind_ok (getFileAt_ok (hListing.ne_zero hf) hf), parentOf_of hf]
      rfl
    · rw [findFileInDir_ok (hListing.entries d f hf hDir) (hListing.sorted d) hDot hDots,
        if_neg hDot, if_neg hDots]

theorem findFrom_ok (hListing : Listing P s.memory L) (h : Rooted L d) (names : List Path) :
    findFrom P d names s = .ok (walk s.memory L d names, s) := by
  induction names generalizing d with
  | nil => rfl
  | cons name rest ih =>
    obtain ⟨f, hf⟩ := h.live hListing
    rw [findFrom, bind_ok (getFileAt_ok (hListing.ne_zero hf) hf), FileSystem.walk,
      isDirectory_of hf]
    by_cases hDir : f.type = .directory
    · rw [if_neg (not_not.mpr hDir), if_pos (decide_eq_true hDir),
        bind_ok (findFileInDir_step hListing hf hDir name)]
      by_cases hStep : stepTo s.memory L d name = 0
      · rw [if_pos hStep, if_pos hStep]
        rfl
      · rw [if_neg hStep, if_neg hStep, ih (h.step hListing hStep)]
    · rw [if_pos hDir,
        if_neg (by simp only [hDir, decide_false, Bool.false_eq_true, not_false_eq_true])]
      rfl

def pathOf (str : List UInt8) : Path := str.takeWhile (· ≠ 0)

theorem pathFromString_ok {str : List UInt8} (h : (pathOf str).length < fsPathLength) :
    pathFromString str s = .ok (pathOf str, s) := by
  have hNot : ¬ (str.takeWhile (· ≠ 0)).length ≥ fsPathLength := Nat.not_le.mpr h
  rw [pathFromString, if_neg hNot]
  rfl

def resolve (m : Memory) (L : Ptr → List Ptr) (str : List UInt8) : Ptr :=
  walk m L fsRoot (components (pathOf str))

theorem findFile_ok (hListing : Listing P s.memory L) {str : List UInt8}
    (h : (pathOf str).length < fsPathLength) :
    findFile P str s = .ok (resolve s.memory L str, s) := by
  rw [findFile, bind_ok (pathFromString_ok h)]
  exact findFrom_ok hListing .root _

end Dandelion.FileSystem
