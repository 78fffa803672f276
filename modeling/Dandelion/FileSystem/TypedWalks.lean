import Dandelion.FileSystem.SteadyRuns
import Dandelion.FileSystem.Walkers

/-! # Files taken for directories

`find_file_in_dir` leaves it to its callers to check that they search a directory.
`create_directories` checks the node it starts at and none of those it comes to.
The same walk with the check made in every search shows where that matters.
-/

namespace Dandelion.FileSystem

open Foundation.Runs Foundation.Triples

def findFileInDirChecked (P : Platform) (directory : Ptr) (name : Path) : M Ptr := do
  let d ← getFileAt directory
  if d.type ≠ .directory then fail .invalid else findFileInDir P directory name

/-- The loop of `create_directories` with a check in every search. -/
def createFromChecked (P : Platform) (preventUp : Bool) : Ptr → List Path → M Ptr
  | directory, [] => pure directory
  | directory, c :: rest => walkStep P (findFileInDirChecked P) preventUp
      (fun d => createFromChecked P preventUp d rest) directory c

def createDirectoriesChecked (P : Platform) (directory : Ptr) (path : Path) (preventUp : Bool) :
    M Ptr := do
  let d ← getFileAt directory
  if d.type ≠ .directory then pure 0
  else createFromChecked P preventUp directory (components path)

/-- Only directories are searched, and what is returned is one or null. -/
def SearchesDirectories (P : Platform) (s : State) (d : Ptr) (path : Path) (preventUp : Bool) :
    Prop :=
  Meets (createDirectoriesChecked P d path preventUp) s
    (fun r s' => createDirectories P d path preventUp s = .ok (r, s') ∧
      (r = 0 ∨ isDirectory s'.memory r = true))
    fun _ => ¬ P.Grants

/-- From a place the components lead through directories only: no name is looked for in a file,
and the end is not one. -/
def keepsToDirectories (m : Memory) (L : Ptr → List Ptr) (preventUp : Bool) :
    Spot → List Path → Bool
  | x, [] => x.isDirectory m
  | x, c :: rest =>
    if preventUp ∧ c = [dot, dot] then true
    else match x.turn m L c with
      | .on y => keepsToDirectories m L preventUp y rest
      | .new y => keepsToDirectories m L preventUp y rest
      | .cut => true
      | .stop => false

/-- What `x` returns is what `y` returns. -/
def Echoes {α : Type} (x y : M α) : Prop := ∀ s, Ensures x s fun a s' => y s = .ok (a, s')

variable {P : Platform} {s s' s₁ s₂ : State} {m : Memory} {L L₁ : Ptr → List Ptr} {d p q r : Ptr}
  {preventUp : Bool} {e f : DFile} {c : Path} {names rest : List Path} {path : Path} {x : Spot}
  {V : Finset Spot} {α β : Type}

section Checked

theorem findFileInDirChecked_directory (hListing : Listing P s.memory L)
    (hd : isDirectory s.memory d = true) :
    findFileInDirChecked P d c s = findFileInDir P d c s := by
  obtain ⟨f, hf, hType⟩ := isDirectory_iff.mp hd
  rw [findFileInDirChecked, bind_ok (getFileAt_ok (hListing.ne_zero hf) hf),
    if_neg (not_not.mpr hType)]

theorem findFileInDirChecked_file (hListing : Listing P s.memory L)
    (hf : s.memory.files d = some f) (hType : f.type ≠ .directory) :
    findFileInDirChecked P d c s = .error .invalid := by
  rw [findFileInDirChecked, bind_ok (getFileAt_ok (hListing.ne_zero hf) hf), if_pos hType]
  rfl

theorem Echoes.refl (x : M α) : Echoes x x := fun s => .self x s

theorem Echoes.bind {x y : M α} {k l : α → M β} (hx : Echoes x y) (hk : ∀ a, Echoes (k a) (l a)) :
    Echoes (x >>= k) (y >>= l) := by
  intro s
  refine (hx s).bind fun a s₁ h => ?_
  rw [bind_ok h]
  exact hk a s₁

theorem Echoes.ite {c : Prop} [Decidable c] {x x' y y' : M α} (hx : Echoes x x')
    (hy : Echoes y y') : Echoes (if c then x else y) (if c then x' else y') := by
  split
  · exact hx
  · exact hy

theorem echoes_findFileInDirChecked :
    Echoes (findFileInDirChecked P d c) (findFileInDir P d c) := by
  intro s
  refine ensures_file fun f _ _ => ?_
  exact .ite (fun _ => trivial) fun _ => .self _ _

theorem echoes_createFromChecked (d : Ptr) (names : List Path) :
    Echoes (createFromChecked P preventUp d names) (createFrom P preventUp d names) := by
  induction names generalizing d with
  | nil => exact .refl _
  | cons c rest ih =>
    rw [createFromChecked, createFrom_cons, walkStep, walkStep]
    refine .ite (.refl _) (.ite (ih d) (.ite (.ite (.refl _) ?_) ?_))
    · exact (Echoes.refl _).bind fun f => .ite (ih _) (ih _)
    · refine echoes_findFileInDirChecked.bind fun found => .ite (ih _) ?_
      refine (Echoes.refl _).bind fun newDir => (Echoes.refl _).bind fun _ => ?_
      exact (Echoes.refl _).bind fun error => .ite (.refl _) (ih _)

theorem echoes_createDirectoriesChecked (P : Platform) (d : Ptr) (path : Path)
    (preventUp : Bool) :
    Echoes (createDirectoriesChecked P d path preventUp) (createDirectories P d path preventUp) :=
  (Echoes.refl _).bind fun _ => .ite (.refl _) (echoes_createFromChecked d _)

end Checked

section Law

theorem Walked.createFromChecked (h : Walked P s L V s₁ L₁) (hListing : Listing P s.memory L)
    (hRooted : Rooted L₁ r) (hStands : Stands s s₁ L₁ r x) :
    Meets (createFromChecked P preventUp r names) s₁
      (fun r' s₂ => (r' = 0 ∨ isDirectory s₂.memory r' = true) ↔
        keepsToDirectories s.memory L preventUp x names = true)
      fun _ => keepsToDirectories s.memory L preventUp x names = true → ¬ P.Grants := by
  induction names generalizing s₁ L₁ r x V with
  | nil =>
    obtain ⟨f, hf⟩ := hRooted.live h.grows.listing
    refine .pure ?_
    rw [keepsToDirectories, hStands.isDirectory_eq h.grows]
    exact or_iff_right (h.grows.listing.ne_zero hf)
  | cons c rest ih =>
    rw [FileSystem.createFromChecked]
    refine h.step hListing hRooted hStands (findFileInDirChecked_directory h.grows.listing)
      (fun hTurn => ?_) (fun hPrevent hDots => ?_) (fun q y hTurn hUp hq hy => ?_)
      (fun y _ _ hNone _ _ hGrants => ?_) (fun s₂ L₂ q y hTurn h₂ hq hy => ?_)
      fun e hTurn hc hx he hType => ?_
    · simp [keepsToDirectories, hTurn]
    · simp [keepsToDirectories, hPrevent, hDots]
    · have hNot : ¬ (preventUp = true ∧ c = [dot, dot]) := by
        rintro ⟨rfl, hDots⟩
        cases hUp hDots
      simp only [keepsToDirectories, hTurn, if_neg hNot]
      exact ih h hq hy
    · obtain ⟨g, hg⟩ := hGrants s₁.memory s₁.requests sizeofFile 8 (by decide)
      rw [hNone] at hg
      cases hg
    · have hNot : ¬ (preventUp = true ∧ c = [dot, dot]) := by
        rintro ⟨-, rfl⟩
        cases hTurn
      simp only [keepsToDirectories, hTurn, if_neg hNot]
      exact ih h₂ hq hy
    · -- the walk came to a file
      obtain ⟨e₁, he₁, -, hType₁, -⟩ := h.grows.old r e he
      have hNot : ¬ (preventUp = true ∧ c = [dot, dot]) := fun h => hc.notDots h.2
      rw [walkStep, if_neg (Nat.not_lt.mpr hc.short), if_neg hc.notDot, if_neg hc.notDots]
      refine .after_error (findFileInDirChecked_file h.grows.listing he₁ (hType₁ ▸ hType)) ?_
      simp [keepsToDirectories, hTurn, hNot]

theorem searches_iff (path : Path) (preventUp : Bool) (hListing : Listing P s.memory L)
    (hRooted : Rooted L d) :
    Meets (createDirectoriesChecked P d path preventUp) s
      (fun r s' => (r = 0 ∨ isDirectory s'.memory r = true) ↔ (isDirectory s.memory d = true →
        keepsToDirectories s.memory L preventUp ⟨d, []⟩ (components path) = true))
      fun _ => (isDirectory s.memory d = true →
        keepsToDirectories s.memory L preventUp ⟨d, []⟩ (components path) = true) →
        ¬ P.Grants := by
  obtain ⟨f, hf⟩ := hRooted.live hListing
  rw [createDirectoriesChecked]
  refine .after (getFileAt_ok (hListing.ne_zero hf) hf) ?_
  by_cases hType : f.type = .directory
  · have hDir : isDirectory s.memory d = true := isDirectory_iff.mpr ⟨f, hf, hType⟩
    rw [if_neg (not_not.mpr hType)]
    simp only [hDir, true_imp_iff]
    exact (Walked.init hListing).createFromChecked hListing hRooted (.here hf)
  · have hDir : isDirectory s.memory d ≠ true := by
      rw [isDirectory_of hf]
      exact fun h => hType (of_decide_eq_true h)
    rw [if_pos hType]
    exact .pure ⟨fun _ h => absurd h hDir, fun _ => Or.inl rfl⟩

/-- In every state that is reached a creation from a node of the tree searches directories
only and returns one or null if its way keeps to directories, and in no other case unless
memory is refused. -/
theorem searches_directories_iff {x : Session} (hP : P.Linkable)
    (hx : Reachable (Started P) (Proceeds P) x) :
    ∃ L, Listing P x.state.memory L ∧ ∀ d path preventUp, Rooted L d →
      ((isDirectory x.state.memory d = true →
          keepsToDirectories x.state.memory L preventUp ⟨d, []⟩ (components path) = true) →
        SearchesDirectories P x.state d path preventUp) ∧
      (P.Grants → SearchesDirectories P x.state d path preventUp →
        isDirectory x.state.memory d = true →
          keepsToDirectories x.state.memory L preventUp ⟨d, []⟩ (components path) = true) := by
  obtain ⟨L, hSteady⟩ := steady_of_reachable hP hx
  refine ⟨L, hSteady.listing, fun d path preventUp hRooted => ?_⟩
  have hMeets := searches_iff path preventUp hSteady.listing hRooted
  have hSame := echoes_createDirectoriesChecked P d path preventUp x.state
  cases hRun : createDirectoriesChecked P d path preventUp x.state with
  | error e =>
    refine ⟨fun hKeeps => .of_error hRun (hMeets.failure hRun hKeeps), fun hGrants hLaw => ?_⟩
    exact absurd hGrants (hLaw.failure hRun)
  | ok a =>
    refine ⟨fun hKeeps => .of_ok hRun ⟨hSame.result hRun, (hMeets.result hRun).mpr hKeeps⟩,
      fun _ hLaw => ?_⟩
    exact (hMeets.result hRun).mp (hLaw.result hRun).2

/-- A new directory. -/
theorem searches_directories_new : ∃ x, Reachable (Started (.bump 0)) (Proceeds (.bump 0)) x ∧
    SearchesDirectories (.bump 0) x.state fsRoot [97] false := by
  obtain ⟨x, hx, hTest⟩ := exists_of_bareRun (P := .bump 0) []
    (fun x => passes (findFilePath (.bump 0) [97] x.state) fun a => a.1 == 0) (by decide +kernel)
  obtain ⟨L, hListing, hLaw⟩ := searches_directories_iff linkable_bump (proceeds_of_completes hx)
  refine ⟨x, proceeds_of_completes hx, (hLaw fsRoot [97] false .root).1 fun hRoot => ?_⟩
  have hNames : components [97] = [[97]] := by decide
  have hFind := findFrom_ok hListing .root (components [97])
  obtain ⟨a, hRun, hZero⟩ := exists_of_passes hTest
  have hNone : lookupIn x.state.memory [97] (L fsRoot) = 0 := by
    have hWalk := (ok_unique hFind hRun).1
    rw [beq_iff_eq.mp hZero, hNames, walk, if_pos hRoot,
      stepTo_name (by decide) (by decide)] at hWalk
    by_contra hne
    rw [if_neg hne] at hWalk
    exact hne hWalk
  rw [hNames, keepsToDirectories, if_neg (by decide), turn_plain ⟨by decide, by decide, by decide⟩,
    if_pos (show Spot.isDirectory x.state.memory ⟨fsRoot, []⟩ = true from hRoot),
    if_neg fun hFound => hFound.2 hNone]
  rfl

/-- Below a file with one byte: its chunk is taken for a node, and for the file itself the
file is returned. -/
theorem searches_directories_fails : ∃ x, Reachable (Started (.bump 0)) (Proceeds (.bump 0)) x ∧
    createDirectories (.bump 0) fsRoot [97, slash, 98] false x.state = .error .invalid ∧
    ¬ SearchesDirectories (.bump 0) x.state fsRoot [97, slash, 98] false ∧
    ¬ SearchesDirectories (.bump 0) x.state fsRoot [97] false := by
  obtain ⟨x, hx, hTest⟩ := exists_of_bareRun (P := .bump 0)
    [.openFile [97] (oWRONLY ||| oCREAT) sIRWXU, .write 3 [1] 0 0]
    (fun x => faults (createDirectories (.bump 0) fsRoot [97, slash, 98] false x.state)
      (fun e => decide (e = .invalid)) &&
      passes (createDirectories (.bump 0) fsRoot [97] false x.state) fun a =>
        a.1 != 0 && !isDirectory a.2.memory a.1)
    (by decide +kernel)
  rw [Bool.and_eq_true] at hTest
  obtain ⟨hBelow, hFile⟩ := hTest
  refine ⟨x, proceeds_of_completes hx, ?_, fun hLaw => ?_, fun hLaw => ?_⟩
  · obtain ⟨e, hRun, hInvalid⟩ := exists_of_faults hBelow
    rw [hRun, of_decide_eq_true hInvalid]
  · cases hRun : createDirectoriesChecked (.bump 0) fsRoot [97, slash, 98] false x.state with
    | error e => exact hLaw.failure hRun (grants_bump 0)
    | ok a =>
      rw [(hLaw.result hRun).1] at hBelow
      cases hBelow
  · cases hRun : createDirectoriesChecked (.bump 0) fsRoot [97] false x.state with
    | error e => exact hLaw.failure hRun (grants_bump 0)
    | ok a =>
      obtain ⟨hSame, hResult⟩ := hLaw.result hRun
      rw [hSame] at hFile
      simp only [passes, Bool.and_eq_true, bne_iff_ne, Bool.not_eq_true'] at hFile
      rcases hResult with hZero | hDir
      · exact hFile.1 hZero
      · rw [hFile.2] at hDir
        cases hDir

end Law

end Dandelion.FileSystem
