import Dandelion.FileSystem.OpenTrace

/-! # New files in the tree

`create_file` copies the name of a file into its block and writes no terminator. A walk
through the tree comes to a new file by that name only, with the bytes that the block
has behind it.
-/

namespace Dandelion.FileSystem

structure NewFile (P : Platform) (s : State) (L : Ptr → List Ptr) (d : Ptr) (file : Path)
    (g : Grant) (a b : List Ptr)
    (f : DFile) (s' : State) (L' : Ptr → List Ptr) : Prop where
  grown : Grown P s L d g.ptr a b f s' L'
  name : f.name = (fileNode file 0 0 g.bytes).name
  type : f.type = .file
  link : f.link = 0
  after : ∀ q ∈ b, trim (nameOf s'.memory q) fsNameLength ≠ trim f.name fsNameLength

variable {P : Platform} {s s' s₁ : State} {m : Memory} {L L' : Ptr → List Ptr} {c d n q : Ptr}
  {a b : List Ptr} {e f : DFile} {g : Grant} {name : List UInt8} {file x : Path}
  {names rest : List Path} {mode : Nat}

section Names

theorem trim_fileName (mode : Nat) (bytes : Nat → UInt8) (hZero : 0 ∉ file)
    (hLength : file.length < fsNameLength) :
    ∃ rest, trim (fileNode file 0 mode bytes).name fsNameLength = file ++ rest ∧
      (rest = [] ↔ bytes file.length = 0) := by
  have hBytes : (DFile.ofBytes bytes).name.length = fsNameLength := by
    rw [DFile.ofBytes, List.length_map, List.length_range]
  have hDrop : (DFile.ofBytes bytes).name.drop file.length =
      bytes file.length :: (DFile.ofBytes bytes).name.drop (file.length + 1) := by
    rw [List.drop_eq_getElem_cons (by rw [hBytes]; exact hLength)]
    simp [DFile.ofBytes]
  have hFile : file.takeWhile (· ≠ 0) = file := by
    rw [List.takeWhile_eq_self_iff]
    intro c hc
    exact decide_eq_true fun h => hZero (h ▸ hc)
  refine ⟨((DFile.ofBytes bytes).name.drop file.length).takeWhile (· ≠ 0), ?_, ?_⟩
  · rw [trim, fileNode, List.take_of_length_le
      (by rw [List.length_append, List.length_drop, hBytes]; omega),
      List.takeWhile_append, hFile, if_pos rfl]
  · rw [hDrop, List.takeWhile_cons]
    by_cases hByte : bytes file.length = 0
    · simp [hByte]
    · simp [hByte]

theorem EndsSlash.slash_mem {path : Path} (h : EndsSlash path file) (hne : components path ≠ []) :
    slash ∈ file := by
  rcases path_forms path with ⟨k, rfl⟩ | ⟨front, name, k, rfl, hFront, hName, hSlash⟩
  · exact absurd (components_slashes k) hne
  · obtain rfl := Option.mem_unique h.found (hFront.getFile_eq hName hSlash)
    cases k with
    | zero =>
      have hEnds := h.ends
      rw [List.replicate_zero, List.append_nil, List.getLast?_append_of_ne_nil _ hName] at hEnds
      exact absurd (List.mem_of_getLast? hEnds) hSlash
    | succ k => exact List.mem_append_right _ (List.mem_replicate.mpr ⟨Nat.succ_ne_zero k, rfl⟩)

end Names

section Lookups

theorem lookupIn_other (h : lookupIn m x (a ++ n :: b) ≠ n) :
    lookupIn m x (a ++ n :: b) = lookupIn m x (a ++ b) := by
  by_cases hn : trim (nameOf m n) fsNameLength = trim x x.length
  · rw [lookupIn, List.find?_append, List.find?_cons_of_pos (by simpa using hn)] at h
    rw [lookupIn, lookupIn, List.find?_append, List.find?_append,
      List.find?_cons_of_pos (by simpa using hn)]
    cases hFind : a.find? fun q => decide (trim (nameOf m q) fsNameLength = trim x x.length) with
    | none =>
      rw [hFind] at h
      exact absurd rfl h
    | some q => rfl
  · exact lookupIn_skip hn

theorem lookupIn_first (hn : n ∉ a) (h : lookupIn m x (a ++ n :: b) = n) :
    ∀ q ∈ a, trim (nameOf m q) fsNameLength ≠ trim x x.length := by
  rw [lookupIn, List.find?_append] at h
  cases hFind : a.find? fun q => decide (trim (nameOf m q) fsNameLength = trim x x.length) with
  | none => exact fun q hq hName => List.find?_eq_none.mp hFind q hq (decide_eq_true hName)
  | some q =>
    rw [hFind] at h
    exact absurd (h ▸ List.mem_of_find?_eq_some hFind) hn

end Lookups

section Walks

theorem Grown.memory (h : Grown P s L d n a b f s₁ L') (hMemory : s'.memory = s₁.memory) :
    Grown P s L d n a b f s' L' :=
  ⟨hMemory ▸ h.listing, h.split, h.lists, h.fresh, hMemory ▸ h.others, hMemory ▸ h.node⟩

theorem Grown.not_directory (h : Grown P s L d n a b f s' L') (hType : f.type ≠ .directory) :
    isDirectory s'.memory n ≠ true := by
  rw [isDirectory_of h.node]
  exact fun hDir => hType (of_decide_eq_true hDir)

theorem Grown.step_back (h : Grown P s L d n a b f s' L') (hListing : Listing P s.memory L)
    (hType : f.type ≠ .directory) (hc : isDirectory s'.memory c = true)
    (hn : stepTo s'.memory L' c x ≠ n) :
    isDirectory s.memory c = true ∧ stepTo s.memory L c x = stepTo s'.memory L' c x := by
  have hcn : c ≠ n := fun hEq => h.not_directory hType (hEq ▸ hc)
  obtain ⟨e', he', hType'⟩ := isDirectory_iff.mp hc
  rw [h.others c hcn] at he'
  obtain ⟨e, he, rfl⟩ := Option.map_eq_some_iff.mp he'
  refine ⟨isDirectory_iff.mpr ⟨e, he, hType'⟩, ?_⟩
  unfold stepTo at hn ⊢
  by_cases hDot : x = [dot]
  · rw [if_pos hDot, if_pos hDot]
  by_cases hDots : x = [dot, dot]
  · rw [if_neg hDot, if_pos hDots, if_neg hDot, if_pos hDots, parentOf_of he,
      parentOf_of (h.old he).2]
    exact (if_neg hcn).symm
  rw [if_neg hDot, if_neg hDots] at hn ⊢
  rw [if_neg hDot, if_neg hDots]
  have hNames : ∀ q ∈ L c, nameOf s'.memory q = nameOf s.memory q := by
    intro q hq
    obtain ⟨e, he, -⟩ := hListing.live hq
    exact h.nameOf_eq he
  rw [← lookupIn_congr hNames]
  by_cases hcd : c = d
  · subst hcd
    rw [h.lists, Function.update_self] at hn ⊢
    rw [lookupIn_other hn, ← h.split]
  · rw [h.lists, Function.update_of_ne hcd]

theorem Grown.walk_back (h : Grown P s L d n a b f s' L') (hListing : Listing P s.memory L)
    (hType : f.type ≠ .directory) (hne : walk s'.memory L' c names ≠ 0)
    (hn : walk s'.memory L' c names ≠ n) :
    walk s.memory L c names = walk s'.memory L' c names := by
  induction names generalizing c with
  | nil => rfl
  | cons x rest ih =>
    rw [walk] at hne hn
    split at hne
    · rename_i hDir
      rw [if_pos hDir] at hn
      split at hne
      · exact absurd rfl hne
      · rename_i hStep
        rw [if_neg hStep] at hn
        -- nothing is below the new file
        have hOther : stepTo s'.memory L' c x ≠ n := by
          intro hEq
          cases rest with
          | nil => exact hn hEq
          | cons y rest =>
            rw [hEq, walk, if_neg (h.not_directory hType)] at hne
            exact hne rfl
        obtain ⟨hOld, hSame⟩ := h.step_back hListing hType hDir hOther
        rw [walk, walk, if_pos hOld, if_pos hDir, hSame, if_neg hStep, if_neg hStep]
        exact ih hne hn
    · exact absurd rfl hne

theorem walk_front (hListing : Listing P m L) (h : walk m L c (names ++ rest) ≠ 0) :
    walk m L c names ≠ 0 := by
  induction names generalizing c with
  | nil =>
    rintro rfl
    cases rest with
    | nil => exact h rfl
    | cons x rest =>
      rw [List.nil_append, walk, isDirectory, hListing.null] at h
      exact h rfl
  | cons x names ih =>
    rw [List.cons_append, walk] at h
    rw [walk]
    split at h
    · rename_i hDir
      rw [if_pos hDir]
      split at h
      · exact absurd rfl h
      · rename_i hStep
        rw [if_neg hStep]
        exact ih h
    · exact absurd rfl h

theorem Grown.walk_last (h : Grown P s L d n a b f s' L') (hType : f.type ≠ .directory)
    (hWalk : walk s'.memory L' fsRoot (names ++ [x]) = n) :
    x ≠ [dot] ∧ x ≠ [dot, dot] ∧ walk s'.memory L' fsRoot names = d ∧
      lookupIn s'.memory x (L' d) = n := by
  have hn : n ≠ 0 := h.listing.ne_zero h.node
  have hFront := walk_front h.listing (hWalk.trans_ne hn)
  have hRooted := Rooted.root.walk h.listing hFront
  rw [walk_append hFront] at hWalk
  set c := walk s'.memory L' fsRoot names
  have hDir : isDirectory s'.memory c = true := by
    by_contra hNot
    rw [walk, if_neg hNot] at hWalk
    exact hn hWalk.symm
  have hStep : stepTo s'.memory L' c x = n := by
    rw [walk, if_pos hDir] at hWalk
    split at hWalk
    · exact absurd hWalk.symm hn
    · exact hWalk
  have hDot : x ≠ [dot] := by
    intro hDot
    rw [stepTo, if_pos hDot] at hStep
    exact h.not_directory hType (hStep ▸ hDir)
  have hDots : x ≠ [dot, dot] := by
    intro hDots
    rw [stepTo, if_neg hDot, if_pos hDots] at hStep
    rcases hRooted.parent h.listing with ⟨-, hZero⟩ | ⟨hMem, -⟩
    · exact hn (hStep.symm.trans hZero)
    · obtain ⟨e, he, hDirectory⟩ := h.listing.directory (hStep ▸ hMem)
      exact h.not_directory hType (isDirectory_iff.mpr ⟨e, he, hDirectory⟩)
  rw [stepTo_name hDot hDots] at hStep
  have hMem : n ∈ L' c := by
    have hFound := (lookupIn_mem (hStep.trans_ne hn)).1
    rwa [hStep] at hFound
  have hHere : n ∈ L' d := by
    rw [h.lists, Function.update_self]
    exact List.mem_append_right _ List.mem_cons_self
  have hEq : c = d := h.listing.same_parent hMem hHere
  exact ⟨hDot, hDots, hEq, hEq ▸ hStep⟩

end Walks

section Visible

theorem NewFile.lookup_free (h : NewFile P s L d file g a b f s' L')
    (hListing : Listing P s.memory L) (hFound : lookupIn s'.memory x (L' d) = g.ptr) :
    lookupIn s.memory x (L d) = 0 := by
  have hn : g.ptr ≠ 0 := h.grown.listing.ne_zero h.grown.node
  have hName := (lookupIn_mem (hFound.trans_ne hn)).2
  rw [hFound, nameOf_of h.grown.node] at hName
  have hUnlisted : g.ptr ∉ a := by
    intro hMem
    refine hListing.unlisted_of_none h.grown.fresh d ?_
    rw [h.grown.split]
    exact List.mem_append_left _ hMem
  rw [h.grown.lists, Function.update_self] at hFound
  refine (lookupIn_eq_zero (hListing.zero_unlisted d)).mpr fun q hq => ?_
  obtain ⟨e, he, -⟩ := hListing.live hq
  rw [← h.grown.nameOf_eq he]
  rw [h.grown.split, List.mem_append] at hq
  rcases hq with hBefore | hAfter
  · exact lookupIn_first hUnlisted hFound q hBefore
  · exact fun hSame => h.after q hAfter (hSame.trans hName.symm)

theorem NewFile.walk_iff (h : NewFile P s L d file g a b f s' L') (hListing : Listing P s.memory L)
    (hd : isDirectory s.memory d = true) (hZero : 0 ∉ file) (hLength : file.length < fsNameLength) :
    walk s'.memory L' fsRoot (names ++ [file]) = g.ptr ↔ file ≠ [dot] ∧ file ≠ [dot, dot] ∧
      walk s.memory L fsRoot names = d ∧ lookupIn s.memory file (L d) = 0 ∧
        g.bytes file.length = 0 := by
  have hType : f.type ≠ .directory := by rw [h.type]; decide
  obtain ⟨e, he, -⟩ := isDirectory_iff.mp hd
  obtain ⟨rest, hTrim, hRest⟩ := trim_fileName 0 g.bytes hZero hLength
  rw [← h.name] at hTrim
  constructor
  · intro hWalk
    obtain ⟨hDot, hDots, hDir, hFound⟩ := h.grown.walk_last hType hWalk
    refine ⟨hDot, hDots, ?_, h.lookup_free hListing hFound, hRest.mp ?_⟩
    · rw [h.grown.walk_back hListing hType (hDir.trans_ne (hListing.ne_zero he))
        (hDir.trans_ne (h.grown.old he).1), hDir]
    · have hName := (lookupIn_mem (hFound.trans_ne (h.grown.listing.ne_zero h.grown.node))).2
      rw [hFound, nameOf_of h.grown.node, hTrim, trim_of_nonzero hZero] at hName
      exact List.append_right_eq_self.mp hName
  · rintro ⟨hDot, hDots, hDir, hFree, hByte⟩
    refine h.grown.walk_new hListing hd hDot hDots ?_ hFree hDir
    rw [hTrim, hRest.mpr hByte, List.append_nil, trim_of_nonzero hZero]

theorem NewFile.walk_slash (h : NewFile P s L d file g a b f s' L')
    (hListing : Listing P s.memory L) (hZero : 0 ∉ file)
    (hLength : file.length < fsNameLength) (hSlash : slash ∈ file)
    (hNames : ∀ c ∈ names, 0 ∉ c ∧ slash ∉ c) :
    walk s'.memory L' fsRoot names ≠ g.ptr := by
  have hType : f.type ≠ .directory := by rw [h.type]; decide
  obtain ⟨rest, hTrim, -⟩ := trim_fileName 0 g.bytes hZero hLength
  rw [← h.name] at hTrim
  intro hWalk
  rcases List.eq_nil_or_concat' names with rfl | ⟨dirs, x, rfl⟩
  · obtain ⟨e, he, -⟩ := hListing.root
    exact (h.grown.old he).1 hWalk
  · obtain ⟨-, -, -, hFound⟩ := h.grown.walk_last hType hWalk
    obtain ⟨hNonzero, hClean⟩ := hNames x (List.mem_append_right _ List.mem_cons_self)
    have hName := (lookupIn_mem (hFound.trans_ne (h.grown.listing.ne_zero h.grown.node))).2
    rw [hFound, nameOf_of h.grown.node, hTrim, trim_of_nonzero hNonzero] at hName
    exact hClean (hName ▸ List.mem_append_left _ hSlash)

end Visible

end Dandelion.FileSystem
