import Dandelion.FileSystem.NewFiles

/-! # Creating and opening a file

Where the way to a new file ends in a directory and the access mode is permitted, the
file is created empty, linked to that directory and opened. In no other case does the
call return a descriptor.
-/

namespace Dandelion.FileSystem

open Foundation.Triples

def Destination.isDirectory (m : Memory) : Destination → Bool
  | .place x => x.isDirectory m
  | _ => false

variable {P : Platform} {s s' s₁ s₂ : State} {m : Memory} {L L' L₂ : Ptr → List Ptr}
  {d n p q r : Ptr} {a b : List Ptr} {e f : DFile} {g : Grant} {name : List UInt8} {file : Path}
  {names : List Path} {flags mode : Nat} {x : Spot}

section Ways

theorem createDirectories_ends (hListing : Listing P s.memory L) (hGrants : P.Grants)
    (hEnd : destination s.memory L .root (wayTo name) = .place x) :
    ∃ d s₂ L₂, createDirectories P fsRoot (getDirectories (pathOf name)) false s = .ok (d, s₂) ∧
      Walked P s L (newPlaces s.memory L .root (wayTo name)) s₂ L₂ ∧ Rooted L₂ d ∧
      Stands s s₂ L₂ d x := by
  have hMeets := createDirectories_lands (P := P) hListing (getDirectories (pathOf name))
    fun hAstray => by
      rw [← wayTo, hEnd] at hAstray
      cases hAstray
  rw [← wayTo, hEnd] at hMeets
  cases hRun : createDirectories P fsRoot (getDirectories (pathOf name)) false s with
  | error e =>
    rcases hMeets.failure hRun with hAstray | hRefuses
    · cases hAstray
    · exact absurd hRefuses (not_refuses hGrants _ _)
  | ok r =>
    obtain ⟨s₂, L₂, hWalked, hSame, hRooted, hStands⟩ := hMeets.result hRun
    obtain ⟨d, s'⟩ := r
    obtain rfl : s' = s₂ := hSame
    exact ⟨d, s', L₂, rfl, hWalked, hRooted, hStands⟩

end Ways

section Calls

theorem finishOpen_run {i : Nat} (hf : s.memory.files p = some f) (hp : p ≠ 0) (hi : i < fsMaxFiles)
    (access : Nat) :
    ∃ s₁ s', finishOpen i p access s = .ok (0, s') ∧ s'.memory = s₁.memory ∧
      (s'.openFiles i).file = p ∧
      Edits s s₁ (editAt p fun f =>
        { f with openDescriptors := (f.openDescriptors + 1) % 2 ^ 16 }) := by
  obtain ⟨s₁, hModify, hEdit⟩ := modifyFile_edits
    (fun f => { f with openDescriptors := (f.openDescriptors + 1) % 2 ^ 16 }) hp hf
  have hRange : (0 : Int) ≤ (i : Int) ∧ (i : Int) < fsMaxFiles := by omega
  refine ⟨s₁,
    { s₁ with openFiles := Function.update s₁.openFiles i ⟨p, if f.type = .file then f.link else 0,
      0, access⟩ }, ?_, rfl, ?_, hEdit⟩
  · rw [finishOpen, bind_ok (getFileAt_ok hp hf), bind_ok hModify,
      bind_ok (setOpenFile_ok hRange _)]
    rfl
  · show (Function.update s₁.openFiles i _ i).file = p
    rw [Function.update_self]

theorem openExistingFile_empty {i : Nat} (hf : s.memory.files p = some f) (hp : p ≠ 0)
    (hLink : f.link = 0) (hi : i < fsMaxFiles)
    (hMode : hasBit f.mode sIWUSR = true ∨ hasBit (flags &&& oACCMODE) oWRONLY = false) :
    ∃ s₁ s' t, openExistingFile i p flags true s = .ok (0, s') ∧ s'.memory = s₁.memory ∧
      (s'.openFiles i).file = p ∧
      Edits s s₁ (editAt p t) ∧ ∃ k, t f = { f with openDescriptors := k } := by
  have hRefused :
      ¬ (true = true ∧ ¬ hasBit f.mode sIWUSR ∧ hasBit (flags &&& oACCMODE) oWRONLY) := by
    rintro ⟨-, hNot, hWrite⟩
    rcases hMode with hMode | hMode
    · exact hNot hMode
    · rw [hMode] at hWrite
      cases hWrite
  rw [openExistingFile, bind_ok (getFileAt_ok hp hf), if_neg (by rw [hasBit_read]; simp),
    if_neg hRefused]
  split
  · -- there is nothing to truncate
    have hNone : freeFileChunks f.link s = .ok ((), s) := by
      rw [hLink, freeFileChunks, bind_ok steps_ok, freeChunksFrom, if_pos rfl]
      rfl
    obtain ⟨s₂, hModify, hEdit⟩ := modifyFile_edits (fun f => { f with link := 0 }) hp hf
    have hf₂ : s₂.memory.files p = some { f with link := 0 } := by
      rw [hEdit.file hf]
      exact congrArg some (if_pos rfl)
    obtain ⟨s₁, s', hRun, hMemory, hTable, hEdit'⟩ :=
      finishOpen_run hf₂ hp hi (flags &&& oACCMODE ||| flags &&& oAPPEND)
    refine ⟨s₁, s', fun f =>
      { f with link := 0, openDescriptors := (f.openDescriptors + 1) % 2 ^ 16 }, ?_, hMemory,
      hTable, (hEdit.trans hEdit').congr fun q e =>
        ?_, (f.openDescriptors + 1) % 2 ^ 16, by rw [← hLink]⟩
    · rw [bind_ok hNone, bind_ok hModify, hRun]
    · by_cases hq : q = p
      · simp only [editAt, if_pos hq]
      · simp only [editAt, if_neg hq]
  · obtain ⟨s₁, s', hRun, hMemory, hTable, hEdit⟩ :=
      finishOpen_run hf hp hi (flags &&& oACCMODE ||| flags &&& oAPPEND)
    exact ⟨s₁, s', _, hRun, hMemory, hTable, hEdit, _, rfl⟩

theorem openDescriptor_empty (hf : s.memory.files p = some f) (hp : p ≠ 0) (hLink : f.link = 0)
    (hOpens : OpensNew s flags f.mode) : ∃ (i : Nat) (s₁ s' : State) (t : DFile → DFile),
      openDescriptor p flags s = .ok ((i : Int), s') ∧ s'.memory = s₁.memory ∧
        (s'.openFiles i).file = p ∧
      Edits s s₁ (editAt p t) ∧ ∃ k, t f = { f with openDescriptors := k } := by
  obtain ⟨⟨j, hj, hVacant⟩, hMode⟩ := hOpens
  cases hFind : (List.range fsMaxFiles).find? (fun i => (s.openFiles i).file = 0) with
  | none =>
    exact absurd (decide_eq_true hVacant) (List.find?_eq_none.mp hFind j (List.mem_range.mpr hj))
  | some i =>
    have hFree : lowestFree s = .ok (some i, s) := by
      rw [← hFind]
      rfl
    obtain ⟨s₁, s', t, hRun, hRest⟩ := openExistingFile_empty hf hp hLink (find_range hFind).1 hMode
    refine ⟨i, s₁, s', t, ?_, hRest⟩
    rw [openDescriptor, bind_ok hFree]
    dsimp only
    rw [bind_ok hRun]
    rfl

theorem Links.after_name (h : Links P s L d n a b s' L') (hListing : Listing P s.memory L)
    (hq : q ∈ b) :
    trim (nameOf s.memory q) fsNameLength ≠ trim (nameOf s.memory n) fsNameLength := by
  have hSorted := hListing.sorted d
  rw [h.split] at hSorted
  have hb := (List.pairwise_append.mp hSorted).2.1
  intro hName
  have hKey : keyOf P s.memory q = keyOf P s.memory n := nameKey_eq_iff.mpr hName
  have hAfter := h.after
  cases b with
  | nil => exact List.not_mem_nil hq
  | cons c b =>
    have hFirst := hAfter c rfl
    rcases List.mem_cons.mp hq with rfl | hRest
    · exact (hKey ▸ hFirst).false
    · exact (hFirst.trans_le (hKey ▸ List.rel_of_pairwise_cons hb hRest)).false

theorem createAndOpen_opens (hShort : (pathOf name).length < fsPathLength)
    (hFile : getFile (pathOf name) = some file) (hLength : file.length < fsNameLength)
    (hRun : createDirectories P fsRoot (getDirectories (pathOf name)) false s = .ok (d, s₂))
    (hListing : Listing P s₂.memory L₂) (hd : isDirectory s₂.memory d = true)
    (hg : P.answer s₂.memory s₂.requests sizeofFile 8 = some g) (hOpens : OpensNew s₂ flags mode) :
    ∃ (i : Nat) (s' : State) (L' : Ptr → List Ptr) (a b : List Ptr) (f : DFile),
      createAndOpen P name flags mode s = .ok ((i : Int), s') ∧ (s'.openFiles i).file = g.ptr ∧
      NewFile P s₂ L₂ d file g a b f s' L' := by
  obtain ⟨e, he, hType⟩ := isDirectory_iff.mp hd
  obtain ⟨s₃, hCreate, hAdds₃⟩ := createFile_empty 0 0 hg (Nat.le_of_lt hLength)
  obtain ⟨s₄, hMode, hAdds⟩ := hAdds₃.modify fun f => { f with mode := mode }
  obtain ⟨s₅, L', a, b, hLink, hLinks⟩ := hAdds.link hListing he hType fun h => (by cases h)
  have hGrown := Grown.of_links hAdds hLinks
  have hEmpty : (linked d g.ptr a b g.ptr { fileNode file 0 0 g.bytes with mode := mode }).link =
      0 := by
    refine if_neg fun hBoth => ?_
    exact (hGrown.old he).1 hBoth.1.symm
  have hTable : s₅.openFiles = s₂.openFiles := by rw [hLinks.edits.openFiles, hAdds.openFiles]
  obtain ⟨i, s₆, s', t, hOpen, hMemory, hEntry, hEdit₆, k, hk⟩ :=
    openDescriptor_empty hGrown.node hAdds.ne_zero hEmpty
    (show OpensNew s₅ flags mode by rw [OpensNew, hTable]; exact hOpens)
  have hGrown₆ := hGrown.edit hEdit₆ (by rw [hk]; exact ⟨rfl, rfl, rfl, rfl, fun _ => rfl⟩)
  rw [hk] at hGrown₆
  refine ⟨i, s', L', a, b,
    { linked d g.ptr a b g.ptr
      { fileNode file 0 0 g.bytes with mode := mode } with openDescriptors := k }, ?_,
    hEntry, ⟨hGrown₆.memory hMemory, rfl, rfl, hEmpty, fun q hq => ?_⟩⟩
  · rw [createAndOpen, bind_ok (pathFromString_ok hShort), hFile]
    dsimp only
    rw [if_neg (Nat.not_le.mpr hLength), bind_ok hRun, if_neg (hListing.ne_zero he),
      bind_ok hCreate, if_neg hAdds₃.ne_zero, bind_ok hMode, bind_ok hLink,
      if_neg (not_not.mpr rfl), hOpen]
  · have hMem : q ∈ L₂ d := by
      rw [hLinks.split]
      exact List.mem_append_right _ hq
    obtain ⟨e', he', -⟩ := hListing.live hMem
    rw [hMemory, hGrown₆.nameOf_eq he']
    have hName := hLinks.after_name (hAdds.listing hListing fun h => (by cases h)) hq
    rwa [nameOf_of hAdds.live, nameOf_of (hAdds.old he'), ← nameOf_of he'] at hName

theorem createAndOpen_refused (hListing : Listing P s.memory L)
    (hShort : (pathOf name).length < fsPathLength)
    (hLeaves : destination s.memory L .root (wayTo name) = .astray → Leaves s.memory)
    (h : ¬ ((destination s.memory L .root (wayTo name)).isDirectory s.memory = true ∧
      (hasBit mode sIWUSR = true ∨ hasBit (flags &&& oACCMODE) oWRONLY = false))) :
    Ensures (createAndOpen P name flags mode) s fun r _ => r < 0 := by
  rw [createAndOpen]
  refine .after (pathFromString_ok hShort) ?_
  cases hFile : getFile (pathOf name) with
  | none => trivial
  | some file =>
    refine .ite (fun _ => .pure (by decide)) fun hLength => ?_
    refine ((createDirectories_lands hListing _ hLeaves).mono (fun _ _ h => h)
      fun _ _ => trivial).bind fun d s₃ hArrives => ?_
    obtain ⟨s₂, L₂, hWalked, hLands⟩ := hArrives
    refine .ite (fun _ => .pure (by decide)) fun hd => ?_
    rw [← wayTo] at hLands
    cases hEnd : destination s.memory L .root (wayTo name) with
    | astray =>
      rw [hEnd] at hLands
      exact hLands.elim
    | cut =>
      rw [hEnd] at hLands
      exact absurd hLands.2 hd
    | wall =>
      rw [hEnd] at hLands
      exact absurd hLands.2.1 hd
    | place x =>
      rw [hEnd] at hLands h
      obtain ⟨rfl, hRooted, hStands⟩ := hLands
      obtain ⟨e, he⟩ := hRooted.live hWalked.grows.listing
      have hKind := hStands.isDirectory_eq hWalked.grows
      refine meets_createFile hLength (fun _ => by decide) fun g s₄ _ hAdds => ?_
      by_cases hDir : e.type = .directory
      · obtain ⟨s₅, L₅, a, b, hLink, hLinks⟩ :=
          hAdds.link hWalked.grows.listing he hDir fun h => (by cases h)
        have hNode : s₅.memory.files g.ptr =
            some (linked d g.ptr a b g.ptr { fileNode file 0 0 g.bytes with mode := mode }) := by
          rw [hLinks.edits.files, hAdds.live, Option.map_some]
        refine .after hLink (.ite (fun h => absurd rfl h) fun _ => ?_)
        refine (openDescriptor_new hNode hAdds.ne_zero).mono
          (fun r s' hr => (hr.2 fun hOpens => h ⟨?_, hOpens.2⟩).1) fun _ _ => trivial
        rw [Destination.isDirectory, ← hKind, isDirectory_of he]
        exact decide_eq_true hDir
      · exact .after (linkFileToFolder_refused hd (hAdds.old he) hDir)
          (.ite (fun _ => .pure (by decide)) fun h => absurd (by decide) h)

end Calls

end Dandelion.FileSystem
