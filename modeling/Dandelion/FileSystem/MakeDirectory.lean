import Dandelion.FileSystem.Growth
import Dandelion.FileSystem.PathSplit

/-! # The runs of `dandelion_mkdir`

The call looks its directory up and refuses what is there. Otherwise it goes the
way of `create_directories`, which from a directory always leads somewhere.
-/

namespace Dandelion.FileSystem

open Foundation.Triples

variable {P : Platform} {s s' : State} {L L' : Ptr → List Ptr} {d n : Ptr} {f : DFile}
  {name : List UInt8} {c file : Path}

section Call

theorem createFrom_new {g : Grant} (hListing : Listing P s.memory L)
    (hd : isDirectory s.memory d = true) (hDot : c ≠ [dot]) (hDots : c ≠ [dot, dot])
    (hLength : c.length ≤ fsNameLength) (hNew : lookupIn s.memory c (L d) = 0)
    (hg : P.answer s.memory s.requests sizeofFile 8 = some g) :
    ∃ s₁ s₂ L' a b, createFrom P false d [c] s = .ok (g.ptr, s₂) ∧
      AddsNode s s₁ g.ptr ((DFile.ofBytes g.bytes).nameDirectory c) ∧
        Links P s₁ L d g.ptr a b s₂ L' := by
  obtain ⟨e, he, hType⟩ := isDirectory_iff.mp hd
  obtain ⟨s₁, hAdds, hRun⟩ := newDirectory_some hg c
  obtain ⟨s₂, L', a, b, hLink, hLinks⟩ := hAdds.link hListing he hType fun _ => rfl
  refine ⟨s₁, s₂, L', a, b, ?_, hAdds, hLinks⟩
  rw [createFrom, if_neg (Nat.not_lt.mpr hLength), if_neg hDot, if_neg hDots,
    bind_ok (findFileInDir_ok (hListing.entries d e he hType) (hListing.sorted d) hDot hDots), hNew,
    if_neg (not_not.mpr rfl), hRun, bind_ok hLink, if_neg (by decide)]
  rfl

theorem createFrom_last (hListing : Listing P s.memory L) (hRooted : Rooted L d)
    (hd : isDirectory s.memory d = true) (hGrants : P.Grants) (o : Option Path)
    (hLength : ∀ c ∈ o, c.length ≤ fsNameLength) :
    ∃ n s' e, createFrom P false d o.toList s = .ok (n, s') ∧ n ≠ 0 ∧
      s'.memory.files n = some e := by
  obtain ⟨f, hf, hType⟩ := isDirectory_iff.mp hd
  have hStay : ∃ n s' e, (pure d : M Ptr) s = .ok (n, s') ∧ n ≠ 0 ∧ s'.memory.files n = some e :=
    ⟨d, s, f, rfl, hListing.ne_zero hf, hf⟩
  cases o with
  | none => exact hStay
  | some c =>
    have hShort : ¬ c.length > fsNameLength := Nat.not_lt.mpr (hLength c rfl)
    by_cases hDot : c = [dot]
    · subst hDot
      rw [Option.toList_some, createFrom, if_neg hShort, if_pos rfl]
      exact hStay
    by_cases hDots : c = [dot, dot]
    · subst hDots
      rw [Option.toList_some, createFrom, if_neg hShort, if_neg hDot, if_pos rfl,
        if_neg (by decide), bind_ok (getFileAt_ok (hListing.ne_zero hf) hf)]
      split
      · exact hStay
      · rename_i hne
        rcases hRooted.parent hListing with ⟨_, hZero⟩ | ⟨_, hParent⟩
        · exact absurd ((parentOf_of hf).symm.trans hZero) hne
        · rw [parentOf_of hf] at hParent
          obtain ⟨e, he⟩ := hParent.live hListing
          exact ⟨f.parent, s, e, rfl, hne, he⟩
    by_cases hNew : lookupIn s.memory c (L d) = 0
    · obtain ⟨g, hg⟩ := hGrants s.memory s.requests sizeofFile 8 (by decide)
      obtain ⟨s₁, s₂, L', a, b, hRun, hAdds, hLinks⟩ :=
        createFrom_new hListing hd hDot hDots (Nat.not_lt.mp hShort) hNew hg
      have hNode : s₂.memory.files g.ptr =
          some (linked d g.ptr a b g.ptr ((DFile.ofBytes g.bytes).nameDirectory c)) := by
        rw [hLinks.edits.files, hAdds.live, Option.map_some]
      exact ⟨g.ptr, s₂, _, hRun, hAdds.ne_zero, hNode⟩
    · obtain ⟨e, he, -⟩ := hListing.live (lookupIn_mem hNew).1
      refine ⟨_, s, e, ?_, hNew, he⟩
      rw [Option.toList_some, createFrom, if_neg hShort, if_neg hDot, if_neg hDots,
        bind_ok (findFileInDir_ok (hListing.entries d f hf hType) (hListing.sorted d) hDot hDots),
        if_pos hNew]
      rfl

variable (hListing : Listing P s.memory L) (hShort : (pathOf name).length < fsPathLength)
  (hFile : getFile (pathOf name) = some file)

include hListing hShort hFile

theorem mkdir_refuses (h :
    isDirectory s.memory (walk s.memory L fsRoot (components (getDirectories (pathOf name)))) =
      true →
      stepTo s.memory L (walk s.memory L fsRoot (components (getDirectories (pathOf name)))) file ≠
        0) (mode : Nat) :
    ∃ r, dandelionMkdir P name mode s = .ok (r, s) ∧ r < 0 := by
  have hFind := findFrom_ok hListing .root (components (getDirectories (pathOf name)))
  set d := walk s.memory L fsRoot (components (getDirectories (pathOf name))) with hd
  rw [dandelionMkdir, bind_ok (pathFromString_ok hShort), hFile]
  change ∃ r, (findFrom P fsRoot _ >>= _) s = _ ∧ _
  rw [bind_ok hFind]
  by_cases hZero : d = 0
  · exact ⟨_, by rw [if_pos hZero]; rfl, by decide⟩
  · obtain ⟨f, hf⟩ := (Rooted.walk hListing .root hZero).live hListing
    rw [if_neg hZero, bind_ok (getFileAt_ok hZero hf)]
    by_cases hType : f.type = .directory
    · rw [if_neg (not_not.mpr hType), bind_ok (findFileInDir_step hListing hf hType file),
        if_pos (h (isDirectory_iff.mpr ⟨f, hf, hType⟩))]
      exact ⟨_, rfl, by decide⟩
    · rw [if_pos hType]
      exact ⟨_, rfl, by decide⟩

theorem mkdir_goes (hd : isDirectory s.memory d = true)
    (hWalk : walk s.memory L fsRoot (components (getDirectories (pathOf name))) = d)
    (hNone : stepTo s.memory L d file = 0)
    (hRun : createFrom P false d (components file) s = .ok (n, s')) (hn : n ≠ 0)
    (hf : s'.memory.files n = some f) (mode : Nat) :
    ∃ s'', dandelionMkdir P name mode s = .ok (0, s'') ∧
      Edits s' s'' (editAt n fun f => { f with mode := mode }) := by
  obtain ⟨e, he, hType⟩ := isDirectory_iff.mp hd
  have hFind := findFrom_ok hListing .root (components (getDirectories (pathOf name)))
  have hne : d ≠ 0 := hListing.ne_zero he
  obtain ⟨s'', hEdit, hEdits⟩ := modifyFile_edits (fun f => { f with mode := mode }) hn hf
  have hCreate : createDirectories P d file false s = .ok (n, s') := by
    rw [createDirectories, bind_ok (getFileAt_ok hne he), if_neg (not_not.mpr hType), hRun]
  refine ⟨s'', ?_, hEdits⟩
  rw [dandelionMkdir, bind_ok (pathFromString_ok hShort), hFile]
  change (findFrom P fsRoot _ >>= _) s = _
  rw [bind_ok hFind, hWalk, if_neg hne, bind_ok (getFileAt_ok hne he), if_neg (not_not.mpr hType),
    bind_ok (findFileInDir_step hListing he hType file), if_neg (not_not.mpr hNone),
    bind_ok hCreate, if_neg hn, bind_ok hEdit]
  rfl

end Call

end Dandelion.FileSystem
