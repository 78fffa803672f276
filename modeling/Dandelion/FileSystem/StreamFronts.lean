import Dandelion.FileSystem.Destination
import Dandelion.FileSystem.HardLinks
import Dandelion.FileSystem.Readdir

/-! # What leaves the front of a directory alone

Removing an entry leaves those in front of it where they are, and a new entry is
put behind all those that its name is not smaller than.
-/

namespace Dandelion.FileSystem

open Foundation.Triples

/-- The tree is steady, and the node is a directory whose list starts with these entries. -/
def Fronts (P : Platform) (d : Ptr) (front : List Ptr) (s : State) : Prop :=
  ∃ L, Steady P s L ∧ isDirectory s.memory d = true ∧ front <+: L d

variable {P : Platform} {s s' : State} {L : Ptr → List Ptr} {d n p q : Ptr} {a b front : List Ptr}
  {f : DFile} {c last : Path} {name : List UInt8} {dirs : List Path} {signed : Bool}
  {flags mode : Nat}

section Lists

theorem prefix_of_not_mem (h : front <+: a ++ p :: b) (hp : p ∉ front) : front <+: a := by
  have hUpTo : a ++ [p] <+: a ++ p :: b := ⟨b, List.append_cons a p b ▸ rfl⟩
  rcases List.prefix_or_prefix_of_prefix h hUpTo with hShort | hLong
  · rcases List.prefix_concat_iff.mp hShort with rfl | hFront
    · exact absurd (List.mem_append_right a (List.mem_singleton_self p)) hp
    · exact hFront
  · exact absurd (hLong.subset (List.mem_append_right a (List.mem_singleton_self p))) hp

theorem prefix_remove (h : front <+: a ++ p :: b) (hp : p ∉ front) : front <+: a ++ b :=
  (prefix_of_not_mem h hp).trans (List.prefix_append a b)

theorem prefix_insert (h : front <+: a ++ b) (hb : ∀ q ∈ b.head?, q ∉ front) :
    front <+: a ++ n :: b := by
  cases b with
  | nil =>
    rw [List.append_nil] at h
    exact h.trans (List.prefix_append a [n])
  | cons q b => exact (prefix_of_not_mem h (hb q rfl)).trans (List.prefix_append a _)

theorem lt_of_initial {x y z : List Int} (h : x <+: y) (hLt : y < z) : x < z := by
  obtain ⟨t, rfl⟩ := h
  induction x generalizing z with
  | nil =>
    cases z with
    | nil => exact absurd hLt (List.not_lt_nil _)
    | cons i z => exact List.nil_lt_cons i z
  | cons i x ih =>
    cases z with
    | nil => exact absurd hLt (List.not_lt_nil _)
    | cons j z =>
      rw [List.cons_append, List.cons_lt_cons_iff] at hLt
      rw [List.cons_lt_cons_iff]
      exact hLt.imp_right fun h => ⟨h.1, ih h.2⟩

theorem nameKey_append (rest : List UInt8) {bound : Nat} (hLength : c.length ≤ bound) :
    nameKey signed c c.length <+: nameKey signed (c ++ rest) bound := by
  rw [nameKey, nameKey, trim, trim, List.take_length, List.take_append,
    List.take_of_length_le hLength]
  refine List.IsPrefix.map _ ?_
  rw [List.takeWhile_append]
  split
  · rename_i hAll
    rw [(List.takeWhile_prefix _).eq_of_length hAll]
    exact List.prefix_append c _
  · exact List.prefix_rfl

end Lists

section Nodes

theorem modifyFile_directory (hd : isDirectory s.memory d = true) (p : Ptr) {g : DFile → DFile}
    (hg : ∀ f, (g f).type = f.type) : Ensures (modifyFile p g) s fun _ s' =>
    isDirectory s'.memory d = true := by
  refine (ensures_modifyFile_edits p g).imp fun _ s' hs' => ?_
  obtain ⟨_, _, hEdit⟩ := hs'
  refine (hEdit.isDirectory_eq (fun q f => ?_) d).trans hd
  rw [editAt]
  split
  · exact hg f
  · rfl

end Nodes

section Entries

theorem findFile_entry (hListing : Listing P s.memory L) (hd : isDirectory s.memory d = true)
    (hShort : (pathOf name).length < fsPathLength)
    (hSplit : components (pathOf name) = dirs ++ [last])
    (hDir : findFrom P fsRoot dirs s = .ok (d, s)) :
    findFile P name s = .ok (stepTo s.memory L d last, s) := by
  have hWalk : walk s.memory L fsRoot dirs = d :=
    (ok_unique (findFrom_ok hListing .root dirs) hDir).1
  have hne : walk s.memory L fsRoot dirs ≠ 0 := by
    obtain ⟨e, he, -⟩ := isDirectory_iff.mp hd
    exact hWalk ▸ hListing.ne_zero he
  rw [findFile_ok hListing hShort, resolve, hSplit, walk_append hne, hWalk, walk, if_pos hd]
  split
  · rename_i hZero
    rw [hZero]
  · rfl

end Entries

section Removal

theorem Fronts.unlink (h : Fronts P d front s) (name : List UInt8)
    (hp : ∀ p, findFile P name s = .ok (p, s) → p = 0 ∨ p ∈ entriesAt s.memory d ∧ p ∉ front) :
    Ensures (dandelionUnlink P name) s fun _ s' => Fronts P d front s' := by
  obtain ⟨L, h, hd, hFront⟩ := h
  rw [entriesAt_eq h.listing hd] at hp
  rw [dandelionUnlink]
  refine ((ensures_findFile h.listing name).and (Meets.self _ _)).bind fun p s₁ hFound => ?_
  obtain ⟨⟨rfl, -, hRooted⟩, hRun⟩ := hFound
  refine .ite (fun _ => .pure ⟨L, h, hd, hFront⟩) fun hne => ?_
  obtain ⟨hMem, hNot⟩ := (hp p hRun).resolve_left hne
  have hOther : d ≠ p := fun hEq => (hRooted hne).not_own_child h.listing (hEq ▸ hMem)
  obtain ⟨s₂, a, b, hDetach, hSplit, hEdit, h₂, hUnlisted, hCount⟩ := h.detach hMem
  have hd₂ : isDirectory s₂.memory d = true := (hEdit.isDirectory_eq (fun _ _ => rfl) d).trans hd
  refine .after hDetach
    (((h₂.discount hUnlisted hCount).and (modifyFile_directory hd₂ p (by intro _; rfl))).bind
    fun _ s₃ h₃ => ?_)
  obtain ⟨h₃, hd₃⟩ := h₃
  refine (h₃.freeData_lists p).bind fun _ s₄ h₄ => .pure ?_
  obtain ⟨L₄, h₄, hLists, hFiles⟩ := h₄
  refine ⟨L₄, h₄, by rwa [isDirectory, hFiles d hOther], ?_⟩
  have hList : L₄ d = a ++ b := by
    rcases hLists with rfl | rfl
    · exact Function.update_self d _ L
    · rw [Function.update_of_ne hOther, Function.update_self]
  rw [hList]
  exact prefix_remove (hSplit ▸ hFront) hNot

theorem Fronts.rmdir (h : Fronts P d front s) (name : List UInt8)
    (hp : ∀ p, findFile P name s = .ok (p, s) → p = 0 ∨ p ∈ entriesAt s.memory d ∧ p ∉ front) :
    Ensures (dandelionRmdir P name) s fun _ s' => Fronts P d front s' := by
  rw [dandelionRmdir]
  refine (readsOnly_findFile name).seq fun p => ?_
  refine .ite (fun _ => .pure h) fun _ => (readsOnly_getFileAt p).seq fun f => ?_
  exact .ite (fun _ => .pure h) fun _ => .ite (fun _ => .pure h) fun _ => h.unlink name hp

end Removal

section Creating

theorem Steady.place_front (h : Steady P s L) (hd : isDirectory s.memory d = true)
    (hFront : front <+: L d) (hf : s.memory.files n = some f) (hUnlisted : ∀ c, n ∉ L c)
    (hLow : staticEnd ≤ n) (hCount : f.hardLinks + 1 < 2 ^ 16)
    (hSingle : f.type = .file → f.hardLinks = 0)
    (hKey : ∀ q ∈ front, ¬ keyOf P s.memory n < keyOf P s.memory q) :
    Ensures (linkFileToFolder P d n) s fun error s' => error = 0 ∧ Fronts P d front s' := by
  obtain ⟨s₁, L₁, a, b, hRun, hLinks, h₁⟩ := h.link hd hf hUnlisted hLow hCount hSingle
  refine .of_ok hRun ⟨rfl, L₁, h₁, (hLinks.edits.isDirectory_eq (fun _ _ => rfl) d).trans hd, ?_⟩
  rw [hLinks.lists, Function.update_self]
  exact prefix_insert (hLinks.split ▸ hFront) fun q hq hMem => hKey q hMem (hLinks.after q hq)

theorem AddsNode.keyOf_old (h : AddsNode s s' n f) (hListing : Listing P s.memory L)
    (hq : q ∈ L d) :
    keyOf P s'.memory q = keyOf P s.memory q := by
  obtain ⟨e, he, -⟩ := hListing.live hq
  rw [keyOf, keyOf, nameOf, nameOf, he, h.old he]

theorem AddsNode.behind (h : AddsNode s s' n f) (hListing : Listing P s.memory L)
    (hFront : front <+: L d)
    (hName : nameKey P.signedChar c c.length <+: nameKey P.signedChar f.name fsNameLength)
    (hKey : ∀ q ∈ front, ¬ nameKey P.signedChar c c.length < keyOf P s.memory q) :
    ∀ q ∈ front, ¬ keyOf P s'.memory n < keyOf P s'.memory q := by
  intro q hq hLt
  rw [h.keyOf_old hListing (hFront.subset hq), keyOf, nameOf, h.live] at hLt
  exact hKey q hq (lt_of_initial hName hLt)

theorem Fronts.createLast (h : Fronts P d front s) (hP : P.Linkable)
    (hKey : ∀ q ∈ front, ¬ nameKey P.signedChar c c.length < keyOf P s.memory q) :
    Ensures (createFrom P false d [c]) s fun _ s' => Fronts P d front s' := by
  obtain ⟨L, h, hd, hFront⟩ := id h
  have hStay : Fronts P d front s := ⟨L, h, hd, hFront⟩
  rw [createFrom]
  refine .ite (fun _ => .pure hStay) fun hLength => .ite (fun _ => .pure hStay) fun _ =>
    .ite (fun _ => ?_) fun _ => ?_
  · refine .ite (fun _ => .pure hStay) fun _ => (readsOnly_getFileAt d).seq fun f => ?_
    exact .ite (fun _ => .pure hStay) fun _ => .pure hStay
  · refine (readsOnly_findFileInDir d c).seq fun found => ?_
    refine .ite (fun _ => .pure hStay) fun _ => ?_
    refine meets_newDirectory (fun _ => trivial) fun g s₂ hg hAdds => ?_
    have h₂ := h.adds hAdds rfl fun hType => by cases hType
    have hName : nameKey P.signedChar c c.length = nameKey P.signedChar
        ((DFile.ofBytes g.bytes).nameDirectory c).name fsNameLength :=
      nameKey_eq_iff.mpr (trim_nameDirectory g.bytes (Nat.not_lt.mp hLength)).symm
    refine (h₂.place_front (hAdds.directory hd) hFront hAdds.live (hAdds.unlisted h.listing)
      hAdds.vacant.1 (hP _ _ _ hg) (fun hType => by cases hType)
      (hAdds.behind h.listing hFront (hName ▸ List.prefix_rfl) hKey)).bind fun error s₃ h₃ => ?_
    obtain ⟨rfl, h₃⟩ := h₃
    exact .ite (fun hLt => absurd hLt (by decide)) fun _ => .pure h₃

theorem Fronts.findFile_none (h : Fronts P d front s) (hShort : (pathOf name).length < fsPathLength)
    (hPath : EndsPlain (pathOf name) dirs last) (hDir : findFrom P fsRoot dirs s = .ok (d, s))
    (hNone : findFileInDir P d last s = .ok (0, s)) : findFile P name s = .ok (0, s) := by
  obtain ⟨L, h, hd, -⟩ := h
  obtain ⟨e, he, hType⟩ := isDirectory_iff.mp hd
  rw [findFile_entry h.listing hd hShort hPath.components hDir, ← hNone,
    findFileInDir_step h.listing he hType]

theorem Fronts.mkdir (h : Fronts P d front s) (hP : P.Linkable)
    (hPath : (pathOf name).length < fsPathLength → EndsPlain (pathOf name) dirs last)
    (hDir : findFrom P fsRoot dirs s = .ok (d, s)) (mode : Nat)
    (hKey : findFile P name s = .ok (0, s) →
      ∀ q ∈ front, ¬ nameKey P.signedChar last last.length < keyOf P s.memory q) :
    Ensures (dandelionMkdir P name mode) s fun _ s' => Fronts P d front s' := by
  rw [dandelionMkdir]
  refine (ensures_pathFromString name).bind fun path s₁ hRead => ?_
  obtain ⟨rfl, rfl, hShort⟩ := hRead
  have hPath := hPath hShort
  rw [hPath.found]
  have hParent : findFilePath P (getDirectories (pathOf name)) s₁ = .ok (d, s₁) := by
    rw [findFilePath, hPath.directories, hDir]
  refine .after hParent (.ite (fun _ => .pure h) fun _ => (readsOnly_getFileAt d).seq fun f => ?_)
  refine .ite (fun _ => .pure h) fun _ =>
    (((readsOnly_findFileInDir d last) s₁).and (Meets.self _ _)).bind
    fun existing s₃ h₃ => ?_
  obtain ⟨rfl, hExisting⟩ := h₃
  refine .ite (fun _ => .pure h) fun hZero => ?_
  have hKey := hKey (h.findFile_none hShort hPath hDir (not_not.mp hZero ▸ hExisting))
  have hCreate : Ensures (createDirectories P d last false) s₃ fun _ s' => Fronts P d front s' := by
    rw [createDirectories]
    refine (readsOnly_getFileAt d).seq fun f => ?_
    rw [hPath.components_last]
    exact .ite (fun _ => .pure h) fun _ => h.createLast hP hKey
  refine hCreate.bind fun newDir s₄ h₄ => .ite (fun _ => .pure h₄) fun _ => ?_
  obtain ⟨L₄, h₄, hd₄, hFront₄⟩ := h₄
  exact Meets.bind ((h₄.chmod newDir mode).and (modifyFile_directory hd₄ newDir (by intro _; rfl)))
    fun _ s₅ h₅ =>
    .pure ⟨L₄, h₅.1, h₅.2, hFront₄⟩

theorem frontRules : OpenRules fun s L => Steady P s L ∧ isDirectory s.memory d = true ∧
    front <+: L d where
  table o h := ⟨h.1.table o, h.2⟩
  recount p k h := ((h.1.recount p k).and (modifyFile_directory h.2.1 p (by intro _; rfl))).imp
    fun _ _ h' => ⟨h'.1, h'.2, h.2.2⟩
  empty {s L p f} h hf hType := by
    have hKept : Ensures (do freeFileChunks f.link; modifyFile p fun f => { f with link := 0 }) s
      fun _ s' =>
        isDirectory s'.memory d = true := by
      refine (freeFileChunks_reworks f.link s).bind fun _ s₁ h₁ =>
        modifyFile_directory ?_ p (by intro _; rfl)
      obtain ⟨e, he, hDir⟩ := isDirectory_iff.mp h.2.1
      obtain ⟨link, he₁, -⟩ := (h₁.holding h.1.holding).2.file he
      exact isDirectory_iff.mpr ⟨_, he₁, hDir⟩
    exact ((h.1.empty hf hType).and hKept).imp fun _ _ h' => ⟨h'.1, h'.2, h.2.2⟩

theorem Fronts.openDescriptor (h : Fronts P d front s) (p : Ptr) (flags : Nat) :
    Ensures (openDescriptor p flags) s fun _ s' => Fronts P d front s' := by
  obtain ⟨L, h⟩ := h
  exact (frontRules.openDescriptor h p flags).imp fun _ _ h' => ⟨L, h'⟩

theorem Fronts.open (h : Fronts P d front s)
    (hPath : (pathOf name).length < fsPathLength → EndsPlain (pathOf name) dirs last)
    (hDir : findFrom P fsRoot dirs s = .ok (d, s)) (flags mode : Nat)
    (hKey : findFile P name s = .ok (0, s) →
      ∀ q ∈ front, ¬ nameKey P.signedChar last last.length < keyOf P s.memory q) :
    Ensures (dandelionOpen P name flags mode) s fun _ s' => Fronts P d front s' := by
  rw [dandelionOpen]
  refine (((readsOnly_findFile name) s).and (Meets.self _ _)).bind fun current s₁ hFound => ?_
  obtain ⟨rfl, hRun⟩ := hFound
  refine .ite (fun _ => .pure h) fun _ => .ite (fun hZero => ?_) fun _ =>
    h.openDescriptor current flags
  subst hZero
  have hKey := hKey hRun
  refine .ite (fun _ => .pure h) fun _ => ?_
  rw [createAndOpen]
  refine (ensures_pathFromString name).bind fun path s₂ hRead => ?_
  obtain ⟨rfl, rfl, hShort⟩ := hRead
  have hPath := hPath hShort
  rw [hPath.found]
  refine .ite (fun _ => .pure h) fun hLength => ?_
  obtain ⟨L, hSteady, hd, hFront⟩ := id h
  have hne : d ≠ 0 := by
    obtain ⟨e, he, -⟩ := isDirectory_iff.mp hd
    exact hSteady.listing.ne_zero he
  have hCreate : Ensures (createDirectories P fsRoot (getDirectories (pathOf name)) false) s₂
      fun q s' =>
      s' = s₂ ∧ (q = 0 ∨ q = d) := by
    rw [createDirectories]
    refine (readsOnly_getFileAt fsRoot).seq fun e => ?_
    rw [hPath.directories]
    exact .ite (fun _ => .pure ⟨rfl, Or.inl rfl⟩) fun _ => createFrom_found hDir hne
  refine hCreate.bind fun parent s₃ h₃ => ?_
  obtain ⟨rfl, hParent⟩ := h₃
  refine .ite (fun _ => .pure h) fun hSome => ?_
  obtain rfl := hParent.resolve_left hSome
  refine meets_createFile hLength (fun _ => ⟨L, hSteady.same ⟨rfl, rfl, rfl, rfl⟩, hd, hFront⟩)
    fun g s₄ _ hAdds => ?_
  have h₄ := hSteady.adds hAdds rfl fun _ => Nat.zero_le _
  have hName : nameKey P.signedChar last last.length <+: nameKey P.signedChar
      ({ fileNode last 0 0 g.bytes with mode := mode } : DFile).name fsNameLength :=
    nameKey_append _ (Nat.le_of_lt (Nat.lt_of_not_le hLength))
  refine (h₄.place_front (hAdds.directory hd) hFront hAdds.live (hAdds.unlisted hSteady.listing)
    hAdds.vacant.1 (show 0 + 1 < 2 ^ 16 by decide) (fun _ => rfl)
    (hAdds.behind hSteady.listing hFront hName hKey)).bind fun error s₅ h₅ => ?_
  obtain ⟨rfl, h₅⟩ := h₅
  exact .ite (fun hNot => absurd rfl hNot) fun _ => h₅.openDescriptor g.ptr flags

end Creating

end Dandelion.FileSystem
