import Dandelion.FileSystem.Names
import Dandelion.FileSystem.SteadyStart

/-! # Calls that keep names distinct

Closing, removing and making directories keep names distinct whatever the path
is. Opening does when the file it would create is not there under any spelling
of the path and the walk to it does not create its place as a directory.
-/

namespace Dandelion.FileSystem

open Foundation.Triples

/-- A steady tree with distinct names, whose content is still that of the inputs. -/
structure Tidy (P : Platform) (s : State) (L : Ptr → List Ptr) : Prop extends Steady P s L where
  leaves : Leaves s.memory
  named : Named s.memory L
  borrowed : Borrowed s.memory

/-- The file that a path asks to create is absent under every spelling, and its
place is not one of the directories on the way. -/
def Unambiguous (P : Platform) (s : State) (name : List UInt8) (flags : Nat) : Prop :=
  findFile P name s = .ok (0, s) → hasBit flags oCREAT = true →
    ∃ file, getFile (pathOf name) = some file ∧ ProperName file ∧
      clean [] (components (getDirectories (pathOf name))) ++ [file] ∉
        visits [] (components (getDirectories (pathOf name))) ∧
      findFrom P fsRoot (clean [] (components (getDirectories (pathOf name))) ++ [file]) s =
        .ok (0, s)

variable {P : Platform} {s s' : State} {m m' : Memory} {L L' : Ptr → List Ptr} {d n p r : Ptr}
  {a b : List Ptr} {f : DFile} {name : List UInt8} {path file : Path} {preventUp : Bool}

section Steps

theorem Borrowed.of_eq (h : Borrowed m) (hChunks : m'.chunks = m.chunks)
    (hBlocks : m'.blocks = m.blocks) :
    Borrowed m' := by
  rw [Borrowed, hChunks, hBlocks]
  exact h

theorem Borrowed.not_allocated (h : Borrowed m) (hHolding : Holding m) {c : FileChunk}
    (hc : m.chunks p = some c) :
    m.allocated c.data = false := by
  obtain ⟨b, hb, hForeign⟩ := h p c hc
  rw [hHolding.allocated_data hc, hb, Option.any_some, hForeign]
  rfl

section

variable (h : Tidy P s L)

include h

theorem Tidy.edits {g : Ptr → DFile → DFile} (hSteady : Steady P s' L) (hEdit : Edits s s' g)
    (hg : ∀ q f, s.memory.files q = some f → (g q f).name = f.name ∧ (g q f).type = f.type ∧
      (g q f).link = f.link) :
    Tidy P s' L where
  toSteady := hSteady
  leaves := hEdit.leaves h.leaves fun q f hf => ⟨(hg q f hf).2.1, fun _ => (hg q f hf).2.2⟩
  named := h.named.congr fun d q hq => by
    obtain ⟨f, hf, _⟩ := h.listing.live hq
    rw [entryName_of hf, entryName_of (hEdit.file hf), (hg q f hf).1]
  borrowed := h.borrowed.of_eq hEdit.chunks hEdit.blocks

theorem Tidy.modify (p : Ptr) {g : DFile → DFile}
    (hSteady : Ensures (modifyFile p g) s fun _ s' => Steady P s' L)
    (hg : ∀ f, s.memory.files p = some f → (g f).name = f.name ∧ (g f).type = f.type ∧
      (g f).link = f.link) :
    Ensures (modifyFile p g) s fun _ s' => Tidy P s' L := by
  refine (hSteady.and (ensures_modifyFile_edits p g)).imp fun _ s' hs' => ?_
  obtain ⟨hSteady, -, -, hEdit⟩ := hs'
  refine h.edits hSteady hEdit fun q f hf => ?_
  by_cases hqp : q = p
  · subst hqp
    rw [editAt, if_pos rfl]
    exact hg f hf
  · rw [editAt, if_neg hqp]
    exact ⟨rfl, rfl, rfl⟩

theorem Tidy.same (hSame : Same s s') : Tidy P s' L :=
  ⟨h.toSteady.same hSame, hSame.leaves h.leaves, h.named.of_files hSame.files,
    h.borrowed.of_eq hSame.chunks hSame.blocks⟩

theorem Tidy.adds (hAdds : AddsNode s s' n f) (hLink : f.link = 0) (hCount : f.hardLinks = 0) :
    Tidy P s' L where
  toSteady := h.toSteady.adds hAdds hLink fun _ => hCount ▸ Nat.zero_le 1
  leaves := hAdds.leaves h.leaves fun _ => by
    rw [hLink]
    exact ⟨h.listing.null, Or.inl (by decide)⟩
  named := h.named.congr fun _ _ hq => hAdds.entryName_eq h.listing hq
  borrowed := h.borrowed.of_eq hAdds.chunks hAdds.blocks

theorem Tidy.links (hLinks : Links P s L d n a b s' L') (hSteady : Steady P s' L')
    (hDir : isDirectory s.memory d) (hNew : ∀ q ∈ L d, entryName s.memory q ≠ entryName s.memory n)
    (hProper : ProperName (entryName s.memory n)) : Tidy P s' L' where
  toSteady := hSteady
  leaves := by
    obtain ⟨e, he, hType⟩ := isDirectory_iff.mp hDir
    exact hLinks.leaves he hType h.leaves
  named := hLinks.named h.named hNew hProper
  borrowed := h.borrowed.of_eq hLinks.edits.chunks hLinks.edits.blocks

theorem Tidy.remove (hp : p ∈ L d) :
    Ensures (do
      detach p
      modifyFile p fun f => { f with hardLinks := (f.hardLinks + (2 ^ 16 - 1)) % 2 ^ 16 }) s
      fun _ s' => ∃ L', Tidy P s' L' := by
  obtain ⟨s₁, a, b, hDetach, hSplit, hEdit, h₁, hUnlisted, hCount⟩ := h.detach hp
  have hTidy₁ : Tidy P s₁ (Function.update L d (a ++ b)) := by
    refine ⟨h₁, ?_, h.named.thin (fun c => ?_) fun c q _ => ?_,
      h.borrowed.of_eq hEdit.chunks hEdit.blocks⟩
    · refine hEdit.leaves h.leaves fun q f hf => ⟨rfl, fun hType => if_neg fun hAnd => hType ?_⟩
      obtain ⟨e, he, hDir⟩ := h.listing.directory hp
      rw [hAnd.1] at hf
      exact Option.mem_unique hf he ▸ hDir
    · by_cases hc : c = d
      · rw [hc, Function.update_self, hSplit]
        exact List.Sublist.append_left (List.sublist_cons_self p b) a
      · rw [Function.update_of_ne hc]
    · rw [entryName, entryName, hEdit.nameOf_eq fun _ _ => rfl]
  refine .after hDetach ((hTidy₁.modify p (h₁.discount hUnlisted hCount) fun _ _ => ?_).imp
    fun _ _ h₂ => ⟨_, h₂⟩)
  exact ⟨rfl, rfl, rfl⟩

/-- Chunks cannot be given back, so that a node goes alone. -/
theorem Tidy.drops (hUnlisted : ∀ d, p ∉ L d) (hRoot : p ≠ fsRoot) (hDrops : Drops s s' p) :
    Tidy P s' (Function.update L p []) := by
  have hSteady := h.toSteady.drops hUnlisted hRoot hDrops
  have hOther := fun q hq => hDrops.file (q := q) hq
  obtain ⟨f, cs, s₁, hf, hChain, hOwn, hFrees, rfl⟩ := hDrops
  have hNone : cs = [] := by
    rcases hChain with hNil | ⟨-, hChain⟩
    · exact hNil
    refine List.eq_nil_iff_forall_not_mem.mpr fun q hq => ?_
    obtain ⟨c, hc⟩ := Chain.chunk_live hChain hq
    have hAllocated := hOwn q hq c hc
    rw [h.borrowed.not_allocated h.holding hc] at hAllocated
    cases hAllocated
  subst hNone
  obtain ⟨hChunk, hBlock⟩ := hFrees.holding.alone p f (hFrees.files ▸ hf)
  have hChunks : (s₁.memory.drop p).chunks = s.memory.chunks := by
    rw [drop_chunks, ← hChunk, Function.update_eq_self]
    exact funext fun q => hFrees.kept q List.not_mem_nil
  have hBlocks : (s₁.memory.drop p).blocks = s.memory.blocks := by
    rw [drop_blocks, ← hBlock, Function.update_eq_self]
    exact funext fun q => hFrees.blocks q fun _ h => absurd h List.not_mem_nil
  have hSub : ∀ c, (Function.update L p [] c).Sublist (L c) := by
    intro c
    by_cases hc : c = p
    · rw [hc, Function.update_self]
      exact List.nil_sublist _
    · rw [Function.update_of_ne hc]
  refine ⟨hSteady, fun q e he hType => ?_, h.named.thin hSub fun c q hq => ?_,
    h.borrowed.of_eq hChunks hBlocks⟩
  · have hq : q ≠ p := by
      rintro rfl
      rw [drop_files, Function.update_self] at he
      cases he
    obtain ⟨hLeaf, hRest⟩ := h.leaves q e ((hOther q hq).symm.trans he) hType
    have hne : e.link ≠ p := by
      rintro hEq
      rw [hEq, hf] at hLeaf
      cases hLeaf
    exact ⟨(hOther _ hne).trans hLeaf, hChunks ▸ hRest⟩
  · have hne : q ≠ p := fun hEq => hUnlisted c (hEq ▸ (hSub c).subset hq)
    rw [entryName, entryName, nameOf, nameOf, hOther q hne]

end

theorem ensures_freeFileChunks (hBorrowed : Borrowed s.memory) (hHolding : Holding s.memory) :
    Ensures (freeFileChunks p) s fun _ s' => s' = s ∧ p = 0 := by
  rw [freeFileChunks]
  refine .after steps_ok ?_
  rw [freeChunksFrom]
  refine .ite (fun hp => .pure ⟨rfl, hp⟩) fun _ =>
    (ensures_readAt Memory.chunks p).bind fun c s₁ h => ?_
  obtain ⟨rfl, _, hc⟩ := h
  refine .after_error (if_neg ?_) trivial
  rw [hBorrowed.not_allocated hHolding hc]
  decide

/-- A file is emptied only when it is empty already. -/
theorem Tidy.empty (h : Tidy P s L) (hf : s.memory.files p = some f) :
    Ensures (do
      freeFileChunks f.link
      modifyFile p fun f => { f with link := 0 }) s fun _ s' => Tidy P s' L := by
  refine (ensures_freeFileChunks h.borrowed h.holding).bind fun _ s₁ hs₁ => ?_
  obtain ⟨rfl, hLink⟩ := hs₁
  have hSame : ∀ e, s₁.memory.files p = some e → 0 = e.link := fun e he =>
    hLink.symm.trans (congrArg DFile.link (Option.mem_unique hf he))
  refine h.modify p (h.toSteady.modify p (fun e he => ⟨rfl, rfl, rfl, rfl, fun _ => hSame e he⟩)
    (fun _ _ _ _ => rfl) fun _ _ hLe => hLe) fun e he => ⟨rfl, rfl, hSame e he⟩

end Steps

section Calls

theorem Tidy.createDirectories (h : Tidy P s L) (hP : P.Linkable) (hRooted : Rooted L d)
    (hZero : 0 ∉ path) :
    Ensures (createDirectories P d path false) s fun r s' => ∃ L', Tidy P s' L' ∧
      Creates P false s L d (components path) s' L' r := by
  refine ((createDirectories_creates h.listing h.leaves hRooted).and
    (ensures_createDirectories d path false)).imp fun r s' hs' => ?_
  obtain ⟨⟨L', hCreates⟩, hKeeps, -⟩ := hs'
  exact ⟨L', ⟨hCreates.steady hP h.toSteady, (hCreates.forest h.listing h.leaves hRooted).2.1,
    hCreates.named h.listing h.named (components_clean hZero),
    h.borrowed.of_eq hKeeps.chunks hKeeps.blocks⟩, hCreates⟩

theorem tidyOpens : OpenRules (Tidy P) where
  table o h := ⟨h.toSteady.table o, h.leaves, h.named, h.borrowed⟩
  recount p k h := h.modify p (h.toSteady.recount p k) fun _ _ => ⟨rfl, rfl, rfl⟩
  empty h hf _ := h.empty hf

theorem tidyRules : TreeRules P (Tidy P) where
  toEntryRules := tidyOpens.toEntryRules
  listing h := h.listing
  holding h := h.holding
  counted h := h.toSteady.counted
  remove := Tidy.remove
  drops := Tidy.drops

theorem Tidy.mkdir (h : Tidy P s L) (hP : P.Linkable) (name : List UInt8) (mode : Nat) :
    Ensures (dandelionMkdir P name mode) s fun _ s' => ∃ L', Tidy P s' L' := by
  refine tidyRules.mkdir h name mode (fun hRooted hZero => ?_) fun p h =>
    h.modify p (h.toSteady.chmod p mode) fun _ _ => ⟨rfl, rfl, rfl⟩
  exact (h.createDirectories hP hRooted hZero).imp fun _ _ hAfter => hAfter.imp fun _ h' => h'.1

theorem Tidy.createAndOpen (h : Tidy P s L) (hZeroed : P.Zeroed) (flags mode : Nat)
    (hFile : getFile (pathOf name) = some file) (hProper : ProperName file)
    (hPlace : clean [] (components (getDirectories (pathOf name))) ++ [file] ∉
      visits [] (components (getDirectories (pathOf name))))
    (hAbsent : findFrom P fsRoot (clean [] (components (getDirectories (pathOf name))) ++ [file])
      s = .ok (0, s)) :
    Ensures (createAndOpen P name flags mode) s fun _ s' => ∃ L', Tidy P s' L' := by
  have hZero : 0 ∉ file := fun hMem => zero_not_mem_pathOf name (getFile_mem hFile hMem)
  have hDirs : 0 ∉ getDirectories (pathOf name) :=
    zero_not_mem_getDirectories (zero_not_mem_pathOf name)
  rw [FileSystem.createAndOpen]
  refine (ensures_pathFromString name).bind fun path s₁ hPath => ?_
  obtain ⟨rfl, rfl, _⟩ := hPath
  simp only [hFile]
  refine .ite (fun _ => .pure ⟨L, h⟩) fun hLength => ?_
  refine (h.createDirectories hZeroed.linkable .root hDirs).bind fun parent s₂ h₂ => ?_
  obtain ⟨L₂, h₂, hCreates⟩ := h₂
  refine .ite (fun _ => .pure ⟨L₂, h₂⟩) fun hParent => ?_
  have hFresh :=
    hCreates.absent h.listing h.named hParent (fun c hc => (components_clean hDirs c hc).1)
      hPlace hAbsent
  refine meets_createFile hLength (fun _ => ⟨L₂, h₂.same ⟨rfl, rfl, rfl, rfl⟩⟩)
    fun g s₃ hg hAdds => ?_
  have h₃ := h₂.adds hAdds rfl rfl
  have hName : entryName s₃.memory g.ptr = file := by
    rw [entryName_of hAdds.live]
    refine (trim_fileNode 0 0 (hZeroed _ _ _ hg) (Nat.le_of_lt (Nat.lt_of_not_le hLength))).trans ?_
    exact trim_of_nonzero hZero
  refine (h₃.toSteady.place hAdds.live (hAdds.unlisted h₂.listing) hAdds.vacant.1
    (show 0 + 1 < 2 ^ 16 by decide) (fun _ => rfl) parent).bind fun error s₄ h₄ => ?_
  rcases h₄ with ⟨rfl, hDir, L₄, a, b, hLinks, hSteady⟩ | ⟨rfl, rfl⟩
  · refine .ite (fun hne => absurd rfl hne) fun _ => ?_
    have h₄ : Tidy P s₄ L₄ := by
      refine h₃.links hLinks hSteady hDir (fun q hq => ?_) (by rw [hName]; exact hProper)
      rw [hName, hAdds.entryName_eq h₂.listing hq]
      exact hFresh q hq
    exact (tidyOpens.openDescriptor h₄ g.ptr flags).imp fun _ _ h => ⟨_, h⟩
  · -- what the walk ended in is a file; the new node is left alone
    exact .ite (fun _ => .pure ⟨L₂, h₃⟩) fun hne => absurd (by decide) hne

theorem Tidy.open (h : Tidy P s L) (hZeroed : P.Zeroed) (name : List UInt8) (flags mode : Nat)
    (hUnambiguous : Unambiguous P s name flags) :
    Ensures (dandelionOpen P name flags mode) s fun _ s' => ∃ L', Tidy P s' L' := by
  rw [dandelionOpen]
  cases hFind : findFile P name s with
  | error e => exact .after_error hFind trivial
  | ok found =>
    obtain ⟨r, s₁⟩ := found
    obtain ⟨rfl, _, _⟩ := (ensures_findFile h.listing name).result hFind
    refine .after hFind (.ite (fun _ => .pure ⟨L, h⟩) fun _ => .ite (fun hNone => ?_) fun _ => ?_)
    · refine .ite (fun _ => .pure ⟨L, h⟩) fun hCreate => ?_
      rw [not_not] at hCreate
      obtain ⟨file, hFile, hProper, hPlace, hAbsent⟩ := hUnambiguous (by rw [hFind, hNone]) hCreate
      exact h.createAndOpen hZeroed flags mode hFile hProper hPlace hAbsent
    · exact (tidyOpens.openDescriptor h r flags).imp fun _ _ h => ⟨L, h⟩

end Calls

end Dandelion.FileSystem
