import Dandelion.FileSystem.Lookups

/-! # Importing an item

What `fs_initialize` does with one item of an input set: it creates the folders
of the item, a node for it with the platform's buffer as content, and links the
node. The arguments and the environment only cost blocks of their own.
-/

namespace Dandelion.FileSystem

open Foundation.Triples

structure Outfits (s s' : State) : Prop where
  files : s'.memory.files = s.memory.files
  chunks : s'.memory.chunks = s.memory.chunks
  openFiles : s'.openFiles = s.openFiles
  old : ∀ p b, s.memory.blocks p = some b → ∃ b', s'.memory.blocks p = some b' ∧
    b'.foreign = b.foreign ∧ b'.size = b.size
  new : ∀ p b', s'.memory.blocks p = some b' →
    (∃ b, s.memory.blocks p = some b) ∨ s.memory.files p = none ∧ s.memory.chunks p = none

structure AddsFile (s s' : State) (n : Ptr) (f : DFile) (content length : Nat) : Prop where
  vacant : s.memory.Vacant n
  files : s'.memory.files = Function.update s.memory.files n (some f)
  type : f.type = .file
  blocks : s'.memory.blocks = s.memory.blocks
  openFiles : s'.openFiles = s.openFiles
  content : content = 0 ∧ f.link = 0 ∧ s'.memory.chunks = s.memory.chunks ∨
    content ≠ 0 ∧ f.link ≠ n ∧ s.memory.Vacant f.link ∧
      s'.memory.chunks = Function.update s.memory.chunks f.link (some ⟨content, length, length, 0⟩)

structure OpensAt (s s' : State) (index : Nat) (p : Ptr) : Prop where
  nonzero : p ≠ 0
  edits : ∃ s₁, Edits s s₁ (editAt p fun f =>
    { f with openDescriptors := (f.openDescriptors + 1) % 2 ^ 16 }) ∧
    s'.memory = s₁.memory
  openFiles : ∃ o : OpenFile, o.file = p ∧ s'.openFiles = Function.update s.openFiles index o

/-- A node that was not initialised may be left behind at an address that was free. -/
structure Leaks (s s' : State) : Prop where
  files : s'.memory.files = s.memory.files ∨
    ∃ n f, s.memory.Vacant n ∧ s'.memory.files = Function.update s.memory.files n (some f)

variable {P : Platform} {s s' s'' : State} {L L' : Ptr → List Ptr} {d n p q r : Ptr} {f : DFile}
  {name : Path}

section Outfit

theorem Outfits.refl (s : State) : Outfits s s :=
  ⟨rfl, rfl, rfl, fun _ b hb => ⟨b, hb, rfl, rfl⟩, fun _ b hb => Or.inl ⟨b, hb⟩⟩

theorem Outfits.trans (h : Outfits s s') (h' : Outfits s' s'') : Outfits s s'' where
  files := h'.files.trans h.files
  chunks := h'.chunks.trans h.chunks
  openFiles := h'.openFiles.trans h.openFiles
  old p b hb := by
    obtain ⟨b', hb', hForeign, hSize⟩ := h.old p b hb
    obtain ⟨b'', hb'', hForeign', hSize'⟩ := h'.old p b' hb'
    exact ⟨b'', hb'', hForeign'.trans hForeign, hSize'.trans hSize⟩
  new p b'' hb'' := by
    rcases h'.new p b'' hb'' with ⟨b', hb'⟩ | hNone
    · exact h.new p b' hb'
    · rw [h.files, h.chunks] at hNone
      exact Or.inr hNone

def Equips {α : Type} (x : M α) : Prop := ∀ s, Ensures x s fun _ s' => Outfits s s'

variable {α β : Type}

theorem ReadsOnly.equips {x : M α} (h : ReadsOnly x) : Equips x := fun s =>
  (h s).imp fun _ s' hs' => by rw [hs']; exact .refl s

theorem Equips.bind {x : M α} {k : α → M β} (hx : Equips x) (hk : ∀ a, Equips (k a)) :
    Equips (x >>= k) := by
  intro s
  refine (hx s).bind fun a s₁ h₁ => ?_
  exact (hk a s₁).imp fun _ _ h => h₁.trans h

theorem Equips.ite {c : Prop} [Decidable c] {x y : M α} (hx : Equips x) (hy : Equips y) :
    Equips (if c then x else y) := by
  split
  · exact hx
  · exact hy

theorem Equips.pure (a : α) : Equips (pure a : M α) := (ReadsOnly.pure a).equips

theorem equips_allocBlock (size alignment : Nat) : Equips (allocBlock P size alignment) := by
  intro s
  rw [allocBlock]
  cases hg : P.answer s.memory s.requests size alignment with
  | none =>
    refine .of_ok (by simp only [dandelionAlloc, hg]; rfl) ?_
    exact ⟨rfl, rfl, rfl, fun _ b hb => ⟨b, hb, rfl, rfl⟩, fun _ b hb => Or.inl ⟨b, hb⟩⟩
  | some g =>
    have hVacant := P.vacant _ _ _ _ _ hg
    refine .of_ok (dandelionAlloc_ok hg) ⟨rfl, rfl, rfl, fun p b hb => ⟨b, ?_, rfl, rfl⟩,
      fun p b hb => ?_⟩
    · exact (Function.update_of_ne (hVacant.ne_block hb).symm _ _).trans hb
    · by_cases hp : p = g.ptr
      · subst hp
        exact Or.inr ⟨hVacant.2.1, hVacant.2.2.1⟩
      · exact Or.inl ⟨b, (Function.update_of_ne hp _ _).symm.trans hb⟩

theorem equips_storeBytes (p offset : Nat) (bytes : List UInt8) :
    Equips (storeBytes p offset bytes) := by
  intro s
  by_cases hEmpty : bytes = []
  · rw [storeBytes, if_pos hEmpty]
    exact .pure (.refl s)
  · rw [storeBytes, if_neg hEmpty]
    refine (ensures_readAt Memory.blocks p).bind fun b s₁ h => ?_
    obtain ⟨rfl, _, hb⟩ := h
    refine .ite (fun _ => ⟨rfl, rfl, rfl, fun q e he => ?_, fun q e he => ?_⟩) fun _ => trivial
    · by_cases hq : q = p
      · subst hq
        obtain rfl := Option.mem_unique hb he
        exact ⟨_, Function.update_self _ _ _, rfl, rfl⟩
      · exact ⟨e, (Function.update_of_ne hq _ _).trans he, rfl, rfl⟩
    · by_cases hq : q = p
      · exact Or.inl ⟨b, hq ▸ hb⟩
      · exact Or.inl ⟨e, (Function.update_of_ne hq _ _).symm.trans he⟩

theorem readsOnly_dataAt (data : Ptr) (index : Nat) : ReadsOnly (dataAt data index) :=
  (readsOnly_readAt Memory.blocks data).bind fun _ => .ite (.pure _) (.fail _)

theorem readsOnly_skipSpaces (data : Ptr) (length fuel index : Nat) :
    ReadsOnly (skipSpaces data length fuel index) := by
  induction fuel generalizing index with
  | zero => exact .fail _
  | succ fuel ih =>
    exact .ite ((readsOnly_dataAt _ _).bind fun c => .ite (ih _) (.pure _)) (.pure _)

theorem readsOnly_skipQuoted (data : Ptr) (length : Nat) (escape : UInt8) (fuel index count : Nat) :
    ReadsOnly (skipQuoted data length escape fuel index count) := by
  induction fuel generalizing index count with
  | zero => exact .fail _
  | succ fuel ih =>
    exact .ite ((readsOnly_dataAt _ _).bind fun c => .ite (ih _ _) (.pure _)) (.pure _)

theorem readsOnly_skipArgument (data : Ptr) (length fuel index count : Nat) :
    ReadsOnly (skipArgument data length fuel index count) := by
  induction fuel generalizing index count with
  | zero => exact .fail _
  | succ fuel ih =>
    refine .ite ((readsOnly_dataAt _ _).bind fun c => .ite (.pure _) (.ite ?_ (ih _ _))) (.pure _)
    exact (readsOnly_skipQuoted _ _ _ _ _ _).bind fun r => ih _ _

theorem readsOnly_countArguments (data : Ptr) (length fuel index arguments : Nat) :
    ReadsOnly (countArguments data length fuel index arguments) := by
  induction fuel generalizing index arguments with
  | zero => exact .fail _
  | succ fuel ih =>
    refine .ite ((readsOnly_skipSpaces _ _ _ _).bind fun start => .ite (.pure _) ?_) (.pure _)
    exact (readsOnly_skipArgument _ _ _ _ _).bind fun r => ih _ _

theorem equips_copyQuoted (data target : Ptr) (stop : Nat) (escape : UInt8)
    (fuel index copied : Nat) :
    Equips (copyQuoted data target stop escape fuel index copied) := by
  induction fuel generalizing index copied with
  | zero => exact (ReadsOnly.fail _).equips
  | succ fuel ih =>
    refine .ite ((readsOnly_dataAt _ _).equips.bind fun c => .ite ?_ (.pure _)) (.pure _)
    exact (equips_storeBytes _ _ _).bind fun _ => ih _ _

theorem equips_copyArgument (data target : Ptr) (stop fuel index copied : Nat) :
    Equips (copyArgument data target stop fuel index copied) := by
  induction fuel generalizing index copied with
  | zero => exact (ReadsOnly.fail _).equips
  | succ fuel ih =>
    refine .ite ((readsOnly_dataAt _ _).equips.bind fun c => .ite ?_ ?_) (.pure _)
    · exact (equips_copyQuoted _ _ _ _ _ _ _).bind fun r => ih _ _
    · exact (equips_storeBytes _ _ _).bind fun _ => ih _ _

theorem equips_fillArguments (data array : Ptr) (length fuel index current : Nat) :
    Equips (fillArguments P data array length fuel index current) := by
  induction fuel generalizing index current with
  | zero => exact (ReadsOnly.fail _).equips
  | succ fuel ih =>
    refine .ite ((readsOnly_skipSpaces _ _ _ _).equips.bind fun start =>
      .ite (.pure _) ?_) (.pure _)
    refine (readsOnly_skipArgument _ _ _ _ _).equips.bind fun r =>
      (equips_allocBlock _ _).bind fun target => ?_
    refine (equips_storeBytes _ _ _).bind fun _ =>
      (equips_copyArgument _ _ _ _ _ _).bind fun _ => ?_
    exact (equips_storeBytes _ _ _).bind fun _ => ih _ _

theorem equips_setupCharpparray (data : Ptr) (length : Nat) :
    Equips (setupCharpparray P data length) := by
  refine .ite ((equips_allocBlock _ _).bind fun _ => .pure _) ?_
  refine (readsOnly_countArguments _ _ _ _ _).equips.bind fun arguments =>
    (equips_allocBlock _ _).bind fun array => ?_
  refine (equips_storeBytes _ _ _).bind fun _ =>
    (equips_fillArguments _ _ _ _ _ _).bind fun _ => .pure _

end Outfit

section Files

theorem createFile_adds (name : Path) (content length mode : Nat) :
    Ensures (createFile P name content length mode) s fun r s' =>
      r ≠ 0 ∧ name.length ≤ fsNameLength ∧
        (∃ g link, P.answer s.memory s.requests sizeofFile 8 = some g ∧ g.ptr = r ∧
        AddsFile s s' r (fileNode name link mode g.bytes) content length) ∨
      r = 0 ∧ Leaks s s' ∧ s'.openFiles = s.openFiles := by
  cases hg : P.answer s.memory s.requests sizeofFile 8 with
  | none => exact .of_ok (createFile_none hg) (Or.inr ⟨rfl, ⟨Or.inl rfl⟩, rfl⟩)
  | some g =>
    have hVacant := P.vacant _ _ _ _ _ hg
    by_cases hLength : name.length ≤ fsNameLength
    · by_cases hContent : content = 0
      · obtain ⟨s', hRun, hAdds⟩ := createFile_empty length mode hg hLength
        subst hContent
        refine .of_ok hRun (Or.inl ⟨hVacant.ne_zero, hLength, g, 0, rfl, rfl, ?_⟩)
        exact ⟨hVacant, hAdds.files, rfl, hAdds.blocks, hAdds.openFiles,
          Or.inl ⟨rfl, rfl, hAdds.chunks⟩⟩
      · rw [createFile]
        refine .after (allocFile_some hg) (.ite (fun h => absurd h hVacant.ne_zero) fun _ => ?_)
        refine .ite (fun h => absurd h (Nat.not_lt.mpr hLength)) fun _ => ?_
        refine .after (modifyFile_ok hVacant.ne_zero (Function.update_self _ _ _))
          (.ite (fun _ => ?_)
          fun h => absurd hContent h)
        set f₂ : DFile := { DFile.ofBytes g.bytes with
          name := name ++ (DFile.ofBytes g.bytes).name.drop name.length, type := .file }
        set s₂ : State := ⟨(s.memory.setFile g.ptr (.ofBytes g.bytes)).setFile g.ptr f₂,
          s.openFiles, s.requests + 1⟩
          with hs₂
        have hFiles : s₂.memory.files = Function.update s.memory.files g.ptr (some f₂) := by
          simp only [hs₂, setFile_files, Function.update_idem]
        cases hk : P.answer s₂.memory s₂.requests sizeofChunk 8 with
        | none =>
          have hAlloc : allocChunk P s₂ = .ok (0, { s₂ with requests := s₂.requests + 1 }) := by
            simp only [allocChunk, dandelionAlloc, hk]
          refine .after hAlloc
            (.ite (fun _ => .pure (Or.inr ⟨rfl, ⟨Or.inr ⟨g.ptr, f₂, hVacant, hFiles⟩⟩, rfl⟩))
              fun h => ?_)
          exact absurd rfl h
        | some k =>
          have hVacant₂ := P.vacant _ _ _ _ _ hk
          have hne : k.ptr ≠ g.ptr := hVacant₂.ne_file (by rw [hFiles, Function.update_self])
          have hPtr : s.memory.Vacant k.ptr := by
            obtain ⟨hLow, hFile, hChunk, hBlock⟩ := hVacant₂
            rw [hFiles, Function.update_of_ne hne] at hFile
            exact ⟨hLow, hFile, hChunk, hBlock⟩
          have hAlloc : allocChunk P s₂ = .ok (k.ptr, { s₂ with
              memory := s₂.memory.setChunk k.ptr ⟨wordAt k.bytes 0 8, wordAt k.bytes 8 8,
                wordAt k.bytes 16 8, wordAt k.bytes 24 8⟩, requests := s₂.requests + 1 }) := by
            rw [allocChunk, dandelionAlloc_ok hk]
          refine .after hAlloc (.ite (fun h => absurd h hVacant₂.ne_zero) fun _ => ?_)
          refine .after (modifyChunk_ok hVacant₂.ne_zero (Function.update_self _ _ _)) ?_
          rw [finishFile]
          refine .after (modifyFile_ok (f := f₂) hVacant.ne_zero ?_) (.pure (Or.inl
            ⟨hVacant.ne_zero, hLength, g, k.ptr, rfl, rfl, hVacant, ?_, rfl, rfl, rfl,
              Or.inr ⟨hContent, hne, hPtr, ?_⟩⟩))
          · exact (congrFun hFiles g.ptr).trans (Function.update_self _ _ _)
          · simp only [setFile_files, setChunk_files, hFiles, Function.update_idem]
            rfl
          · simp only [setFile_chunks, setChunk_chunks, hs₂, Function.update_idem]
            rfl
    · rw [createFile]
      refine .after (allocFile_some hg) (.ite (fun h => absurd h hVacant.ne_zero) fun _ => ?_)
      refine .ite (fun _ => .pure (Or.inr ⟨rfl, ⟨Or.inr ⟨g.ptr, _, hVacant, rfl⟩⟩, rfl⟩))
        fun h => ?_
      exact absurd (Nat.lt_of_not_le hLength) h

theorem openExistingFile_opens (index : Nat) {flags : Nat} (hTrunc : hasBit flags oTRUNC = false) :
    Ensures (openExistingFile index p flags false) s fun r s' => r = 0 ∧ OpensAt s s' index p := by
  rw [openExistingFile]
  refine ensures_file fun f hp hf => ?_
  refine .ite (fun h => absurd h.1 (by decide)) fun _ =>
    .ite (fun h => absurd h.1 (by decide)) fun _ => ?_
  refine .ite (fun h => absurd h.1 (by simp [hTrunc])) fun _ => ?_
  rw [finishOpen]
  refine .after (getFileAt_ok hp hf) (Meets.bind (ensures_modifyFile_edits p _) fun _ s₂ h₂ => ?_)
  obtain ⟨_, _, hEdit⟩ := h₂
  by_cases hRange : 0 ≤ (index : Int) ∧ (index : Int) < fsMaxFiles
  · refine .after (setOpenFile_ok hRange _) (.pure ⟨rfl, hp, ⟨s₂, hEdit, rfl⟩,
      ⟨p, if f.type = .file then f.link else 0, 0, (flags &&& oACCMODE) ||| (flags &&& oAPPEND)⟩,
      rfl, ?_⟩)
    rw [hEdit.openFiles, Int.toNat_natCast]
  · exact .after_error (if_neg hRange) trivial

section

variable {content length : Nat} (h : AddsFile s s' n f content length)

include h

theorem AddsFile.live : s'.memory.files n = some f := by
  rw [h.files, Function.update_self]

theorem AddsFile.old {e : DFile} (hq : s.memory.files q = some e) : s'.memory.files q = some e := by
  rw [h.files, Function.update_of_ne (h.vacant.ne_file hq).symm, hq]

theorem AddsFile.listing (hListing : Listing P s.memory L) : Listing P s'.memory L :=
  hListing.add h.vacant.2.1 h.vacant.ne_zero h.files fun hDir => by
    rw [h.type] at hDir
    cases hDir

theorem AddsFile.ne_root (hListing : Listing P s.memory L) : n ≠ fsRoot := by
  obtain ⟨e, he, _⟩ := hListing.root
  exact h.vacant.ne_file he

end

theorem Edits.isDirectory_eq {g : Ptr → DFile → DFile} (h : Edits s s' g)
    (hg : ∀ q f, (g q f).type = f.type) (q : Ptr) :
    isDirectory s'.memory q = isDirectory s.memory q := by
  rw [isDirectory, isDirectory, h.files, Option.any_map]
  congr 1
  funext f
  simp only [hg]

theorem AddsNode.directory (h : AddsNode s s' n f) (hq : isDirectory s.memory q) :
    isDirectory s'.memory q := by
  obtain ⟨e, he, hType⟩ := isDirectory_iff.mp hq
  exact isDirectory_iff.mpr ⟨e, h.old he, hType⟩

theorem AddsFile.chunk {content length : Nat} (h : AddsFile s s' n f content length)
    (hp : (s.memory.chunks p).isSome) : s'.memory.chunks p = s.memory.chunks p := by
  rcases h.content with ⟨_, _, hSame⟩ | ⟨_, _, hVacant, hUpdate⟩
  · rw [hSame]
  · obtain ⟨c, hc⟩ := Option.isSome_iff_exists.mp hp
    rw [hUpdate, Function.update_of_ne (hVacant.ne_chunk hc).symm]

theorem AddsFile.leaves {content length : Nat} (h : AddsFile s s' n f content length)
    (hListing : Listing P s.memory L) (hLeaves : Leaves s.memory) : Leaves s'.memory := by
  intro p e he hType
  by_cases hp : p = n
  · subst hp
    obtain rfl := Option.mem_unique he h.live
    rcases h.content with ⟨_, hZero, _⟩ | ⟨_, hne, hVacant, hUpdate⟩
    · rw [hZero]
      exact ⟨(h.listing hListing).null, Or.inl (by decide)⟩
    · rw [h.files, Function.update_of_ne hne, hUpdate, Function.update_self]
      exact ⟨hVacant.2.1, Or.inr rfl⟩
  · rw [h.files, Function.update_of_ne hp] at he
    obtain ⟨hNone, hRest⟩ := hLeaves p e he hType
    have hne : e.link ≠ n := by
      rintro hEq
      rcases hRest with hLow | hChunk
      · exact absurd h.vacant.1 (Nat.not_le.mpr (hEq ▸ hLow))
      · rw [hEq, h.vacant.2.2.1] at hChunk
        cases hChunk
    rw [h.files, Function.update_of_ne hne]
    refine ⟨hNone, hRest.imp_right fun hChunk => ?_⟩
    rw [h.chunk hChunk]
    exact hChunk

theorem OpensAt.listing {index : Nat} (h : OpensAt s s' index p) (hListing : Listing P s.memory L) :
    Listing P s'.memory L := by
  obtain ⟨s₁, hEdit, hMemory⟩ := h.edits
  rw [hMemory]
  refine hListing.edit hEdit fun q f _ => ?_
  by_cases hq : q = p <;> simp [editAt, hq]

theorem OpensAt.leaves {index : Nat} (h : OpensAt s s' index p) (hLeaves : Leaves s.memory) :
    Leaves s'.memory := by
  obtain ⟨s₁, hEdit, hMemory⟩ := h.edits
  rw [hMemory]
  refine hEdit.leaves hLeaves fun q f _ => ?_
  by_cases hq : q = p <;> simp [editAt, hq]

theorem Outfits.leaves (h : Outfits s s') (hLeaves : Leaves s.memory) : Leaves s'.memory := by
  intro p f hf hType
  rw [h.files] at hf
  rw [h.files, h.chunks]
  exact hLeaves p f hf hType

theorem createDirectories_creates {path : Path} {preventUp : Bool} (hListing : Listing P s.memory L)
    (hLeaves : Leaves s.memory) (hRooted : Rooted L d) :
    Ensures (createDirectories P d path preventUp) s fun r s' =>
      ∃ L', Creates P preventUp s L d (components path) s' L' r := by
  rw [createDirectories]
  refine ensures_file fun f _ _ => ?_
  exact .ite (fun _ => .pure ⟨L, .refused (.refl s)⟩) fun _ =>
    createFrom_creates hListing hLeaves hRooted

end Files

section Items

inductive ImportsItem (P : Platform) (directory : Ptr) (isStdio : Bool) (item : Item) :
    State → (Ptr → List Ptr) → Int → State → (Ptr → List Ptr) → Prop
  | skipped {s : State} {L : Ptr → List Ptr} : getFile item.ident = none →
      ImportsItem P directory isStdio item s L 0 s L
  | blocked {s s' : State} {L L' : Ptr → List Ptr} :
      Creates P true s L directory (components (getDirectories item.ident)) s' L' 0 →
      ImportsItem P directory isStdio item s L (-1) s' L'
  | refused {s s₁ s' : State} {L L' : Ptr → List Ptr} {r : Ptr} :
      Creates P true s L directory (components (getDirectories item.ident)) s₁ L' r → Leaks s₁ s' →
      ImportsItem P directory isStdio item s L (-1) s' L'
  | misplaced {s s₁ s' : State} {L L' : Ptr → List Ptr} {r n : Ptr} {f : DFile} :
      Creates P true s L directory (components (getDirectories item.ident)) s₁ L' r →
      AddsFile s₁ s' n f item.data item.dataLen →
        ImportsItem P directory isStdio item s L (-1) s' L'
  | placed {s s₁ s₂ s₃ s₄ s' : State} {L L₁ L' : Ptr → List Ptr} {file : Path} {r link : Ptr}
      {g : Grant}
      {a b : List Ptr} :
      getFile item.ident = some file →
      Creates P true s L directory (components (getDirectories item.ident)) s₁ L₁ r → r ≠ 0 →
      isDirectory s₁.memory r → file.length ≤ fsNameLength →
        P.answer s₁.memory s₁.requests sizeofFile 8 = some g →
      AddsFile s₁ s₂ g.ptr (fileNode file link sIRWXU g.bytes) item.data item.dataLen →
      Links P s₂ L₁ r g.ptr a b s₃ L' →
      (if isStdio ∧ sameName P file stdinName then OpensAt s₃ s₄ 0 g.ptr else s₄ = s₃) →
        Outfits s₄ s' →
      ImportsItem P directory isStdio item s L 0 s' L'

def importEnviron (P : Platform) (file : Path) (item : Item) (x : Arguments) :
    M (Int × Arguments) :=
  if sameName P file environName then do
    let r ← setupCharpparray P item.data item.dataLen
    pure (0, { x with environ := r.2 })
  else pure (0, x)

theorem ensures_importEnviron (file : Path) (item : Item) (x : Arguments) :
    Ensures (importEnviron P file item x) s fun r s' => r.1 = 0 ∧ Outfits s s' := by
  refine .ite (fun _ => ?_) fun _ => .pure ⟨rfl, .refl s⟩
  exact (equips_setupCharpparray item.data item.dataLen s).bind fun r s₁ h₁ => .pure ⟨rfl, h₁⟩

theorem ensures_importArguments (file : Path) (item : Item) (x : Arguments) :
    Ensures (if sameName P file argvName then do
        let r ← setupCharpparray P item.data item.dataLen
        let a ← pure { x with argc := r.1, argv := r.2 }
        importEnviron P file item a
      else do
        let a ← pure x
        importEnviron P file item a) s fun r s' => r.1 = 0 ∧ Outfits s s' := by
  refine .ite (fun _ => ?_) fun _ => .after (pure_ok _) (ensures_importEnviron file item x)
  refine (equips_setupCharpparray item.data item.dataLen s).bind fun r s₁ h₁ =>
    .after (pure_ok _) ?_
  exact (ensures_importEnviron file item _).imp fun _ _ h => ⟨h.1, h₁.trans h.2⟩

theorem ensures_importStdio (file : Path) (item : Item) (x : Arguments) :
    Ensures (importStdio P p file item x) s fun r s' => r.1 = 0 ∧ ∃ s₁,
      (if sameName P file stdinName then OpensAt s s₁ 0 p else s₁ = s) ∧ Outfits s₁ s' := by
  by_cases hStdin : sameName P file stdinName = true
  · rw [importStdio, if_pos hStdin]
    refine (openExistingFile_opens 0 (by decide)).bind fun error s₁ h₁ => ?_
    obtain ⟨rfl, hOpens⟩ := h₁
    refine .ite (fun h => absurd rfl h) fun _ =>
      (ensures_importArguments file item x).imp fun _ _ h => ?_
    exact ⟨h.1, s₁, by rwa [if_pos hStdin], h.2⟩
  · rw [importStdio, if_neg hStdin]
    refine .after (pure_ok _) (.ite (fun h => absurd rfl h) fun _ => ?_)
    refine (ensures_importArguments file item x).imp fun _ _ h => ?_
    exact ⟨h.1, s, if_neg hStdin ▸ rfl, h.2⟩

theorem importItem_imports {isStdio : Bool} {item : Item} {x : Arguments}
    (hListing : Listing P s.memory L) (hLeaves : Leaves s.memory) (hRooted : Rooted L d) :
    Ensures (importItem P d isStdio item x) s fun r s' =>
      ∃ L', ImportsItem P d isStdio item s L r.1 s' L' := by
  rw [importItem]
  cases hFile : getFile item.ident with
  | none => exact .pure ⟨L, .skipped hFile⟩
  | some file =>
    refine (createDirectories_creates hListing hLeaves hRooted).bind fun r s₁ h₁ => ?_
    obtain ⟨L₁, hCreates⟩ := h₁
    refine .ite (fun hr => .pure ⟨L₁, .blocked (hr ▸ hCreates)⟩) fun hr => ?_
    obtain ⟨hListing₁, hLeaves₁, hRooted₁⟩ := hCreates.forest hListing hLeaves hRooted
    refine (createFile_adds file item.data item.dataLen sIRWXU).bind fun n s₂ h₂ => ?_
    rcases h₂ with ⟨hn, hLength, g, link, hg, rfl, hAdds⟩ | ⟨rfl, hLeak, _⟩
    · refine .ite (fun h => absurd h hn) fun _ => ?_
      obtain ⟨e, he⟩ := (hRooted₁ hr).live hListing₁
      by_cases hType : e.type = .directory
      · obtain ⟨s₃, L₃, a, b, hRun, hLinks⟩ := (hAdds.listing hListing₁).link
          (hAdds.old he) hType hAdds.live (hAdds.ne_root hListing₁)
            (hListing₁.unlisted_of_none hAdds.vacant.2.1)
        have hDir : isDirectory s₁.memory r = true := isDirectory_iff.mpr ⟨e, he, hType⟩
        refine .after hRun (.ite (fun h => absurd h (by decide)) fun _ =>
          .ite (fun hStdio => ?_) fun hStdio => ?_)
        · refine (ensures_importStdio file item x).imp fun y s' h => ?_
          obtain ⟨hZero, s₄, hOpens, hOutfits⟩ := h
          rw [hZero]
          refine ⟨_, .placed hFile hCreates hr hDir hLength hg hAdds hLinks ?_ hOutfits⟩
          simpa only [hStdio, true_and] using hOpens
        · have hKeep : if isStdio ∧ sameName P file stdinName then OpensAt s₃ s₃ 0 g.ptr
              else s₃ = s₃ := by
            rw [if_neg fun h => hStdio h.1]
          exact .pure ⟨_, .placed hFile hCreates hr hDir hLength hg hAdds hLinks hKeep (.refl s₃)⟩
      · exact .after (linkFileToFolder_refused (hListing₁.ne_zero he) (hAdds.old he) hType)
          (.ite (fun _ => .pure ⟨L₁, .misplaced hCreates hAdds⟩) fun h => absurd (by decide) h)
    · exact .ite (fun _ => .pure ⟨L₁, .refused hCreates hLeak⟩) fun h => absurd rfl h

end Items

section Initialize

theorem equips_emptyArray (array : Ptr) : Equips (emptyArray P array) := by
  refine .ite ((equips_allocBlock _ _).bind fun array => ?_) (.pure _)
  exact (equips_storeBytes _ _ _).bind fun _ => .pure _

theorem finishInitialize_keeps {x : Arguments} {A : State → Prop} (h : A s)
    (hStdin : (s.openFiles 0).file = 0 →
      Ensures (createStdio P 0 stdinName oRDONLY sIRUSR) s fun error s' => error = 0 → A s')
    (hBlocks : ∀ {s s'}, A s → Outfits s s' → A s') :
    Ensures (finishInitialize P x) s fun r s' => r.1 = 0 → A s' := by
  have hRest : ∀ {s} {y : Arguments}, A s → Ensures (do
      let argv ← emptyArray P y.argv
      let environ ← emptyArray P y.environ
      pure ((0 : Int), { y with argv := argv, environ := environ })) s fun r s' => r.1 = 0 →
        A s' := by
    intro s y h
    refine (equips_emptyArray y.argv s).bind fun argv s₁ h₁ =>
      (equips_emptyArray y.environ s₁).bind fun environ s₂ h₂ => ?_
    exact .pure fun _ => hBlocks (hBlocks h h₁) h₂
  rw [finishInitialize]
  refine .after (getOpenFile_ok (by unfold fsMaxFiles; decide)) ?_
  refine .ite (fun hClosed => (hStdin hClosed).bind fun error s₁ h₁ => ?_) fun _ => ?_
  · exact .ite (fun hError => .pure fun hZero => absurd hZero hError) fun hZero =>
      hRest (h₁ (not_not.mp hZero))
  · exact .after (pure_ok _) (.ite (fun h => absurd rfl h) fun _ => hRest h)

theorem staticFiles_cases {f : DFile} (h : staticFiles p = some f) :
    p = fsRoot ∧ f = staticNode [slash] .directory 0 0 ∨ p = stdioFolder ∧
      f = staticNode stdioName .directory 0 0 ∨
      p = deviceFolder ∧ f = staticNode devName .directory 0 0 ∨
      p = urandomFile ∧ f = staticNode urandomName .device urandomDevice sIRUSR := by
  unfold staticFiles at h
  repeat' split at h
  all_goals simp_all

end Initialize

end Dandelion.FileSystem
