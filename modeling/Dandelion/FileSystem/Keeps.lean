import Dandelion.FileSystem.Orderly
import Dandelion.FileSystem.Calls

/-! # What the calls on paths leave alone

Looking up a path changes nothing. Creating and linking nodes keeps the chunks
of all regular files, and a new regular file is empty.
-/

namespace Dandelion.FileSystem

open Foundation.Triples

/-- A completed run of `x` meets `post`. -/
abbrev Ensures {α : Type} (x : M α) (s : State) (post : α → State → Prop) : Prop :=
  Meets x s post fun _ => True

/-- Nodes keep their type and regular files their chunks; new nodes are at free addresses, and
new regular files are empty. -/
structure Keeps (m m' : Memory) : Prop where
  chunks : m'.chunks = m.chunks
  blocks : m'.blocks = m.blocks
  old : ∀ p f, m.files p = some f → ∃ f', m'.files p = some f' ∧ f'.type = f.type ∧
    (f.type = .file → f'.link = f.link)
  new : ∀ p f', m'.files p = some f' → m.files p = none →
    (m.chunks p = none ∧ m.blocks p = none) ∧ (f'.type = .file → f'.link = 0)

def KeepsAll {α : Type} (s : State) (_ : α) (s' : State) : Prop :=
  Keeps s.memory s'.memory ∧ s'.openFiles = s.openFiles

variable {P : Platform} {s s' s'' : State} {m m' m'' : Memory} {p q : Ptr} {α β : Type}

section Relation

theorem Keeps.refl (m : Memory) : Keeps m m :=
  ⟨rfl, rfl, fun _ f hf => ⟨f, hf, rfl, fun _ => rfl⟩,
    fun _ _ hf hNone => by rw [hf] at hNone; cases hNone⟩

theorem Keeps.trans (h : Keeps m m') (h' : Keeps m' m'') : Keeps m m'' where
  chunks := h'.chunks.trans h.chunks
  blocks := h'.blocks.trans h.blocks
  old p f hf := by
    obtain ⟨f', hf', hType, hLink⟩ := h.old p f hf
    obtain ⟨f'', hf'', hType', hLink'⟩ := h'.old p f' hf'
    exact ⟨f'', hf'', hType'.trans hType, fun hFile =>
      (hLink' (hType.trans hFile)).trans (hLink hFile)⟩
  new p f'' hf'' hNone := by
    cases hf' : m'.files p with
    | none =>
      have hNew := h'.new p f'' hf'' hf'
      rwa [h.chunks, h.blocks] at hNew
    | some f' =>
      obtain ⟨g, hg, hType, hLink⟩ := h'.old p f' hf'
      obtain rfl := Option.mem_unique hf'' hg
      obtain ⟨hClear, hEmpty⟩ := h.new p f' hf' hNone
      refine ⟨hClear, fun hFile => ?_⟩
      rw [hLink (hType.symm.trans hFile), hEmpty (hType.symm.trans hFile)]

theorem KeepsAll.refl (s : State) (a : α) : KeepsAll s a s := ⟨.refl _, rfl⟩

theorem KeepsAll.trans {a : α} {b : β} (h : KeepsAll s a s') (h' : KeepsAll s' b s'') :
    KeepsAll s b s'' :=
  ⟨h.1.trans h'.1, h'.2.trans h.2⟩

theorem Keeps.filed {l : List Piece} (h : Keeps m m') (hl : Filed m p l) : Filed m' p l := by
  have hChanges : Changes m m' [] [] :=
    ⟨fun p c hp _ => by rw [h.chunks, hp], fun p b hp _ => by rw [h.blocks, hp],
    fun _ hy => absurd hy List.not_mem_nil, fun _ hy => absurd hy List.not_mem_nil⟩
  exact (hChanges.frame hl fun _ _ _ hx => absurd hx List.not_mem_nil).1

/-- Every regular file is empty or one of the old ones. -/
theorem Keeps.origin {f' : DFile} (h : Keeps m m') (hf' : m'.files p = some f')
    (hFile : f'.type = .file) :
    f'.link = 0 ∨ ∃ f, m.files p = some f ∧ f.type = .file ∧ f.link = f'.link := by
  cases hf : m.files p with
  | none => exact Or.inl ((h.new p f' hf' hf).2 hFile)
  | some f =>
    obtain ⟨g, hg, hType, hLink⟩ := h.old p f hf
    obtain rfl := Option.mem_unique hf' hg
    exact Or.inr ⟨f, rfl, hType.symm.trans hFile, (hLink (hType.symm.trans hFile)).symm⟩

theorem Keeps.orderly (h : Keeps m m') (hOrderly : Orderly m) : Orderly m' := by
  constructor
  · intro p f' hf' hFile
    rcases h.origin hf' hFile with hZero | ⟨f, hf, hType, hLink⟩
    · exact ⟨[], hZero ▸ Filed.nil⟩
    · obtain ⟨l, hl⟩ := hOrderly.filed p f hf hType
      exact ⟨l, hLink ▸ h.filed hl⟩
  · intro p q f' g' k l hne hf' hg' hFile hFile' hk hl
    rcases h.origin hf' hFile with hZero | ⟨f, hf, hType, hLink⟩
    · rw [hZero] at hk
      rw [hk.unique Filed.nil]
      exact fun y hy => absurd hy List.not_mem_nil
    · rcases h.origin hg' hFile' with hZero | ⟨g, hg, hType', hLink'⟩
      · rw [hZero] at hl
        rw [hl.unique Filed.nil]
        exact fun _ _ x hx => absurd hx List.not_mem_nil
      · obtain ⟨k', hk'⟩ := hOrderly.filed p f hf hType
        obtain ⟨l', hl'⟩ := hOrderly.filed q g hg hType'
        rw [hk.unique (hLink ▸ h.filed hk'), hl.unique (hLink' ▸ h.filed hl')]
        exact hOrderly.clear p q f g k' l' hne hf hg hType hType' hk' hl'

end Relation

section Reading

def ReadsOnly (x : M α) : Prop := ∀ s, Ensures x s fun _ s' => s' = s

theorem ReadsOnly.pure (a : α) : ReadsOnly (pure a : M α) := fun _ => rfl

theorem ReadsOnly.fail (e : Fault) : ReadsOnly (fail e : M α) := fun _ => trivial

theorem ReadsOnly.bind {x : M α} {f : α → M β} (hx : ReadsOnly x) (hf : ∀ a, ReadsOnly (f a)) :
    ReadsOnly (x >>= f) := by
  intro s
  refine (hx s).bind fun a s' hs' => ?_
  subst hs'
  exact hf a s'

/-- What comes after a reading part starts in the same state. -/
theorem ReadsOnly.seq {x : M α} {k : α → M β} {post : β → State → Prop} (hx : ReadsOnly x)
    (hk : ∀ a, Ensures (k a) s post) : Ensures (x >>= k) s post := by
  refine (hx s).bind fun a s' hs' => ?_
  subst hs'
  exact hk a

theorem ReadsOnly.ite {c : Prop} [Decidable c] {x y : M α} (hx : ReadsOnly x) (hy : ReadsOnly y) :
    ReadsOnly (if c then x else y) := by
  split
  · exact hx
  · exact hy

theorem ensures_readAt (table : Memory → Ptr → Option α) (p : Ptr) :
    Ensures (readAt table p) s fun x s' => s' = s ∧ p ≠ 0 ∧ table s.memory p = some x := by
  by_cases hp : p = 0
  · exact .of_error (if_pos hp) trivial
  · cases hTable : table s.memory p with
    | none => exact .of_error (e := .invalid) (by simp only [readAt, if_neg hp, hTable]) trivial
    | some x => exact .of_ok (a := x) (by simp only [readAt, if_neg hp, hTable]) ⟨rfl, hp, rfl⟩

theorem ensures_getFileAt (p : Ptr) :
    Ensures (getFileAt p) s fun f s' => s' = s ∧ p ≠ 0 ∧ s.memory.files p = some f :=
  ensures_readAt _ p

theorem ensures_file {k : DFile → M α} {post : α → State → Prop}
    (hk : ∀ f, p ≠ 0 → s.memory.files p = some f → Ensures (k f) s post) :
    Ensures (getFileAt p >>= k) s post := by
  refine (ensures_getFileAt p).bind fun f s' h => ?_
  obtain ⟨rfl, hp, hf⟩ := h
  exact hk f hp hf

theorem readsOnly_readAt (table : Memory → Ptr → Option α) (p : Ptr) : ReadsOnly (readAt table p) :=
  fun _ => (ensures_readAt table p).imp fun _ _ h => h.1

theorem readsOnly_getFileAt (p : Ptr) : ReadsOnly (getFileAt p) := readsOnly_readAt _ p

theorem readsOnly_steps : ReadsOnly steps := fun _ => rfl

theorem readsOnly_scanChildren (name : Path) (fuel : Nat) (p : Ptr) :
    ReadsOnly (scanChildren P name fuel p) := by
  induction fuel generalizing p with
  | zero => exact .fail _
  | succ fuel ih =>
    rw [scanChildren]
    refine .ite (.pure _) ((readsOnly_getFileAt p).bind fun c => ?_)
    exact .ite (.pure _) (.ite (.pure _) (ih c.next))

theorem readsOnly_findFileInDir (d : Ptr) (name : Path) : ReadsOnly (findFileInDir P d name) := by
  rw [findFileInDir]
  refine .ite (.pure _) (.ite ((readsOnly_getFileAt d).bind fun f => .pure _)
    ((readsOnly_getFileAt d).bind fun f => ?_))
  exact readsOnly_steps.bind fun fuel => readsOnly_scanChildren _ _ _

theorem readsOnly_findFrom (p : Ptr) (path : List Path) : ReadsOnly (findFrom P p path) := by
  induction path generalizing p with
  | nil => exact .pure _
  | cons c rest ih =>
    rw [findFrom]
    refine (readsOnly_getFileAt p).bind fun f => .ite (.pure _) ?_
    exact (readsOnly_findFileInDir p c).bind fun found => .ite (.pure _) (ih found)

theorem readsOnly_pathFromString (str : List UInt8) : ReadsOnly (pathFromString str) := by
  rw [pathFromString]
  exact .ite (.fail _) (.pure _)

theorem readsOnly_findFile (name : List UInt8) : ReadsOnly (findFile P name) := by
  rw [findFile]
  exact (readsOnly_pathFromString name).bind fun path => readsOnly_findFrom _ _

theorem readsOnly_insertionPoint (name : List UInt8) (fuel : Nat) (p : Ptr) :
    ReadsOnly (insertionPoint P name fuel p) := by
  induction fuel generalizing p with
  | zero => exact .fail _
  | succ fuel ih =>
    rw [insertionPoint]
    refine (readsOnly_getFileAt p).bind fun c =>
      .ite (.pure _) ((readsOnly_getFileAt c.next).bind fun n => ?_)
    exact .ite (.pure _) (ih c.next)

end Reading

section Writing

theorem ensures_modifyFile {g : DFile → DFile}
    (hg : ∀ f, s.memory.files p = some f → (g f).type = f.type ∧
      (f.type = .file → (g f).link = f.link)) :
    Ensures (modifyFile p g) s (KeepsAll s) := by
  rw [modifyFile]
  refine ensures_file fun f _ hf => ?_
  refine ⟨⟨rfl, rfl, fun q e he => ?_, fun q e he hNone => ?_⟩, rfl⟩
  · by_cases hq : q = p
    · subst hq
      obtain rfl := Option.mem_unique hf he
      exact ⟨g f, Function.update_self _ _ _, hg f hf⟩
    · exact ⟨e, (Function.update_of_ne hq _ _).trans he, rfl, fun _ => rfl⟩
  · have hq : q ≠ p := by
      rintro rfl
      rw [hf] at hNone
      cases hNone
    have he' : s.memory.files q = some e := (Function.update_of_ne hq _ _).symm.trans he
    rw [hNone] at he'
    cases he'

theorem Ensures.then {x : M α} {k : α → M β} (hx : Ensures x s (KeepsAll s))
    (hk : ∀ a s', KeepsAll s a s' → x s = .ok (a, s') → Ensures (k a) s' (KeepsAll s')) :
    Ensures (x >>= k) s (KeepsAll s) := by
  cases hRun : x s with
  | error e => exact .of_error (bind_error hRun) trivial
  | ok r =>
    have hKeeps : KeepsAll s r.1 r.2 := hx.result hRun
    refine .after (show x s = .ok (r.1, r.2) from hRun) ?_
    exact (hk r.1 r.2 hKeeps hRun).imp fun _ _ h => hKeeps.trans h

theorem ReadsOnly.keeps {x : M α} (h : ReadsOnly x) : Ensures x s (KeepsAll s) :=
  (h s).imp fun a s' hs' => by rw [hs']; exact .refl s a

theorem Keeps.directory (h : Keeps m m') {f f' : DFile} (hf : m.files p = some f)
    (hType : f.type = .directory) (hf' : m'.files p = some f') : f'.type = .directory := by
  obtain ⟨g, hg, hSame, _⟩ := h.old p f hf
  obtain rfl := Option.mem_unique hf' hg
  exact hSame.trans hType

theorem ensures_pure (a : α) : Ensures (pure a) s (KeepsAll s) := KeepsAll.refl s a

theorem ensures_linkFileToFolder (d p : Ptr) : Ensures (linkFileToFolder P d p) s (KeepsAll s) := by
  rw [linkFileToFolder]
  refine ensures_file fun f _ hf => ?_
  refine .ite (fun _ => ensures_pure _) fun hType => ?_
  rw [not_not] at hType
  refine Ensures.then (ensures_modifyFile fun e _ => ⟨rfl, fun _ => rfl⟩) fun _ s₁ h₁ _ => ?_
  refine ensures_file fun f₁ _ hf₁ => ?_
  have hDirectory : ∀ {s₂ : State}, Keeps s₁.memory s₂.memory → ∀ e, s₂.memory.files d = some e →
      (FileType.directory = e.type ∧ e.type ≠ .file) := by
    intro s₂ hKeeps e he
    have hType₂ := (h₁.1.trans hKeeps).directory hf hType he
    exact ⟨hType₂.symm, by rw [hType₂]; decide⟩
  have hFolder : ∀ {s₂ : State} {link : Ptr}, Keeps s₁.memory s₂.memory →
      Ensures (modifyFile d fun e => { e with link := link }) s₂ (KeepsAll s₂) := fun hKeeps =>
    ensures_modifyFile fun e he => ⟨rfl, fun hFile => absurd hFile (hDirectory hKeeps e he).2⟩
  refine .ite (fun _ => ?_) fun _ => ?_
  · refine Ensures.then (hFolder (.refl _)) fun _ _ _ _ => ?_
    exact Ensures.then (ensures_modifyFile fun e _ => ⟨rfl, fun _ => rfl⟩) fun _ _ _ _ =>
      ensures_pure _
  · refine Ensures.then (readsOnly_getFileAt p).keeps fun f s₂ h₂ _ => ?_
    refine Ensures.then (readsOnly_getFileAt _).keeps fun c s₃ h₃ _ =>
      .ite (fun _ => ?_) fun _ => ?_
    · refine Ensures.then (ensures_modifyFile fun e _ => ⟨rfl, fun _ => rfl⟩) fun _ s₄ h₄ _ => ?_
      exact Ensures.then (hFolder (h₂.1.trans (h₃.1.trans h₄.1))) fun _ _ _ _ => ensures_pure _
    · refine Ensures.then readsOnly_steps.keeps fun fuel s₄ _ _ => ?_
      refine Ensures.then (readsOnly_insertionPoint _ _ _).keeps fun current s₅ _ _ => ?_
      refine Ensures.then (readsOnly_getFileAt _).keeps fun c s₆ _ _ => ?_
      refine Ensures.then (ensures_modifyFile fun e _ => ⟨rfl, fun _ => rfl⟩) fun _ s₇ _ _ => ?_
      exact Ensures.then (ensures_modifyFile fun e _ => ⟨rfl, fun _ => rfl⟩) fun _ _ _ _ =>
        ensures_pure _

end Writing

section Creating

def fileNode (name : Path) (link mode : Nat) (bytes : Nat → UInt8) : DFile :=
  { DFile.ofBytes bytes with
    name := name ++ (DFile.ofBytes bytes).name.drop name.length
    type := .file
    link := link
    hardLinks := 0
    openDescriptors := 0
    mode := mode ||| sIFREG }

theorem allocFile_none (h : P.answer s.memory s.requests sizeofFile 8 = none) :
    allocFile P s = .ok (0, { s with requests := s.requests + 1 }) := by
  simp only [allocFile, dandelionAlloc, h]

theorem allocFile_some {g : Grant} (h : P.answer s.memory s.requests sizeofFile 8 = some g) :
    allocFile P s = .ok (g.ptr, { s with
      memory := s.memory.setFile g.ptr (.ofBytes g.bytes), requests := s.requests + 1 }) := by
  rw [allocFile, dandelionAlloc_ok h]

structure AddsNode (s s' : State) (p : Ptr) (f : DFile) : Prop where
  vacant : s.memory.Vacant p
  files : s'.memory.files = Function.update s.memory.files p (some f)
  chunks : s'.memory.chunks = s.memory.chunks
  blocks : s'.memory.blocks = s.memory.blocks
  openFiles : s'.openFiles = s.openFiles
  requests : s'.requests = s.requests + 1

theorem AddsNode.keeps {f : DFile} (h : AddsNode s s' p f)
    (hf : f.type = .file → f.link = 0) (a : α) :
    KeepsAll s a s' := by
  refine ⟨⟨h.chunks, h.blocks, fun q e he => ?_, fun q e he hNone => ?_⟩, h.openFiles⟩
  · refine ⟨e, ?_, rfl, fun _ => rfl⟩
    rw [h.files, Function.update_of_ne (h.vacant.ne_file he).symm, he]
  · rw [h.files] at he
    by_cases hq : q = p
    · subst hq
      rw [Function.update_self, Option.some.injEq] at he
      exact ⟨h.vacant.2.2, he ▸ hf⟩
    · rw [Function.update_of_ne hq, hNone] at he
      cases he

theorem createFile_empty {name : Path} (length mode : Nat) {g : Grant}
    (h : P.answer s.memory s.requests sizeofFile 8 = some g) (hName : name.length ≤ fsNameLength) :
    ∃ s', createFile P name 0 length mode s = .ok (g.ptr, s') ∧
      AddsNode s s' g.ptr (fileNode name 0 mode g.bytes) := by
  have hVacant := P.vacant _ _ _ _ _ h
  set s₁ : State := { s with
    memory := s.memory.setFile g.ptr (.ofBytes g.bytes), requests := s.requests + 1 } with hs₁
  have hNode₁ : s₁.memory.files g.ptr = some (.ofBytes g.bytes) := Function.update_self _ _ _
  set f₂ : DFile := { DFile.ofBytes g.bytes with
    name := name ++ (DFile.ofBytes g.bytes).name.drop name.length, type := .file }
  set s₂ : State := { s₁ with memory := s₁.memory.setFile g.ptr f₂ } with hs₂
  have hNode₂ : s₂.memory.files g.ptr = some f₂ := Function.update_self _ _ _
  refine ⟨{ s₂ with memory := s₂.memory.setFile g.ptr (fileNode name 0 mode g.bytes) }, ?_, hVacant,
    ?_, rfl, rfl, rfl, rfl⟩
  · rw [createFile, bind_ok (allocFile_some h), if_neg hVacant.ne_zero,
      if_neg (Nat.not_lt_of_le hName), bind_ok (modifyFile_ok hVacant.ne_zero hNode₁),
      if_neg (not_not_intro rfl), finishFile, bind_ok (modifyFile_ok hVacant.ne_zero hNode₂)]
    rfl
  · simp only [hs₂, hs₁, setFile_files, Function.update_idem]

theorem createFile_none {name : Path} {content length mode : Nat}
    (h : P.answer s.memory s.requests sizeofFile 8 = none) :
    createFile P name content length mode s = .ok (0, { s with requests := s.requests + 1 }) := by
  rw [createFile, bind_ok (allocFile_none h), if_pos rfl]
  rfl

theorem AddsNode.live {f : DFile} (h : AddsNode s s' p f) : s'.memory.files p = some f := by
  rw [h.files, Function.update_self]

theorem AddsNode.ne_zero {f : DFile} (h : AddsNode s s' p f) : p ≠ 0 := h.vacant.ne_zero

theorem AddsNode.modify {f : DFile} (h : AddsNode s s' p f) (g : DFile → DFile) :
    ∃ s'', modifyFile p g s' = .ok ((), s'') ∧ AddsNode s s'' p (g f) := by
  refine ⟨_, modifyFile_ok h.ne_zero h.live, h.vacant, ?_, h.chunks, h.blocks, h.openFiles,
    h.requests⟩
  change Function.update s'.memory.files p (some (g f)) = _
  rw [h.files, Function.update_idem]

/-- `dandelion_open` gets no node, or a new one with the mode of the caller. -/
theorem meets_createFile {k : Ptr → M Int} {post : Int → State → Prop} {fault : Fault → Prop}
    {name : Path} {mode : Nat} (hLength : ¬ name.length ≥ fsNameLength)
    (hNone : P.answer s.memory s.requests sizeofFile 8 = none →
      post (-(eNOMEM : Int)) { s with requests := s.requests + 1 })
    (hSome : ∀ g s', P.answer s.memory s.requests sizeofFile 8 = some g →
      AddsNode s s' g.ptr { fileNode name 0 0 g.bytes with mode := mode } →
        Meets (k g.ptr) s' post fault) :
    Meets (do
      let current ← createFile P name 0 0 0
      if current = 0 then pure (-(eNOMEM : Int))
      else do
        modifyFile current fun f => { f with mode := mode }
        k current) s post fault := by
  cases hg : P.answer s.memory s.requests sizeofFile 8 with
  | none =>
    exact .after (createFile_none hg) (.ite (fun _ => .pure (hNone hg)) fun hne => absurd rfl hne)
  | some g =>
    obtain ⟨s₁, hCreate, hAdds⟩ := createFile_empty 0 0 hg (Nat.le_of_lt (Nat.lt_of_not_le hLength))
    obtain ⟨s₂, hMode, hNew⟩ := hAdds.modify fun f => { f with mode := mode }
    exact .after hCreate (.ite (fun hNull => absurd hNull hAdds.ne_zero) fun _ =>
      .after hMode (hSome g s₂ hg hNew))

theorem newDirectory_some {g : Grant} (h : P.answer s.memory s.requests sizeofFile 8 = some g)
    (c : Path) :
    ∃ s', AddsNode s s' g.ptr ((DFile.ofBytes g.bytes).nameDirectory c) ∧
      ∀ {β : Type} (k : Ptr → M β),
        (do
          let newDir ← allocFile P
          modifyFile newDir fun f => f.nameDirectory c
          k newDir : M β) s = k g.ptr s' := by
  have hVacant := P.vacant _ _ _ _ _ h
  set s₁ : State := { s with
    memory := s.memory.setFile g.ptr (.ofBytes g.bytes), requests := s.requests + 1 } with hs₁
  have hNode₁ : s₁.memory.files g.ptr = some (.ofBytes g.bytes) := Function.update_self _ _ _
  refine ⟨{ s₁ with memory := s₁.memory.setFile g.ptr ((DFile.ofBytes g.bytes).nameDirectory c) },
    ⟨hVacant, ?_, rfl, rfl, rfl, rfl⟩, fun k => ?_⟩
  · simp only [hs₁, setFile_files, Function.update_idem]
  · rw [bind_ok (allocFile_some h), bind_ok (modifyFile_ok hVacant.ne_zero hNode₁)]

/-- A new directory of a creation walk, which follows the null pointer where it gets no node. -/
theorem meets_newDirectory {k : Ptr → M β} {post : β → State → Prop} {fault : Fault → Prop}
    {c : Path} (hNone : P.answer s.memory s.requests sizeofFile 8 = none → fault .null)
    (hSome : ∀ g s', P.answer s.memory s.requests sizeofFile 8 = some g →
      AddsNode s s' g.ptr ((DFile.ofBytes g.bytes).nameDirectory c) →
        Meets (k g.ptr) s' post fault) :
    Meets (do
      let newDir ← allocFile P
      modifyFile newDir fun f => f.nameDirectory c
      k newDir) s post fault := by
  cases hg : P.answer s.memory s.requests sizeofFile 8 with
  | none =>
    refine .after (allocFile_none hg) (.of_error (bind_error ?_) (hNone hg))
    rw [modifyFile]
    exact bind_error rfl
  | some g =>
    obtain ⟨s₁, hAdds, hRun⟩ := newDirectory_some hg c
    exact .of_eq (hRun k) (hSome g s₁ hg hAdds)

theorem linkFileToFolder_refused {e : DFile} (hp : p ≠ 0) (he : s.memory.files p = some e)
    (hType : e.type ≠ .directory) : linkFileToFolder P p q s = .ok (-1, s) := by
  rw [linkFileToFolder, bind_ok (getFileAt_ok hp he), if_pos hType]
  rfl

theorem AddsNode.drop_added {f : DFile} {a : α} (h : AddsNode s s' p f)
    (h' : KeepsAll s' a s'') (b : β) :
    KeepsAll s b { s'' with memory := s''.memory.drop p } := by
  obtain ⟨_, hFile, hChunk, hBlock⟩ := h.vacant
  have hChunks : s''.memory.chunks = s.memory.chunks := h'.1.chunks.trans h.chunks
  have hBlocks : s''.memory.blocks = s.memory.blocks := h'.1.blocks.trans h.blocks
  refine ⟨⟨?_, ?_, fun q e he => ?_, fun q e he hNone => ?_⟩, h'.2.trans h.openFiles⟩
  · rw [drop_chunks, hChunks, ← hChunk, Function.update_eq_self]
  · rw [drop_blocks, hBlocks, ← hBlock, Function.update_eq_self]
  · have hq : q ≠ p := (h.vacant.ne_file he).symm
    obtain ⟨e', he', hSame⟩ := h'.1.old q e (by rw [h.files, Function.update_of_ne hq, he])
    exact ⟨e', by rw [drop_files, Function.update_of_ne hq, he'], hSame⟩
  · by_cases hq : q = p
    · subst hq
      rw [drop_files, Function.update_self] at he
      cases he
    · rw [drop_files, Function.update_of_ne hq] at he
      have hNew := h'.1.new q e he (by rw [h.files, Function.update_of_ne hq, hNone])
      rwa [h.chunks, h.blocks] at hNew

theorem ensures_createFrom (preventUp : Bool) (d : Ptr) (path : List Path) :
    Ensures (createFrom P preventUp d path) s (KeepsAll s) := by
  induction path generalizing d s with
  | nil => exact ensures_pure d
  | cons c rest ih =>
    rw [createFrom]
    refine .ite (fun _ => ensures_pure _) fun _ => .ite (fun _ => ih d) fun _ => ?_
    refine .ite (fun _ => .ite (fun _ => ensures_pure _) fun _ => ?_) fun _ => ?_
    · refine Ensures.then (readsOnly_getFileAt d).keeps fun f s' _ _ => ?_
      exact .ite (fun _ => ih d) fun _ => ih f.parent
    · refine Ensures.then (readsOnly_findFileInDir d c).keeps fun found s' _ _ => ?_
      refine .ite (fun _ => ih found) fun _ => ?_
      refine meets_newDirectory (fun _ => trivial) fun g s₁ _ hAdds => ?_
      have hNew : KeepsAll s' () s₁ := hAdds.keeps (fun hFile => by cases hFile) ()
      refine (ensures_linkFileToFolder d g.ptr).bind fun error s₂ h₂ =>
        .ite (fun _ => ?_) fun _ => ?_
      · -- the directory could not be linked and is given back
        cases hFree : dandelionFree g.ptr s₂ with
        | error e => exact .of_error (bind_error hFree) trivial
        | ok r =>
          refine .after (show dandelionFree g.ptr s₂ = .ok (r.1, r.2) from hFree) ?_
          rw [dandelionFree] at hFree
          split at hFree
          · obtain rfl := Except.ok.inj hFree
            exact hAdds.drop_added h₂ (0 : Ptr)
          · cases hFree
      · exact (ih g.ptr).imp fun _ _ h => hNew.trans (h₂.trans h)

theorem ensures_createDirectories (d : Ptr) (path : Path) (preventUp : Bool) :
    Ensures (createDirectories P d path preventUp) s (KeepsAll s) := by
  rw [createDirectories]
  refine Ensures.then (readsOnly_getFileAt d).keeps fun f s' _ _ => ?_
  exact .ite (fun _ => ensures_pure _) fun _ => ensures_createFrom _ _ _

end Creating

section Opening

variable {flags mode : Nat} {name : List UInt8}

theorem Keeps.fresh (h : Keeps m m') (hp : m'.files p = none) : m.files p = none := by
  cases hf : m.files p with
  | none => rfl
  | some f =>
    obtain ⟨f', hf', _⟩ := h.old p f hf
    rw [hp] at hf'
    cases hf'

theorem find_range {n i : Nat} {p : Nat → Bool} (h : (List.range n).find? p = some i) :
    i < n ∧ p i = true :=
  ⟨List.mem_range.mp (List.mem_of_find?_eq_some h), List.find?_some h⟩

theorem lowestFree_ok : ∃ free, lowestFree s = .ok (free, s) ∧
    ∀ i, free = some i → i < fsMaxFiles ∧ (s.openFiles i).file = 0 := by
  refine ⟨_, rfl, fun i hi => ?_⟩
  obtain ⟨hLt, hVacant⟩ := find_range hi
  exact ⟨hLt, of_decide_eq_true hVacant⟩

theorem ensures_failure {n : Nat} {post : Int → State → Prop} (hn : 0 < n) :
    Ensures (pure (-(n : Int))) s fun r s' => 0 ≤ r → post r s' := by
  intro hr
  have hNeg : (0 : Int) ≤ -(n : Int) := hr
  omega

structure Opens (s s' : State) (r : Int) (p : Ptr) (f : DFile) (flags : Nat) : Prop where
  keeps : Keeps s.memory s'.memory
  result : 0 ≤ r ∧ r < fsMaxFiles
  vacant : (s.openFiles r.toNat).file = 0
  openFiles : s'.openFiles = Function.update s.openFiles r.toNat
    ⟨p, if f.type = .file then f.link else 0, 0, (flags &&& oACCMODE) ||| (flags &&& oAPPEND)⟩

structure OpensEmpty (s s' : State) (r : Int) (p : Ptr) (flags : Nat) : Prop where
  keeps : Keeps s.memory s'.memory
  result : 0 ≤ r ∧ r < fsMaxFiles
  vacant : (s.openFiles r.toNat).file = 0
  fresh : s.memory.files p = none
  ne_zero : p ≠ 0
  regular : ∃ f, s'.memory.files p = some f ∧ f.type = .file
  openFiles : s'.openFiles =
    Function.update s.openFiles r.toNat ⟨p, 0, 0, (flags &&& oACCMODE) ||| (flags &&& oAPPEND)⟩

theorem ensures_finishOpen {index : Nat} {access : Nat} {f : DFile} (hIndex : index < fsMaxFiles)
    (hf : s.memory.files p = some f) :
    Ensures (finishOpen index p access) s fun _ s' => Keeps s.memory s'.memory ∧
      s'.openFiles = Function.update s.openFiles index ⟨p, if f.type = .file then f.link else 0, 0,
        access⟩ := by
  rw [finishOpen]
  refine ensures_file fun f' _ hf' => ?_
  obtain rfl := Option.mem_unique hf hf'
  refine Meets.bind (ensures_modifyFile fun e _ => ⟨rfl, fun _ => rfl⟩) fun _ s₁ h₁ => ?_
  have hRange : (0 : Int) ≤ index ∧ (index : Int) < fsMaxFiles :=
    ⟨Int.natCast_nonneg _, by exact_mod_cast hIndex⟩
  refine .after (setOpenFile_ok hRange _) ⟨h₁.1, ?_⟩
  rw [h₁.2, Int.toNat_natCast]

theorem ensures_openDescriptor {f : DFile} (hTrunc : hasBit flags oTRUNC = false)
    (hf : s.memory.files p = some f) :
    Ensures (openDescriptor p flags) s fun r s' => 0 ≤ r → Opens s s' r p f flags := by
  rw [openDescriptor]
  obtain ⟨free, hFree, hSpec⟩ := lowestFree_ok (s := s)
  refine .after hFree ?_
  cases free with
  | none => exact ensures_failure (by decide)
  | some i =>
    obtain ⟨hIndex, hVacant⟩ := hSpec i rfl
    have hExisting : Ensures (openExistingFile i p flags true) s fun e s' => 0 ≤ e →
        Keeps s.memory s'.memory ∧ s'.openFiles = Function.update s.openFiles i
          ⟨p, if f.type = .file then f.link
            else 0, 0, (flags &&& oACCMODE) ||| (flags &&& oAPPEND)⟩ := by
      rw [openExistingFile]
      refine ensures_file fun f' _ hf' => ?_
      obtain rfl := Option.mem_unique hf hf'
      refine .ite (fun _ => ensures_failure (by decide)) fun _ => ?_
      refine .ite (fun _ => ensures_failure (by decide)) fun _ => ?_
      refine .ite (fun hCut => absurd hCut.1 (by simp [hTrunc])) fun _ => ?_
      exact (ensures_finishOpen hIndex hf).imp fun _ _ h _ => h
    refine hExisting.bind fun error s' h => .ite (fun hNeg hr => ?_) fun hPos hr => ?_
    · exact absurd hr (Int.not_le.mpr hNeg)
    · obtain ⟨hKeeps, hOpen⟩ := h (Int.not_lt.mp hPos)
      exact ⟨hKeeps, ⟨hr, Int.ofNat_lt.mpr hIndex⟩, hVacant, hOpen⟩

theorem ensures_createAndOpen (hTrunc : hasBit flags oTRUNC = false) :
    Ensures (createAndOpen P name flags mode) s fun r s' => 0 ≤ r →
      ∃ p, OpensEmpty s s' r p flags := by
  rw [createAndOpen]
  refine (readsOnly_pathFromString name).seq fun path => ?_
  cases getFile path with
  | none => trivial
  | some fileName =>
    refine .ite (fun _ => ensures_failure (by decide)) fun hName => ?_
    refine (ensures_createDirectories fsRoot _ false).bind fun parent s₁ h₁ => ?_
    refine .ite (fun _ => ensures_failure (by decide)) fun _ => ?_
    refine meets_createFile hName (fun _ h => absurd h (by decide)) fun g s₂ _ hAdds => ?_
    have h₂ : KeepsAll s₁ () s₂ := hAdds.keeps (fun _ => rfl) ()
    refine (ensures_linkFileToFolder parent g.ptr).bind fun error s₃ h₃ => ?_
    refine .ite (fun _ => ensures_failure (by decide)) fun _ => ?_
    have hTotal : KeepsAll s () s₃ := h₁.trans (h₂.trans h₃)
    obtain ⟨f, hf, hType, hLink⟩ := h₃.1.old g.ptr _ hAdds.live
    refine (ensures_openDescriptor hTrunc hf).imp fun r s₄ h₄ hr => ?_
    have hOpens := h₄ hr
    obtain ⟨f', hf', hType', -⟩ := hOpens.keeps.old g.ptr f hf
    refine ⟨g.ptr, hTotal.1.trans hOpens.keeps, hOpens.result, ?_, h₁.1.fresh hAdds.vacant.2.1,
      hAdds.ne_zero, ⟨f', hf', hType'.trans hType⟩, ?_⟩
    · rw [← hTotal.2]
      exact hOpens.vacant
    · rw [hOpens.openFiles, hTotal.2, if_pos (show f.type = .file from hType), hLink rfl]
      rfl

theorem dandelionOpen_creates {r : Int} (hAbsent : findFile P name s = .ok (0, s))
    (hTrunc : hasBit flags oTRUNC = false) (hOpen : dandelionOpen P name flags mode s = .ok (r, s'))
    (hr : 0 ≤ r) : ∃ p, OpensEmpty s s' r p flags := by
  rw [dandelionOpen, bind_ok hAbsent, if_neg (by simp), if_pos rfl] at hOpen
  split at hOpen
  · obtain ⟨rfl, _⟩ := Prod.mk.inj (Except.ok.inj hOpen)
    exact absurd hr (by decide)
  · exact (ensures_createAndOpen hTrunc).result hOpen hr

end Opening

end Dandelion.FileSystem
