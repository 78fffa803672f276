import Dandelion.FileSystem.AccessRuns
import Dandelion.FileSystem.HardLinks
import Dandelion.FileSystem.Truncation

/-! # Modes and kinds of nodes

A comment says that the mode of a node contains its type. The static folders have
the mode zero from the start, and `fs_initialize` does not change it.
-/

namespace Dandelion.FileSystem

open Foundation.Runs Foundation.Triples

/-- The mode names the type of a regular file or a directory, and not the other one. -/
def DFile.TellsKind (f : DFile) : Prop :=
  (f.type = .file → hasBit f.mode sIFREG = true ∧ hasBit f.mode sIFDIR = false) ∧
    (f.type = .directory → hasBit f.mode sIFDIR = true ∧ hasBit f.mode sIFREG = false)

def ModesTell (P : Platform) (s : State) : Prop :=
  ∀ name p f, findFile P name s = .ok (p, s) → s.memory.files p = some f → f.TellsKind

def PlainRoot (s : State) : Prop :=
  ∃ f, s.memory.files fsRoot = some f ∧ f.type = .directory ∧ f.mode = 0

/-- A directory from `create_directories`: the mode is what its block held. -/
def MadeDirectory (P : Platform) (p : Ptr) (type : FileType) (mode : Nat) : Prop :=
  type = .directory ∧ ∃ m count g, P.answer m count sizeofFile 8 = some g ∧ g.ptr = p ∧
    mode = (DFile.ofBytes g.bytes).mode

/-- Every node keeps its type and mode or has some that are admitted. -/
def Gains (A : Ptr → FileType → Nat → Prop) (s s' : State) : Prop :=
  ∀ p f', s'.memory.files p = some f' →
    (∃ f, s.memory.files p = some f ∧ f'.type = f.type ∧ f'.mode = f.mode) ∨ A p f'.type f'.mode

variable {P : Platform} {s s' s'' : State} {n p : Ptr} {f : DFile} {α : Type}
  {A B : Ptr → FileType → Nat → Prop}

section Steps

theorem Gains.mono (h : Gains A s s') (hAB : ∀ p t m, A p t m → B p t m) : Gains B s s' :=
  fun p f' hf' =>
  (h p f' hf').imp_right (hAB p _ _)

theorem Gains.trans (h : Gains A s s') (h' : Gains A s' s'') : Gains A s s'' := by
  intro p f' hf'
  rcases h' p f' hf' with ⟨e, he, hType, hMode⟩ | hNew
  · rw [hType, hMode]
    exact h p e he
  · exact Or.inr hNew

theorem gains_of_sub (h : ∀ p f, s'.memory.files p = some f → s.memory.files p = some f) :
    Gains A s s' :=
  fun p f hf => Or.inl ⟨f, h p f hf, rfl, rfl⟩

theorem AddsNode.gains (h : AddsNode s s' n f) (hA : A n f.type f.mode) : Gains A s s' := by
  intro p f' hf'
  rw [h.files] at hf'
  by_cases hp : p = n
  · rw [hp, Function.update_self, Option.some.injEq] at hf'
    rw [hp, ← hf']
    exact Or.inr hA
  · rw [Function.update_of_ne hp] at hf'
    exact Or.inl ⟨f', hf', rfl, rfl⟩

theorem gains_modifyFile {g : DFile → DFile} (hg : ∀ f, (g f).type = f.type ∧ (g f).mode = f.mode) :
    Obeys (Gains A) (modifyFile p g) := fun s =>
  (ensures_modifyFile_edits p g).imp fun _ s' hs' q f' hf' => by
    rw [hs'.2.2.files] at hf'
    obtain ⟨e, he, rfl⟩ := Option.map_eq_some_iff.mp hf'
    refine Or.inl ⟨e, he, ?_⟩
    unfold editAt
    split
    · exact hg e
    · exact ⟨rfl, rfl⟩

theorem gainingRules : EditRules (Gains A) where
  refl _ := gains_of_sub fun _ _ hf => hf
  trans := Gains.trans
  edit _ _ hg := gains_modifyFile fun f => ⟨(hg f).1, (hg f).2.2⟩

theorem gains_setOpenFile (fd : Int) (o : OpenFile) : Obeys (Gains A) (setOpenFile fd o) := by
  intro s
  by_cases hRange : 0 ≤ fd ∧ fd < fsMaxFiles
  · exact .of_ok (setOpenFile_ok hRange o) (gainingRules.refl s)
  · exact .of_error (if_neg hRange) trivial

theorem gains_dandelionFree (p : Ptr) : Obeys (Gains A) (dandelionFree p) := fun s =>
  (ensures_dandelionFree p).imp fun _ s' hs' => by
    obtain ⟨-, rfl⟩ := hs'
    exact gains_of_sub fun _ _ hf => drop_files_some hf

theorem gains_freeFileChunks (p : Ptr) : Obeys (Gains A) (freeFileChunks p) :=
  gainingRules.freeFileChunks
    (fun _ => gainingRules.bind (gains_dandelionFree _) (fun _ => gains_dandelionFree _) _) p

theorem gains_openDescriptor (p : Ptr) (flags : Nat) :
    Obeys (Gains A) (openDescriptor p flags) := by
  refine gainingRules.openDescriptor gains_setOpenFile p fun _ p link k hk => ?_
  refine gainingRules.bind (gains_freeFileChunks link) fun _ => ?_
  exact gainingRules.bind (gains_modifyFile fun _ => ⟨rfl, rfl⟩) fun _ => hk

theorem gains_linkFileToFolder (d p : Ptr) : Obeys (Gains A) (linkFileToFolder P d p) := by
  have hRules := gainingRules (A := A)
  have hTwo : ∀ (q r : Ptr) {g g' : DFile → DFile},
      (∀ f, (g f).type = f.type ∧ (g f).mode = f.mode) →
      (∀ f, (g' f).type = f.type ∧ (g' f).mode = f.mode) →
      Obeys (Gains A) (do modifyFile q g; modifyFile r g'; pure (0 : Int)) := fun q r _ _ hg hg' =>
    hRules.bind (gains_modifyFile hg) fun _ =>
      hRules.bind (gains_modifyFile hg') fun _ => hRules.pure _
  have hSame : ∀ f : DFile, f.type = f.type ∧ f.mode = f.mode := fun _ => ⟨rfl, rfl⟩
  rw [linkFileToFolder]
  refine hRules.after (readsOnly_getFileAt d) fun e => .ite (hRules.pure _) ?_
  refine hRules.bind (gains_modifyFile fun f => hSame f) fun _ =>
    hRules.after (readsOnly_getFileAt d) fun e => ?_
  refine .ite (hTwo _ _ (fun f => hSame f) fun f => hSame f)
    (hRules.after (readsOnly_getFileAt p) fun f => ?_)
  refine hRules.after (readsOnly_getFileAt _) fun c =>
    .ite (hTwo _ _ (fun f => hSame f) fun f => hSame f)
      (hRules.after readsOnly_steps fun fuel => ?_)
  refine hRules.after (readsOnly_insertionPoint _ _ _) fun current =>
    hRules.after (readsOnly_getFileAt current) fun c => ?_
  exact hTwo _ _ (fun f => hSame f) fun f => hSame f

theorem gains_createDirectories (d : Ptr) (path : Path) (preventUp : Bool) :
    Obeys (Gains (MadeDirectory P)) (createDirectories P d path preventUp) := by
  have hRules := gainingRules (A := MadeDirectory P)
  have hFrom : ∀ (names : List Path) (d : Ptr),
      Obeys (Gains (MadeDirectory P)) (createFrom P preventUp d names) := by
    intro names
    induction names with
    | nil => exact fun d => hRules.pure _
    | cons c rest ih =>
      intro d
      rw [createFrom]
      refine .ite (hRules.pure _) (.ite (ih d) (.ite (.ite (hRules.pure _) ?_) ?_))
      · exact hRules.after (readsOnly_getFileAt d) fun f => .ite (ih d) (ih f.parent)
      refine hRules.after (readsOnly_findFileInDir d c) fun candidate =>
        .ite (ih candidate) fun s => ?_
      refine meets_newDirectory (fun _ => trivial) fun g s₁ hg hAdds => ?_
      have hMade : Gains (MadeDirectory P) s s₁ := hAdds.gains ⟨rfl, _, _, g, hg, rfl, rfl⟩
      refine Meets.imp ?_ fun _ _ h => hMade.trans h
      refine hRules.bind (gains_linkFileToFolder d g.ptr) (fun error => .ite ?_ (ih g.ptr)) s₁
      exact hRules.bind (gains_dandelionFree g.ptr) fun _ => hRules.pure _
  exact hRules.after (readsOnly_getFileAt d) fun f => .ite (hRules.pure _) (hFrom _ d)

/-- A file that `dandelion_open` creates has the mode of the caller. -/
theorem gains_dandelionOpen (name : List UInt8) (flags mode : Nat) :
    Obeys (Gains fun p t m => MadeDirectory P p t m ∨ t = .file ∧ m = mode)
      (dandelionOpen P name flags mode) := by
  set A : Ptr → FileType → Nat → Prop := fun p t m => MadeDirectory P p t m ∨ t = .file ∧ m = mode
  have hRules := gainingRules (A := A)
  refine hRules.after (readsOnly_findFile name) fun current => .ite (hRules.pure _)
    (.ite (.ite (hRules.pure _) ?_) (gains_openDescriptor _ _))
  refine hRules.after (readsOnly_pathFromString name) fun path => ?_
  cases getFile path with
  | none => exact hRules.reads (.fail _)
  | some fileName =>
    intro s
    refine .ite (fun _ => .pure (hRules.refl s)) fun hLength => ?_
    have hDirectories : Obeys (Gains A) (createDirectories P fsRoot (getDirectories path) false) :=
      fun s =>
      (gains_createDirectories _ _ _ s).imp fun _ _ h => h.mono fun _ _ _ => Or.inl
    refine hRules.bind hDirectories (fun parent => .ite (hRules.pure _) fun s₁ => ?_) s
    refine meets_createFile hLength (fun _ => gains_of_sub fun _ _ hf => hf) fun g s₂ _ hAdds => ?_
    refine (hRules.bind (gains_linkFileToFolder parent g.ptr) (fun error =>
      .ite (hRules.pure _) (gains_openDescriptor g.ptr flags)) s₂).imp fun _ _ h => Gains.trans ?_ h
    intro p f' hf'
    rw [hAdds.files] at hf'
    by_cases hp : p = g.ptr
    · rw [hp, Function.update_self, Option.some.injEq] at hf'
      rw [← hf']
      exact Or.inr (Or.inr ⟨rfl, rfl⟩)
    · rw [Function.update_of_ne hp] at hf'
      exact Or.inl ⟨f', hf', rfl, rfl⟩

/-- What `dandelion_mkdir` returns zero for has the mode of the caller. -/
theorem gains_dandelionMkdir (name : List UInt8) (mode : Nat) (s : State) :
    Ensures (dandelionMkdir P name mode) s fun r s' =>
      Gains (fun p t m => MadeDirectory P p t m ∨ m = mode) s s' ∧
        (r = 0 → ∃ p f, s'.memory.files p = some f ∧ f.mode = mode) := by
  have hRefl : Gains (fun p t m => MadeDirectory P p t m ∨ m = mode) s s := gainingRules.refl s
  have hStay : ∀ e : Nat, 0 < e → Ensures (pure (-(e : Int)) : M Int) s fun r s' =>
      Gains (fun p t m => MadeDirectory P p t m ∨ m = mode) s s' ∧
        (r = 0 → ∃ p f, s'.memory.files p = some f ∧ f.mode = mode) := fun e he =>
    .pure ⟨hRefl, fun h => by omega⟩
  rw [dandelionMkdir]
  refine (readsOnly_pathFromString name).seq fun path => ?_
  cases getFile path with
  | none => trivial
  | some dirName =>
    refine (readsOnly_findFrom fsRoot _).seq fun parent => ?_
    refine .ite (fun _ => hStay _ (by decide)) fun _ => (readsOnly_getFileAt parent).seq fun f => ?_
    refine .ite (fun _ => hStay _ (by decide)) fun _ =>
      (readsOnly_findFileInDir parent dirName).seq fun existing => ?_
    refine .ite (fun _ => hStay _ (by decide)) fun _ =>
      (gains_createDirectories parent dirName false s).bind fun newDir s₅ h₅ => ?_
    have hMade := h₅.mono (B := fun p t m => MadeDirectory P p t m ∨ m = mode) fun _ _ _ => Or.inl
    refine .ite (fun _ => .pure ⟨hMade, fun h => absurd h (by decide)⟩) fun _ => ?_
    refine (ensures_modifyFile_edits newDir _).bind fun _ s₆ h₆ =>
      .pure ⟨fun p f' hf' => ?_, fun _ => ?_⟩
    · rw [h₆.2.2.files] at hf'
      obtain ⟨e, he, rfl⟩ := Option.map_eq_some_iff.mp hf'
      unfold editAt
      split
      · exact Or.inr (Or.inr rfl)
      · exact hMade p e he
    · obtain ⟨-, ⟨e, he⟩, hEdits⟩ := h₆
      refine ⟨newDir, _, by rw [hEdits.files, he, Option.map_some], ?_⟩
      rw [editAt, if_pos rfl]

end Steps

section Start

theorem PlainRoot.of_files (h : PlainRoot s) (hFiles : s'.memory.files = s.memory.files) :
    PlainRoot s' := by
  unfold PlainRoot
  rw [hFiles]
  exact h

theorem PlainRoot.update (h : PlainRoot s) (hVacant : s.memory.Vacant n)
    (hFiles : s'.memory.files = Function.update s.memory.files n (some f)) : PlainRoot s' := by
  obtain ⟨e, he, hType, hMode⟩ := h
  exact ⟨e, by rw [hFiles, Function.update_of_ne (hVacant.ne_file he).symm, he], hType, hMode⟩

/-- The root stays, and its mode is not that of a new node. -/
theorem Keeps.plainRoot (hKeeps : Keeps s.memory s'.memory) (hGains : Gains A s s')
    (hA : ∀ t m, ¬ A fsRoot t m) (h : PlainRoot s) : PlainRoot s' := by
  obtain ⟨e, he, hType, hMode⟩ := h
  obtain ⟨e', he', -⟩ := hKeeps.old fsRoot e he
  rcases hGains fsRoot e' he' with ⟨f, hf, hSame, hSameMode⟩ | hNew
  · obtain rfl := Option.mem_unique he hf
    exact ⟨e', he', hSame.trans hType, hSameMode.trans hMode⟩
  · exact absurd hNew (hA _ _)

theorem not_madeDirectory_root {t : FileType} {m : Nat} : ¬ MadeDirectory P fsRoot t m := by
  rintro ⟨-, m, count, g, hg, hRoot, -⟩
  have hLow := (P.vacant _ _ _ _ _ hg).1
  rw [hRoot] at hLow
  exact absurd hLow (by decide)

theorem plainRoot_createFile (name : Path) (content length mode : Nat) :
    Preserves PlainRoot (createFile P name content length mode) := fun s h =>
  (createFile_adds name content length mode).imp fun r s' hs' => by
    rcases hs' with ⟨-, -, g, link, -, -, hAdds⟩ | ⟨-, ⟨hFiles | ⟨n, f, hVacant, hFiles⟩⟩, -⟩
    · exact h.update hAdds.vacant hAdds.files
    · exact h.of_files hFiles
    · exact h.update hVacant hFiles

theorem plainRoot_open (index : Nat) (p : Ptr) {flags : Nat}
    (hTrunc : hasBit flags oTRUNC = false) :
    Preserves PlainRoot (openExistingFile index p flags false) := fun s h =>
  (openExistingFile_opens index hTrunc).imp fun r s' hs' => by
    obtain ⟨-, -, ⟨s₁, hEdit, hFiles⟩, -⟩ := hs'
    obtain ⟨e, he, hType, hMode⟩ := h
    refine ⟨_, by rw [hFiles, hEdit.files, he, Option.map_some], ?_⟩
    unfold editAt
    split
    · exact ⟨hType, hMode⟩
    · exact ⟨hType, hMode⟩

theorem plainRootRules : StartRules P PlainRoot where
  directories d path preventUp s h :=
    ((ensures_createDirectories d path preventUp).and
      (gains_createDirectories d path preventUp s)).imp
      fun _ _ h' => h'.1.1.plainRoot h'.2 (fun _ _ => not_madeDirectory_root) h
  create := plainRoot_createFile
  place d p s h :=
    ((ensures_linkFileToFolder d p).and
      (gains_linkFileToFolder (A := fun _ _ _ => False) d p s)).imp
    fun _ _ h' => h'.1.1.plainRoot h'.2 (fun _ _ h => h) h
  equip hx s h := (hx s).imp fun _ _ h' => h.of_files h'.files
  opens entry hEntry p := plainRoot_open entry.1 p (by revert entry; decide)

theorem plainRoot_of_started {x : Session} (h : Started P x) : PlainRoot x.state := by
  obtain ⟨-, sets, outputs, s, a, hBoots, hInit⟩ := h
  refine (plainRootRules.fsInitialize sets outputs s ⟨staticNode [slash] .directory 0 0, ?_, rfl,
    rfl⟩).result hInit
  rw [hBoots.files]
  rfl

theorem not_modesTell_of_plainRoot (h : PlainRoot s) : ¬ ModesTell P s := by
  intro hTell
  obtain ⟨f, hf, hType, hMode⟩ := h
  have hFind : findFile P [slash] s = .ok (fsRoot, s) := rfl
  have hBits := (hTell [slash] fsRoot f hFind hf).2 hType
  rw [hMode] at hBits
  exact absurd hBits.1 (by decide)

/-- Right after `fs_initialize` the path `/` leads to a directory whose mode does not say so,
whatever the inputs and the blocks are. What is created later has the mode that the block held or
the caller gave. -/
theorem modes_never_tell :
    (∀ x, Started P x → ¬ ModesTell P x.state) ∧
    (∀ d path preventUp s, Ensures (createDirectories P d path preventUp) s fun _ =>
      Gains (MadeDirectory P) s) ∧
    (∀ name flags mode s, Ensures (dandelionOpen P name flags mode) s fun _ =>
      Gains (fun p t m => MadeDirectory P p t m ∨ t = .file ∧ m = mode) s) ∧
    ∀ name mode s, Ensures (dandelionMkdir P name mode) s fun r s' =>
      Gains (fun p t m => MadeDirectory P p t m ∨ m = mode) s s' ∧
        (r = 0 → ∃ p f, s'.memory.files p = some f ∧ f.mode = mode) := by
  refine ⟨fun x hx => not_modesTell_of_plainRoot (plainRoot_of_started hx), ?_, ?_, ?_⟩
  · exact fun d path preventUp s => gains_createDirectories d path preventUp s
  · exact fun name flags mode s => gains_dandelionOpen name flags mode s
  · exact fun name mode s => gains_dandelionMkdir name mode s

/-- The first state of a program without inputs, and the file `a` that it creates. -/
theorem modes_never_tell_without_input :
    ∃ x y, Started (.bump 0) x ∧ ¬ ModesTell (.bump 0) x.state ∧
    Completes (.bump 0) x (.openFile [97] (oWRONLY ||| oCREAT) sIRWXU) y ∧
    Gains (fun p t m => MadeDirectory (.bump 0) p t m ∨ t = .file ∧ m = sIRWXU) x.state
      y.state := by
  obtain ⟨hStarted, -, hOpen, -⟩ := modes_never_tell (P := .bump 0)
  obtain ⟨x, hx, hTest⟩ := exists_of_bareRunIf (P := .bump 0) (Started (.bump 0))
    (fun _ _ _ => False)
    (fun _ _ => false) [] (fun x =>
      passes (dandelionOpen (.bump 0) [97] (oWRONLY ||| oCREAT) sIRWXU x.state) fun _ => true)
    (fun s a hInit => ⟨rfl, [], [], bareState, a, boots_bareState, hInit⟩)
      (fun _ _ _ _ h => Bool.noConfusion h)
    (by decide +kernel)
  have hStart : Started (.bump 0) x := hx.invariant _ (fun _ h => h) fun _ _ _ _ h => h.elim
  obtain ⟨⟨r, s⟩, hRun, -⟩ := exists_of_passes hTest
  refine ⟨x, ⟨s, x.dirs⟩, hStart, hStarted x hStart, ?_, (hOpen _ _ _ x.state).result hRun⟩
  rw [Completes, Call.perform, bind_ok hRun]
  rfl

/-- A file that was created by `dandelion_open` and a directory that was made by
`dandelion_mkdir`, both with the permissions that programs give: no kind is reported for
them, and none for the root. -/
theorem modes_tell_fails : ∃ x, Reachable (Started (.bump 0)) (Performs (.bump 0)) x ∧
    ¬ ModesTell (.bump 0) x.state ∧
    ∀ name ∈ [[97], [98], [slash]], ∃ st s', dandelionStat (.bump 0) name x.state =
      .ok ((0, some st), s') ∧
      hasBit st.stMode sIFREG = false ∧ hasBit st.stMode sIFDIR = false := by
  obtain ⟨x, hx, hTest⟩ := exists_of_bareRun (P := .bump 0)
    [.openFile [97] (oWRONLY ||| oCREAT) sIRWXU, .mkdir [98] sIRWXU]
    (fun x => ((x.state.memory.files fsRoot).any fun f => f.type = .directory ∧ f.mode = 0) &&
      [[97], [98], [slash]].all fun name => passes (dandelionStat (.bump 0) name x.state) fun r =>
        r.1.1 == 0 && r.1.2.any fun st => !hasBit st.stMode sIFREG && !hasBit st.stMode sIFDIR)
          (by decide +kernel)
  rw [Bool.and_eq_true, List.all_eq_true, Option.any_eq_true] at hTest
  obtain ⟨⟨f, hf, hRoot⟩, hAll⟩ := hTest
  refine ⟨x, performs_of_proceeds (proceeds_of_completes hx),
    not_modesTell_of_plainRoot ⟨f, hf, of_decide_eq_true hRoot⟩, fun name hName => ?_⟩
  obtain ⟨⟨⟨code, o⟩, s'⟩, hStat, hBoth⟩ := exists_of_passes (hAll name hName)
  rw [Bool.and_eq_true, beq_iff_eq, Option.any_eq_true] at hBoth
  obtain ⟨hZero, st, hSome, hBits⟩ := hBoth
  obtain rfl : code = 0 := hZero
  obtain rfl : o = some st := hSome
  rw [Bool.and_eq_true, Bool.not_eq_true', Bool.not_eq_true'] at hBits
  exact ⟨st, s', hStat, hBits⟩

end Start

end Dandelion.FileSystem
