import Dandelion.FileSystem.CallRules
import Dandelion.FileSystem.SteadyRuns

/-! # The table of descriptors

Most calls leave the table alone. `fs_initialize` opens the standard descriptors and
does not touch the table otherwise.
-/

namespace Dandelion.FileSystem

open Foundation.Triples

def KeepsTable {α : Type} (x : M α) : Prop :=
  ∀ s, Ensures x s fun _ s' => s'.openFiles = s.openFiles

variable {P : Platform} {s s' : State} {p : Ptr} {α β : Type}

section Table

theorem tableSteps : StepRules fun s s' => s'.openFiles = s.openFiles :=
  ⟨fun _ => rfl, fun h h' => h'.trans h⟩

theorem keepsTable_of_keeps {x : M α} (h : ∀ s, Ensures x s (KeepsAll s)) : KeepsTable x := fun s =>
  (h s).imp fun _ _ h => h.2

theorem keepsTable_modifyFile (p : Ptr) (g : DFile → DFile) :
    KeepsTable (modifyFile p g) := fun s =>
  (ensures_modifyFile_edits p g).imp fun _ s' hs' => by
    obtain ⟨_, _, hEdit⟩ := hs'
    exact hEdit.openFiles

theorem keepsTable_dandelionFree (p : Ptr) : KeepsTable (dandelionFree p) := fun s =>
  (ensures_dandelionFree p).imp fun _ s' hs' => by
    obtain ⟨_, rfl⟩ := hs'
    rfl

end Table

section Creation

theorem keepsTable_createDirectories (d : Ptr) (path : Path) (preventUp : Bool) :
    KeepsTable (createDirectories P d path preventUp) :=
  keepsTable_of_keeps fun _ => ensures_createDirectories d path preventUp

theorem keepsTable_linkFileToFolder (d p : Ptr) : KeepsTable (linkFileToFolder P d p) :=
  keepsTable_of_keeps fun _ => ensures_linkFileToFolder d p

theorem keepsTable_createFile (name : Path) (content length mode : Nat) :
    KeepsTable (createFile P name content length mode) := by
  intro s
  refine (createFile_adds name content length mode).imp fun r s' hs' => ?_
  rcases hs' with ⟨_, _, g, link, _, _, hAdds⟩ | ⟨_, _, hTable⟩
  · exact hAdds.openFiles
  · exact hTable

theorem tableRules : NodeRules P fun s s' => s'.openFiles = s.openFiles where
  toStepRules := tableSteps
  edit p g _ := keepsTable_modifyFile p g
  chmod p _ := keepsTable_modifyFile p _
  place := keepsTable_linkFileToFolder
  directories := keepsTable_createDirectories

theorem tableReleases : ReleaseRules fun s s' => s'.openFiles = s.openFiles where
  toStepRules := tableSteps
  edit := keepsTable_modifyFile
  chunk _ := tableSteps.bind (keepsTable_dandelionFree _) (fun _ => keepsTable_dandelionFree _) _
  node _ hx := tableSteps.bind hx (fun _ => keepsTable_dandelionFree _) _

theorem keepsTable_freeFileChunks (p : Ptr) : KeepsTable (freeFileChunks p) :=
  tableSteps.freeFileChunks tableReleases.chunk p

end Creation

section Start

def standard : List (Nat × Nat) := [(0, oRDONLY), (1, oWRONLY), (2, oWRONLY)]

/-- The steps of `fs_initialize`. -/
structure StartRules (P : Platform) (I : State → Prop) : Prop where
  directories : ∀ d path preventUp, Preserves I (createDirectories P d path preventUp)
  create : ∀ name content length mode, Preserves I (createFile P name content length mode)
  place : ∀ d p, Preserves I (linkFileToFolder P d p)
  equip : ∀ {α : Type} {x : M α}, Equips x → Preserves I x
  opens : ∀ entry ∈ standard, ∀ p, Preserves I (openExistingFile entry.1 p entry.2 false)

variable {I : State → Prop}

theorem KeepsTable.preserves {x : M α} (h : KeepsTable x)
    (hTable : ∀ s s' : State, s'.openFiles = s.openFiles → I s → I s') :
    Preserves I x := fun s hs => (h s).imp fun _ s' h' => hTable s s' h' hs

theorem Equips.keepsTable {x : M α} (h : Equips x) : KeepsTable x := fun s =>
  (h s).imp fun _ _ h => h.openFiles

/-- The rules for a property of the table of descriptors. -/
theorem StartRules.of_table (hTable : ∀ s s' : State, s'.openFiles = s.openFiles → I s → I s')
    (hOpen : ∀ entry ∈ standard, ∀ p, Preserves I (openExistingFile entry.1 p entry.2 false)) :
    StartRules P I where
  directories _ _ _ := (keepsTable_createDirectories _ _ _).preserves hTable
  create _ _ _ _ := (keepsTable_createFile _ _ _ _).preserves hTable
  place _ _ := (keepsTable_linkFileToFolder _ _).preserves hTable
  equip h := h.keepsTable.preserves hTable
  opens := hOpen

namespace StartRules

variable (h : StartRules P I)

include h

theorem createStdio {fd flags : Nat} (name : Path) (mode : Nat) (hEntry : (fd, flags) ∈ standard) :
    Preserves I (createStdio P fd name flags mode) := by
  refine (h.create _ _ _ _).bind fun file => .ite (.pure _) ?_
  exact (h.opens _ hEntry file).bind fun error => .ite (.pure _) (h.place _ _)

theorem importItem (d : Ptr) (isStdio : Bool) (item : Item) (x : Arguments) :
    Preserves I (importItem P d isStdio item x) := by
  rw [FileSystem.importItem]
  cases getFile item.ident with
  | none => exact .pure _
  | some fileName =>
    refine (h.directories _ _ _).bind fun itemDir => .ite (.pure _) ?_
    refine (h.create _ _ _ _).bind fun itemFile => .ite (.pure _) ?_
    refine (h.place _ _).bind fun error => .ite (.pure _) (.ite ?_ (.pure _))
    have hSetup := h.equip (equips_setupCharpparray (P := P) item.data item.dataLen)
    have hEnviron : ∀ y : Arguments, Preserves I (if sameName P fileName environName then do
        let r ← setupCharpparray P item.data item.dataLen
        pure (0, { y with environ := r.2 })
      else pure (0, y) : M (Int × Arguments)) :=
        fun y => .ite (hSetup.bind fun r => .pure _) (.pure _)
    have hRest : ∀ error : Int, Preserves I (if error ≠ 0 then pure (error, x) else do
        let x ← if sameName P fileName argvName then do
            let r ← setupCharpparray P item.data item.dataLen
            pure { x with argc := r.1, argv := r.2 }
          else pure x
        if sameName P fileName environName then do
          let r ← setupCharpparray P item.data item.dataLen
          pure (0, { x with environ := r.2 })
        else pure (0, x) : M (Int × Arguments)) := by
      intro error
      refine .ite (.pure _) (.ite ?_ ((Preserves.pure _).bind fun y => hEnviron y))
      exact hSetup.bind fun r => (Preserves.pure _).bind fun y => hEnviron y
    rw [importStdio]
    exact .ite ((h.opens (0, oRDONLY) (by decide) itemFile).bind hRest)
      ((Preserves.pure _).bind hRest)

theorem importItems (d : Ptr) (isStdio : Bool) (items : List Item) (x : Arguments) :
    Preserves I (importItems P d isStdio items x) := by
  induction items generalizing x with
  | nil => exact .pure _
  | cons item rest ih => exact (h.importItem d isStdio item x).bind fun r => .ite (.pure _) (ih _)

theorem importSets (sets : List InputSet) (x : Arguments) : Preserves I (importSets P sets x) := by
  induction sets generalizing x with
  | nil => exact .pure _
  | cons set rest ih =>
    rw [FileSystem.importSets]
    refine .ite (ih _) ((h.directories _ _ _).bind fun d => .ite (.pure _) ?_)
    exact (h.importItems d _ set.items x).bind fun r => .ite (.pure _) (ih _)

theorem createOutputSets (outputs : List Path) : Preserves I (createOutputSets P outputs) := by
  induction outputs with
  | nil => exact .pure _
  | cons ident rest ih =>
    rw [FileSystem.createOutputSets]
    exact .ite ih ((h.directories _ _ _).bind fun d => .ite (.pure _) ih)

theorem fsInitialize (sets : List InputSet) (outputs : List Path) :
    Preserves I (fsInitialize P sets outputs) := by
  have hStatics : Preserves I (linkStatics P) := by
    refine (h.place _ _).bind fun error => .ite (.pure _) ?_
    exact (h.place _ _).bind fun error => .ite (.pure _) (h.place _ _)
  refine hStatics.bind fun error => .ite (.pure _) ?_
  refine (h.createStdio _ _ (by decide)).bind fun error => .ite (.pure _) ?_
  refine (h.createStdio _ _ (by decide)).bind fun error => .ite (.pure _) ?_
  refine (h.importSets sets _).bind fun r => .ite (.pure _) ?_
  refine (h.createOutputSets outputs).bind fun error => .ite (.pure _) ?_
  have hEmpty : ∀ array, Preserves I (emptyArray P array) :=
    fun array => h.equip (equips_emptyArray array)
  have hRest : ∀ error : Int, Preserves I (if error ≠ 0 then pure (error, r.2) else do
      let argv ← emptyArray P r.2.argv
      let environ ← emptyArray P r.2.environ
      pure (0, { r.2 with argv := argv, environ := environ }) : M (Int × Arguments)) := fun error =>
    .ite (.pure _) ((hEmpty _).bind fun argv => (hEmpty _).bind fun environ => .pure _)
  have hTable : Preserves I (getOpenFile 0) := fun s hs =>
    (readsOnly_getOpenFile 0 s).imp fun _ _ hs' => hs' ▸ hs
  refine hTable.bind fun o => .ite ?_ ((Preserves.pure _).bind hRest)
  exact (h.createStdio _ _ (by decide)).bind hRest

end StartRules

end Start

end Dandelion.FileSystem
