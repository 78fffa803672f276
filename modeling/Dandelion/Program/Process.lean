import Dandelion.Foundation.Components
import Dandelion.Runtime.IoAccess
import Dandelion.FileSystem.Boot

/-! # A program from entry to exit

A process is a file system together with a runtime. `fs_initialize` reads the input
sets through the accessors of the runtime. `fs_terminate` hands every file to
`dandelion_add_output` as soon as it has found it, and a refused request for memory
on the way ends the process with what was added so far.
-/

namespace Dandelion.Program

open Foundation.Components
open Runtime.IoSets
  (IoBuffer SystemData dandelionInit dandelionExit dandelionAddOutput dandelionGetInput getBuffer
  dandelionInputSetCount dandelionInputSetIdent dandelionInputSetIdentLen dandelionInputBufferCount
  dandelionOutputSetCount dandelionOutputSetIdent dandelionOutputSetIdentLen labelAt inputPart)
open FileSystem
  (Ptr Path Item InputSet Arguments getFileAt steps contiguous prefixedName storeBytes dandelionFree
  findFileInDir skipped importItem createDirectories createStdio linkStatics finishInitialize
    sameName stdioName
  stderrName stdoutName oWRONLY sIWUSR fsRoot fsNameLength namelen slash eNOMEM)

/-- Where memory comes from, and the bytes of the identifiers that the platform provides. -/
structure Host where
  files : FileSystem.Platform
  sets : Runtime.IoSets.Platform
  text : Ptr → UInt8

abbrev Outcome := Halt FileSystem.State Runtime.IoSets.State FileSystem.Fault Runtime.IoSets.Fault

abbrev Run := Joint FileSystem.State Runtime.IoSets.State FileSystem.Fault Runtime.IoSets.Fault

def Host.path (H : Host) (label : Ptr × Nat) : Path :=
  (List.range label.2).map fun k => H.text (label.1 + k)

def Host.item (H : Host) (x : IoBuffer) : Item := ⟨H.path (x.ident, x.identLen), x.data, x.dataLen⟩

section Initialize

/-- The loop over the items of a set, from index `itemIdx` on. -/
def importItems (H : Host) (setIdx : Nat) (setDirectory : Ptr) (isStdio : Bool) :
    Nat → Nat → Arguments → Run (Int × Arguments)
  | 0, _, a => pure (0, a)
  | remaining + 1, itemIdx, a => do
    let itemBuffer ← onSecond (dandelionGetInput setIdx itemIdx)
    match itemBuffer with
    | none => onFirst (FileSystem.fail .null)
    | some address => do
      let x ← onSecond (getBuffer address.1 address.2)
      let r ← onFirst (importItem H.files setDirectory isStdio (H.item x) a)
      if r.1 ≠ 0 then pure r
        else importItems H setIdx setDirectory isStdio remaining (itemIdx + 1) r.2

def importSets (H : Host) : Nat → Nat → Arguments → Run (Int × Arguments)
  | 0, _, a => pure (0, a)
  | remaining + 1, setIdx, a => do
    let ident ← onSecond (dandelionInputSetIdent setIdx)
    let identLen ← onSecond (dandelionInputSetIdentLen setIdx)
    if (H.path (ident, identLen)).length = 0 then importSets H remaining (setIdx + 1) a
    else do
      let setDirectory ← onFirst (createDirectories H.files fsRoot (H.path (ident, identLen)) true)
      if setDirectory = 0 then pure (-1, a)
      else do
        let inputItems ← onSecond (dandelionInputBufferCount setIdx)
        let r ← importItems H setIdx setDirectory
            (sameName H.files (H.path (ident, identLen)) stdioName) inputItems 0 a
        if r.1 ≠ 0 then pure r else importSets H remaining (setIdx + 1) r.2

def createOutputSets (H : Host) : Nat → Nat → Run Int
  | 0, _ => pure 0
  | remaining + 1, setIdx => do
    let ident ← onSecond (dandelionOutputSetIdent setIdx)
    let identLen ← onSecond (dandelionOutputSetIdentLen setIdx)
    if (H.path (ident, identLen)).length = 0 then createOutputSets H remaining (setIdx + 1)
    else do
      let setDirectory ← onFirst (createDirectories H.files fsRoot (H.path (ident, identLen)) true)
      if setDirectory = 0 then pure (-1) else createOutputSets H remaining (setIdx + 1)

def fsInitialize (H : Host) : Run (Int × Arguments) := do
  let error ← onFirst (linkStatics H.files)
  if error ≠ 0 then pure (error, ⟨0, 0, 0⟩)
  else do
    let error ← onFirst (createStdio H.files 2 stderrName oWRONLY sIWUSR)
    if error ≠ 0 then pure (error, ⟨0, 0, 0⟩)
    else do
      let error ← onFirst (createStdio H.files 1 stdoutName oWRONLY sIWUSR)
      if error ≠ 0 then pure (error, ⟨0, 0, 0⟩)
      else do
        let inputSets ← onSecond dandelionInputSetCount
        let r ← importSets H inputSets 0 ⟨0, 0, 0⟩
        if r.1 ≠ 0 then pure r
        else do
          let outputSets ← onSecond dandelionOutputSetCount
          let error ← createOutputSets H outputSets 0
          if error ≠ 0 then pure (error, r.2) else onFirst (finishInitialize H.files r.2)

end Initialize

section Terminate

/-- Code of the file system that may call `dandelion_exit`. -/
def orExit {α : Type} (H : Host) (x : FileSystem.M α) : Run α := fun p =>
  match x p.1 with
  | .error (.exit code) => endWith (dandelionExit H.sets code) p
  | _ => onFirst x p

mutual

/-- `add_output_from_file` with a bound on the depth of the recursion. -/
def addOutput (H : Host) (set : Nat) : Nat → Ptr → Ptr → Nat → Run Int
  | 0, _, _, _ => onFirst (FileSystem.fail .diverge)
  | fuel + 1, file, path, length => do
    let f ← onFirst (getFileAt file)
    match f.type with
    | .file => do
      let nameLength := namelen f.name fsNameLength
      let newBuffer ← onFirst
          (prefixedName H.files path length (f.name.take nameLength) (length + nameLength))
      if newBuffer = 0 then pure (-1)
      else do
        let content ← orExit H (contiguous H.files f.link)
        onSecond
          (dandelionAddOutput H.sets set ⟨newBuffer, nameLength + length, content.1, content.2, 0⟩)
        pure 0
    | .directory => do
      let nameLength := namelen f.name fsNameLength
      let newBuffer ← onFirst
          (prefixedName H.files path length (f.name.take nameLength) (length + nameLength + 1))
      if newBuffer = 0 then endWith (dandelionExit H.sets eNOMEM)
      else do
        onFirst (storeBytes newBuffer (length + nameLength) [slash])
        let error ← addChildren H set fuel f.link newBuffer (length + nameLength + 1)
        if error ≠ 0 then pure error
        else do
          onFirst (dandelionFree newBuffer)
          pure error
    | .device => pure (-1)
    | .unknown => pure (-1)

def addChildren (H : Host) (set : Nat) : Nat → Ptr → Ptr → Nat → Run Int
  | 0, _, _, _ => onFirst (FileSystem.fail .diverge)
  | fuel + 1, child, path, length =>
    if child = 0 then pure 0
    else do
      let error ← addOutput H set fuel child path length
      if error ≠ 0 then pure error
      else do
        let c ← onFirst (getFileAt child)
        addChildren H set fuel c.next path length

end

def addOutputFromFile (H : Host) (file path : Ptr) (length set : Nat) : Run Int := do
  let fuel ← onFirst steps
  addOutput H set (2 * fuel) file path length

/-- The loop over the entries of the directory of a set. -/
def terminateSet (H : Host) (setIdent : Path) (set : Nat) : Nat → Ptr → Run Unit
  | 0, _ => onFirst (FileSystem.fail .diverge)
  | fuel + 1, outFile =>
    if outFile = 0 then pure ()
    else do
      let f ← onFirst (getFileAt outFile)
      if skipped H.files setIdent f.name then terminateSet H setIdent set fuel f.next
      else do
        let _ ← addOutputFromFile H outFile 0 0 set
        let f ← onFirst (getFileAt outFile)
        terminateSet H setIdent set fuel f.next

def terminateSets (H : Host) : Nat → Nat → Run Unit
  | 0, _ => pure ()
  | remaining + 1, setIdx => do
    let ident ← onSecond (dandelionOutputSetIdent setIdx)
    let identLen ← onSecond (dandelionOutputSetIdentLen setIdx)
    let setDirectory ← onFirst (findFileInDir H.files fsRoot (H.path (ident, identLen)))
    if setDirectory = 0 then terminateSets H remaining (setIdx + 1)
    else do
      let d ← onFirst (getFileAt setDirectory)
      let fuel ← onFirst steps
      terminateSet H (H.path (ident, identLen)) setIdx fuel d.link
      terminateSets H remaining (setIdx + 1)

def fsTerminate (H : Host) : Run Unit := do
  let outputSets ← onSecond dandelionOutputSetCount
  terminateSets H outputSets 0

end Terminate

section Entry

/-- An `int` as it lies in memory. -/
def codeWord (code : Int) : Nat := (code % 2 ^ 32).toNat

/-- How the program's `main` ends: it returns, or it calls `_exit` while `errno` has some value. -/
inductive Ending where
  | returns (code : Int)
  | exits (status errno : Int)

def exit {α : Type} (H : Host) (_status errno : Int) : Run α := do
  fsTerminate H
  endWith (dandelionExit H.sets (codeWord errno))

/-- `__initialization` of the shim, for a `main` that works on the file system. -/
def initialization (H : Host) (main : Arguments → FileSystem.M Ending) : Run Int := do
  let r ← fsInitialize H
  if r.1 ≠ 0 then pure r.1
  else do
    let ending ← onFirst (main r.2)
    match ending with
    | .returns code => do
      fsTerminate H
      pure code
    | .exits status errno => exit H status errno

/-- `__dandelion_entry`. It never returns. -/
def dandelionEntry (H : Host) (main : Arguments → FileSystem.M Ending) : Run Unit := do
  onSecond (dandelionInit H.sets)
  let code ← initialization H main
  endWith (dandelionExit H.sets (codeWord code))

end Entry

section Description

def Host.inputSets (H : Host) (d : SystemData) : List InputSet :=
  (List.range d.inputSetsLen).map fun i =>
    ⟨H.path (labelAt d.inputSets i), (inputPart d i).map H.item⟩

def Host.outputPath (H : Host) (d : SystemData) (i : Nat) : Path := H.path (labelAt d.outputSets i)

def Host.outputPaths (H : Host) (d : SystemData) : List Path :=
  (List.range d.outputSetsLen).map (H.outputPath d)

end Description

end Dandelion.Program
