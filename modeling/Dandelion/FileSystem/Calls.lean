import Dandelion.FileSystem.Nodes

/-! # The calls on paths and directories

Opening, closing and removing files and directories, as the shim forwards them.
Error numbers are returned negated.
-/

namespace Dandelion.FileSystem

def lowestFree : M (Option Nat) := fun s =>
  .ok ((List.range fsMaxFiles).find? (fun i => (s.openFiles i).file = 0), s)

def openDescriptor (current : Ptr) (flags : Nat) : M Int := do
  let free ← lowestFree
  match free with
  | none => pure (-(eMFILE : Int))
  | some fd => do
    let error ← openExistingFile fd current flags true
    if error < 0 then pure error else pure fd

/-- The branch of `dandelion_open` that creates the file. -/
def createAndOpen (P : Platform) (name : List UInt8) (flags mode : Nat) : M Int := do
  let path ← pathFromString name
  match getFile path with
  | none => fail .bounds
  | some fileName =>
    if fileName.length ≥ fsNameLength then pure (-(eINVAL : Int))
    else do
      let parent ← createDirectories P fsRoot (getDirectories path) false
      if parent = 0 then pure (-(eNOTDIR : Int))
      else do
        let current ← createFile P fileName 0 0 0
        if current = 0 then pure (-(eNOMEM : Int))
        else do
          modifyFile current fun f => { f with mode := mode }
          let error ← linkFileToFolder P parent current
          if error ≠ 0 then pure (-(eNOTDIR : Int)) else openDescriptor current flags

def dandelionOpen (P : Platform) (name : List UInt8) (flags mode : Nat) : M Int := do
  let current ← findFile P name
  if hasBit flags oEXCL ∧ hasBit flags oCREAT ∧ current ≠ 0 then pure (-(eEXIST : Int))
  else if current = 0 then
    if ¬ hasBit flags oCREAT then pure (-(eNOENT : Int)) else createAndOpen P name flags mode
  else openDescriptor current flags

def dandelionClose (fd : Int) : M Int := do
  let o ← getOpenFile fd
  if o.file = 0 then pure (-(eBADF : Int))
  else do
    modifyFile o.file fun f =>
      { f with openDescriptors := (f.openDescriptors + (2 ^ 16 - 1)) % 2 ^ 16 }
    let _ ← freeData o.file
    let o ← getOpenFile fd
    setOpenFile fd { o with file := 0 }
    pure 0

/-- The loop of `dandelion_unlink` that takes the file out of the child list. -/
def unlinkFrom (file : Ptr) : Nat → Ptr → M Unit
  | 0, _ => fail .diverge
  | fuel + 1, child =>
    if child = 0 then pure ()
    else do
      let c ← getFileAt child
      if c.next = file then do
        let f ← getFileAt file
        modifyFile child fun c => { c with next := f.next }
      else unlinkFrom file fuel c.next

def detach (file : Ptr) : M Unit := do
  let f ← getFileAt file
  let parent ← getFileAt f.parent
  if parent.link = file then modifyFile f.parent fun d => { d with link := f.next }
  else do
    let fuel ← steps
    unlinkFrom file fuel parent.link

def dandelionUnlink (P : Platform) (name : List UInt8) : M Int := do
  let file ← findFile P name
  if file = 0 then pure (-(eNOTDIR : Int))
  else do
    detach file
    modifyFile file fun f => { f with hardLinks := (f.hardLinks + (2 ^ 16 - 1)) % 2 ^ 16 }
    let _ ← freeData file
    pure 0

/-- The name of the new entry is computed by the code but not used. -/
def dandelionLink (P : Platform) (old new : List UInt8) : M Int := do
  let file ← findFile P old
  if file = 0 then pure (-(eNOTDIR : Int))
  else do
    let f ← getFileAt file
    if f.type = .directory then pure (-(ePERM : Int))
    else if f.hardLinks = 2 ^ 16 - 1 then pure (-(eMLINK : Int))
    else do
      let newFile ← findFile P new
      if newFile ≠ 0 then pure (-(eEXIST : Int))
      else do
        let newPath ← pathFromString new
        match getFile newPath with
        | none => fail .bounds
        | some _ => do
          let newDir ← createDirectories P fsRoot (getDirectories newPath) false
          if newDir = 0 then pure (-(eNOTDIR : Int))
          else do
            let _ ← linkFileToFolder P newDir file
            modifyFile file fun f => { f with hardLinks := (f.hardLinks + 1) % 2 ^ 16 }
            pure 0

def dandelionMkdir (P : Platform) (name : List UInt8) (mode : Nat) : M Int := do
  let path ← pathFromString name
  match getFile path with
  | none => fail .bounds
  | some dirName => do
    let parent ← findFilePath P (getDirectories path)
    if parent = 0 then pure (-(eNOENT : Int))
    else do
      let p ← getFileAt parent
      if p.type ≠ .directory then pure (-(eNOTDIR : Int))
      else do
        let existing ← findFileInDir P parent dirName
        if existing ≠ 0 then pure (-(eEXIST : Int))
        else do
          let newDir ← createDirectories P parent dirName false
          if newDir = 0 then pure (-(eNOMEM : Int))
          else do
            modifyFile newDir fun f => { f with mode := mode }
            pure 0

def dandelionRmdir (P : Platform) (name : List UInt8) : M Int := do
  let current ← findFile P name
  if current = 0 then pure (-(eNOENT : Int))
  else do
    let f ← getFileAt current
    if f.type ≠ .directory then pure (-(eNOTDIR : Int))
    else if f.link ≠ 0 then pure (-(eNOTEMPTY : Int))
    else dandelionUnlink P name

/-- The node is what the caller's `DIR` then refers to. -/
def dandelionOpendir (P : Platform) (name : List UInt8) : M (Int × Ptr) := do
  let current ← findFile P name
  if current = 0 then pure (-(eNOENT : Int), 0)
  else do
    let f ← getFileAt current
    if f.type ≠ .directory then pure (-(eNOTDIR : Int), 0)
    else do
      modifyFile current fun f => { f with openDescriptors := (f.openDescriptors + 1) % 2 ^ 16 }
      pure (0, current)

def dandelionClosedir (dir : Ptr) : M Int := do
  modifyFile dir fun f => { f with openDescriptors := (f.openDescriptors + (2 ^ 16 - 1)) % 2 ^ 16 }
  freeData dir

end Dandelion.FileSystem
