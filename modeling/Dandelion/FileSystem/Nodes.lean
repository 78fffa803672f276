import Dandelion.FileSystem.Memory

/-! # Nodes and directories

The operations of the file system on single nodes: creating and linking them,
finding them by name and path, and releasing what nobody refers to any more.
-/

namespace Dandelion.FileSystem

def sIXUSR : Nat := 0o100
def sIWUSR : Nat := 0o200
def sIRUSR : Nat := 0o400
def sIRWXU : Nat := sIXUSR ||| sIWUSR ||| sIRUSR
def sIFDIR : Nat := 0o040000
def sIFREG : Nat := 0o100000

def oRDONLY : Nat := 0x000
def oWRONLY : Nat := 0x001
def oRDWR : Nat := 0x002
def oAPPEND : Nat := 0x008
def oCREAT : Nat := 0x200
def oTRUNC : Nat := 0x400
def oEXCL : Nat := 0x800
def oACCMODE : Nat := oRDONLY ||| oWRONLY ||| oRDWR

def ePERM : Nat := 1
def eNOENT : Nat := 2
def eBADF : Nat := 9
def eNOMEM : Nat := 12
def eACCES : Nat := 13
def eEXIST : Nat := 17
def eNOTDIR : Nat := 20
def eINVAL : Nat := 22
def eMFILE : Nat := 24
def eMLINK : Nat := 31
def eNAMETOOLONG : Nat := 36
def eNOTEMPTY : Nat := 39

def hasBit (bits mask : Nat) : Bool := (bits &&& mask) != 0

def finishFile (newFile content mode : Nat) : M Ptr := do
  modifyFile newFile fun f => { f with
    link := content
    hardLinks := 0
    openDescriptors := 0
    mode := mode ||| sIFREG }
  pure newFile

def createFile (P : Platform) (name : Path) (content : Ptr) (length mode : Nat) : M Ptr := do
  let newFile ← allocFile P
  if newFile = 0 then pure 0
  else if name.length > fsNameLength then pure 0
  else do
    modifyFile newFile fun f => { f with name := name ++ f.name.drop name.length, type := .file }
    if content ≠ 0 then do
      let newContent ← allocChunk P
      if newContent = 0 then pure 0
      else do
        modifyChunk newContent fun _ => ⟨content, length, length, 0⟩
        finishFile newFile newContent mode
    else finishFile newFile 0 mode

def insertionPoint (P : Platform) (name : List UInt8) : Nat → Ptr → M Ptr
  | 0, _ => fail .diverge
  | fuel + 1, current => do
    let c ← getFileAt current
    if c.next = 0 then pure current
    else do
      let n ← getFileAt c.next
      if namecmp P.signedChar name fsNameLength n.name fsNameLength < 0 then pure current
      else insertionPoint P name fuel c.next

def linkFileToFolder (P : Platform) (folder file : Ptr) : M Int := do
  let d ← getFileAt folder
  if d.type ≠ .directory then pure (-1)
  else do
    modifyFile file fun f => { f with parent := folder, hardLinks := (f.hardLinks + 1) % 2 ^ 16 }
    let d ← getFileAt folder
    if d.link = 0 then do
      modifyFile folder fun d => { d with link := file }
      modifyFile file fun f => { f with next := 0 }
      pure 0
    else do
      let f ← getFileAt file
      let c ← getFileAt d.link
      if namecmp P.signedChar f.name fsNameLength c.name fsNameLength < 0 then do
        modifyFile file fun f => { f with next := d.link }
        modifyFile folder fun d => { d with link := file }
        pure 0
      else do
        let fuel ← steps
        let current ← insertionPoint P f.name fuel d.link
        let c ← getFileAt current
        modifyFile file fun f => { f with next := c.next }
        modifyFile current fun c => { c with next := file }
        pure 0

/-- The scan of a child list, which stops early at the first greater name. -/
def scanChildren (P : Platform) (name : Path) : Nat → Ptr → M Ptr
  | 0, _ => fail .diverge
  | fuel + 1, current =>
    if current = 0 then pure 0
    else do
      let c ← getFileAt current
      let result := namecmp P.signedChar c.name fsNameLength name name.length
      if result = 0 then pure current
      else if result > 0 then pure 0
      else scanChildren P name fuel c.next

def findFileInDir (P : Platform) (directory : Ptr) (name : Path) : M Ptr :=
  if name = [dot] then pure directory
  else if name = [dot, dot] then do
    let d ← getFileAt directory
    pure d.parent
  else do
    let d ← getFileAt directory
    let fuel ← steps
    scanChildren P name fuel d.link

def findFrom (P : Platform) : Ptr → List Path → M Ptr
  | current, [] => pure current
  | current, c :: rest => do
    let d ← getFileAt current
    if d.type ≠ .directory then pure 0
    else do
      let found ← findFileInDir P current c
      if found = 0 then pure 0 else findFrom P found rest

def findFilePath (P : Platform) (path : Path) : M Ptr := findFrom P fsRoot (components path)

/-- The bytes of a string up to its terminator; a string that is too long ends the program. -/
def pathFromString (str : List UInt8) : M Path :=
  if (str.takeWhile (· ≠ 0)).length ≥ fsPathLength then fail (.exit eNAMETOOLONG)
  else pure (str.takeWhile (· ≠ 0))

def findFile (P : Platform) (name : List UInt8) : M Ptr := do
  let path ← pathFromString name
  findFilePath P path

/-- The name of a new directory. The terminator after a name of full length falls
on the first byte of `next`. -/
def DFile.nameDirectory (f : DFile) (name : Path) : DFile :=
  { f with
    type := .directory
    name := (name ++ f.name.drop name.length).set name.length 0
    next := if name.length = fsNameLength then f.next / 256 * 256 else f.next
    link := 0 }

/-- The loop of `create_directories` over the remaining components. -/
def createFrom (P : Platform) (preventUp : Bool) : Ptr → List Path → M Ptr
  | directory, [] => pure directory
  | directory, c :: rest =>
    if c.length > fsNameLength then pure 0
    else if c = [dot] then createFrom P preventUp directory rest
    else if c = [dot, dot] then
      if preventUp then pure 0
      else do
        let d ← getFileAt directory
        if d.parent = 0 then createFrom P preventUp directory rest
        else createFrom P preventUp d.parent rest
    else do
      let candidate ← findFileInDir P directory c
      if candidate ≠ 0 then createFrom P preventUp candidate rest
      else do
        let newDir ← allocFile P
        modifyFile newDir fun f => f.nameDirectory c
        let error ← linkFileToFolder P directory newDir
        if error < 0 then do
          dandelionFree newDir
          pure 0
        else createFrom P preventUp newDir rest

def createDirectories (P : Platform) (directory : Ptr) (path : Path) (preventUp : Bool) :
    M Ptr := do
  let d ← getFileAt directory
  if d.type ≠ .directory then pure 0 else createFrom P preventUp directory (components path)

def freeChunksFrom : Nat → Ptr → M Unit
  | 0, _ => fail .diverge
  | fuel + 1, chunk =>
    if chunk = 0 then pure ()
    else do
      let c ← getChunkAt chunk
      dandelionFree c.data
      dandelionFree chunk
      freeChunksFrom fuel c.next

def freeFileChunks (first : Ptr) : M Unit := do
  let fuel ← steps
  freeChunksFrom fuel first

mutual

/-- `free_data` with a bound on the depth of the recursion. -/
def freeNode : Nat → Ptr → M Int
  | 0, _ => fail .diverge
  | fuel + 1, file => do
    let f ← getFileAt file
    if f.hardLinks ≠ 0 ∨ f.openDescriptors ≠ 0 then pure 0
    else
      match f.type with
      | .directory => do
        freeChildren fuel f.link
        dandelionFree file
        pure 0
      | .file => do
        freeFileChunks f.link
        dandelionFree file
        pure 0
      | .device => do
        dandelionFree file
        pure 0
      | .unknown => pure (-1)

def freeChildren : Nat → Ptr → M Unit
  | 0, _ => fail .diverge
  | fuel + 1, child =>
    if child = 0 then pure ()
    else do
      let _ ← freeNode fuel child
      let c ← getFileAt child
      freeChildren fuel c.next

end

def freeData (file : Ptr) : M Int := do
  let fuel ← steps
  freeNode (2 * fuel) file

/-- The loop of `remove_file`: the child in front of the file, or the last one. -/
def childBefore (file : Ptr) : Nat → Ptr → M Ptr
  | 0, _ => fail .diverge
  | fuel + 1, child => do
    let c ← getFileAt child
    if c.next ≠ 0 ∧ c.next ≠ file then childBefore file fuel c.next else pure child

/-- The list surgery of `remove_file`, which reports whether the file was in the list. -/
def removeEntry (parent file : Ptr) : M Bool := do
  let d ← getFileAt parent
  let f ← getFileAt file
  if d.link = file then do
    modifyFile parent fun d => { d with link := f.next }
    pure true
  else do
    let fuel ← steps
    let child ← childBefore file fuel d.link
    let c ← getFileAt child
    if c.next = file then do
      modifyFile child fun c => { c with next := f.next }
      pure true
    else pure false

def removeFile (file : Ptr) : M Int := do
  let f ← getFileAt file
  if f.parent = 0 then pure (-1)
  else do
    let parent ← getFileAt f.parent
    if parent.type ≠ .directory then pure (-1)
    else do
      let removed ← removeEntry f.parent file
      if removed then do
        modifyFile file fun f => { f with hardLinks := (f.hardLinks + (2 ^ 16 - 1)) % 2 ^ 16 }
        freeData file
      else pure (-1)

def finishOpen (index : Int) (file : Ptr) (accessMode : Nat) : M Int := do
  let f ← getFileAt file
  modifyFile file fun f => { f with openDescriptors := (f.openDescriptors + 1) % 2 ^ 16 }
  setOpenFile index ⟨file, if f.type = .file then f.link else 0, 0, accessMode⟩
  pure 0

/-- Despite its name the last argument asks for the permission checks. -/
def openExistingFile (index : Int) (file : Ptr) (flags : Nat) (skipChecks : Bool) : M Int := do
  let f ← getFileAt file
  let accessMode := flags &&& oACCMODE
  if skipChecks ∧ ¬ hasBit f.mode sIRUSR ∧ hasBit accessMode oRDONLY then pure (-(eACCES : Int))
  else if skipChecks ∧ ¬ hasBit f.mode sIWUSR ∧
    hasBit accessMode oWRONLY then pure (-(eACCES : Int))
  else do
    let accessMode := accessMode ||| (flags &&& oAPPEND)
    if hasBit flags oTRUNC ∧ (hasBit accessMode oWRONLY ∧ hasBit f.mode sIWUSR ∨ skipChecks) ∧
      f.type = .file then do
      freeFileChunks f.link
      modifyFile file fun f => { f with link := 0 }
      finishOpen index file accessMode
    else finishOpen index file accessMode

end Dandelion.FileSystem
