import Dandelion.FileSystem.Chunks

/-! # From input sets to output sets

`fs_initialize` builds the tree from the input sets, `fs_terminate` turns the
tree below each output set into buffers. Both see byte strings of the platform
through pointers and lengths.
-/

namespace Dandelion.FileSystem

structure Item where
  ident : List UInt8
  data : Ptr
  dataLen : Nat

structure InputSet where
  ident : List UInt8
  items : List Item

def stdioName : List UInt8 := [115, 116, 100, 105, 111]
def stdinName : List UInt8 := [115, 116, 100, 105, 110]
def stdoutName : List UInt8 := [115, 116, 100, 111, 117, 116]
def stderrName : List UInt8 := [115, 116, 100, 101, 114, 114]
def argvName : List UInt8 := [97, 114, 103, 118]
def environName : List UInt8 := [101, 110, 118, 105, 114, 111, 110]
def devName : List UInt8 := [100, 101, 118]
def urandomName : List UInt8 := [117, 114, 97, 110, 100, 111, 109]

def sameName (P : Platform) (path name : List UInt8) : Bool :=
  namecmp P.signedChar path path.length name name.length = 0

section Tokenizer

def space : UInt8 := 32

def isQuote (c : UInt8) : Bool := c = 39 ∨ c = 34

def dataAt (data : Ptr) (index : Nat) : M UInt8 := do
  let b ← getBlockAt data
  if index < b.size then pure (b.bytes index) else fail .bounds

def skipSpaces (data : Ptr) (length : Nat) : Nat → Nat → M Nat
  | 0, _ => fail .diverge
  | fuel + 1, index =>
    if index < length then do
      let c ← dataAt data index
      if c = space then skipSpaces data length fuel (index + 1) else pure index
    else pure index

/-- Move to the closing quote, counting the characters in between. -/
def skipQuoted (data : Ptr) (length : Nat) (escape : UInt8) : Nat → Nat → Nat → M (Nat × Nat)
  | 0, _, _ => fail .diverge
  | fuel + 1, index, count =>
    if index < length then do
      let c ← dataAt data index
      if c ≠ escape then skipQuoted data length escape fuel (index + 1) (count + 1)
        else pure (index, count)
    else pure (index, count)

/-- Move over one argument, counting the characters it will have. -/
def skipArgument (data : Ptr) (length : Nat) : Nat → Nat → Nat → M (Nat × Nat)
  | 0, _, _ => fail .diverge
  | fuel + 1, index, count =>
    if index < length then do
      let c ← dataAt data index
      if c = space then pure (index, count)
      else if isQuote c then do
        let r ← skipQuoted data length c (length + 2) (index + 1) count
        skipArgument data length fuel (r.1 + 1) r.2
      else skipArgument data length fuel (index + 1) (count + 1)
    else pure (index, count)

def countArguments (data : Ptr) (length : Nat) : Nat → Nat → Nat → M Nat
  | 0, _, _ => fail .diverge
  | fuel + 1, index, arguments =>
    if index < length then do
      let start ← skipSpaces data length (length + 2) index
      if start ≥ length then pure arguments
      else do
        let r ← skipArgument data length (length + 2) start 0
        countArguments data length fuel r.1 (arguments + 1)
    else pure arguments

def copyQuoted (data target : Ptr) (stop : Nat) (escape : UInt8) : Nat → Nat → Nat → M (Nat × Nat)
  | 0, _, _ => fail .diverge
  | fuel + 1, index, copied =>
    if index < stop then do
      let c ← dataAt data index
      if c ≠ escape then do
        storeBytes target copied [c]
        copyQuoted data target stop escape fuel (index + 1) (copied + 1)
      else pure (index, copied)
    else pure (index, copied)

def copyArgument (data target : Ptr) (stop : Nat) : Nat → Nat → Nat → M Unit
  | 0, _, _ => fail .diverge
  | fuel + 1, index, copied =>
    if index < stop then do
      let c ← dataAt data index
      if isQuote c then do
        let r ← copyQuoted data target stop c (stop + 2) (index + 1) copied
        copyArgument data target stop fuel (r.1 + 1) r.2
      else do
        storeBytes target copied [c]
        copyArgument data target stop fuel (index + 1) (copied + 1)
    else pure ()

def pointerBytes (p : Ptr) : List UInt8 := (List.range 8).map fun i => UInt8.ofNat (p / 256 ^ i)

def fillArguments (P : Platform) (data array : Ptr) (length : Nat) : Nat → Nat → Nat → M Unit
  | 0, _, _ => fail .diverge
  | fuel + 1, index, current =>
    if index < length then do
      let start ← skipSpaces data length (length + 2) index
      if start ≥ length then pure ()
      else do
        let r ← skipArgument data length (length + 2) start 0
        let target ← allocBlock P (r.2 + 1) 1
        storeBytes target r.2 [0]
        copyArgument data target r.1 (length + 2) start 0
        storeBytes array (8 * current) (pointerBytes target)
        fillArguments P data array length fuel r.1 (current + 1)
    else pure ()

/-- The number of entries and the array of strings. -/
def setupCharpparray (P : Platform) (data : Ptr) (length : Nat) : M (Nat × Ptr) :=
  if data = 0 ∨ length = 0 then do
    let _ ← allocBlock P 8 8
    pure (0, 0)
  else do
    let arguments ← countArguments data length (length + 2) 0 0
    let array ← allocBlock P (8 * arguments + 1) 8
    storeBytes array (8 * arguments) (pointerBytes 0)
    fillArguments P data array length (length + 2) 0 0
    pure (arguments, array)

end Tokenizer

section Initialize

/-- What `fs_initialize` hands back besides its error value. -/
structure Arguments where
  argc : Nat
  argv : Ptr
  environ : Ptr

/-- A file of the `stdio` folder that `fs_initialize` creates and opens itself. -/
def createStdio (P : Platform) (fd : Int) (name : Path) (flags mode : Nat) : M Int := do
  let file ← createFile P name 0 0 mode
  if file = 0 then pure (-1)
  else do
    let error ← openExistingFile fd file flags false
    if error ≠ 0 then pure error else linkFileToFolder P stdioFolder file

/-- Items of the `stdio` set that have a meaning of their own. -/
def importStdio (P : Platform) (itemFile : Ptr) (name : Path) (item : Item) (a : Arguments) :
    M (Int × Arguments) := do
  let error ← if sameName P name stdinName then openExistingFile 0 itemFile oRDONLY false
      else pure 0
  if error ≠ 0 then pure (error, a)
  else do
    let a ← if sameName P name argvName then do
        let r ← setupCharpparray P item.data item.dataLen
        pure { a with argc := r.1, argv := r.2 }
      else pure a
    if sameName P name environName then do
      let r ← setupCharpparray P item.data item.dataLen
      pure (0, { a with environ := r.2 })
    else pure (0, a)

def importItem (P : Platform) (setDirectory : Ptr) (isStdio : Bool) (item : Item) (a : Arguments) :
    M (Int × Arguments) :=
  match getFile item.ident with
  | none => pure (0, a)
  | some fileName => do
    let itemDir ← createDirectories P setDirectory (getDirectories item.ident) true
    if itemDir = 0 then pure (-1, a)
    else do
      let itemFile ← createFile P fileName item.data item.dataLen sIRWXU
      if itemFile = 0 then pure (-1, a)
      else do
        let error ← linkFileToFolder P itemDir itemFile
        if error < 0 then pure (-1, a)
        else if isStdio then importStdio P itemFile fileName item a
        else pure (0, a)

def importItems (P : Platform) (setDirectory : Ptr) (isStdio : Bool) :
    List Item → Arguments → M (Int × Arguments)
  | [], a => pure (0, a)
  | item :: rest, a => do
    let r ← importItem P setDirectory isStdio item a
    if r.1 ≠ 0 then pure r else importItems P setDirectory isStdio rest r.2

def importSets (P : Platform) : List InputSet → Arguments → M (Int × Arguments)
  | [], a => pure (0, a)
  | set :: rest, a =>
    if set.ident.length = 0 then importSets P rest a
    else do
      let setDirectory ← createDirectories P fsRoot set.ident true
      if setDirectory = 0 then pure (-1, a)
      else do
        let r ← importItems P setDirectory (sameName P set.ident stdioName) set.items a
        if r.1 ≠ 0 then pure r else importSets P rest r.2

def createOutputSets (P : Platform) : List Path → M Int
  | [] => pure 0
  | ident :: rest =>
    if ident.length = 0 then createOutputSets P rest
    else do
      let setDirectory ← createDirectories P fsRoot ident true
      if setDirectory = 0 then pure (-1) else createOutputSets P rest

/-- An array that holds just the terminating null pointer, unless there is one already. -/
def emptyArray (P : Platform) (array : Ptr) : M Ptr :=
  if array = 0 then do
    let array ← allocBlock P 8 8
    storeBytes array 0 (pointerBytes 0)
    pure array
  else pure array

def finishInitialize (P : Platform) (a : Arguments) : M (Int × Arguments) := do
  let o ← getOpenFile 0
  let error ← if o.file = 0 then createStdio P 0 stdinName oRDONLY sIRUSR else pure 0
  if error ≠ 0 then pure (error, a)
  else do
    let argv ← emptyArray P a.argv
    let environ ← emptyArray P a.environ
    pure (0, { a with argv := argv, environ := environ })

/-- The folders and devices that are always present. -/
def linkStatics (P : Platform) : M Int := do
  let error ← linkFileToFolder P fsRoot deviceFolder
  if error ≠ 0 then pure error
  else do
    let error ← linkFileToFolder P deviceFolder urandomFile
    if error ≠ 0 then pure error else linkFileToFolder P fsRoot stdioFolder

def fsInitialize (P : Platform) (sets : List InputSet) (outputs : List Path) :
    M (Int × Arguments) := do
  let error ← linkStatics P
  if error ≠ 0 then pure (error, ⟨0, 0, 0⟩)
  else do
    let error ← createStdio P 2 stderrName oWRONLY sIWUSR
    if error ≠ 0 then pure (error, ⟨0, 0, 0⟩)
    else do
      let error ← createStdio P 1 stdoutName oWRONLY sIWUSR
      if error ≠ 0 then pure (error, ⟨0, 0, 0⟩)
      else do
        let r ← importSets P sets ⟨0, 0, 0⟩
        if r.1 ≠ 0 then pure r
        else do
          let error ← createOutputSets P outputs
          if error ≠ 0 then pure (error, r.2) else finishInitialize P r.2

def staticNode (name : List UInt8) (type : FileType) (link mode : Nat) : DFile where
  name := name ++ List.replicate (fsNameLength - name.length) 0
  next := 0
  parent := 0
  type := type
  link := link
  hardLinks := 1
  openDescriptors := 0
  mode := mode

def staticFiles (p : Ptr) : Option DFile :=
  if p = fsRoot then some (staticNode [slash] .directory 0 0)
  else if p = stdioFolder then some (staticNode stdioName .directory 0 0)
  else if p = deviceFolder then some (staticNode devName .directory 0 0)
  else if p = urandomFile then some (staticNode urandomName .device urandomDevice sIRUSR)
  else none

/-- The state in which `fs_initialize` is called: static data, and the platform's
buffers, one for every item that has data. -/
structure Boots (sets : List InputSet) (s : State) : Prop where
  files : s.memory.files = staticFiles
  chunks : ∀ p, s.memory.chunks p = none
  blocks : ∀ p b, s.memory.blocks p = some b → b.foreign = true ∧ staticEnd ≤ p
  items : ∀ set ∈ sets, ∀ item ∈ set.items, item.data ≠ 0 →
    ∃ b, s.memory.blocks item.data = some b ∧ item.dataLen ≤ b.size
  apart : ((sets.flatMap fun set => set.items).filter fun item => item.data ≠ 0).Pairwise
    fun a b => a.data ≠ b.data
  openFiles : ∀ i, s.openFiles i = ⟨0, 0, 0, 0⟩

end Initialize

section Terminate

/-- A buffer passed to `dandelion_add_output`, with the index of its set. -/
structure Output where
  set : Nat
  data : Ptr
  dataLen : Nat
  ident : Ptr
  identLen : Nat
  deriving DecidableEq

/-- A new buffer of the given size that starts with the path so far and the name. -/
def prefixedName (P : Platform) (path : Ptr) (length : Nat) (name : List UInt8) (size : Nat) :
    M Ptr := do
  let newBuffer ← allocBlock P size 1
  if newBuffer = 0 then pure 0
  else do
    let bytes ← loadBytes path 0 length
    storeBytes newBuffer 0 bytes
    storeBytes newBuffer length name
    pure newBuffer

def totalSize : Nat → Ptr → Nat → M Nat
  | 0, _, _ => fail .diverge
  | fuel + 1, chunk, total =>
    if chunk = 0 then pure total
    else do
      let c ← getChunkAt chunk
      totalSize fuel c.next (Foundation.Words.add64 total c.used)

def gather (buffer : Ptr) : Nat → Ptr → Nat → M Nat
  | 0, _, _ => fail .diverge
  | fuel + 1, chunk, length =>
    if chunk = 0 then pure length
    else do
      let c ← getChunkAt chunk
      let bytes ← loadBytes c.data 0 c.used
      storeBytes buffer length bytes
      gather buffer fuel c.next (Foundation.Words.add64 length c.used)

def contiguous (P : Platform) (content : Ptr) : M (Ptr × Nat) :=
  if content = 0 then pure (0, 0)
  else do
    let c ← getChunkAt content
    if c.next = 0 then pure (c.data, c.used)
    else do
      let fuel ← steps
      let total ← totalSize fuel content 0
      let buffer ← allocBlock P total 16
      if buffer = 0 then fail (.exit eNOMEM)
      else do
        let fuel ← steps
        let length ← gather buffer fuel content 0
        pure (buffer, length)

mutual

/-- `add_output_from_file` with a bound on the depth of the recursion. -/
def addOutput (P : Platform) (set : Nat) : Nat → Ptr → Ptr → Nat → M (Int × List Output)
  | 0, _, _, _ => fail .diverge
  | fuel + 1, file, path, length => do
    let f ← getFileAt file
    match f.type with
    | .file => do
      let nameLength := namelen f.name fsNameLength
      let newBuffer ← prefixedName P path length (f.name.take nameLength) (length + nameLength)
      if newBuffer = 0 then pure (-1, [])
      else do
        let content ← contiguous P f.link
        pure (0, [⟨set, content.1, content.2, newBuffer, nameLength + length⟩])
    | .directory => do
      let nameLength := namelen f.name fsNameLength
      let newBuffer ← prefixedName P path length (f.name.take nameLength) (length + nameLength + 1)
      if newBuffer = 0 then fail (.exit eNOMEM)
      else do
        storeBytes newBuffer (length + nameLength) [slash]
        let r ← addChildren P set fuel f.link newBuffer (length + nameLength + 1)
        if r.1 ≠ 0 then pure r
        else do
          dandelionFree newBuffer
          pure r
    | .device => pure (-1, [])
    | .unknown => pure (-1, [])

def addChildren (P : Platform) (set : Nat) : Nat → Ptr → Ptr → Nat → M (Int × List Output)
  | 0, _, _, _ => fail .diverge
  | fuel + 1, child, path, length =>
    if child = 0 then pure (0, [])
    else do
      let r ← addOutput P set fuel child path length
      if r.1 ≠ 0 then pure r
      else do
        let c ← getFileAt child
        let rest ← addChildren P set fuel c.next path length
        pure (rest.1, r.2 ++ rest.2)

end

def addOutputFromFile (P : Platform) (file path : Ptr) (length set : Nat) :
    M (Int × List Output) := do
  let fuel ← steps
  addOutput P set (2 * fuel) file path length

/-- Entries of the `stdio` folder that are inputs. -/
def skipped (P : Platform) (setIdent : Path) (name : List UInt8) : Bool :=
  sameName P setIdent stdioName &&
    (namecmp P.signedChar name fsNameLength environName environName.length = 0 ||
      namecmp P.signedChar name fsNameLength argvName argvName.length = 0 ||
      namecmp P.signedChar name fsNameLength stdinName stdinName.length = 0)

/-- The outputs of one set: an entry that fails is passed over. -/
def terminateSet (P : Platform) (setIdent : Path) (set : Nat) : Nat → Ptr → M (List Output)
  | 0, _ => fail .diverge
  | fuel + 1, outFile =>
    if outFile = 0 then pure []
    else do
      let f ← getFileAt outFile
      if skipped P setIdent f.name then terminateSet P setIdent set fuel f.next
      else do
        let r ← addOutputFromFile P outFile 0 0 set
        let f ← getFileAt outFile
        let rest ← terminateSet P setIdent set fuel f.next
        pure (r.2 ++ rest)

def terminateSets (P : Platform) : Nat → List Path → M (List Output)
  | _, [] => pure []
  | set, ident :: rest => do
    let setDirectory ← findFileInDir P fsRoot ident
    if setDirectory = 0 then terminateSets P (set + 1) rest
    else do
      let d ← getFileAt setDirectory
      let fuel ← steps
      let here ← terminateSet P ident set fuel d.link
      let others ← terminateSets P (set + 1) rest
      pure (here ++ others)

def fsTerminate (P : Platform) (outputs : List Path) : M (List Output) := terminateSets P 0 outputs

end Terminate

end Dandelion.FileSystem
