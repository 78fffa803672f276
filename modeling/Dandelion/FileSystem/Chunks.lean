import Dandelion.FileSystem.Nodes

/-! # Reading, writing and moving in files

The calls on the chunk list of a regular file. The code mixes `size_t`, `int`
and `int64_t`; conversions between them are written out.
-/

namespace Dandelion.FileSystem

open Foundation.Words

def useOffset : Nat := 1
def moveOffset : Nat := 2

def seekSet : Nat := 0
def seekCur : Nat := 1
def seekEnd : Nat := 2

def chunkSize (size : Nat) : Nat :=
  mul64 (sub64 (add64 size fsChunkSize) 1 / fsChunkSize) fsChunkSize

def allocateFileChunk (P : Platform) (size : Nat) : M Ptr := do
  let newBuffer ← allocBlock P (chunkSize size) 16
  if newBuffer = 0 then pure 0
  else do
    let newChunk ← allocChunk P
    if newChunk = 0 then do
      dandelionFree newBuffer
      pure 0
    else do
      modifyChunk newChunk fun _ => ⟨newBuffer, chunkSize size, 0, 0⟩
      pure newChunk

/-- What a call stored into the buffer of its caller. -/
abbrev Stores := Int → Option UInt8

def Stores.put (stores : Stores) (start : Int) (bytes : List UInt8) : Stores := fun i =>
  if start ≤ i ∧ i < start + bytes.length then some (bytes.getD (i - start).toNat 0) else stores i

/-- The walk of `dandelion_read` to a given offset; past the end there is nothing to read. -/
def readSeek : Nat → Nat → Ptr → M (Option (Ptr × Nat))
  | 0, _, _ => fail .diverge
  | fuel + 1, offset, current =>
    if offset = 0 then pure (some (current, 0))
    else if current = 0 then pure none
    else do
      let c ← getChunkAt current
      if c.used < offset then readSeek fuel (offset - c.used) c.next
        else pure (some (current, offset))

/-- The copy loop. `needToRead` stays what it is while chunks are used up. -/
def readLoop (needToRead : Int) : Nat → Int → Stores → Ptr → Nat → M (Int × Stores × Ptr × Nat)
  | 0, _, _, _, _ => fail .diverge
  | fuel + 1, readBytes, stores, current, chunkOffset => do
    let c ← getChunkAt current
    let readable := sub64 c.used chunkOffset
    if readable > toSize needToRead then do
      let bytes ← loadBytes c.data chunkOffset (toSize needToRead)
      pure (toInt32 (readBytes + needToRead), stores.put readBytes bytes, current,
        add64 chunkOffset (toSize needToRead))
    else do
      let bytes ← loadBytes c.data chunkOffset readable
      if c.next ≠ 0 then
        readLoop needToRead fuel (toInt32 (readBytes + readable))
          (stores.put readBytes bytes) c.next 0
      else
        pure (toInt32 (readBytes + readable), stores.put readBytes bytes, current,
          add64 chunkOffset readable)

/-- Read on from a place in the chunk list and move the descriptor if asked to. -/
def readFrom (fd : Int) (o : OpenFile) (len options : Nat) (current : Ptr) (chunkOffset : Nat) :
    M (Int × Stores) := do
  let fuel ← steps
  let (readBytes, stores, current, chunkOffset) ←
    readLoop (toInt32 len) fuel 0 (fun _ => none) current chunkOffset
  if hasBit options moveOffset then do
    setOpenFile fd { o with currentChunk := current, offset := chunkOffset }
    pure (readBytes, stores)
  else pure (readBytes, stores)

/-- Read at an offset once the walk has looked for it. -/
def readPlace (fd : Int) (o : OpenFile) (len options : Nat) : Option (Ptr × Nat) → M (Int × Stores)
  | none => pure (0, fun _ => none)
  | some place => readFrom fd o len options place.1 place.2

/-- The result and what was stored into the caller's buffer. The random device fills
the buffer with bytes that are not determined here. -/
def dandelionRead (P : Platform) (fd : Int) (len : Nat) (offset : Int) (options : Nat) :
    M (Int × Stores) := do
  let o ← getOpenFile fd
  if o.file = 0 ∨ hasBit o.openFlags oWRONLY then pure (-(eBADF : Int), fun _ => none)
  else do
    let f ← getFileAt o.file
    if f.type = .device then
      pure (len, Stores.put (fun _ => none) 0 ((List.range len).map P.entropy))
    else if f.type ≠ .file then pure (-(eINVAL : Int), fun _ => none)
    else if len = 0 then pure (0, fun _ => none)
    else if hasBit options useOffset then
      if offset < 0 then pure (-(eINVAL : Int), fun _ => none)
      else do
        let fuel ← steps
        let place ← readSeek fuel offset.toNat f.link
        readPlace fd o len options place
    else if o.currentChunk = 0 then
      if f.link ≠ 0 then do
        setOpenFile fd { o with currentChunk := f.link, offset := 0 }
        readFrom fd { o with currentChunk := f.link, offset := 0 } len options f.link 0
      else do
        setOpenFile fd { o with offset := 0 }
        pure (0, fun _ => none)
    else readFrom fd o len options o.currentChunk o.offset

/-- The walk of `dandelion_write` to a given offset, by capacity; `none` when memory is
exhausted. -/
def writeSeek (P : Platform) (len : Nat) : Nat → Int → Ptr → M (Option (Ptr × Nat))
  | 0, _, _ => fail .diverge
  | fuel + 1, offset, current =>
    if offset ≤ 0 then pure (some (current, 0))
    else do
      let c ← getChunkAt current
      if toSize offset < c.capacity then do
        modifyChunk current fun c =>
          { c with used := if toSize offset > c.used then toSize offset else c.used }
        pure (some (current, toSize offset))
      else if c.next = 0 then do
        let newChunk ← allocateFileChunk P (add64 (toSize (offset - c.capacity)) len)
        if newChunk = 0 then pure none
        else do
          modifyChunk current fun c => { c with next := newChunk }
          modifyChunk newChunk fun n => { n with used := toSize (offset - c.capacity) }
          pure (some (newChunk, toSize (offset - c.capacity)))
      else writeSeek P len fuel (offset - c.capacity) c.next

/-- Where `dandelion_write` starts: the chunk and the offset it later stores in the descriptor. -/
def writeStart (P : Platform) (o : OpenFile) (f : DFile) (len : Nat) (offset : Int)
    (options : Nat) :
    M (Option (Ptr × Nat)) :=
  if f.link = 0 then do
    let newChunk ← allocateFileChunk P
        (if hasBit options useOffset then toSize (offset + len) else len)
    modifyFile o.file fun f => { f with link := newChunk }
    pure (some (newChunk, 0))
  else if hasBit options useOffset then do
    let fuel ← steps
    writeSeek P len fuel offset f.link
  else pure (some (if o.currentChunk = 0 then f.link else o.currentChunk, 0))

def lastChunk : Nat → Ptr → M Ptr
  | 0, _ => fail .diverge
  | fuel + 1, current => do
    let c ← getChunkAt current
    if c.next ≠ 0 then lastChunk fuel c.next else pure current

/-- Copy as much as `writeable` admits to the end of the chunk. -/
def writePart (current : Ptr) (bytes : List UInt8) (toWrite : Nat) : M Unit := do
  let c ← getChunkAt current
  storeBytes c.data c.used (bytes.take toWrite)
  modifyChunk current fun c => { c with used := add64 c.used toWrite }

/-- The copy loop of `dandelion_write`; the chunk it ends in. Every round copies
something unless the room left is a multiple of two to the thirty-two. -/
def writeLoop (P : Platform) : Nat → List UInt8 → Ptr → M Ptr
  | 0, bytes, current => if bytes = [] then pure current else fail .diverge
  | fuel + 1, bytes, current =>
    if bytes = [] then pure current
    else do
      let c ← getChunkAt current
      if toInt32 (sub64 c.capacity c.used) = 0 then do
        let newChunk ← allocateFileChunk P bytes.length
        modifyChunk current fun c => { c with next := newChunk }
        let n ← getChunkAt newChunk
        let toWrite := min bytes.length (toSize (toInt32 n.capacity))
        writePart newChunk bytes toWrite
        writeLoop P fuel (bytes.drop toWrite) newChunk
      else do
        let toWrite := min bytes.length (toSize (toInt32 (sub64 c.capacity c.used)))
        writePart current bytes toWrite
        writeLoop P fuel (bytes.drop toWrite) current

def writeFrom (P : Platform) (fd : Int) (bytes : List UInt8) (options : Nat) (current : Ptr)
    (chunkOffset : Nat) :
    M Int := do
  let current ← writeLoop P bytes.length bytes current
  if hasBit options moveOffset then do
    let o ← getOpenFile fd
    setOpenFile fd { o with currentChunk := current, offset := chunkOffset }
    pure bytes.length
  else pure bytes.length

/-- Write from the start that was found. A descriptor opened for appending is moved to
the end of the file first, but the copy starts where it was going to. -/
def writePlace (P : Platform) (fd : Int) (o : OpenFile) (bytes : List UInt8) (options : Nat) :
    Option (Ptr × Nat) → M Int
  | none => pure (-(eNOMEM : Int))
  | some start =>
    if hasBit o.openFlags oAPPEND ∧ ¬ hasBit options useOffset then do
      let fuel ← steps
      let last ← lastChunk fuel o.currentChunk
      let c ← getChunkAt last
      setOpenFile fd { o with currentChunk := last, offset := c.used }
      writeFrom P fd bytes options start.1 start.2
    else writeFrom P fd bytes options start.1 start.2

def dandelionWrite (P : Platform) (fd : Int) (bytes : List UInt8) (offset : Int) (options : Nat) :
    M Int := do
  let o ← getOpenFile fd
  if o.file = 0 ∨ hasBit o.openFlags oRDONLY then pure (-(eBADF : Int))
  else do
    let f ← getFileAt o.file
    if f.type = .device then pure 0
    else if f.type ≠ .file then pure (-(eINVAL : Int))
    else do
      let start ← writeStart P o f bytes.length offset options
      writePlace P fd o bytes options start

/-- Where a seek starts from: the chunk, the offset in it and the total offset. -/
def seekCurrent (target : Ptr) (targetOffset : Nat) : Nat → Int → Ptr → M (Nat × Int)
  | 0, _, _ => fail .diverge
  | fuel + 1, total, chunk =>
    if chunk = 0 then pure (0, total)
    else do
      let c ← getChunkAt chunk
      if chunk ≠ target then seekCurrent target targetOffset fuel (toInt32 (total + c.used)) c.next
      else pure (targetOffset, toInt32 (total + targetOffset))

def seekLast : Nat → Int → Ptr → M (Ptr × Int)
  | 0, _, _ => fail .diverge
  | fuel + 1, total, current => do
    let c ← getChunkAt current
    if c.next = 0 then pure (current, toInt32 (total + c.used))
    else seekLast fuel (toInt32 (total + c.used)) c.next

/-- The chunk and offset of a position that lies inside the file. -/
def seekBack : Nat → Nat → Ptr → M (Ptr × Nat)
  | 0, _, _ => fail .diverge
  | fuel + 1, needed, current => do
    let c ← getChunkAt current
    if c.used < needed then seekBack fuel (needed - c.used) c.next else pure (current, needed)

/-- Advance chunk by chunk: the chunk, the room in it, what is left to go and the total. -/
def seekForward : Nat → Nat → Nat → Int → Ptr → Nat → M (Ptr × Nat × Nat × Nat × Int)
  | 0, _, _, _, _, _ => fail .diverge
  | fuel + 1, toAdvance, offset, total, current, chunkOffset => do
    let c ← getChunkAt current
    if toAdvance < offset ∧ c.next ≠ 0 then do
      let n ← getChunkAt c.next
      seekForward fuel n.used (offset - toAdvance) (toInt32 (total + toAdvance)) c.next 0
    else pure (current, chunkOffset, toAdvance, offset, total)

/-- Hang a new chunk behind the last one, or make it the first of an empty file. -/
def attachChunk (file current newChunk : Ptr) : M Unit :=
  if current = 0 then modifyFile file fun f => { f with link := newChunk }
  else modifyChunk current fun c => { c with next := newChunk }

/-- Append a gap after the last chunk, or finish inside the file. -/
def seekFinish (P : Platform) (fd : Int) (o : OpenFile) (current : Ptr) (chunkOffset offset : Nat)
    (total : Int) :
    M Int :=
  if offset = 0 then do
    setOpenFile fd { o with currentChunk := current, offset := chunkOffset }
    pure total
  else do
    let newChunk ← allocateFileChunk P offset
    if newChunk = 0 then pure (-(eNOMEM : Int))
    else do
      modifyChunk newChunk fun c => { c with used := offset }
      attachChunk o.file current newChunk
      setOpenFile fd { o with currentChunk := newChunk, offset := offset }
      pure (total + offset)

/-- The second phase of a seek, from a place in the file. -/
def seekFrom (P : Platform) (fd : Int) (o : OpenFile) (f : DFile) (offset : Int) (current : Ptr)
    (chunkOffset : Nat) (total : Int) : M Int :=
  if offset < 0 then
    if current = 0 ∨ total + offset < 0 then pure (-(eINVAL : Int))
    else do
      let fuel ← steps
      let (chunk, inside) ← seekBack fuel (toSize (toInt32 (total + offset))) f.link
      setOpenFile fd { o with currentChunk := chunk, offset := inside }
      pure (toInt32 (total + offset))
  else if current ≠ 0 then do
    let c ← getChunkAt current
    let fuel ← steps
    let (chunk, inside, toAdvance, left, total) ←
      seekForward fuel (sub64 c.used chunkOffset) offset.toNat total current chunkOffset
    let advance := if toAdvance ≥ left then left else toAdvance
    seekFinish P fd o chunk (add64 inside advance) (left - advance) (toInt32 (total + advance))
  else seekFinish P fd o 0 chunkOffset offset.toNat total

def dandelionLseek (P : Platform) (fd : Int) (offset : Int) (whence : Nat) : M Int := do
  let o ← getOpenFile fd
  if o.file = 0 then pure (-(eBADF : Int))
  else do
    let f ← getFileAt o.file
    if f.type ≠ .file then pure (-(eBADF : Int))
    else if whence = seekSet then seekFrom P fd o f offset f.link 0 0
    else if whence = seekCur then do
      let fuel ← steps
      let current := if o.currentChunk = 0 then f.link else o.currentChunk
      let (chunkOffset, total) ← seekCurrent current o.offset fuel 0 f.link
      seekFrom P fd o f offset current chunkOffset total
    else if whence = seekEnd then do
      let fuel ← steps
      let (current, total) ← seekLast fuel 0 f.link
      let c ← getChunkAt current
      seekFrom P fd o f offset current c.used total
    else pure (-(eINVAL : Int))

def freeCut : Nat → Ptr → M Unit
  | 0, _ => fail .diverge
  | fuel + 1, toFree =>
    if toFree = 0 then pure ()
    else do
      let c ← getChunkAt toFree
      dandelionFree c.data
      dandelionFree toFree
      freeCut fuel c.next

theorem freeCut_eq : freeCut = freeChunksFrom := by
  funext fuel p
  induction fuel generalizing p with
  | zero => rfl
  | succ fuel ih => simp only [freeCut, freeChunksFrom, ih]

/-- The loop of a truncation: cut where the length is reached, or append a gap. -/
def truncateFrom (P : Platform) : Nat → Nat → Ptr → M Int
  | 0, _, _ => fail .diverge
  | fuel + 1, remaining, current => do
    let c ← getChunkAt current
    if c.used ≥ remaining then do
      modifyChunk current fun c => { c with used := remaining }
      let fuel ← steps
      freeCut fuel c.next
      pure 0
    else if c.next = 0 then do
      let newChunk ← allocateFileChunk P (remaining - c.used)
      modifyChunk current fun c => { c with next := newChunk }
      modifyChunk newChunk fun n => { n with used := remaining - c.used }
      pure 0
    else truncateFrom P fuel (remaining - c.used) c.next

/-- `__dandelion_truncate`. -/
def truncateNode (P : Platform) (file : Ptr) (length : Int) : M Int :=
  if length < 0 then pure (-(eINVAL : Int))
  else do
    let f ← getFileAt file
    if f.type ≠ .file then pure (-(eBADF : Int))
    else do
      let fuel ← steps
      truncateFrom P fuel length.toNat f.link

def dandelionFtruncate (P : Platform) (fd : Int) (length : Int) : M Int := do
  let o ← getOpenFile fd
  if o.file = 0 then pure (-(eBADF : Int))
  else if ¬ hasBit o.openFlags oWRONLY then pure (-(eBADF : Int))
  else truncateNode P o.file length

def dandelionTruncate (P : Platform) (path : List UInt8) (length : Int) : M Int := do
  let current ← findFile P path
  if current = 0 then pure (-(eNOENT : Int)) else truncateNode P current length

end Dandelion.FileSystem
