import Mathlib.Logic.Function.Basic
import Dandelion.Foundation.Words
import Dandelion.FileSystem.Paths

/-! # The objects of the file system

Memory holds nodes, chunks and byte blocks by address. Only finitely many
addresses are in use, and an address is used by what was last allocated there.
Following a null or stale pointer, or passing to `dandelion_free` what is not a
live allocation, ends a call with a fault.
-/

namespace Dandelion.FileSystem

abbrev Ptr := Nat

def fsChunkSize : Nat := 4096

@[irreducible]
def fsMaxFiles : Nat := 1024

inductive FileType where
  | file
  | directory
  | device
  | unknown
  deriving DecidableEq

/-- A node. `link` is the union of `content`, `child` and `device`. -/
structure DFile where
  name : List UInt8
  next : Ptr
  parent : Ptr
  type : FileType
  link : Ptr
  hardLinks : Nat
  openDescriptors : Nat
  mode : Nat
  deriving DecidableEq

structure FileChunk where
  data : Ptr
  capacity : Nat
  used : Nat
  next : Ptr
  deriving DecidableEq

/-- Bytes that the code reaches through a pointer. A foreign block belongs to the
platform, the others come from `dandelion_alloc`. -/
structure Block where
  size : Nat
  bytes : Nat → UInt8
  foreign : Bool

structure OpenFile where
  file : Ptr
  currentChunk : Ptr
  offset : Nat
  openFlags : Nat
  deriving DecidableEq

/-- A little-endian number of `count` bytes. -/
def wordAt (bytes : Nat → UInt8) (offset : Nat) : Nat → Nat
  | 0 => 0
  | count + 1 => (bytes offset).toNat + 256 * wordAt bytes (offset + 1) count

/-- What the bytes of a fresh block mean as a node, by the layout of the struct. -/
def DFile.ofBytes (bytes : Nat → UInt8) : DFile where
  name := (List.range fsNameLength).map bytes
  next := wordAt bytes 64 8
  parent := wordAt bytes 72 8
  type :=
    match wordAt bytes 80 4 with
    | 0 => .file
    | 1 => .directory
    | 2 => .device
    | _ => .unknown
  link := wordAt bytes 88 8
  hardLinks := wordAt bytes 96 2
  openDescriptors := wordAt bytes 98 2
  mode := wordAt bytes 100 4

/-- The static nodes and the static device lie below every allocation. -/
def fsRoot : Ptr := 1
def stdioFolder : Ptr := 2
def deviceFolder : Ptr := 3
def urandomFile : Ptr := 4
def urandomDevice : Ptr := 5
def staticEnd : Ptr := 16

structure Memory where
  files : Ptr → Option DFile
  chunks : Ptr → Option FileChunk
  blocks : Ptr → Option Block
  limit : Nat
  bounded : ∀ p, limit ≤ p → files p = none ∧ chunks p = none ∧ blocks p = none

def Memory.Vacant (m : Memory) (p : Ptr) : Prop :=
  staticEnd ≤ p ∧ m.files p = none ∧ m.chunks p = none ∧ m.blocks p = none

def Memory.setFile (m : Memory) (p : Ptr) (f : DFile) : Memory where
  files := Function.update m.files p (some f)
  chunks := m.chunks
  blocks := m.blocks
  limit := max m.limit (p + 1)
  bounded q hq := by
    obtain ⟨hFile, hChunk, hBlock⟩ := m.bounded q (by omega)
    exact ⟨by rw [Function.update_of_ne (show q ≠ p by omega), hFile], hChunk, hBlock⟩

def Memory.setChunk (m : Memory) (p : Ptr) (c : FileChunk) : Memory where
  files := m.files
  chunks := Function.update m.chunks p (some c)
  blocks := m.blocks
  limit := max m.limit (p + 1)
  bounded q hq := by
    obtain ⟨hFile, hChunk, hBlock⟩ := m.bounded q (by omega)
    exact ⟨hFile, by rw [Function.update_of_ne (show q ≠ p by omega), hChunk], hBlock⟩

def Memory.setBlock (m : Memory) (p : Ptr) (b : Block) : Memory where
  files := m.files
  chunks := m.chunks
  blocks := Function.update m.blocks p (some b)
  limit := max m.limit (p + 1)
  bounded q hq := by
    obtain ⟨hFile, hChunk, hBlock⟩ := m.bounded q (by omega)
    exact ⟨hFile, hChunk, by rw [Function.update_of_ne (show q ≠ p by omega), hBlock]⟩

def Memory.drop (m : Memory) (p : Ptr) : Memory where
  files := Function.update m.files p none
  chunks := Function.update m.chunks p none
  blocks := Function.update m.blocks p none
  limit := m.limit
  bounded q hq := by
    obtain ⟨hFile, hChunk, hBlock⟩ := m.bounded q hq
    by_cases h : q = p
    · subst h
      simp only [Function.update_self, and_self]
    · simp only [Function.update_of_ne h]
      exact ⟨hFile, hChunk, hBlock⟩

/-- The address is a live pointer that `dandelion_alloc` returned. -/
def Memory.allocated (m : Memory) (p : Ptr) : Bool :=
  (m.files p).isSome && decide (staticEnd ≤ p) || (m.chunks p).isSome || (m.blocks p).any
    fun b => !b.foreign

/-- A block from `dandelion_alloc`, with whatever bytes it happens to hold. -/
structure Grant where
  ptr : Ptr
  bytes : Nat → UInt8

/-- What the platform and the runtime decide: the order of names, random bytes, and
the answers of `dandelion_alloc`, given how many requests came before. -/
structure Platform where
  signedChar : Bool
  entropy : Nat → UInt8
  answer : Memory → Nat → Nat → Nat → Option Grant
  vacant : ∀ m count size alignment g, answer m count size alignment = some g → m.Vacant g.ptr
  empty : ∀ m count alignment, answer m count 0 alignment = none

/-- A platform with signed characters that never reuses an address and fills every
block with the same byte. -/
def Platform.bump (fill : UInt8) : Platform where
  signedChar := true
  entropy _ := 0
  answer m _ size _ := if size = 0 then none else some ⟨max m.limit staticEnd, fun _ => fill⟩
  vacant m _ size _ g h := by
    split at h
    · cases h
    · obtain rfl := Option.some.inj h
      exact ⟨Nat.le_max_right _ _, m.bounded _ (Nat.le_max_left _ _)⟩
  empty _ _ _ := rfl

structure State where
  memory : Memory
  openFiles : Nat → OpenFile
  requests : Nat

inductive Fault where
  | null
  | invalid
  | bounds
  | badFree (p : Ptr)
  | exit (code : Nat)
  | diverge
  deriving DecidableEq

abbrev M := StateT State (Except Fault)

def fail {α : Type} (f : Fault) : M α := fun _ => .error f

def getMemory : M Memory := fun s => .ok (s.memory, s)

def setMemory (m : Memory) : M Unit := fun s => .ok ((), { s with memory := m })

def readAt {α : Type} (table : Memory → Ptr → Option α) (p : Ptr) : M α := fun s =>
  if p = 0 then .error .null
  else
    match table s.memory p with
    | none => .error .invalid
    | some x => .ok (x, s)

def getFileAt (p : Ptr) : M DFile := readAt Memory.files p
def getChunkAt (p : Ptr) : M FileChunk := readAt Memory.chunks p
def getBlockAt (p : Ptr) : M Block := readAt Memory.blocks p

def modifyFile (p : Ptr) (g : DFile → DFile) : M Unit := do
  let f ← getFileAt p
  let m ← getMemory
  setMemory (m.setFile p (g f))

def modifyChunk (p : Ptr) (g : FileChunk → FileChunk) : M Unit := do
  let c ← getChunkAt p
  let m ← getMemory
  setMemory (m.setChunk p (g c))

/-- Ask `dandelion_alloc`; the caller's type says what kind of object to place. -/
def dandelionAlloc (P : Platform) (size alignment : Nat)
    (place : Memory → Ptr → (Nat → UInt8) → Memory) :
    M Ptr := fun s =>
  match P.answer s.memory s.requests size alignment with
  | none => .ok (0, { s with requests := s.requests + 1 })
  | some g =>
    .ok (g.ptr, { s with memory := place s.memory g.ptr g.bytes, requests := s.requests + 1 })

def sizeofFile : Nat := 104
def sizeofChunk : Nat := 32

def allocFile (P : Platform) : M Ptr :=
  dandelionAlloc P sizeofFile 8 fun m p bytes => m.setFile p (.ofBytes bytes)

def allocChunk (P : Platform) : M Ptr :=
  dandelionAlloc P sizeofChunk 8 fun m p bytes =>
    m.setChunk p ⟨wordAt bytes 0 8, wordAt bytes 8 8, wordAt bytes 16 8, wordAt bytes 24 8⟩

/-- `dandelion_alloc` hands out whole words. -/
def allocBlock (P : Platform) (size alignment : Nat) : M Ptr :=
  dandelionAlloc P size alignment fun m p bytes => m.setBlock p ⟨(size + 7) / 8 * 8, bytes, false⟩

def dandelionFree (p : Ptr) : M Unit := fun s =>
  if s.memory.allocated p then .ok ((), { s with memory := s.memory.drop p })
    else .error (.badFree p)

/-- `memcpy` into a block; nothing is touched when there is nothing to copy. -/
def storeBytes (p : Ptr) (offset : Nat) (bytes : List UInt8) : M Unit :=
  if bytes = [] then pure ()
  else do
    let b ← getBlockAt p
    if offset + bytes.length ≤ b.size then do
      let m ← getMemory
      setMemory (m.setBlock p { b with
        bytes := fun i => if offset ≤ i ∧ i < offset + bytes.length then bytes.getD (i - offset) 0
          else b.bytes i })
    else fail .bounds

def loadBytes (p : Ptr) (offset count : Nat) : M (List UInt8) :=
  if count = 0 then pure []
  else do
    let b ← getBlockAt p
    if offset + count ≤ b.size then pure ((List.range count).map fun i => b.bytes (offset + i))
    else fail .bounds

/-- The entry of the descriptor table; any other index lies outside the array. -/
def getOpenFile (fd : Int) : M OpenFile := fun s =>
  if 0 ≤ fd ∧ fd < fsMaxFiles then .ok (s.openFiles fd.toNat, s) else .error .bounds

def setOpenFile (fd : Int) (o : OpenFile) : M Unit := fun s =>
  if 0 ≤ fd ∧ fd < fsMaxFiles then .ok ((),
    { s with openFiles := Function.update s.openFiles fd.toNat o })
  else .error .bounds

/-- How many steps a walk over distinct objects can take. -/
def steps : M Nat := fun s => .ok (s.memory.limit + 1, s)

end Dandelion.FileSystem
