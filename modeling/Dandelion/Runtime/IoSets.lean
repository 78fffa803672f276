import Mathlib.Logic.Function.Basic
import Dandelion.Foundation.Words
import Dandelion.Foundation.Triples

/-! # Input and output sets

The platform describes inputs flatly: one array of sets with offsets, closed by
a sentinel, and one array of buffers. The runtime turns it into a tree of sets,
collects outputs in a second tree and flattens that one at exit.
-/

namespace Dandelion.Runtime.IoSets

open Foundation.Words

abbrev Ptr := Nat

structure IoBuffer where
  ident : Ptr
  identLen : Nat
  data : Ptr
  dataLen : Nat
  key : Nat
  deriving DecidableEq

structure IoSet where
  ident : Ptr
  identLen : Nat
  buffers : Ptr
  buffersLen : Nat
  buffersCap : Nat
  deriving DecidableEq

structure IoSetInfo where
  ident : Ptr
  identLen : Nat
  offset : Nat
  deriving DecidableEq

def sizeofIoBuffer : Nat := 40
def sizeofIoSet : Nat := 40
def sizeofIoSetInfo : Nat := 24

def dandelionOom : Nat := 259

/-- The platform's addresses lie below. -/
def addressSpace : Nat := 2 ^ 48

/-- An array from `dandelion_alloc`: its size in bytes and its cells. -/
structure Block (α : Type) where
  size : Nat
  cell : Nat → α

structure Memory where
  sets : Ptr → Option (Block IoSet)
  buffers : Ptr → Option (Block IoBuffer)
  inUse : Nat

/-- What `dandelion_alloc` answers and what new blocks happen to hold. -/
structure Platform where
  junkSets : Nat → IoSet
  junkBuffers : Nat → IoBuffer
  answer : Memory → Nat → Nat → Option Ptr
  vacant : ∀ m size alignment p, answer m size alignment = some p →
    p ≠ 0 ∧ m.sets p = none ∧ m.buffers p = none
  fits : ∀ m size alignment p, answer m size alignment = some p → m.inUse + size ≤ addressSpace
  empty : ∀ m alignment, answer m 0 alignment = none

/-- The structure shared with the platform. The arrays of sets include the sentinel. -/
structure SystemData where
  exitCode : Nat
  inputSetsLen : Nat
  inputSets : List IoSetInfo
  outputSetsLen : Nat
  outputSets : List IoSetInfo
  inputBufs : List IoBuffer
  outputBufs : Ptr

structure RuntimeData where
  inputSets : Ptr
  outputSets : Ptr

/-- `refused` counts the requests for memory that were answered with a null pointer. -/
structure State where
  sysdata : SystemData
  rtdata : RuntimeData
  memory : Memory
  refused : Nat

inductive FaultKind where
  | null
  | invalid
  | bounds
  | exit (code : Nat)
  deriving DecidableEq

structure Fault where
  kind : FaultKind
  refused : Nat

abbrev M := StateT State (Except Fault)

variable {α : Type}

def fail (kind : FaultKind) : M α := fun s => .error ⟨kind, s.refused⟩

def getState : M State := fun s => .ok (s, s)

def modifyData (g : SystemData → SystemData) : M Unit :=
  fun s => .ok ((), { s with sysdata := g s.sysdata })

def modifyRuntime (g : RuntimeData → RuntimeData) : M Unit :=
  fun s => .ok ((), { s with rtdata := g s.rtdata })

def entry (l : List α) (i : Nat) : M α :=
  match l[i]? with
  | some x => pure x
  | none => fail .bounds

/-- The block behind a pointer, if the cell with the given index lies inside it. -/
def blockAt (table : Memory → Ptr → Option (Block α)) (unit : Nat) (p : Ptr) (i : Nat) :
    M (Block α) := fun s =>
  if p = 0 then .error ⟨.null, s.refused⟩
  else
    match table s.memory p with
    | none => .error ⟨.invalid, s.refused⟩
    | some b => if unit * (i + 1) ≤ b.size then .ok (b, s) else .error ⟨.bounds, s.refused⟩

def getSet (p : Ptr) (i : Nat) : M IoSet := do
  let b ← blockAt Memory.sets sizeofIoSet p i
  pure (b.cell i)

def modifySet (p : Ptr) (i : Nat) (g : IoSet → IoSet) : M Unit := do
  let b ← blockAt Memory.sets sizeofIoSet p i
  fun s => .ok ((), { s with memory := { s.memory with
    sets := Function.update s.memory.sets p
      (some { b with cell := Function.update b.cell i (g (b.cell i)) }) } })

def getBuffer (p : Ptr) (i : Nat) : M IoBuffer := do
  let b ← blockAt Memory.buffers sizeofIoBuffer p i
  pure (b.cell i)

def setBuffer (p : Ptr) (i : Nat) (x : IoBuffer) : M Unit := do
  let b ← blockAt Memory.buffers sizeofIoBuffer p i
  fun s => .ok ((), { s with memory := { s.memory with
    buffers := Function.update s.memory.buffers p
      (some { b with cell := Function.update b.cell i x }) } })

/-- Ask `dandelion_alloc`; an empty request is answered with a null pointer by rule. -/
def dandelionAlloc (P : Platform) (size alignment : Nat) (place : Memory → Ptr → Memory) :
    M Ptr := fun s =>
  match P.answer s.memory size alignment with
  | none => .ok (0, { s with refused := s.refused + if size = 0 then 0 else 1 })
  | some p => .ok (p, { s with memory := { place s.memory p with inUse := s.memory.inUse + size } })

def allocSets (P : Platform) (size : Nat) : M Ptr :=
  dandelionAlloc P size 8 fun m p =>
    { m with sets := Function.update m.sets p (some ⟨size, P.junkSets⟩) }

def allocBuffers (P : Platform) (size : Nat) : M Ptr :=
  dandelionAlloc P size 8 fun m p =>
    { m with buffers := Function.update m.buffers p (some ⟨size, P.junkBuffers⟩) }

/-- The program ends with the exit code for exhausted memory. -/
def outOfMemory : M α := fail (.exit dandelionOom)

section Init

/-- The loop of `dandelion_init` over the buffers of one set, from index `j` on. -/
def decodeBuffers (bufs : List IoBuffer) (buffers : Ptr) (offset : Nat) : Nat → Nat → M Unit
  | 0, _ => pure ()
  | remaining + 1, j => do
    let raw ← entry bufs (add64 offset j)
    setBuffer buffers j ⟨raw.ident, raw.identLen, raw.data, raw.dataLen, raw.key⟩
    decodeBuffers bufs buffers offset remaining (j + 1)

def decodeSet (P : Platform) (d : SystemData) (sets : Ptr) (i : Nat) : M Unit := do
  let info ← entry d.inputSets i
  let next ← entry d.inputSets (i + 1)
  let numBufs := sub64 next.offset info.offset
  modifySet sets i fun x => { x with ident := info.ident, identLen := info.identLen }
  let buffers ← allocBuffers P (mul64 numBufs sizeofIoBuffer)
  modifySet sets i fun x => { x with buffers := buffers }
  if buffers = 0 ∧ numBufs ≠ 0 then outOfMemory
  else do
    modifySet sets i fun x => { x with buffersLen := numBufs, buffersCap := numBufs }
    decodeBuffers d.inputBufs buffers info.offset numBufs 0

def decodeSets (P : Platform) (d : SystemData) (sets : Ptr) : Nat → Nat → M Unit
  | 0, _ => pure ()
  | remaining + 1, i => do
    decodeSet P d sets i
    decodeSets P d sets remaining (i + 1)

def prepareSets (d : SystemData) (sets : Ptr) : Nat → Nat → M Unit
  | 0, _ => pure ()
  | remaining + 1, i => do
    let info ← entry d.outputSets i
    modifySet sets i fun _ => ⟨info.ident, info.identLen, 0, 0, 0⟩
    prepareSets d sets remaining (i + 1)

def dandelionInit (P : Platform) : M Unit := do
  let s ← getState
  let inputSets ← allocSets P (mul64 s.sysdata.inputSetsLen sizeofIoSet)
  modifyRuntime fun r => { r with inputSets := inputSets }
  if inputSets = 0 ∧ s.sysdata.inputSetsLen ≠ 0 then outOfMemory
  else do
    decodeSets P s.sysdata inputSets s.sysdata.inputSetsLen 0
    let outputSets ← allocSets P (mul64 s.sysdata.outputSetsLen sizeofIoSet)
    modifyRuntime fun r => { r with outputSets := outputSets }
    if outputSets = 0 ∧ s.sysdata.outputSetsLen ≠ 0 then outOfMemory
    else prepareSets s.sysdata outputSets s.sysdata.outputSetsLen 0

end Init

section Access

/-- The address of an input buffer: its array and its index, or null. -/
def dandelionGetInput (setIdx bufIdx : Nat) : M (Option (Ptr × Nat)) := do
  let s ← getState
  if setIdx ≥ s.sysdata.inputSetsLen then pure none
  else do
    let set ← getSet s.rtdata.inputSets setIdx
    if bufIdx ≥ set.buffersLen then pure none else pure (some (set.buffers, bufIdx))

def moveBuffers (source target : Ptr) : Nat → Nat → M Unit
  | 0, _ => pure ()
  | remaining + 1, i => do
    let x ← getBuffer source i
    setBuffer target i x
    moveBuffers source target remaining (i + 1)

def grownCap (cap : Nat) : Nat := if mul64 cap 2 = 0 then 1 else mul64 cap 2

def growSet (P : Platform) (sets : Ptr) (i : Nat) (set : IoSet) : M Unit := do
  let newBufs ← allocBuffers P (mul64 (grownCap set.buffersCap) sizeofIoBuffer)
  moveBuffers set.buffers newBufs set.buffersLen 0
  modifySet sets i fun x => { x with buffers := newBufs, buffersCap := grownCap set.buffersCap }

def appendBuffer (sets : Ptr) (i : Nat) (buf : IoBuffer) : M Unit := do
  let set ← getSet sets i
  modifySet sets i fun x => { x with buffersLen := add64 x.buffersLen 1 }
  setBuffer set.buffers set.buffersLen buf

def dandelionAddOutput (P : Platform) (setIdx : Nat) (buf : IoBuffer) : M Unit := do
  let s ← getState
  if setIdx ≥ s.sysdata.outputSetsLen then pure ()
  else do
    let set ← getSet s.rtdata.outputSets setIdx
    if set.buffersLen = set.buffersCap then do
      growSet P s.rtdata.outputSets setIdx set
      appendBuffer s.rtdata.outputSets setIdx buf
    else appendBuffer s.rtdata.outputSets setIdx buf

end Access

section Exit

def countBuffers (sets : Ptr) : Nat → Nat → Nat → M Nat
  | 0, _, total => pure total
  | remaining + 1, i, total => do
    let set ← getSet sets i
    countBuffers sets remaining (i + 1) (add64 total set.buffersLen)

def encodeBuffers (source target : Ptr) (offset : Nat) : Nat → Nat → M Unit
  | 0, _ => pure ()
  | remaining + 1, j => do
    let x ← getBuffer source j
    setBuffer target (add64 offset j) ⟨x.ident, x.identLen, x.data, x.dataLen, x.key⟩
    encodeBuffers source target offset remaining (j + 1)

def setOffset (i offset : Nat) : M Unit := do
  let s ← getState
  let info ← entry s.sysdata.outputSets i
  modifyData fun d => { d with outputSets := d.outputSets.set i { info with offset := offset } }

/-- The loop over the output sets; the offset after the last one. -/
def encodeSets (sets target : Ptr) : Nat → Nat → Nat → M Nat
  | 0, _, offset => pure offset
  | remaining + 1, i, offset => do
    setOffset i offset
    let set ← getSet sets i
    encodeBuffers set.buffers target offset set.buffersLen 0
    encodeSets sets target remaining (i + 1) (add64 offset set.buffersLen)

def dandelionExit (P : Platform) (exitCode : Nat) : M Unit := do
  modifyData fun d => { d with exitCode := exitCode }
  let s ← getState
  let numOutputBufs ← countBuffers s.rtdata.outputSets s.sysdata.outputSetsLen 0 0
  let outputBufs ← allocBuffers P (mul64 numOutputBufs sizeofIoBuffer)
  modifyData fun d => { d with outputBufs := outputBufs }
  if outputBufs = 0 ∧ numOutputBufs ≠ 0 then outOfMemory
  else do
    let last ← encodeSets s.rtdata.outputSets outputBufs s.sysdata.outputSetsLen 0 0
    setOffset s.sysdata.outputSetsLen last

end Exit

end Dandelion.Runtime.IoSets
