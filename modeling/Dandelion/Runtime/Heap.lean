import Dandelion.Foundation.Words

/-! # The runtime heap: `dandelion_sbrk`, `dandelion_alloc`, `dandelion_free`

The allocator sees memory as an array of words relative to `free_root`.
All arithmetic is that of `size_t`, so every index and size wraps at two to
the sixty-four. A word stored by the allocator is also recorded by address.
-/

namespace Dandelion.Runtime.Heap

open Foundation.Words

/-- What the build and the platform fix before the program starts. -/
structure Platform where
  pageSize : Nat
  heapBegin : Nat
  heapEnd : Nat
  debug : Bool

/-- The words of memory by byte address and the static variables of the runtime.
`stored` lists the words the allocator has written; `freeRoot = 0` is `NULL`. -/
structure State where
  memory : Nat → Nat
  stored : List Nat
  allocBase : Nat
  freeRoot : Nat
  lastDescriptor : Nat

inductive Outcome (α : Type) where
  | ret (value : α)
  | exit (code : Nat)
  | diverge
  deriving DecidableEq

def initial (memory : Nat → Nat) : State where
  memory := memory
  stored := []
  allocBase := 0
  freeRoot := 0
  lastDescriptor := 0

def occupiedFlag : Nat := topBit
def maxVal : Nat := maxWord
def allocOverlap : Nat := 257
def allocFreeUnoccupied : Nat := 258

def isOccupied (allocation : Nat) : Bool := (occupiedFlag &&& allocation) != 0
def setOccupied (index : Nat) : Nat := index ||| occupiedFlag
def clearOccupied (descriptor : Nat) : Nat := descriptor &&& (occupiedFlag - 1)

/-- The address of `free_root[i]`. -/
def State.address (s : State) (i : Nat) : Nat := add64 s.freeRoot (mul64 8 i)

def State.get (s : State) (i : Nat) : Nat := s.memory (s.address i)

def State.set (s : State) (i value : Nat) : State :=
  { s with
    memory := Function.update s.memory (s.address i) value
    stored := s.address i :: s.stored }

/-- The difference of two `size_t` pointers, converted to `size_t`. -/
def pointerDiff (p q : Nat) : Nat := ((((p : Int) - q) / 8) % 2 ^ 64).toNat

/-- What a size lacks to the next multiple of the size of a pointer. -/
def rounding (n : Nat) : Nat := if n % 8 = 0 then 0 else 8 - n % 8

/-- The lower end of the unused heap, set up on first use. -/
def sbrkBase (P : Platform) (s : State) : Nat :=
  if s.allocBase = 0 then add64 P.heapBegin (rounding P.heapBegin) else s.allocBase

def dandelionSbrk (P : Platform) (s : State) (size : Nat) : Nat × State :=
  let base := sbrkBase P s
  if add64 base size > P.heapEnd then (0, { s with allocBase := base })
  else (base, { s with allocBase := add64 (add64 base size) (rounding size) })

def getSbrkSize (P : Platform) (size alignment : Nat) : Nat :=
  mul64 (sub64 (add64 (add64 (add64 (mul64 size 8) (mul64 4 8)) alignment) P.pageSize) 1 /
    P.pageSize)
    P.pageSize

def localSize (size : Nat) : Nat := sub64 (add64 size 8) 1 / 8

def localAlignment (alignment : Nat) : Nat :=
  let words := sub64 (add64 alignment 8) 1 / 8
  if words = 0 then 1 else words

/-- How many indices to skip so that the word after the start descriptor is aligned. -/
def skipIndices (alignment start : Nat) : Nat :=
  let indexMod := add64 start 1 % alignment
  if indexMod = 0 then 0 else sub64 alignment indexMod

/-- First use: one region from `dandelion_sbrk` holding a single free slab. -/
def openHeap (P : Platform) (s : State) (size alignment : Nat) : Bool × State :=
  if s.freeRoot = 0 then
    let allocationSize := getSbrkSize P size alignment
    let sbrk := dandelionSbrk P s allocationSize
    let s := { sbrk.2 with freeRoot := sbrk.1 }
    if sbrk.1 = 0 then (false, s)
    else
      let indices := allocationSize / 8
      let s := s.set 0 (sub64 indices 2)
      let s := s.set (sub64 indices 2) 0
      let s := s.set (sub64 indices 1) maxVal
      (true, { s with lastDescriptor := sub64 indices 1 })
  else (true, s)

/-- The words left in a free slab after alignment; the subtraction may wrap. -/
def potentialSize (alignment current endIndex : Nat) : Nat :=
  sub64 (sub64 endIndex (add64 current (skipIndices alignment current))) 1

/-- The best-fit search. A search of more steps than there are indices repeats an
index and never ends, so running out of `fuel = 2 ^ 64` is divergence. -/
def searchFit (s : State) (size alignment : Nat) : Nat → Nat → Nat → Nat → Option (Nat × Nat)
  | 0, _, _, _ => none
  | fuel + 1, smallest, smallestSize, current =>
    let descriptor := s.get current
    if descriptor = maxVal then some (smallest, smallestSize)
    else
      let endIndex := clearOccupied descriptor
      if isOccupied descriptor then
        searchFit s size alignment fuel smallest smallestSize (add64 endIndex 1)
      else
        let potential := potentialSize alignment current endIndex
        if size ≤ potential ∧ potential < smallestSize then
          searchFit s size alignment fuel current potential (add64 endIndex 1)
        else
          searchFit s size alignment fuel smallest smallestSize (add64 endIndex 1)

/-- A new region that starts right after the last descriptor. -/
def growContiguous (s : State) (newSize : Nat) : Nat × State :=
  let last := s.lastDescriptor
  let newLast := add64 last newSize
  let s := s.set newLast maxVal
  let before := s.get (sub64 last 1)
  let smallest := if isOccupied before then last else before
  let s := s.set smallest (sub64 newLast 1)
  let s := s.set (sub64 newLast 1) smallest
  (smallest, { s with lastDescriptor := newLast })

/-- A new region elsewhere: the space up to it becomes an occupied skip slab. -/
def growSkipping (s : State) (newAllocation newSize : Nat) : Nat × State :=
  let last := s.lastDescriptor
  let skipEnd := pointerDiff newAllocation s.freeRoot
  let s := s.set last (setOccupied skipEnd)
  let s := s.set skipEnd (setOccupied last)
  let newLast := sub64 (add64 skipEnd newSize) 1
  let s := s.set (add64 skipEnd 1) (sub64 newLast 1)
  let s := s.set (sub64 newLast 1) (add64 skipEnd 1)
  let s := s.set newLast maxVal
  (add64 skipEnd 1, { s with lastDescriptor := newLast })

/-- Ask for more space; the start of the slab that now should hold the request. -/
def growHeap (P : Platform) (s : State) (size alignment : Nat) : Option Nat × State :=
  let allocationSize := getSbrkSize P size alignment
  let sbrk := dandelionSbrk P s allocationSize
  let s := sbrk.2
  if sbrk.1 = 0 then (none, s)
  else
    let newSize := allocationSize / 8
    let grown :=
      if sbrk.1 = s.address (add64 s.lastDescriptor 1) then growContiguous s newSize
      else growSkipping s sbrk.1 newSize
    (some grown.1, grown.2)

/-- The indices skipped for alignment become a free slab or join the slab before. -/
def splitFront (s : State) (start skip : Nat) : State :=
  let actualStart := add64 start skip
  if skip = 0 then s
  else if skip < 3 then
    if start ≠ 0 then
      let previousStart := clearOccupied (s.get (sub64 start 1))
      let s := s.set previousStart (setOccupied (sub64 actualStart 1))
      s.set (sub64 actualStart 1) (setOccupied previousStart)
    else
      let s := s.set 0 (sub64 actualStart 1)
      s.set (sub64 actualStart 1) 0
  else
    let s := s.set start (sub64 actualStart 1)
    s.set (sub64 actualStart 1) start

/-- Mark the chosen indices as occupied and return the first word after the descriptor. -/
def occupy (s : State) (actualStart actualEnd : Nat) : Outcome Nat × State :=
  let s := s.set actualStart (setOccupied actualEnd)
  let s := s.set actualEnd (setOccupied actualStart)
  (.ret (s.address (add64 actualStart 1)), s)

def placeBlock (s : State) (smallest size alignment : Nat) : Outcome Nat × State :=
  let start := smallest
  let stop := s.get start
  let skip := skipIndices alignment start
  let actualStart := add64 start skip
  let s := splitFront s start skip
  let actualEnd := add64 (add64 actualStart size) 1
  if stop < actualEnd then (.exit skip, s)
  else if stop > add64 actualEnd 2 then
    let s := s.set (add64 actualEnd 1) stop
    let s := s.set stop (add64 actualEnd 1)
    occupy s actualStart actualEnd
  else occupy s actualStart stop

/-- The part of `dandelion_alloc` after the heap is known to be set up. -/
def allocWords (P : Platform) (s : State) (size alignment : Nat) : Outcome Nat × State :=
  match searchFit s size alignment (2 ^ 64) maxVal maxVal 0 with
  | none => (.diverge, s)
  | some (smallest, smallestSize) =>
    if smallestSize = maxVal then
      match growHeap P s size alignment with
      | (none, s) => (.ret 0, s)
      | (some smallest, s) => placeBlock s smallest size alignment
    else placeBlock s smallest size alignment

def dandelionAlloc (P : Platform) (s : State) (size alignment : Nat) : Outcome Nat × State :=
  if isOccupied size then (.ret 0, s)
  else if size = 0 then (.ret 0, s)
  else
    match openHeap P s (localSize size) (localAlignment alignment) with
    | (false, s) => (.ret 0, s)
    | (true, s) => allocWords P s (localSize size) (localAlignment alignment)

/-- Join the freed slab with free neighbours and write its two descriptors. -/
def mergeFree (s : State) (freeStart freeEnd : Nat) : State :=
  let start :=
    if freeStart ≠ 0 ∧ !isOccupied (s.get (sub64 freeStart 1)) then s.get (sub64 freeStart 1)
    else freeStart
  let stop :=
    if !isOccupied (s.get (add64 freeEnd 1)) then s.get (add64 freeEnd 1) else freeEnd
  let s := s.set start stop
  s.set stop start

def dandelionFree (P : Platform) (s : State) (freePtr : Nat) : Outcome Unit × State :=
  let freeIndex := pointerDiff freePtr s.freeRoot
  let endWord := s.get (sub64 freeIndex 1)
  if P.debug ∧ !isOccupied endWord then (.exit allocFreeUnoccupied, s)
  else
    let freeEnd := clearOccupied endWord
    let startWord := s.get freeEnd
    if P.debug ∧ !isOccupied startWord then (.exit allocFreeUnoccupied, s)
    else
      let freeStart := clearOccupied startWord
      if P.debug ∧ freeStart ≠ sub64 freeIndex 1 then (.exit allocOverlap, s)
      else (.ret (), mergeFree s freeStart freeEnd)

end Dandelion.Runtime.Heap
