import Mathlib.Logic.Function.Basic

/-! # The input sets of the debug platform

The names of the set folders are copied into memory from `debug_alloc`, one after
the other and without a terminator. Then the folders are opened by these names,
and the names of their items are copied behind them.
-/

namespace Dandelion.System.Debug

def wordSize : Nat := 8

def pageSize : Nat := 4096

def dtDir : UInt8 := 4

def dot : UInt8 := 46

def plus : UInt8 := 43

def slash : UInt8 := 47

/-- A name as a file system has it in a directory. -/
structure Name where
  bytes : List UInt8
  nonempty : bytes ≠ []
  short : bytes.length ≤ 255
  plain : 0 ∉ bytes

def Name.length (n : Name) : Nat := n.bytes.length

/-- `.` and `..` are skipped. -/
def Name.isDots (n : Name) : Bool :=
  (n.length = 1 ∧ n.bytes[0]? = some dot) ∨
    (n.length = 2 ∧ n.bytes[0]? = some dot ∧ n.bytes[1]? = some dot)

/-- An entry of `input_sets`, as `getdents64` returns it. -/
structure Dirent where
  name : Name
  type : UInt8

/-- An entry of a set folder, and if its file can be opened, measured and mapped. -/
structure Item where
  name : Name
  loads : Bool

/-- What the kernel answers: the pages of `mmap` in their order, the bytes outside these pages at
the time a set folder is opened, and the entries of that folder if it can be opened. -/
structure Kernel where
  page : Nat → Nat
  page_ne_null : ∀ k, page k ≠ 0
  apart : ∀ j k, j ≠ k → page j + pageSize ≤ page k ∨ page k + pageSize ≤ page j
  outside : Nat → Nat → Option UInt8
  openat : Nat → Option (List Item)

/-- The static variables of `debug_alloc`, the number of pages mapped so far and their bytes. -/
structure State where
  bufferSpace : Nat
  used : Nat
  mapped : Nat
  bytes : Nat → UInt8

def State.start : State := ⟨0, 0, 0, fun _ => 0⟩

section Allocation

/-- A page from `mmap` is zero. -/
def vmAlloc (K : Kernel) (s : State) : Nat × State :=
  (K.page s.mapped, { s with
    mapped := s.mapped + 1
    bytes := fun a => if K.page s.mapped ≤ a ∧ a < K.page s.mapped + pageSize then 0
      else s.bytes a })

def words (size : Nat) : Nat := (size + wordSize - 1) / wordSize

/-- Switch to a new page if there is none yet or the allocation does not fit. -/
def makeRoom (K : Kernel) (size : Nat) (s : State) : State :=
  if s.bufferSpace = 0 ∨ pageSize < (s.used + words size) * wordSize then
    { (vmAlloc K s).2 with bufferSpace := (vmAlloc K s).1, used := 0 }
  else s

def debugAlloc (K : Kernel) (size : Nat) (s : State) : Nat × State :=
  let s := makeRoom K size s
  (s.bufferSpace + s.used * wordSize, { s with used := s.used + words size })

def myMemcpy : Nat → List UInt8 → (Nat → UInt8) → Nat → UInt8
  | _, [], m => m
  | d, c :: src, m => myMemcpy (d + 1) src (Function.update m d c)

/-- The loop over the bytes of an item's name, from an address on. -/
def pretendFolders : Nat → Nat → (Nat → UInt8) → Nat → UInt8
  | _, 0, m => m
  | a, n + 1, m => pretendFolders (a + 1) n (if m a = plus then Function.update m a slash else m)

def copyName (K : Kernel) (name : List UInt8) (s : State) : Nat × State :=
  let r := debugAlloc K name.length s
  (r.1, { r.2 with bytes := myMemcpy r.1 name r.2.bytes })

/-- In the name of an item every plus becomes a slash. -/
def copyItemName (K : Kernel) (name : List UInt8) (s : State) : State :=
  let r := copyName K name s
  { r.2 with bytes := pretendFolders r.1 name.length r.2.bytes }

end Allocation

section Sets

/-- The fields of `io_set_info` that are set here. -/
structure IoSetInfo where
  ident : Nat
  identLen : Nat

/-- The loop over the entries of `input_sets`. An entry that is no directory ends the program. -/
def importSets (K : Kernel) : List Dirent → State → Option (List IoSetInfo × State)
  | [], s => some ([], s)
  | d :: dirents, s =>
    if d.name.isDots then importSets K dirents s
    else if d.type ≠ dtDir then none
    else
      let ident := copyName K d.name.bytes s
      (importSets K dirents ident.2).map fun r => (⟨ident.1, d.name.length⟩ :: r.1, r.2)

/-- The loop over the entries of a set folder. A file that cannot be loaded ends the program. -/
def importItems (K : Kernel) : List Item → State → Option State
  | [], s => some s
  | item :: items, s =>
    if item.name.isDots then importItems K items s
    else if item.loads then importItems K items (copyItemName K item.name.bytes s)
    else none

/-- The loop over the sets, with the state in which each `openat` is called. -/
def openSets (K : Kernel) : Nat → List IoSetInfo → State → List State
  | _, [], _ => []
  | i, _ :: sets, s =>
    s :: (((K.openat i).bind fun items => importItems K items s).elim [] (openSets K (i + 1) sets))

/-- The part of `__dandelion_platform_init` that imports the input sets. -/
def platformInit (K : Kernel) (dirents : List Dirent) : Option (List IoSetInfo × List State) :=
  (importSets K dirents .start).map fun r => (r.1, openSets K 0 r.1 r.2)

end Sets

section Reading

/-- The byte at an address when a set folder is opened, if there is one. -/
def State.read (K : Kernel) (s : State) (time a : Nat) : Option UInt8 :=
  if ∃ k < s.mapped, K.page k ≤ a ∧ a < K.page k + pageSize then some (s.bytes a)
    else K.outside time a

/-- The string at an address has these bytes, up to its terminator. -/
def StringAt (read : Nat → Option UInt8) (a : Nat) (name : List UInt8) : Prop :=
  (∀ i < name.length, read (a + i) = name[i]?) ∧ read (a + name.length) = some 0

end Reading

end Dandelion.System.Debug
