import Dandelion.FileSystem.SoundCalls

/-! # Where the copies of a write end

The room of a chunk is narrowed to an `int`, and a negative room is taken for a
very large one. The same write with a check before every copy shows where that
matters: in the first round only, since a chunk is then either filled or allocated
for all that is left.
-/

namespace Dandelion.FileSystem

open Foundation.Words

section Checked

def writeLoopChecked (P : Platform) : Nat → List UInt8 → Ptr → M (Option Ptr)
  | 0, bytes, current => if bytes = [] then pure (some current) else fail .diverge
  | fuel + 1, bytes, current =>
    if bytes = [] then pure (some current)
    else do
      let c ← getChunkAt current
      if toInt32 (sub64 c.capacity c.used) = 0 then do
        let newChunk ← allocateFileChunk P bytes.length
        modifyChunk current fun c => { c with next := newChunk }
        let n ← getChunkAt newChunk
        let toWrite := min bytes.length (toSize (toInt32 n.capacity))
        if n.used + toWrite ≤ n.capacity then do
          writePart newChunk bytes toWrite
          writeLoopChecked P fuel (bytes.drop toWrite) newChunk
        else pure none
      else do
        let toWrite := min bytes.length (toSize (toInt32 (sub64 c.capacity c.used)))
        if c.used + toWrite ≤ c.capacity then do
          writePart current bytes toWrite
          writeLoopChecked P fuel (bytes.drop toWrite) current
        else pure none

def writeFromChecked (P : Platform) (fd : Int) (bytes : List UInt8) (options : Nat) (current : Ptr)
    (chunkOffset : Nat) :
    M (Option Int) := do
  let current ← writeLoopChecked P bytes.length bytes current
  match current with
  | none => pure none
  | some current =>
    if hasBit options moveOffset then do
      let o ← getOpenFile fd
      setOpenFile fd { o with currentChunk := current, offset := chunkOffset }
      pure (some bytes.length)
    else pure (some bytes.length)

def writePlaceChecked (P : Platform) (fd : Int) (o : OpenFile) (bytes : List UInt8)
    (options : Nat) :
    Option (Ptr × Nat) → M (Option Int)
  | none => pure (some (-(eNOMEM : Int)))
  | some start =>
    if hasBit o.openFlags oAPPEND ∧ ¬ hasBit options useOffset then do
      let fuel ← steps
      let last ← lastChunk fuel o.currentChunk
      let c ← getChunkAt last
      setOpenFile fd { o with currentChunk := last, offset := c.used }
      writeFromChecked P fd bytes options start.1 start.2
    else writeFromChecked P fd bytes options start.1 start.2

def dandelionWriteChecked (P : Platform) (fd : Int) (bytes : List UInt8) (offset : Int)
    (options : Nat) :
    M (Option Int) := do
  let o ← getOpenFile fd
  if o.file = 0 ∨ hasBit o.openFlags oRDONLY then pure (some (-(eBADF : Int)))
  else do
    let f ← getFileAt o.file
    if f.type = .device then pure (some 0)
    else if f.type ≠ .file then pure (some (-(eINVAL : Int)))
    else do
      let start ← writeStart P o f bytes.length offset options
      writePlaceChecked P fd o bytes options start

/-- Every copy of the call ends within the capacity: the checks change nothing. -/
def CopiesInside (P : Platform) (s : State) (fd : Int) (bytes : List UInt8) (offset : Int)
    (options : Nat) : Prop :=
  dandelionWriteChecked P fd bytes offset options s =
    (some <$> dandelionWrite P fd bytes offset options) s

end Checked

section Rooms

/-- The first copy into a chunk ends within its capacity: the room is not negative as an `int`, or
all bytes fit, or the room is larger than what a negative `int` stands for. -/
def Admits (len used capacity : Nat) : Prop :=
  used ≤ capacity ∧ ((capacity - used) % 2 ^ 32 < 2 ^ 31 ∨ len ≤ capacity - used ∨
    2 ^ 64 - 2 ^ 32 ≤ capacity - used)

/-- What the chunk has used and its capacity, once a walk to an offset has found it. -/
def seekRoom (m : Memory) (len : Nat) : Nat → Int → Ptr → Option (Nat × Nat)
  | 0, _, _ => none
  | fuel + 1, offset, current =>
    (m.chunks current).bind fun c =>
      if offset ≤ 0 then some (c.used, c.capacity)
      else if toSize offset < c.capacity then some (max c.used (toSize offset), c.capacity)
      else if c.next = 0 then
        some (toSize (offset - c.capacity), chunkSize (add64 (toSize (offset - c.capacity)) len))
      else seekRoom m len fuel (offset - c.capacity) c.next

/-- The same for the chunk in which a write to a file starts. -/
def startRoom (m : Memory) (o : OpenFile) (f : DFile) (len : Nat) (offset : Int) (options : Nat) :
    Option (Nat × Nat) :=
  if f.link = 0 then some (0, chunkSize (if hasBit options useOffset then toSize (offset + len)
    else len))
  else if hasBit options useOffset then seekRoom m len (m.limit + 1) offset f.link
  else (m.chunks (if o.currentChunk = 0 then f.link else o.currentChunk)).map
    fun c => (c.used, c.capacity)

/-- If a regular file is written, the chunk in which that starts admits the first copy. -/
def StartsInside (s : State) (fd : Int) (len : Nat) (offset : Int) (options : Nat) : Prop :=
  ∀ f, s.memory.files (s.openFiles fd.toNat).file = some f → f.type = .file →
    ¬ hasBit (s.openFiles fd.toNat).openFlags oRDONLY → ∀ used capacity,
      startRoom s.memory (s.openFiles fd.toNat) f len offset options = some (used, capacity) →
        Admits len used capacity

variable {len used capacity : Nat}

theorem writeable_eq (h : used ≤ capacity) : toSize (toInt32 (sub64 capacity used)) =
    if (capacity - used) % 2 ^ 32 < 2 ^ 31 then (capacity - used) % 2 ^ 32
      else 2 ^ 64 - 2 ^ 32 + (capacity - used) % 2 ^ 32 := by
  simp only [toSize, toInt32, sub64]
  split
  · omega
  · omega

theorem Admits.copy_le (h : Admits len used capacity) :
    used + min len (toSize (toInt32 (sub64 capacity used))) ≤ capacity := by
  obtain ⟨hLe, hRoom⟩ := h
  rw [writeable_eq hLe]
  split
  · omega
  · omega

/-- What is left after the first copy is nothing, or the room then is zero as an `int`. -/
theorem Admits.next (h : Admits len used capacity) :
    Admits (len - min len (toSize (toInt32 (sub64 capacity used))))
      (add64 used (min len (toSize (toInt32 (sub64 capacity used))))) capacity := by
  have hCopy := h.copy_le
  rw [writeable_eq h.1] at hCopy ⊢
  refine ⟨Nat.le_trans (Nat.mod_le _ _) hCopy, ?_⟩
  by_cases hAll : len ≤ if (capacity - used) % 2 ^ 32 < 2 ^ 31 then (capacity - used) % 2 ^ 32
      else 2 ^ 64 - 2 ^ 32 + (capacity - used) % 2 ^ 32
  · rw [Nat.min_eq_left hAll, Nat.sub_self]
    exact Or.inr (Or.inl (Nat.zero_le _))
  · rw [Nat.min_eq_right (Nat.le_of_not_le hAll)] at hCopy ⊢
    refine Or.inl ?_
    rw [add64]
    split at hCopy
    · rename_i hPos
      rw [if_pos hPos]
      omega
    · rename_i hNeg
      rw [if_neg hNeg]
      omega

theorem not_admits (hLe : used ≤ capacity) (h : ¬ Admits len used capacity) :
    toInt32 (sub64 capacity used) ≠ 0 ∧
      capacity < used + min len (toSize (toInt32 (sub64 capacity used))) := by
  rw [Admits, and_iff_right hLe] at h
  constructor
  · simp only [toInt32, sub64]
    omega
  · rw [writeable_eq hLe]
    split
    · omega
    · omega

theorem admits_new (h : len ≤ capacity) : Admits len 0 capacity :=
  ⟨Nat.zero_le _, Or.inr (Or.inl h)⟩

theorem admits_of_small (hLe : used ≤ capacity) (h : len < 2 ^ 31) : Admits len used capacity := by
  refine ⟨hLe, ?_⟩
  omega

theorem chunkSize_cases {n : Nat} (h : n < 2 ^ 64) : chunkSize n = 0 ∨ n ≤ chunkSize n := by
  simp only [chunkSize, fsChunkSize, add64, sub64, mul64]
  omega

end Rooms

end Dandelion.FileSystem
