import Dandelion.Foundation.Triples
import Dandelion.FileSystem.Chunks

/-! # Rules for the primitives

What the single steps of a call do when the objects they refer to are live, and
the effect of each change of memory on what it holds.
-/

namespace Dandelion.FileSystem

open Foundation.Words Foundation.Triples

variable {P : Platform} {s : State} {m : Memory} {p q : Ptr}

section Effects

variable (f : DFile) (c : FileChunk) (b : Block)

@[simp] theorem setFile_files : (m.setFile p f).files = Function.update m.files p (some f) := rfl
@[simp] theorem setFile_chunks : (m.setFile p f).chunks = m.chunks := rfl
@[simp] theorem setFile_blocks : (m.setFile p f).blocks = m.blocks := rfl
@[simp] theorem setChunk_files : (m.setChunk p c).files = m.files := rfl
@[simp] theorem setChunk_chunks :
    (m.setChunk p c).chunks = Function.update m.chunks p (some c) := rfl
@[simp] theorem setChunk_blocks : (m.setChunk p c).blocks = m.blocks := rfl
@[simp] theorem setBlock_files : (m.setBlock p b).files = m.files := rfl
@[simp] theorem setBlock_chunks : (m.setBlock p b).chunks = m.chunks := rfl
@[simp] theorem setBlock_blocks :
    (m.setBlock p b).blocks = Function.update m.blocks p (some b) := rfl
@[simp] theorem drop_files : (m.drop p).files = Function.update m.files p none := rfl
@[simp] theorem drop_chunks : (m.drop p).chunks = Function.update m.chunks p none := rfl
@[simp] theorem drop_blocks : (m.drop p).blocks = Function.update m.blocks p none := rfl

end Effects

section Access

theorem getFileAt_ok {f : DFile} (hp : p ≠ 0) (h : s.memory.files p = some f) :
    getFileAt p s = .ok (f, s) := by
  simp only [getFileAt, readAt, if_neg hp, h]

theorem getChunkAt_ok {c : FileChunk} (hp : p ≠ 0) (h : s.memory.chunks p = some c) :
    getChunkAt p s = .ok (c, s) := by
  simp only [getChunkAt, readAt, if_neg hp, h]

theorem getBlockAt_ok {b : Block} (hp : p ≠ 0) (h : s.memory.blocks p = some b) :
    getBlockAt p s = .ok (b, s) := by
  simp only [getBlockAt, readAt, if_neg hp, h]

theorem getOpenFile_ok {fd : Int} (h : 0 ≤ fd ∧ fd < fsMaxFiles) :
    getOpenFile fd s = .ok (s.openFiles fd.toNat, s) := if_pos h

theorem setOpenFile_ok {fd : Int} (h : 0 ≤ fd ∧ fd < fsMaxFiles) (o : OpenFile) :
    setOpenFile fd o s = .ok ((), { s with openFiles := Function.update s.openFiles fd.toNat o }) :=
  if_pos h

theorem steps_ok : steps s = .ok (s.memory.limit + 1, s) := rfl

theorem modifyFile_ok {f : DFile} {g : DFile → DFile} (hp : p ≠ 0) (h : s.memory.files p = some f) :
    modifyFile p g s = .ok ((), { s with memory := s.memory.setFile p (g f) }) := by
  rw [modifyFile, bind_ok (getFileAt_ok hp h)]
  rfl

theorem modifyChunk_ok {c : FileChunk} {g : FileChunk → FileChunk} (hp : p ≠ 0)
    (h : s.memory.chunks p = some c) :
    modifyChunk p g s = .ok ((), { s with memory := s.memory.setChunk p (g c) }) := by
  rw [modifyChunk, bind_ok (getChunkAt_ok hp h)]
  rfl

def Block.write (b : Block) (offset : Nat) (bytes : List UInt8) : Block :=
  { b with
    bytes := fun i => if offset ≤ i ∧ i < offset + bytes.length then bytes.getD (i - offset) 0
      else b.bytes i }

theorem storeBytes_ok {b : Block} {offset : Nat} {bytes : List UInt8} (hp : p ≠ 0)
    (h : s.memory.blocks p = some b) (hne : bytes ≠ []) (hFit : offset + bytes.length ≤ b.size) :
    storeBytes p offset bytes s =
      .ok ((), { s with memory := s.memory.setBlock p (b.write offset bytes) }) := by
  rw [storeBytes, if_neg hne, bind_ok (getBlockAt_ok hp h), if_pos hFit]
  rfl

end Access

section Allocation

/-- Requests for at least one byte are granted. -/
def Platform.Grants (P : Platform) : Prop :=
  ∀ m count size alignment, 0 < size → ∃ g, P.answer m count size alignment = some g

def Platform.GrantsPair (P : Platform) (number : Nat) : Prop :=
  ∀ m count size alignment, count = number ∨ count = number + 1 → 0 < size →
    ∃ g, P.answer m count size alignment = some g

theorem Platform.Grants.pair {P : Platform} (h : P.Grants) (number : Nat) : P.GrantsPair number :=
  fun m count size alignment _ hSize => h m count size alignment hSize

theorem grants_bump (fill : UInt8) : (Platform.bump fill).Grants := by
  intro m count size alignment hSize
  exact ⟨_, if_neg (Nat.ne_of_gt hSize)⟩

theorem Memory.Vacant.ne_zero (h : m.Vacant p) : p ≠ 0 :=
  Nat.ne_of_gt (Nat.lt_of_lt_of_le (show 0 < staticEnd by decide) h.1)

theorem Memory.Vacant.ne_file {f : DFile} (h : m.Vacant q) (hp : m.files p = some f) : q ≠ p := by
  rintro rfl
  have hNone := h.2.1
  rw [hp] at hNone
  cases hNone

theorem Memory.Vacant.ne_chunk {c : FileChunk} (h : m.Vacant q) (hp : m.chunks p = some c) :
    q ≠ p := by
  rintro rfl
  have hNone := h.2.2.1
  rw [hp] at hNone
  cases hNone

theorem Memory.Vacant.ne_block {b : Block} (h : m.Vacant q) (hp : m.blocks p = some b) : q ≠ p := by
  rintro rfl
  have hNone := h.2.2.2
  rw [hp] at hNone
  cases hNone

theorem dandelionAlloc_ok {size alignment : Nat} {place : Memory → Ptr → (Nat → UInt8) → Memory}
    {g : Grant} (h : P.answer s.memory s.requests size alignment = some g) :
    dandelionAlloc P size alignment place s =
      .ok (g.ptr,
        { s with memory := place s.memory g.ptr g.bytes, requests := s.requests + 1 }) := by
  simp only [dandelionAlloc, h]

theorem chunkSize_of_small {n : Nat} (h : n < 2 ^ 63) : chunkSize n = (n + 4095) / 4096 * 4096 := by
  simp only [chunkSize, fsChunkSize]
  rw [add64_of_lt (by omega), sub64_of_le (by omega) (by omega), mul64_of_lt (by omega)]
  omega

theorem chunkSize_words (n : Nat) : (chunkSize n + 7) / 8 * 8 = chunkSize n := by
  simp only [chunkSize, fsChunkSize, mul64]
  omega

theorem chunkSize_ge {n : Nat} (h : n < 2 ^ 63) : n ≤ chunkSize n := by
  rw [chunkSize_of_small h]
  omega

structure NewChunk (m m' : Memory) (ptr data size : Nat) (fill : Nat → UInt8) : Prop where
  ptr_vacant : m.Vacant ptr
  data_vacant : m.Vacant data
  ne : ptr ≠ data
  files : m'.files = m.files
  chunks : m'.chunks = Function.update m.chunks ptr (some ⟨data, size, 0, 0⟩)
  blocks : m'.blocks = Function.update m.blocks data (some ⟨size, fill, false⟩)
  limit : m.limit ≤ m'.limit

theorem allocateFileChunk_ok {n : Nat} (hGrants : P.GrantsPair s.requests)
    (hSize : 0 < chunkSize n) :
    ∃ g ptr s', P.answer s.memory s.requests (chunkSize n) 16 = some g ∧
      allocateFileChunk P n s = .ok (ptr, s') ∧ s'.openFiles = s.openFiles ∧
      NewChunk s.memory s'.memory ptr g.ptr (chunkSize n) g.bytes := by
  obtain ⟨g, hg⟩ := hGrants s.memory s.requests (chunkSize n) 16 (Or.inl rfl) hSize
  have hData := P.vacant _ _ _ _ _ hg
  set s₁ : State := { s with
    memory := s.memory.setBlock g.ptr ⟨chunkSize n, g.bytes, false⟩,
    requests := s.requests + 1 } with hs₁
  have hBuffer : allocBlock P (chunkSize n) 16 s = .ok (g.ptr, s₁) := by
    rw [allocBlock, dandelionAlloc_ok hg, chunkSize_words]
  obtain ⟨k, hk⟩ := hGrants s₁.memory s₁.requests sizeofChunk 8 (Or.inr rfl) (by decide)
  have hVacant := P.vacant _ _ _ _ _ hk
  have hne : k.ptr ≠ g.ptr := hVacant.ne_block (Function.update_self _ _ _)
  obtain ⟨hLow, hFile, hChunk, hBlock⟩ := hVacant
  rw [hs₁, setBlock_blocks, Function.update_of_ne hne] at hBlock
  have hPtr : s.memory.Vacant k.ptr := ⟨hLow, hFile, hChunk, hBlock⟩
  set c : FileChunk :=
    ⟨wordAt k.bytes 0 8, wordAt k.bytes 8 8, wordAt k.bytes 16 8, wordAt k.bytes 24 8⟩ with hc
  set s₂ : State :=
    { s₁ with memory := s₁.memory.setChunk k.ptr c, requests := s₁.requests + 1 } with hs₂
  have hAlloc : allocChunk P s₁ = .ok (k.ptr, s₂) := by
    rw [allocChunk, dandelionAlloc_ok hk]
  have hLive : s₂.memory.chunks k.ptr = some c := Function.update_self _ _ _
  refine ⟨g, k.ptr, { s₂ with memory := s₂.memory.setChunk k.ptr ⟨g.ptr, chunkSize n, 0, 0⟩ },
    hg, ?_, rfl, hPtr, hData, hne, rfl, ?_, rfl, ?_⟩
  · rw [allocateFileChunk, bind_ok hBuffer, if_neg hData.ne_zero, bind_ok hAlloc,
      if_neg hPtr.ne_zero, bind_ok (modifyChunk_ok hPtr.ne_zero hLive)]
    rfl
  · simp only [hs₂, hs₁, setChunk_chunks, setBlock_chunks, Function.update_idem]
  · exact (Nat.le_max_left _ _).trans ((Nat.le_max_left _ _).trans (Nat.le_max_left _ _))

end Allocation

end Dandelion.FileSystem
