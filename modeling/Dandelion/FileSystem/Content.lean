import Dandelion.Foundation.Chains
import Dandelion.FileSystem.Rules

/-! # File content

The content of a regular file is what its chunks hold, one after the other. The
chunks of a list are described by pieces: the address, the chunk and its bytes.
-/

namespace Dandelion.FileSystem

open Foundation.Chains Foundation.Triples

/-- Bytes of a block, if they all lie inside it. -/
def Memory.load (m : Memory) (p : Ptr) (offset count : Nat) : Option (List UInt8) :=
  if count = 0 then some []
  else if p = 0 then none
  else
    (m.blocks p).bind fun b =>
      if offset + count ≤ b.size then some ((List.range count).map fun i => b.bytes (offset + i))
        else none

theorem loadBytes_ok {s : State} {p : Ptr} {offset count : Nat} {bytes : List UInt8}
    (h : s.memory.load p offset count = some bytes) :
    loadBytes p offset count s = .ok (bytes, s) := by
  unfold Memory.load at h
  unfold loadBytes
  split at h
  · rename_i hCount
    obtain rfl := Option.some.inj h
    rw [if_pos hCount]
    rfl
  · rename_i hCount
    split at h
    · cases h
    · rename_i hp
      obtain ⟨b, hb, hBytes⟩ := Option.bind_eq_some_iff.mp h
      rw [if_neg hCount]
      rw [bind_ok (getBlockAt_ok hp hb)]
      split at hBytes
      · rename_i hSize
        obtain rfl := Option.some.inj hBytes
        rw [if_pos hSize]
        rfl
      · cases hBytes

theorem load_length {m : Memory} {p : Ptr} {offset count : Nat} {bytes : List UInt8}
    (h : m.load p offset count = some bytes) : bytes.length = count := by
  unfold Memory.load at h
  split at h
  · rename_i hCount
    obtain rfl := Option.some.inj h
    exact hCount.symm
  · split at h
    · cases h
    · obtain ⟨b, _, hBytes⟩ := Option.bind_eq_some_iff.mp h
      split at hBytes
      · obtain rfl := Option.some.inj hBytes
        simp
      · cases hBytes

theorem load_part {m : Memory} {p : Ptr} {size offset count : Nat} {bytes : List UInt8}
    (h : m.load p 0 size = some bytes) (hLe : offset + count ≤ size) :
    m.load p offset count = some ((bytes.drop offset).take count) := by
  by_cases hCount : count = 0
  · rw [Memory.load, if_pos hCount, hCount, List.take_zero]
  · unfold Memory.load at h ⊢
    rw [if_neg (by omega)] at h
    rw [if_neg hCount]
    split at h
    · cases h
    · rename_i hp
      obtain ⟨b, hb, hBytes⟩ := Option.bind_eq_some_iff.mp h
      rw [if_neg hp, hb, Option.bind_some]
      split at hBytes
      · rename_i hSize
        obtain rfl := Option.some.inj hBytes
        rw [if_pos (by omega), Option.some.injEq]
        apply List.ext_getElem
        · simp
          omega
        · intro i hi hi'
          simp
      · cases hBytes

/-- A chunk of a list with its address and bytes. -/
structure Piece where
  ptr : Ptr
  chunk : FileChunk
  bytes : List UInt8

/-- The chunks from a pointer on are the given pieces. -/
def Stored (m : Memory) : Ptr → List Piece → Prop
  | p, [] => p = 0
  | p, x :: l => p = x.ptr ∧ p ≠ 0 ∧ m.chunks p = some x.chunk ∧
    m.load x.chunk.data 0 x.chunk.used = some x.bytes ∧ Stored m x.chunk.next l

def flat (l : List Piece) : List UInt8 := (l.map Piece.bytes).flatten

@[simp] theorem flat_nil : flat [] = [] := rfl
@[simp] theorem flat_cons (x : Piece) (l : List Piece) : flat (x :: l) = x.bytes ++ flat l := rfl
@[simp] theorem flat_append (l k : List Piece) : flat (l ++ k) = flat l ++ flat k := by simp [flat]

def nextChunk (m : Memory) (p : Ptr) : Option Ptr := (m.chunks p).map FileChunk.next

variable {m : Memory} {p : Ptr} {l k : List Piece} {x : Piece}

theorem Stored.bytes_length (h : Stored m p l) (hx : x ∈ l) : x.bytes.length = x.chunk.used := by
  induction l generalizing p with
  | nil => exact absurd hx List.not_mem_nil
  | cons y l ih =>
    obtain ⟨_, _, _, hLoad, hRest⟩ := h
    rcases List.mem_cons.mp hx with rfl | hx
    · exact load_length hLoad
    · exact ih hRest hx

theorem Stored.chain (h : Stored m p l) : Chain (nextChunk m) p (l.map Piece.ptr) := by
  induction l generalizing p with
  | nil => exact h
  | cons x l ih =>
    obtain ⟨rfl, hne, hChunk, _, hRest⟩ := h
    exact ⟨rfl, hne, x.chunk.next, by rw [nextChunk, hChunk, Option.map_some], ih hRest⟩

theorem Stored.chunk_eq (h : Stored m p l) (hx : x ∈ l) : m.chunks x.ptr = some x.chunk := by
  induction l generalizing p with
  | nil => exact absurd hx List.not_mem_nil
  | cons y l ih =>
    obtain ⟨rfl, _, hChunk, _, hRest⟩ := h
    rcases List.mem_cons.mp hx with rfl | hx
    · exact hChunk
    · exact ih hRest hx

theorem Stored.ptr_lt (h : Stored m p l) (hx : x ∈ l) : x.ptr < m.limit := by
  by_contra hLe
  have hNone := (m.bounded x.ptr (Nat.le_of_not_lt hLe)).2.1
  rw [h.chunk_eq hx] at hNone
  cases hNone

theorem Stored.length_le (h : Stored m p l) : l.length ≤ m.limit := by
  have hLength := h.chain.length_le (n := m.limit) (by
    intro a ha
    obtain ⟨x, hx, rfl⟩ := List.mem_map.mp ha
    exact h.ptr_lt hx)
  rwa [List.length_map] at hLength

theorem Stored.unique (h : Stored m p l) (h' : Stored m p k) : l = k := by
  induction l generalizing p k with
  | nil =>
    obtain rfl : p = 0 := h
    cases k with
    | nil => rfl
    | cons y k => exact absurd rfl h'.2.1
  | cons x l ih =>
    obtain ⟨hx, hne, hChunk, hLoad, hRest⟩ := h
    cases k with
    | nil => exact absurd h' hne
    | cons y k =>
      obtain ⟨hy, _, hChunk', hLoad', hRest'⟩ := h'
      rw [hChunk, Option.some.injEq] at hChunk'
      rw [← hChunk', hLoad, Option.some.injEq] at hLoad'
      rw [← hChunk'] at hRest'
      obtain rfl := ih hRest hRest'
      obtain ⟨xp, xc, xb⟩ := x
      obtain ⟨yp, yc, yb⟩ := y
      simp only at hx hy hChunk' hLoad'
      rw [← hx, ← hy, hChunk', hLoad']

theorem stored_append : Stored m p (l ++ x :: k) ↔
    Segment (nextChunk m) p (l.map Piece.ptr) x.ptr ∧
      (∀ y ∈ l, m.chunks y.ptr = some y.chunk ∧ m.load y.chunk.data 0 y.chunk.used = some y.bytes) ∧
      Stored m x.ptr (x :: k) := by
  induction l generalizing p with
  | nil =>
    constructor
    · intro h
      obtain rfl : p = x.ptr := h.1
      exact ⟨rfl, by simp, h⟩
    · rintro ⟨hp, _, h⟩
      obtain rfl : p = x.ptr := hp
      exact h
  | cons y l ih =>
    constructor
    · rintro ⟨rfl, hne, hChunk, hLoad, hRest⟩
      obtain ⟨hSegment, hAll, hTail⟩ := ih.mp hRest
      refine ⟨⟨rfl, hne, y.chunk.next, by rw [nextChunk, hChunk, Option.map_some], hSegment⟩,
        ?_, hTail⟩
      intro z hz
      rcases List.mem_cons.mp hz with rfl | hz
      · exact ⟨hChunk, hLoad⟩
      · exact hAll z hz
    · rintro ⟨⟨rfl, hne, r, hNext, hSegment⟩, hAll, hTail⟩
      obtain ⟨hChunk, hLoad⟩ := hAll y List.mem_cons_self
      rw [nextChunk, hChunk, Option.map_some, Option.some.injEq] at hNext
      refine ⟨rfl, hne, hChunk, hLoad, ih.mpr ⟨by rw [hNext]; exact hSegment, ?_, hTail⟩⟩
      exact fun z hz => hAll z (List.mem_cons_of_mem _ hz)

theorem Stored.suffix (h : Stored m p (l ++ x :: k)) : Stored m x.ptr (x :: k) :=
  (stored_append.mp h).2.2

/-- The pieces from a pointer on, if the list ends within the given number of steps. -/
def piecesWithin (m : Memory) : Nat → Ptr → Option (List Piece)
  | 0, p => if p = 0 then some [] else none
  | fuel + 1, p =>
    if p = 0 then some []
    else
      (m.chunks p).bind fun c => (m.load c.data 0 c.used).bind fun bytes =>
        (piecesWithin m fuel c.next).map (⟨p, c, bytes⟩ :: ·)

def pieces (m : Memory) (p : Ptr) : Option (List Piece) := piecesWithin m m.limit p

def content (m : Memory) (p : Ptr) : Option (List UInt8) := (pieces m p).map flat

theorem Stored.piecesWithin_eq (h : Stored m p l) {fuel : Nat} (hFuel : l.length ≤ fuel) :
    piecesWithin m fuel p = some l := by
  induction l generalizing p fuel with
  | nil =>
    obtain rfl : p = 0 := h
    cases fuel <;> rfl
  | cons x l ih =>
    obtain ⟨rfl, hne, hChunk, hLoad, hRest⟩ := h
    obtain ⟨fuel, rfl⟩ := Nat.exists_eq_add_one.mpr (Nat.zero_lt_of_lt hFuel)
    rw [piecesWithin, if_neg hne, hChunk, Option.bind_some, hLoad, Option.bind_some,
      ih hRest (Nat.le_of_succ_le_succ hFuel), Option.map_some]

theorem stored_of_piecesWithin {fuel : Nat} (h : piecesWithin m fuel p = some l) :
    Stored m p l := by
  induction fuel generalizing p l with
  | zero =>
    rw [piecesWithin] at h
    split at h
    · obtain rfl := Option.some.inj h
      assumption
    · cases h
  | succ fuel ih =>
    rw [piecesWithin] at h
    split at h
    · obtain rfl := Option.some.inj h
      assumption
    · rename_i hp
      obtain ⟨c, hChunk, h⟩ := Option.bind_eq_some_iff.mp h
      obtain ⟨bytes, hLoad, h⟩ := Option.bind_eq_some_iff.mp h
      obtain ⟨rest, hRest, rfl⟩ := Option.map_eq_some_iff.mp h
      exact ⟨rfl, hp, hChunk, hLoad, ih hRest⟩

theorem pieces_eq_some : pieces m p = some l ↔ Stored m p l :=
  ⟨stored_of_piecesWithin, fun h => h.piecesWithin_eq h.length_le⟩

theorem Stored.content_eq (h : Stored m p l) : content m p = some (flat l) := by
  rw [content, pieces_eq_some.mpr h, Option.map_some]

theorem stored_of_content {c : List UInt8} (h : content m p = some c) :
    ∃ l, Stored m p l ∧ flat l = c := by
  obtain ⟨l, hl, hFlat⟩ := Option.map_eq_some_iff.mp h
  exact ⟨l, pieces_eq_some.mp hl, hFlat⟩

end Dandelion.FileSystem
