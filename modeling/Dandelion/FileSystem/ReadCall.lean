import Dandelion.FileSystem.ReadLoop
import Dandelion.FileSystem.Run

/-! # The parts of a read

The position of a descriptor in the bytes of its file, the copy loop from a place in
the chunk list, and the walk of `dandelion_read` to the place where it starts.
-/

namespace Dandelion.FileSystem

open Foundation.Words Foundation.Triples

/-- Sizes are of type `size_t`. -/
structure Memory.Words (m : Memory) : Prop where
  used : ∀ p c, m.chunks p = some c → c.used < 2 ^ 64
  size : ∀ p b, m.blocks p = some b → b.size < 2 ^ 64

/-- The bytes in the pieces before the one at an address. -/
def before : List Piece → Ptr → Option Nat
  | [], _ => none
  | x :: l, p => if x.ptr = p then some 0 else (before l p).map (x.bytes.length + ·)

/-- The position of a descriptor: the bytes before its chunk and its offset, or the
start of the file when it has no chunk yet. -/
def position (m : Memory) (f : DFile) (o : OpenFile) : Option Nat :=
  (pieces m f.link).bind fun l => if o.currentChunk = 0 then some 0
    else (before l o.currentChunk).map (· + o.offset)

structure ReadableAt (s : State) (fd : Int) (o : OpenFile) (f : DFile) : Prop where
  range : 0 ≤ fd ∧ fd < fsMaxFiles
  entry : s.openFiles fd.toNat = o
  opened : o.file ≠ 0
  access : hasBit o.openFlags oWRONLY = false
  node : s.memory.files o.file = some f
  regular : f.type = .file
  word : o.offset < 2 ^ 64

def Stores.empty : Stores := fun _ => none

variable {P : Platform} {s : State} {fd : Int} {o : OpenFile} {f : DFile} {m : Memory} {len : Nat}

section Position

theorem before_eq {p : Ptr} {a b : List Piece} {z : Piece} (h : Stored m p (a ++ z :: b)) :
    before (a ++ z :: b) z.ptr = some (flat a).length := by
  have hNodup := h.chain.nodup
  clear h
  induction a with
  | nil => simp [before]
  | cons x a ih =>
    simp only [List.cons_append, List.map_cons, List.nodup_cons] at hNodup
    have hne : x.ptr ≠ z.ptr := by
      intro hEq
      exact hNodup.1 (List.mem_map.mpr ⟨z, by simp, hEq.symm⟩)
    rw [List.cons_append, before, if_neg hne, ih hNodup.2]
    simp

theorem before_split {l : List Piece} {p : Ptr} {n : Nat} (h : before l p = some n) :
    ∃ a z b, l = a ++ z :: b ∧ z.ptr = p ∧ n = (flat a).length := by
  induction l generalizing n with
  | nil => cases h
  | cons x l ih =>
    rw [before] at h
    split at h
    · rename_i hx
      exact ⟨[], x, l, rfl, hx, (Option.some.inj h).symm⟩
    · obtain ⟨k, hk, rfl⟩ := Option.map_eq_some_iff.mp h
      obtain ⟨a, z, b, rfl, hz, rfl⟩ := ih hk
      exact ⟨x :: a, z, b, rfl, hz, by simp⟩

theorem position_at {a b : List Piece} {z : Piece} (h : Stored m f.link (a ++ z :: b))
    (ho : o.currentChunk = z.ptr) : position m f o = some ((flat a).length + o.offset) := by
  have hne : o.currentChunk ≠ 0 := ho ▸ h.suffix.2.1
  rw [position, pieces_eq_some.mpr h, Option.bind_some, if_neg hne, ho, before_eq h,
    Option.map_some]

theorem position_split {p : Nat} {l : List Piece} (h : Stored m f.link l)
    (hp : position m f o = some p) (hne : o.currentChunk ≠ 0) :
    ∃ a z b, l = a ++ z :: b ∧ z.ptr = o.currentChunk ∧ p = (flat a).length + o.offset := by
  rw [position, pieces_eq_some.mpr h, Option.bind_some, if_neg hne] at hp
  obtain ⟨n, hn, rfl⟩ := Option.map_eq_some_iff.mp hp
  obtain ⟨a, z, b, hSplit, hz, rfl⟩ := before_split hn
  exact ⟨a, z, b, hSplit, hz, rfl⟩

end Position

section Place

variable {p : Ptr} {k : List Piece} {i fuel : Nat}

theorem readLoop_exact (h : PlacedAt s p k i) (hFuel : k.length ≤ fuel) (hLen : len < 2 ^ 31)
    (hGood : Within k i len) :
    ∃ a z b j, k = a ++ z :: b ∧ j ≤ z.chunk.used ∧
      (flat a).length + j = i + (((flat k).drop i).take len).length ∧
      readLoop (toInt32 len) fuel 0 Stores.empty p i s =
        .ok ((((((flat k).drop i).take len).length : Nat),
          Stores.empty.put 0 (((flat k).drop i).take len), z.ptr, j), s) := by
  have hInside : i ≤ (flat k).length := by
    obtain ⟨x, rest, rfl⟩ := List.exists_cons_of_ne_nil h.nonempty
    have hx := h.inside x rest rfl
    have hLength := h.stored.bytes_length (x := x) List.mem_cons_self
    rw [flat_cons, List.length_append]
    omega
  by_cases hFits : (flat k).length - i ≤ len
  · have hTake : ((flat k).drop i).take len = (flat k).drop i :=
      List.take_of_length_le (by rw [List.length_drop]; exact hFits)
    obtain ⟨a, z, hSplit, hLoop⟩ := readLoop_all 0 Stores.empty h hFuel hLen
      (by rw [List.length_drop]; exact hFits) le_rfl (by rw [List.length_drop]; omega)
    refine ⟨a, z, [], z.chunk.used, hSplit, le_rfl, ?_, ?_⟩
    · have hz := h.stored.bytes_length (x := z) (by rw [hSplit]; simp)
      rw [hTake, List.length_drop]
      have hFlat := congrArg (fun l => (flat l).length) hSplit
      simp only [flat_append, flat_cons, flat_nil, List.append_nil, List.length_append] at hFlat
      omega
    · rw [hTake, hLoop, Int.zero_add]
  · obtain ⟨a, z, b, j, hSplit, hj, hUsed, hLoop⟩ := readLoop_first 0 Stores.empty h hFuel hLen
      (hGood.resolve_left hFits) le_rfl (by omega)
    have hLength : (((flat k).drop i).take len).length = len := by
      rw [List.length_take, List.length_drop]
      omega
    refine ⟨a, z, b, j + len, hSplit, hUsed, by rw [hLength]; omega, ?_⟩
    rw [hLoop, Int.zero_add, hLength]

theorem readLoop_inexact (h : PlacedAt s p k i) (hFuel : k.length ≤ fuel) (hLen : len < 2 ^ 31)
    (hBad : ¬ Within k i len) :
    ∃ r, readLoop (toInt32 len) fuel 0 Stores.empty p i s = .ok (r, s) ∧ r.2.1 len ≠ none := by
  obtain ⟨hMore, hFirst⟩ := not_or.mp hBad
  exact readLoop_overruns h hFuel hLen le_rfl (by omega) (by rw [List.length_drop]; omega)
    (Or.inr (Nat.le_of_not_lt hFirst))

theorem put_injective {a b : List UInt8} (hLength : a.length = b.length)
    (h : Stores.empty.put 0 a = Stores.empty.put 0 b) : a = b := by
  apply List.ext_getElem hLength
  intro i ha hb
  have hi := congrFun h (i : Int)
  simp only [Stores.put] at hi
  rw [if_pos (by omega), if_pos (by omega), Option.some.injEq] at hi
  simpa [List.getD_eq_getElem?_getD, ha, hb] using hi

theorem put_beyond (len : Nat) (bytes : List UInt8) :
    Stores.empty.put 0 (bytes.take len) len = none := by
  have hLe := List.length_take_le len bytes
  rw [Stores.put, if_neg (by omega)]
  rfl

end Place

section Calls

variable {offset : Int} {options : Nat}

theorem dandelionRead_zero (h : ReadableAt s fd o f) :
    dandelionRead P fd 0 offset options s = .ok ((0, Stores.empty), s) := by
  rw [dandelionRead, bind_ok (getOpenFile_ok h.range), h.entry,
    if_neg (by simp [h.opened, h.access]), bind_ok (getFileAt_ok h.opened h.node),
    if_neg (by simp [h.regular]), if_neg (by simp [h.regular]), if_pos rfl]
  rfl

theorem dandelionRead_rest (h : ReadableAt s fd o f) (hLen : 0 < len)
    (hUse : hasBit options useOffset = false) :
    dandelionRead P fd len offset options s =
      (if o.currentChunk = 0 then
        if f.link ≠ 0 then
          (do
            setOpenFile fd { o with currentChunk := f.link, offset := 0 }
            readFrom fd { o with currentChunk := f.link, offset := 0 } len options f.link 0 :
            M (Int × Stores))
        else
          (do
            setOpenFile fd { o with offset := 0 }
            pure (0, fun _ => none))
      else readFrom fd o len options o.currentChunk o.offset) s := by
  rw [dandelionRead, bind_ok (getOpenFile_ok h.range), h.entry,
    if_neg (by simp [h.opened, h.access]), bind_ok (getFileAt_ok h.opened h.node),
    if_neg (by simp [h.regular]), if_neg (by simp [h.regular]), if_neg (Nat.ne_of_gt hLen),
    if_neg (by simp [hUse])]

theorem dandelionRead_use (h : ReadableAt s fd o f) (hLen : 0 < len) (hOffset : 0 ≤ offset)
    (hUse : hasBit options useOffset = true) :
    dandelionRead P fd len offset options s =
      (do
        let fuel ← steps
        let place ← readSeek fuel offset.toNat f.link
        readPlace fd o len options place : M (Int × Stores)) s := by
  rw [dandelionRead, bind_ok (getOpenFile_ok h.range), h.entry,
    if_neg (by simp [h.opened, h.access]), bind_ok (getFileAt_ok h.opened h.node),
    if_neg (by simp [h.regular]), if_neg (by simp [h.regular]), if_neg (Nat.ne_of_gt hLen),
    if_pos hUse, if_neg (Int.not_lt.mpr hOffset)]

/-- The state after a read that stopped at a place. -/
def State.readTo (s : State) (fd : Int) (o : OpenFile) (options : Nat) (p : Ptr)
    (i : Nat) : State :=
  if hasBit options moveOffset then
    { s with openFiles :=
      Function.update s.openFiles fd.toNat { o with currentChunk := p, offset := i } }
  else s

theorem readFrom_of_loop {current : Ptr} {chunkOffset : Nat} {r : Int × Stores × Ptr × Nat}
    (hRange : 0 ≤ fd ∧ fd < fsMaxFiles)
    (hLoop : readLoop (toInt32 len) (s.memory.limit + 1) 0 Stores.empty current chunkOffset s =
      .ok (r, s)) :
    readFrom fd o len options current chunkOffset s =
      .ok ((r.1, r.2.1), s.readTo fd o options r.2.2.1 r.2.2.2) := by
  obtain ⟨readBytes, stores, stop, inside⟩ := r
  rw [readFrom, bind_ok steps_ok]
  change (readLoop (toInt32 len) (s.memory.limit + 1) 0 Stores.empty current chunkOffset >>= _) s =
    _
  rw [bind_ok hLoop, State.readTo]
  dsimp only
  by_cases hMove : hasBit options moveOffset = true
  · rw [if_pos hMove, if_pos hMove, bind_ok (setOpenFile_ok hRange _)]
    rfl
  · rw [if_neg hMove, if_neg hMove]
    rfl

theorem readFrom_fault {current : Ptr} {chunkOffset : Nat} {e : Fault}
    (hLoop : readLoop (toInt32 len) (s.memory.limit + 1) 0 Stores.empty current chunkOffset s =
      .error e) :
    readFrom fd o len options current chunkOffset s = .error e := by
  rw [readFrom, bind_ok steps_ok]
  exact bind_error hLoop

theorem readSeek_found {p : Ptr} {l : List Piece} {n fuel : Nat} (h : Stored s.memory p l)
    (hn : 0 < n) (hLe : n ≤ (flat l).length) (hFuel : l.length < fuel) :
    ∃ a z b j, l = a ++ z :: b ∧ (flat a).length + j = n ∧ j ≤ z.chunk.used ∧
      readSeek fuel n p s = .ok (some (z.ptr, j), s) := by
  induction l generalizing p n fuel with
  | nil =>
    rw [flat_nil, List.length_nil] at hLe
    omega
  | cons x l ih =>
    obtain ⟨fuel, rfl⟩ := Nat.exists_eq_add_one.mpr (Nat.zero_lt_of_lt hFuel)
    have hLength := h.bytes_length (x := x) List.mem_cons_self
    obtain ⟨rfl, hne, hChunk, _, hRest⟩ := h
    rw [flat_cons, List.length_append] at hLe
    rw [readSeek, if_neg (Nat.ne_of_gt hn), if_neg hne, bind_ok (getChunkAt_ok hne hChunk)]
    by_cases hBeyond : x.chunk.used < n
    · obtain ⟨a, z, b, j, rfl, hj, hInside, hSeek⟩ := ih hRest (n := n - x.chunk.used) (by omega)
        (by omega)
        (Nat.lt_of_succ_lt_succ hFuel)
      refine ⟨x :: a, z, b, j, rfl, ?_, hInside, by rw [if_pos hBeyond, hSeek]⟩
      rw [flat_cons, List.length_append]
      omega
    · exact ⟨[], x, l, n, rfl, by simp, by omega, by rw [if_neg hBeyond]; rfl⟩

theorem readSeek_beyond {p : Ptr} {l : List Piece} {n fuel : Nat} (h : Stored s.memory p l)
    (hLt : (flat l).length < n) (hFuel : l.length < fuel) :
    readSeek fuel n p s = .ok (none, s) := by
  induction l generalizing p n fuel with
  | nil =>
    obtain ⟨fuel, rfl⟩ := Nat.exists_eq_add_one.mpr (Nat.zero_lt_of_lt hFuel)
    obtain rfl : p = 0 := h
    rw [readSeek, if_neg (by omega), if_pos rfl]
    rfl
  | cons x l ih =>
    obtain ⟨fuel, rfl⟩ := Nat.exists_eq_add_one.mpr (Nat.zero_lt_of_lt hFuel)
    have hLength := h.bytes_length (x := x) List.mem_cons_self
    obtain ⟨rfl, hne, hChunk, _, hRest⟩ := h
    rw [flat_cons, List.length_append] at hLt
    rw [readSeek, if_neg (by omega), if_neg hne, bind_ok (getChunkAt_ok hne hChunk),
      if_pos (by omega)]
    exact ih hRest (by omega) (Nat.lt_of_succ_lt_succ hFuel)

end Calls

end Dandelion.FileSystem
