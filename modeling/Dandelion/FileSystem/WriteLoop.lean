import Dandelion.FileSystem.Orderly

/-! # The copy loop of `dandelion_write`

The loop always appends to the end of a chunk. What fits stays in the chunk, and
whatever follows it in the list is kept. Otherwise the chunk is filled, a new one
takes the rest and becomes the end of the list.
-/

namespace Dandelion.FileSystem

open Foundation.Words Foundation.Triples

/-- What the loop takes for the room left in a chunk, an `int` of the code. -/
def FileChunk.room (c : FileChunk) : Nat := (c.capacity - c.used) % 2 ^ 32

/-- A string of this length goes into a chunk as a whole: there is room for it, or the `int` is
negative and stands for more than any string has. -/
def Takes (room k : Nat) : Prop := k ≤ room ∨ 2 ^ 31 ≤ room

instance (room k : Nat) : Decidable (Takes room k) := inferInstanceAs (Decidable (_ ∨ _))

/-- What the chunk takes as a whole ends inside its block, and the chunk that is allocated for
what it does not take takes that. -/
def Copies (m : Memory) (c : FileChunk) (k : Nat) : Prop :=
  if Takes c.room k then ∃ b, m.blocks c.data = some b ∧ c.used + k ≤ b.size
  else Takes (chunkSize (k - c.room) % 2 ^ 32) (k - c.room)

variable {P : Platform} {s : State} {m : Memory} {p : Ptr} {c : FileChunk} {b : Block}
  {bytes : List UInt8} {fuel k room : Nat}

theorem writeLoop_nil : writeLoop P fuel [] p s = .ok (p, s) := by
  cases fuel <;> rfl

theorem takes_iff (hk : k < 2 ^ 31) : Takes room k ↔ k ≤ room := by
  unfold Takes
  omega

section Rounds

theorem Holds.room_le (h : Holds m p c b) : c.used + c.room ≤ c.capacity := by
  have hLe := h.used
  have hMod := Nat.mod_le (c.capacity - c.used) (2 ^ 32)
  simp only [FileChunk.room]
  omega

/-- Short strings always come to an end. -/
theorem Holds.copies (h : Holds m p c b) (hk : k < 2 ^ 31) : Copies m c k := by
  have hRoom := h.room_le
  have hSize := h.size
  rw [Copies]
  split
  · rename_i hTakes
    rw [takes_iff hk] at hTakes
    exact ⟨b, h.block, by omega⟩
  · rw [takes_iff (by omega)]
    simp only [chunkSize, fsChunkSize, add64, sub64, mul64]
    omega

def appended (s : State) (p : Ptr) (c : FileChunk) (b : Block) (part : List UInt8) : State :=
  { s with
    memory := (s.memory.setBlock c.data (b.write c.used part)).setChunk p
      { c with used := c.used + part.length } }

theorem writePart_ok (h : Holds s.memory p c b) (hPos : 0 < k) (hk : k ≤ bytes.length)
    (hFit : c.used + k ≤ b.size) :
    writePart p bytes k s = .ok ((), appended s p c b (bytes.take k)) := by
  have hLength : (bytes.take k).length = k := List.length_take_of_le hk
  have hne : bytes.take k ≠ [] := by
    intro hNil
    rw [hNil, List.length_nil] at hLength
    omega
  have hStore := storeBytes_ok h.data_ne h.block hne
    (show c.used + (bytes.take k).length ≤ b.size by rw [hLength]; exact hFit)
  set s₁ : State := { s with memory := s.memory.setBlock c.data (b.write c.used (bytes.take k)) }
  have hChunk : s₁.memory.chunks p = some c := h.chunk
  rw [writePart, bind_ok (getChunkAt_ok h.ne_zero h.chunk), bind_ok hStore,
    modifyChunk_ok h.ne_zero hChunk, add64_of_lt (Nat.lt_of_le_of_lt hFit h.bounded), appended,
    hLength]

theorem toWrite_eq (h : Holds m p c b) (hLen : k < 2 ^ 63) :
    min k (toSize (toInt32 (sub64 c.capacity c.used))) = if Takes c.room k then k else c.room := by
  rw [sub64_of_le h.word h.used]
  have hWord := h.word
  unfold toInt32 toSize
  split <;> rename_i hTakes <;> simp only [FileChunk.room, Takes] at hTakes ⊢ <;> omega

theorem toInt32_room (h : Holds m p c b) : toInt32 (sub64 c.capacity c.used) = 0 ↔ c.room = 0 := by
  rw [sub64_of_le h.word h.used]
  simp only [FileChunk.room, toInt32]
  omega

theorem writeLoop_fits (h : Holds s.memory p c b) (hne : bytes ≠ [])
    (hLen : bytes.length < 2 ^ 63) (hTakes : Takes c.room bytes.length)
    (hFit : c.used + bytes.length ≤ b.size) :
    writeLoop P bytes.length bytes p s = .ok (p, appended s p c b bytes) := by
  have hLength := List.length_pos_iff.mpr hne
  obtain ⟨n, hn⟩ := Nat.exists_eq_add_one.mpr hLength
  have hRoom : c.room ≠ 0 := by
    unfold Takes at hTakes
    omega
  rw [hn, writeLoop, if_neg hne, bind_ok (getChunkAt_ok h.ne_zero h.chunk),
    if_neg (mt (toInt32_room h).mp hRoom), toWrite_eq h hLen, if_pos hTakes,
    bind_ok (writePart_ok h hLength (Nat.le_refl _) hFit), List.take_length, List.drop_length,
    writeLoop_nil]

theorem writeLoop_fills (h : Holds s.memory p c b) (hRoom : 0 < c.room)
    (hLen : bytes.length < 2 ^ 63) (hNot : ¬ Takes c.room bytes.length) :
    writeLoop P (fuel + 1) bytes p s =
      writeLoop P fuel (bytes.drop c.room) p (appended s p c b (bytes.take c.room)) := by
  have hMore : c.room < bytes.length := by
    unfold Takes at hNot
    omega
  have hRoomLe := h.room_le
  have hSize := h.size
  rw [writeLoop, if_neg (List.ne_nil_of_length_pos (Nat.zero_lt_of_lt hMore)),
    bind_ok (getChunkAt_ok h.ne_zero h.chunk), if_neg (mt (toInt32_room h).mp (Nat.ne_of_gt hRoom)),
    toWrite_eq h hLen, if_neg hNot,
    bind_ok (writePart_ok h hRoom (Nat.le_of_lt hMore) (by omega))]

end Rounds

section Growing

/-- What the loop leaves when it fills a chunk and puts the rest into a new one. -/
structure Spilled (m m' : Memory) (p : Ptr) (c : FileChunk) (b : Block) (first rest : List UInt8)
    (ptr data : Ptr) (fill : Nat → UInt8) : Prop where
  ptr_vacant : m.Vacant ptr
  data_vacant : m.Vacant data
  ne : ptr ≠ data
  files : m'.files = m.files
  chunks : m'.chunks =
    Function.update
      (Function.update m.chunks p (some { c with used := c.used + first.length, next := ptr })) ptr
      (some ⟨data, chunkSize rest.length, rest.length, 0⟩)
  blocks : m'.blocks =
    Function.update (Function.update m.blocks c.data (some (b.write c.used first))) data
      (some (Block.write ⟨chunkSize rest.length, fill, false⟩ 0 rest))

theorem Block.write_nil (offset : Nat) : b.write offset [] = b := by
  obtain ⟨size, f, foreign⟩ := b
  simp only [Block.write, List.length_nil, Nat.add_zero, Block.mk.injEq, true_and, and_true]
  funext i
  rw [if_neg (by omega)]

theorem vacant_of_appended {part : List UInt8} {q : Ptr}
    (hq : (appended s p c b part).memory.Vacant q) : s.memory.Vacant q := by
  have hChunk : q ≠ p := hq.ne_chunk (Function.update_self _ _ _)
  have hBlock : q ≠ c.data := hq.ne_block (Function.update_self _ _ _)
  obtain ⟨hLow, hFile, hNoChunk, hNoBlock⟩ := hq
  simp only [appended, setChunk_chunks, setBlock_chunks, Function.update_of_ne hChunk] at hNoChunk
  simp only [appended, setChunk_blocks, setBlock_blocks, Function.update_of_ne hBlock] at hNoBlock
  exact ⟨hLow, hFile, hNoChunk, hNoBlock⟩

theorem chunkSize_pos {n : Nat} (hPos : 0 < n) (h : n < 2 ^ 63) : 0 < chunkSize n :=
  Nat.lt_of_lt_of_le hPos (chunkSize_ge h)

theorem writeLoop_new (fuel : Nat) (hGrants : P.GrantsPair s.requests) (h : Holds s.memory p c b)
    (hRoom : c.room = 0) (hne : bytes ≠ []) (hLen : bytes.length < 2 ^ 63)
    (hTakes : Takes (chunkSize bytes.length % 2 ^ 32) bytes.length) :
    ∃ ptr data fill s', writeLoop P (fuel + 1) bytes p s = .ok (ptr, s') ∧
      s'.openFiles = s.openFiles ∧ Spilled s.memory s'.memory p c b [] bytes ptr data fill := by
  have hLength := List.length_pos_iff.mpr hne
  have hCapacity := chunkSize_of_small hLen
  obtain ⟨g, ptr, s₁, _, hAlloc, hOpen, hNew⟩ :=
    allocateFileChunk_ok (s := s) hGrants (chunkSize_pos hLength hLen)
  have hpNe : ptr ≠ p := hNew.ptr_vacant.ne_chunk h.chunk
  have hOld : s₁.memory.chunks p = some c := by
    rw [hNew.chunks, Function.update_of_ne hpNe.symm, h.chunk]
  have hLink := modifyChunk_ok (s := s₁) (g := fun c => { c with next := ptr }) h.ne_zero hOld
  set s₂ : State := { s₁ with memory := s₁.memory.setChunk p { c with next := ptr } } with hs₂
  have hHolds : Holds s₂.memory ptr ⟨g.ptr, chunkSize bytes.length, 0, 0⟩
      ⟨chunkSize bytes.length, g.bytes, false⟩ := by
    refine ⟨hNew.ptr_vacant.ne_zero, ?_, hNew.data_vacant.ne_zero, ?_, Nat.zero_le _, le_rfl, ?_⟩
    · simp only [hs₂, setChunk_chunks, Function.update_of_ne hpNe, hNew.chunks,
        Function.update_self]
    · simp only [hs₂, setChunk_blocks, hNew.blocks, Function.update_self]
    · show chunkSize bytes.length < 2 ^ 64
      omega
  have hAll : min bytes.length (toSize (toInt32 (chunkSize bytes.length))) = bytes.length := by
    simp only [Takes] at hTakes
    unfold toInt32 toSize
    omega
  have hEnough := chunkSize_ge hLen
  have hPart := writePart_ok hHolds hLength (le_refl bytes.length)
    (by rw [Nat.zero_add]; exact hEnough)
  refine ⟨ptr, g.ptr, g.bytes, appended s₂ ptr
    ⟨g.ptr, chunkSize bytes.length, 0, 0⟩ ⟨chunkSize bytes.length, g.bytes, false⟩ bytes, ?_, hOpen,
    hNew.ptr_vacant, hNew.data_vacant, hNew.ne, hNew.files, ?_, ?_⟩
  · rw [writeLoop, if_neg hne, bind_ok (getChunkAt_ok h.ne_zero h.chunk),
      if_pos ((toInt32_room h).mpr hRoom), bind_ok hAlloc, bind_ok hLink,
      bind_ok (getChunkAt_ok hHolds.ne_zero hHolds.chunk), hAll, bind_ok hPart, List.drop_length,
      writeLoop_nil, List.take_length]
  · simp only [appended, hs₂, setChunk_chunks, setBlock_chunks, hNew.chunks, List.length_nil,
      Nat.add_zero, Nat.zero_add]
    rw [Function.update_comm hpNe, Function.update_idem, Function.update_comm hpNe.symm]
  · simp only [appended, hs₂, setChunk_blocks, setBlock_blocks, hNew.blocks, Block.write_nil,
      Function.update_idem]
    rw [← h.block, Function.update_eq_self]

theorem Holds.filled (h : Holds s.memory p c b) (hMore : c.room ≤ bytes.length) :
    Holds (appended s p c b (bytes.take c.room)).memory p
      { c with used := c.used + (bytes.take c.room).length } (b.write c.used (bytes.take c.room)) ∧
    FileChunk.room { c with used := c.used + (bytes.take c.room).length } = 0 := by
  have hTake : (bytes.take c.room).length = c.room := List.length_take_of_le hMore
  have hRoomLe := h.room_le
  constructor
  · refine ⟨h.ne_zero, Function.update_self _ _ _, h.data_ne, Function.update_self _ _ _, ?_,
      h.size, h.bounded⟩
    rw [hTake]
    exact hRoomLe
  · rw [hTake]
    simp only [FileChunk.room] at hRoomLe ⊢
    omega

theorem writeLoop_spills (hGrants : P.GrantsPair s.requests) (h : Holds s.memory p c b)
    (hLen : bytes.length < 2 ^ 63) (hNot : ¬ Takes c.room bytes.length)
    (hRest : Takes (chunkSize (bytes.length - c.room) % 2 ^ 32) (bytes.length - c.room)) :
    ∃ ptr data fill s', writeLoop P bytes.length bytes p s = .ok (ptr, s') ∧
      s'.openFiles = s.openFiles ∧
      Spilled s.memory s'.memory p c b (bytes.take c.room) (bytes.drop c.room) ptr data fill := by
  have hMore : c.room < bytes.length := by
    unfold Takes at hNot
    omega
  have hne : bytes ≠ [] := List.ne_nil_of_length_pos (Nat.zero_lt_of_lt hMore)
  obtain ⟨n, hn⟩ := Nat.exists_eq_add_one.mpr (Nat.zero_lt_of_lt hMore)
  rcases Nat.eq_zero_or_pos c.room with hRoom | hRoom
  · rw [hRoom, Nat.sub_zero] at hRest
    rw [hn, hRoom, List.take_zero, List.drop_zero]
    exact writeLoop_new _ hGrants h hRoom hne hLen hRest
  · -- the first round fills the chunk, the second one finds no room
    obtain ⟨k, rfl⟩ := Nat.exists_eq_add_one.mpr (show 0 < n by omega)
    rw [← List.length_drop] at hRest
    rw [hn, writeLoop_fills h hRoom hLen hNot]
    obtain ⟨hFull, hNone⟩ := h.filled (Nat.le_of_lt hMore)
    have hSome : bytes.drop c.room ≠ [] := by
      rw [Ne, List.drop_eq_nil_iff]
      omega
    have hSame : P.GrantsPair (appended s p c b (bytes.take c.room)).requests := hGrants
    obtain ⟨ptr, data, fill, s', hLoop, hOpen, hSpilled⟩ :=
      writeLoop_new k hSame hFull hNone hSome (by rw [List.length_drop]; omega) hRest
    have hNil : ∀ x : Block, x.write (c.used + (bytes.take c.room).length) [] = x := fun x =>
      Block.write_nil _
    refine ⟨ptr, data, fill, s', hLoop, hOpen, vacant_of_appended hSpilled.ptr_vacant,
      vacant_of_appended hSpilled.data_vacant, hSpilled.ne, hSpilled.files, ?_, ?_⟩
    · rw [hSpilled.chunks]
      simp only [appended, setChunk_chunks, setBlock_chunks, Function.update_idem, List.length_nil,
        Nat.add_zero]
    · rw [hSpilled.blocks]
      simp only [appended, setChunk_blocks, setBlock_blocks, Function.update_idem, hNil]

end Growing

section Lists

variable {q : Ptr} {a t : List Piece} {x : Piece} {part : List UInt8}

def Piece.append (x : Piece) (part : List UInt8) : Piece :=
  ⟨x.ptr, { x.chunk with used := x.chunk.used + part.length }, x.bytes ++ part⟩

def Piece.fresh (ptr data capacity : Nat) (bytes : List UInt8) : Piece :=
  ⟨ptr, ⟨data, capacity, bytes.length, 0⟩, bytes⟩

def Piece.linked (x : Piece) (next : Ptr) : Piece := ⟨x.ptr, { x.chunk with next := next }, x.bytes⟩

theorem Filed.cons {c : FileChunk} {bytes : List UInt8} (hHolds : Holds m p c b)
    (hLoad : m.load c.data 0 c.used = some bytes) (hRest : Filed m c.next t)
    (hData : ∀ y ∈ t, y.chunk.data ≠ c.data) : Filed m p (⟨p, c, bytes⟩ :: t) := by
  refine ⟨⟨rfl, hHolds.ne_zero, hHolds.chunk, hLoad, hRest.stored⟩, fun z hz => ?_, ?_⟩
  · rcases List.mem_cons.mp hz with rfl | hz
    · exact ⟨b, hHolds⟩
    · exact hRest.holds z hz
  · rw [List.map_cons, List.nodup_cons]
    refine ⟨fun hMem => ?_, hRest.apart⟩
    obtain ⟨y, hy, hEq⟩ := List.mem_map.mp hMem
    exact hData y hy hEq

/-- A chunk of a list gets another number of used bytes. -/
theorem Only.refill {m' : Memory} {used : Nat} {bytes : List UInt8} (hOnly : Only m m' x)
    (h : Filed m q (a ++ x :: t)) (hHolds : Holds m' x.ptr { x.chunk with used := used } b)
    (hLoad : m'.load x.chunk.data 0 used = some bytes) :
    let y : Piece := ⟨x.ptr, { x.chunk with used := used }, bytes⟩
    Filed m' q (a ++ y :: t) ∧ Changes m m' (a ++ x :: t) (a ++ y :: t) := by
  refine hOnly.relist h (.cons hHolds hLoad (hOnly.tail h) fun y hy => ?_) fun w hw => Or.inl ?_
  · exact h.data_ne y (List.mem_append_right _ hy)
  · rcases List.mem_cons.mp hw with rfl | hw
    · exact ⟨x, List.mem_cons_self, rfl, rfl⟩
    · exact ⟨w, List.mem_cons_of_mem _ hw, rfl, rfl⟩

/-- A chunk of a list gets a new one behind it, which ends the list. -/
theorem Only.extend {m' : Memory} {used : Nat} {next : Ptr} {bytes : List UInt8} {z : Piece}
    (hOnly : Only m m' x) (h : Filed m q (a ++ x :: t))
    (hHolds : Holds m' x.ptr { x.chunk with used := used, next := next } b)
    (hLoad : m'.load x.chunk.data 0 used = some bytes) (hLast : Filed m' next [z])
    (hNew : m.chunks z.ptr = none ∧ m.blocks z.chunk.data = none) :
    let l' := a ++ [⟨x.ptr, { x.chunk with used := used, next := next }, bytes⟩, z]
    Filed m' q l' ∧ Changes m m' (a ++ x :: t) l' := by
  refine hOnly.relist h (.cons hHolds hLoad hLast fun y hy hData => ?_) fun w hw => ?_
  · obtain ⟨b, hx⟩ := h.holds x (by simp)
    rw [List.mem_singleton.mp hy] at hData
    cases hNew.2.symm.trans ((congrArg m.blocks hData).trans hx.block)
  · rcases List.mem_cons.mp hw with rfl | hw
    · exact Or.inl ⟨x, List.mem_cons_self, rfl, rfl⟩
    · exact Or.inr (List.mem_singleton.mp hw ▸ hNew)

theorem appended_only (s : State) (x : Piece) (b : Block) (part : List UInt8) :
    Only s.memory (appended s x.ptr x.chunk b part).memory x :=
  ⟨fun _ _ hp hNe => (Function.update_of_ne hNe _ _).trans hp,
    fun _ _ hp hNe => (Function.update_of_ne hNe _ _).trans hp⟩

theorem Spilled.only {m' : Memory} {first rest : List UInt8} {ptr data : Ptr} {fill : Nat → UInt8}
    (hs : Spilled m m' x.ptr x.chunk b first rest ptr data fill) : Only m m' x := by
  constructor
  · intro p c hp hNe
    rw [hs.chunks, Function.update_of_ne (hs.ptr_vacant.ne_chunk hp).symm,
      Function.update_of_ne hNe, hp]
  · intro p b hp hNe
    rw [hs.blocks, Function.update_of_ne (hs.data_vacant.ne_block hp).symm,
      Function.update_of_ne hNe, hp]

theorem appended_stored (h : Filed s.memory q (a ++ x :: t)) (hx : Holds s.memory x.ptr x.chunk b)
    (hFit : x.chunk.used + part.length ≤ b.size) :
    Stored (appended s x.ptr x.chunk b part).memory q (a ++ x.append part :: t) := by
  have hOnly := appended_only s x b part
  have hKept : ∀ y ∈ a ++ t, y ∈ a ++ x :: t ∧ y.ptr ≠ x.ptr ∧ y.chunk.data ≠ x.chunk.data :=
    fun y hy => ⟨by simp only [List.mem_append, List.mem_cons] at hy ⊢; tauto, h.ptr_ne y hy,
      h.data_ne y hy⟩
  have hFrame : ∀ y ∈ a, (appended s x.ptr x.chunk b part).memory.chunks y.ptr = some y.chunk ∧
      (appended s x.ptr x.chunk b part).memory.blocks y.chunk.data =
        s.memory.blocks y.chunk.data := by
    intro y hy
    obtain ⟨hMem, hPtr, hData⟩ := hKept y (List.mem_append_left _ hy)
    obtain ⟨e, he⟩ := h.holds y hMem
    exact ⟨hOnly.chunks _ _ he.chunk hPtr, (hOnly.blocks _ _ he.block hData).trans he.block.symm⟩
  refine h.stored.splice (fun y hy => (hFrame y hy).1) (fun y hy => load_congr (hFrame y hy).2)
    ⟨rfl, hx.ne_zero, Function.update_self _ _ _, ?_, (hOnly.tail h).stored⟩
  exact load_write hx.data_ne hx.block h.stored.suffix.2.2.2.1 hFit (Function.update_self _ _ _)

theorem appended_filed (h : Filed s.memory q (a ++ x :: t)) (hx : Holds s.memory x.ptr x.chunk b)
    (hFit : x.chunk.used + part.length ≤ x.chunk.capacity) :
    Filed (appended s x.ptr x.chunk b part).memory q (a ++ x.append part :: t) ∧
      Changes s.memory (appended s x.ptr x.chunk b part).memory (a ++ x :: t)
      (a ++ x.append part :: t) := by
  set m' := (appended s x.ptr x.chunk b part).memory
  have hOnly : Only s.memory m' x := appended_only s x b part
  have hBlock : m'.blocks x.chunk.data = some (b.write x.chunk.used part) :=
    Function.update_self _ _ _
  have hHolds : Holds m' x.ptr (x.append part).chunk (b.write x.chunk.used part) :=
    ⟨hx.ne_zero, Function.update_self _ _ _, hx.data_ne, hBlock, hFit, hx.size, hx.bounded⟩
  have hSize := hx.size
  have hLoad := load_write hx.data_ne hx.block h.stored.suffix.2.2.2.1 (by omega) hBlock
  exact hOnly.refill h hHolds hLoad

theorem Spilled.filed {m' : Memory} {first rest : List UInt8} {ptr data : Ptr} {fill : Nat → UInt8}
    (hs : Spilled m m' x.ptr x.chunk b first rest ptr data fill) (h : Filed m q (a ++ x :: t))
    (hx : Holds m x.ptr x.chunk b) (hFit : x.chunk.used + first.length ≤ x.chunk.capacity)
    (hSmall : rest.length < 2 ^ 63) :
    let l' := a ++ [(x.append first).linked ptr, .fresh ptr data (chunkSize rest.length) rest]
    Filed m' q l' ∧ Changes m m' (a ++ x :: t) l' := by
  have hPtr : ptr ≠ x.ptr := hs.ptr_vacant.ne_chunk hx.chunk
  have hData : data ≠ x.chunk.data := hs.data_vacant.ne_block hx.block
  have hSize := hx.size
  have hOnly : Only m m' x := hs.only
  have hOldBlock : m'.blocks x.chunk.data = some (b.write x.chunk.used first) := by
    rw [hs.blocks, Function.update_of_ne hData.symm, Function.update_self]
  have hOld : Holds m' x.ptr ((x.append first).linked ptr).chunk (b.write x.chunk.used first) := by
    refine ⟨hx.ne_zero, ?_, hx.data_ne, hOldBlock, hFit, hx.size, hx.bounded⟩
    rw [hs.chunks, Function.update_of_ne hPtr.symm, Function.update_self]
    rfl
  have hNewBlock : m'.blocks data =
      some (Block.write ⟨chunkSize rest.length, fill, false⟩ 0 rest) := by
    rw [hs.blocks, Function.update_self]
  have hNew : Holds m' ptr ⟨data, chunkSize rest.length, rest.length, 0⟩
      (Block.write ⟨chunkSize rest.length, fill, false⟩ 0 rest) := by
    refine ⟨hs.ptr_vacant.ne_zero, by rw [hs.chunks, Function.update_self], hs.data_vacant.ne_zero,
      hNewBlock, chunkSize_ge hSmall, le_rfl, ?_⟩
    show chunkSize rest.length < 2 ^ 64
    rw [chunkSize_of_small hSmall]
    omega
  have hOldLoad := load_write hx.data_ne hx.block h.stored.suffix.2.2.2.1 (by omega) hOldBlock
  have hNewLoad := load_fill hs.data_vacant.ne_zero (chunkSize_ge hSmall) hNewBlock
  have hLast : Filed m' ptr [.fresh ptr data (chunkSize rest.length) rest] :=
    Filed.cons hNew hNewLoad Filed.nil (by simp)
  exact hOnly.extend h hOld hOldLoad hLast ⟨hs.ptr_vacant.2.2.1, hs.data_vacant.2.2.2⟩

inductive Appends (a : List Piece) (x : Piece) (t : List Piece) (bytes : List UInt8) :
    List Piece → Piece → Prop
  | fits : Takes x.chunk.room bytes.length →
    Appends a x t bytes (a ++ x.append bytes :: t) (x.append bytes)
  | spills (ptr data : Ptr) : ¬ Takes x.chunk.room bytes.length →
    Appends a x t bytes
      (a ++ [(x.append (bytes.take x.chunk.room)).linked ptr,
        .fresh ptr data (chunkSize (bytes.drop x.chunk.room).length) (bytes.drop x.chunk.room)])
      (.fresh ptr data (chunkSize (bytes.drop x.chunk.room).length) (bytes.drop x.chunk.room))

/-- The loop on a chunk that need not belong to a file. -/
theorem writeLoop_only (hGrants : ¬ Takes x.chunk.room bytes.length → P.GrantsPair s.requests)
    (hx : Holds s.memory x.ptr x.chunk b) (hne : bytes ≠ []) (hLen : bytes.length < 2 ^ 63)
    (hCopies : Copies s.memory x.chunk bytes.length) :
    ∃ last s', writeLoop P bytes.length bytes x.ptr s = .ok (last, s') ∧
      s'.memory.files = s.memory.files ∧ Only s.memory s'.memory x := by
  rw [Copies] at hCopies
  split at hCopies
  · rename_i hTakes
    obtain ⟨e, he, hFit⟩ := hCopies
    obtain rfl := Option.mem_unique hx.block he
    exact ⟨_, _, writeLoop_fits hx hne hLen hTakes hFit, rfl, appended_only _ _ _ _⟩
  · rename_i hNot
    obtain ⟨ptr, data, fill, s', hLoop, _, hSpilled⟩ :=
      writeLoop_spills (hGrants hNot) hx hLen hNot hCopies
    exact ⟨ptr, s', hLoop, hSpilled.files, hSpilled.only⟩

/-- The loop on a chunk of a file. Short strings leave everything in good order. -/
theorem writeLoop_list (hGrants : ¬ Takes x.chunk.room bytes.length → P.GrantsPair s.requests)
    (h : Filed s.memory q (a ++ x :: t)) (hne : bytes ≠ []) (hLen : bytes.length < 2 ^ 63)
    (hCopies : Copies s.memory x.chunk bytes.length) :
    ∃ l' z s', Appends a x t bytes l' z ∧
      writeLoop P bytes.length bytes x.ptr s = .ok (z.ptr, s') ∧
      s'.openFiles = s.openFiles ∧ s'.memory.files = s.memory.files ∧ Stored s'.memory q l' ∧
      Only s.memory s'.memory x ∧ (bytes.length < 2 ^ 31 → Filed s'.memory q l' ∧
        Changes s.memory s'.memory (a ++ x :: t) l') := by
  obtain ⟨b, hx⟩ := h.holds x (by simp)
  have hRoom := hx.room_le
  rw [Copies] at hCopies
  split at hCopies
  · rename_i hTakes
    obtain ⟨e, he, hFit⟩ := hCopies
    obtain rfl := Option.mem_unique hx.block he
    refine ⟨_, _, _, .fits hTakes, writeLoop_fits hx hne hLen hTakes hFit, rfl, rfl,
      appended_stored h hx hFit, appended_only _ _ _ _, fun hSmall => appended_filed h hx ?_⟩
    have hInside := (takes_iff hSmall).mp hTakes
    omega
  · rename_i hNot
    obtain ⟨ptr, data, fill, s', hLoop, hOpen, hSpilled⟩ :=
      writeLoop_spills (hGrants hNot) hx hLen hNot hCopies
    have hTake : (bytes.take x.chunk.room).length = x.chunk.room := by
      refine List.length_take_of_le ?_
      unfold Takes at hNot
      omega
    obtain ⟨hFiled, hChanges⟩ := hSpilled.filed h hx (by rw [hTake]; exact hRoom)
      (by rw [List.length_drop]; omega)
    exact ⟨_, _, s', .spills ptr data hNot, hLoop, hOpen, hSpilled.files, hFiled.stored,
      hSpilled.only, fun _ => ⟨hFiled, hChanges⟩⟩

/-- Short strings need no condition. -/
theorem writeLoop_short (hGrants : ¬ Takes x.chunk.room bytes.length → P.GrantsPair s.requests)
    (h : Filed s.memory q (a ++ x :: t)) (hne : bytes ≠ []) (hLen : bytes.length < 2 ^ 31) :
    ∃ l' z s', Appends a x t bytes l' z ∧
      writeLoop P bytes.length bytes x.ptr s = .ok (z.ptr, s') ∧
      s'.openFiles = s.openFiles ∧ s'.memory.files = s.memory.files ∧
      Only s.memory s'.memory x ∧ Filed s'.memory q l' ∧
      Changes s.memory s'.memory (a ++ x :: t) l' := by
  obtain ⟨b, hx⟩ := h.holds x (by simp)
  obtain ⟨l', z, s', hAppends, hLoop, hOpen, hFiles, -, hOnly, hFiled⟩ :=
    writeLoop_list hGrants h hne (by omega) (hx.copies hLen)
  exact ⟨l', z, s', hAppends, hLoop, hOpen, hFiles, hOnly, hFiled hLen⟩

end Lists

end Dandelion.FileSystem
