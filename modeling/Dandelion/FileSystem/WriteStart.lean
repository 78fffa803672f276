import Dandelion.FileSystem.WriteLoop

/-! # Where `dandelion_write` starts

An empty file gets its first chunk. At a given offset the code walks by capacity
and extends the chunk it reaches up to the offset; behind the last chunk it adds
a new one that is used up to there.
-/

namespace Dandelion.FileSystem

open Foundation.Words Foundation.Triples

def caps (l : List Piece) : Nat := (l.map fun x => x.chunk.capacity).sum

@[simp] theorem caps_nil : caps [] = 0 := rfl
@[simp] theorem caps_cons (x : Piece) (l : List Piece) :
    caps (x :: l) = x.chunk.capacity + caps l := rfl

/-- The chunk that an offset lands in when one counts by capacity: the pieces before
it, the piece, those after it and the offset inside. -/
def landing : List Piece → Nat → Option (List Piece × Piece × List Piece × Nat)
  | [], _ => none
  | x :: l, n =>
    if n = 0 ∨ n < x.chunk.capacity then some ([], x, l, n)
    else (landing l (n - x.chunk.capacity)).map fun r => (x :: r.1, r.2)

variable {P : Platform} {s : State} {m : Memory} {p : Ptr} {a l t : List Piece} {x : Piece}
  {n r len fuel : Nat}

theorem landing_eq (h : landing l n = some (a, x, t, r)) :
    l = a ++ x :: t ∧ n = caps a + r ∧ (r = 0 ∨ r < x.chunk.capacity) := by
  induction l generalizing n a with
  | nil => cases h
  | cons y l ih =>
    rw [landing] at h
    split at h
    · rename_i hHere
      obtain ⟨rfl, rfl, rfl, rfl⟩ : [] = a ∧ y = x ∧ l = t ∧ n = r := by simpa using h
      exact ⟨rfl, by simp, hHere⟩
    · rename_i hThere
      obtain ⟨⟨a', x', t', r'⟩, hRest, hEq⟩ := Option.map_eq_some_iff.mp h
      obtain ⟨rfl, rfl, rfl, rfl⟩ : y :: a' = a ∧ x' = x ∧ t' = t ∧ r' = r := by simpa using hEq
      obtain ⟨rfl, hn, hr⟩ := ih hRest
      refine ⟨rfl, ?_, hr⟩
      rw [caps_cons]
      omega

theorem landing_none (h : landing l n = none) : caps l ≤ n := by
  induction l generalizing n with
  | nil => exact Nat.zero_le n
  | cons y l ih =>
    rw [landing] at h
    split at h
    · cases h
    · have hRest := ih (Option.map_eq_none_iff.mp h)
      rw [caps_cons]
      omega

section Seek

/-- The bytes of a block that a chunk takes over when it is extended to an offset. -/
def gap (m : Memory) (x : Piece) (r : Nat) : List UInt8 :=
  (m.load x.chunk.data x.chunk.used (r - x.chunk.used)).getD []

theorem load_extend {d n k : Nat} {bytes more : List UInt8} (h : m.load d 0 n = some bytes)
    (h' : m.load d n k = some more) : m.load d 0 (n + k) = some (bytes ++ more) := by
  rcases Nat.eq_zero_or_pos k with rfl | hk
  · obtain rfl : more = [] := List.eq_nil_of_length_eq_zero (load_length h')
    rw [Nat.add_zero, h, List.append_nil]
  · unfold Memory.load at h'
    rw [if_neg (Nat.ne_of_gt hk)] at h'
    split at h'
    · cases h'
    · rename_i hd
      obtain ⟨b, hb, hMore⟩ := Option.bind_eq_some_iff.mp h'
      split at hMore
      · rename_i hSize
        rw [load_block hd hb (by omega), Option.some.injEq] at h
        rw [load_block hd hb (by omega), ← h, ← Option.some.inj hMore, List.range_add,
          List.map_append, List.map_map]
        simp [Function.comp_def]
      · cases hMore

theorem Holds.gap_eq {b : Block} (hx : Holds m x.ptr x.chunk b) (hr : r ≤ x.chunk.capacity) :
    m.load x.chunk.data x.chunk.used (r - x.chunk.used) = some (gap m x r) ∧
      (gap m x r).length = r - x.chunk.used := by
  have hSize := hx.size
  have hUsed := hx.used
  have hLoad :=
    load_block (o := x.chunk.used) (n := r - x.chunk.used) hx.data_ne hx.block (by omega)
  have hGap : m.load x.chunk.data x.chunk.used (r - x.chunk.used) = some (gap m x r) := by
    rw [gap, hLoad, Option.getD_some]
  exact ⟨hGap, load_length hGap⟩

theorem extend_filed {q : Ptr} (m' : Memory) (h : Filed m q (a ++ x :: t))
    (hr : r ≤ x.chunk.capacity)
    (hChunks : m'.chunks = Function.update m.chunks x.ptr (some (x.append (gap m x r)).chunk))
    (hBlocks : m'.blocks = m.blocks) :
    (Filed m' q (a ++ x.append (gap m x r) :: t) ∧
      Changes m m' (a ++ x :: t) (a ++ x.append (gap m x r) :: t)) ∧ Only m m' x := by
  obtain ⟨b, hx⟩ := h.holds x (by simp)
  obtain ⟨hGap, hLength⟩ := hx.gap_eq hr
  have hUsed := hx.used
  have hOnly : Only m m' x :=
    ⟨fun p c hp hNe => by rw [hChunks, Function.update_of_ne hNe, hp],
      fun p b hp _ => by rw [hBlocks, hp]⟩
  have hHolds : Holds m' x.ptr (x.append (gap m x r)).chunk b := by
    refine ⟨hx.ne_zero, by rw [hChunks, Function.update_self],
      hx.data_ne, by rw [hBlocks]; exact hx.block, ?_, hx.size, hx.bounded⟩
    show x.chunk.used + (gap m x r).length ≤ x.chunk.capacity
    omega
  have hLoad : m'.load x.chunk.data 0 (x.chunk.used + (gap m x r).length) =
      some (x.bytes ++ gap m x r) := by
    rw [load_congr (congrFun hBlocks _)]
    refine load_extend h.stored.suffix.2.2.2.1 ?_
    rw [hLength]
    exact hGap
  exact ⟨hOnly.refill h hHolds hLoad, hOnly⟩

theorem writeSeek_lands (len : Nat) (h : Filed s.memory p l)
    (hLand : landing l n = some (a, x, t, r)) (hFuel : l.length < fuel) (hn : n < 2 ^ 63) :
    writeSeek P len fuel n p s = .ok (some (x.ptr, r),
      if r = 0 then s
      else { s with memory := s.memory.setChunk x.ptr (x.append (gap s.memory x r)).chunk }) := by
  induction l generalizing n p a fuel with
  | nil => cases hLand
  | cons y l ih =>
    obtain ⟨fuel, rfl⟩ := Nat.exists_eq_add_one.mpr (Nat.zero_lt_of_lt hFuel)
    obtain ⟨b, hy⟩ := h.holds y List.mem_cons_self
    have hp : p = y.ptr := h.stored.1
    subst hp
    rw [landing] at hLand
    rw [writeSeek]
    rcases Nat.eq_zero_or_pos n with rfl | hPos
    · rw [if_pos (Or.inl rfl), Option.some.injEq, Prod.mk.injEq, Prod.mk.injEq,
        Prod.mk.injEq] at hLand
      obtain ⟨_, rfl, _, rfl⟩ := hLand
      rw [if_pos (by decide), if_pos rfl]
      rfl
    · have hSize : toSize (n : Int) = n := toSize_natCast (Nat.lt_trans hn (by decide))
      rw [if_neg (by omega), bind_ok (getChunkAt_ok hy.ne_zero hy.chunk), hSize]
      by_cases hHere : n < y.chunk.capacity
      · rw [if_pos (Or.inr hHere), Option.some.injEq, Prod.mk.injEq, Prod.mk.injEq,
          Prod.mk.injEq] at hLand
        obtain ⟨_, rfl, _, rfl⟩ := hLand
        have hUsed : (if n > y.chunk.used then n else y.chunk.used) =
            y.chunk.used + (gap s.memory y n).length := by
          rw [(hy.gap_eq (Nat.le_of_lt hHere)).2]
          split <;> omega
        rw [if_pos hHere, bind_ok (modifyChunk_ok hy.ne_zero hy.chunk),
          if_neg (Nat.ne_of_gt hPos), hUsed]
        rfl
      · rw [if_neg (by omega)] at hLand
        obtain ⟨⟨a', x', t', r'⟩, hRest, hEq⟩ := Option.map_eq_some_iff.mp hLand
        obtain ⟨_, rfl, rfl, rfl⟩ : y :: a' = a ∧ x' = x ∧ t' = t ∧ r' = r := by simpa using hEq
        have hTail := h.tail
        have hNext : y.chunk.next ≠ 0 := by
          intro hZero
          rw [hZero] at hTail
          rw [hTail.unique Filed.nil] at hRest
          cases hRest
        have hSub : (n : Int) - y.chunk.capacity = ((n - y.chunk.capacity : Nat) : Int) := by omega
        rw [if_neg hHere, if_neg hNext, hSub]
        exact ih hTail hRest (Nat.lt_of_succ_lt_succ hFuel) (by omega)

theorem fresh_filed {ptr data size : Nat} {fill : Nat → UInt8} {m₁ m' : Memory}
    (hNew : NewChunk m m₁ ptr data size fill) (hr : r ≤ size) (hSize : size < 2 ^ 64)
    (hChunk : m'.chunks ptr = some ⟨data, size, r, 0⟩)
    (hBlock : m'.blocks data = some ⟨size, fill, false⟩) :
    Filed m' ptr [.fresh ptr data size ((List.range r).map fill)] := by
  have hCount : ((List.range r).map fill).length = r := by simp
  have hFresh :
      Holds m' ptr ⟨data, size, ((List.range r).map fill).length, 0⟩ ⟨size, fill, false⟩ := by
    refine ⟨hNew.ptr_vacant.ne_zero, by rw [hChunk, hCount], hNew.data_vacant.ne_zero, hBlock, ?_,
      le_rfl, hSize⟩
    show ((List.range r).map fill).length ≤ size
    rw [hCount]
    exact hr
  have hLoad : m'.load data 0 ((List.range r).map fill).length =
      some ((List.range r).map fill) := by
    rw [hCount, load_block hNew.data_vacant.ne_zero hBlock (by simpa using hr)]
    simp
  exact Filed.cons hFresh hLoad Filed.nil (by simp)

theorem attach_filed {q ptr data size : Nat} {fill : Nat → UInt8} {m₁ : Memory} (m' : Memory)
    (h : Filed m q (a ++ x :: t)) (hNew : NewChunk m m₁ ptr data size fill) (hr : r ≤ size)
    (hSize : size < 2 ^ 64) (hChunks : m'.chunks =
      Function.update (Function.update m₁.chunks x.ptr (some { x.chunk with next := ptr })) ptr
        (some ⟨data, size, r, 0⟩))
    (hBlocks : m'.blocks = m₁.blocks) :
    let l' := a ++ [x.linked ptr, .fresh ptr data size ((List.range r).map fill)]
    (Filed m' q l' ∧ Changes m m' (a ++ x :: t) l') ∧ Only m m' x := by
  obtain ⟨b, hx⟩ := h.holds x (by simp)
  have hPtr : ptr ≠ x.ptr := hNew.ptr_vacant.ne_chunk hx.chunk
  have hData : data ≠ x.chunk.data := hNew.data_vacant.ne_block hx.block
  have hOnly : Only m m' x := by
    constructor
    · intro p c hp hNe
      have hpPtr := (hNew.ptr_vacant.ne_chunk hp).symm
      rw [hChunks, Function.update_of_ne hpPtr, Function.update_of_ne hNe, hNew.chunks,
        Function.update_of_ne hpPtr, hp]
    · intro p b hp _
      rw [hBlocks, hNew.blocks, Function.update_of_ne (hNew.data_vacant.ne_block hp).symm, hp]
  have hOldBlock : m'.blocks x.chunk.data = some b := by
    rw [hBlocks, hNew.blocks, Function.update_of_ne hData.symm, hx.block]
  have hOld : Holds m' x.ptr (x.linked ptr).chunk b := by
    refine ⟨hx.ne_zero, ?_, hx.data_ne, hOldBlock, hx.used, hx.size, hx.bounded⟩
    rw [hChunks, Function.update_of_ne hPtr.symm, Function.update_self]
    rfl
  have hOldLoad : m'.load x.chunk.data 0 x.chunk.used = some x.bytes := by
    rw [load_congr (hOldBlock.trans hx.block.symm)]
    exact h.stored.suffix.2.2.2.1
  have hNewBlock : m'.blocks data = some ⟨size, fill, false⟩ := by
    rw [hBlocks, hNew.blocks, Function.update_self]
  have hLast := fresh_filed hNew hr hSize (by rw [hChunks, Function.update_self]) hNewBlock
  exact ⟨hOnly.extend h hOld hOldLoad hLast ⟨hNew.ptr_vacant.2.2.1, hNew.data_vacant.2.2.2⟩, hOnly⟩

theorem chunkSize_lt (n : Nat) : chunkSize n < 2 ^ 64 := Nat.mod_lt _ (by decide)

/-- The block that is handed out for a gap of a given size holds zeros there. -/
def ZeroGap (P : Platform) (s : State) (size : Nat) : Prop :=
  ∀ g, P.answer s.memory s.requests (chunkSize size) 16 = some g → ∀ i < size, g.bytes i = 0

structure AppendsGap (P : Platform) (s s₁ s₂ s₃ : State) (q : Ptr) (a : List Piece) (x : Piece)
    (t : List Piece)
    (size r : Nat) (g : Grant) (ptr : Ptr) : Prop where
  answer : P.answer s.memory s.requests (chunkSize size) 16 = some g
  allocate : allocateFileChunk P size s = .ok (ptr, s₁)
  ne_zero : ptr ≠ 0
  link : modifyChunk x.ptr (fun c => { c with next := ptr }) s₁ = .ok ((), s₂)
  use : modifyChunk ptr (fun c => { c with used := r }) s₂ = .ok ((), s₃)
  table : s₃.openFiles = s.openFiles
  files : s₃.memory.files = s.memory.files
  filed : Filed s₃.memory q
    (a ++ [x.linked ptr, .fresh ptr g.ptr (chunkSize size) ((List.range r).map g.bytes)])
  changes : Changes s.memory s₃.memory (a ++ x :: t)
    (a ++ [x.linked ptr, .fresh ptr g.ptr (chunkSize size) ((List.range r).map g.bytes)])
  only : Only s.memory s₃.memory x
  vacant : s.memory.chunks ptr = none ∧ s.memory.blocks g.ptr = none
  alive : ∀ p, s.memory.chunks p ≠ none → s₃.memory.chunks p ≠ none
  limit : s.memory.limit ≤ s₃.memory.limit

theorem appendGap_ok {q size : Nat} (hGrants : P.GrantsPair s.requests)
    (hl : Filed s.memory q (a ++ x :: t)) (hPos : 0 < chunkSize size) (hRoom : r ≤ chunkSize size) :
    ∃ g ptr s₁ s₂ s₃, AppendsGap P s s₁ s₂ s₃ q a x t size r g ptr := by
  obtain ⟨g, ptr, s₁, hAnswer, hAlloc, hTable, hNew⟩ := allocateFileChunk_ok (s := s) hGrants hPos
  obtain ⟨b, hx⟩ := hl.holds x (by simp)
  have hPtr : ptr ≠ x.ptr := hNew.ptr_vacant.ne_chunk hx.chunk
  have hOld : s₁.memory.chunks x.ptr = some x.chunk := by
    rw [hNew.chunks, Function.update_of_ne hPtr.symm, hx.chunk]
  set s₂ : State := { s₁ with memory := s₁.memory.setChunk x.ptr { x.chunk with next := ptr } }
  have hFresh : s₂.memory.chunks ptr = some ⟨g.ptr, chunkSize size, 0, 0⟩ := by
    show Function.update s₁.memory.chunks x.ptr _ ptr = _
    rw [Function.update_of_ne hPtr, hNew.chunks, Function.update_self]
  set s₃ : State := { s₂ with memory := s₂.memory.setChunk ptr ⟨g.ptr, chunkSize size, r, 0⟩ }
  obtain ⟨⟨hFiled, hChanges⟩, hOnly⟩ :=
    attach_filed s₃.memory hl hNew hRoom (chunkSize_lt _) rfl rfl
  refine ⟨g, ptr, s₁, s₂, s₃, hAnswer, hAlloc, hNew.ptr_vacant.ne_zero,
    modifyChunk_ok hx.ne_zero hOld, modifyChunk_ok hNew.ptr_vacant.ne_zero hFresh, hTable,
    hNew.files, hFiled, hChanges, hOnly, ⟨hNew.ptr_vacant.2.2.1, hNew.data_vacant.2.2.2⟩,
    fun p hp => ?_, hNew.limit.trans ((Nat.le_max_left _ _).trans (Nat.le_max_left _ _))⟩
  show Function.update (Function.update s₁.memory.chunks x.ptr _) ptr _ p ≠ none
  rw [hNew.chunks]
  by_cases hAtPtr : p = ptr
  · rw [hAtPtr, Function.update_self]
    exact Option.some_ne_none _
  · by_cases hAtLast : p = x.ptr
    · rw [Function.update_of_ne hAtPtr, hAtLast, Function.update_self]
      exact Option.some_ne_none _
    · rwa [Function.update_of_ne hAtPtr, Function.update_of_ne hAtLast,
        Function.update_of_ne hAtPtr]

theorem writeSeek_beyond (len : Nat) (h : Filed s.memory p l) (hLand : landing l n = none)
    (hne : l ≠ []) (hFuel : l.length < fuel) (hn : n < 2 ^ 63) :
    ∃ a x, l = a ++ [x] ∧ writeSeek P len fuel n p s =
      (do
        let newChunk ← allocateFileChunk P (add64 (n - caps l) len)
        if newChunk = 0 then pure none
        else do
          modifyChunk x.ptr fun c => { c with next := newChunk }
          modifyChunk newChunk fun c => { c with used := n - caps l }
          pure (some (newChunk, n - caps l)) : M (Option (Ptr × Nat))) s := by
  induction l generalizing n p fuel with
  | nil => exact absurd rfl hne
  | cons y l ih =>
    obtain ⟨fuel, rfl⟩ := Nat.exists_eq_add_one.mpr (Nat.zero_lt_of_lt hFuel)
    obtain ⟨b, hy⟩ := h.holds y List.mem_cons_self
    have hp : p = y.ptr := h.stored.1
    subst hp
    rw [landing] at hLand
    split at hLand
    · cases hLand
    · rename_i hThere
      have hSize : toSize (n : Int) = n := toSize_natCast (Nat.lt_trans hn (by decide))
      have hTail := h.tail
      have hSub : (n : Int) - y.chunk.capacity = ((n - y.chunk.capacity : Nat) : Int) := by omega
      rw [writeSeek, if_neg (by omega), bind_ok (getChunkAt_ok hy.ne_zero hy.chunk), hSize,
        if_neg (by omega), hSub, toSize_natCast (by omega)]
      cases l with
      | nil =>
        have hNext : y.chunk.next = 0 := hTail.stored
        refine ⟨[], y, rfl, ?_⟩
        rw [if_pos hNext]
        simp only [caps_cons, caps_nil, Nat.add_zero]
      | cons z l =>
        have hNext : y.chunk.next ≠ 0 := hTail.stored.2.1
        obtain ⟨a, x, hSplit, hSeek⟩ := ih hTail (Option.map_eq_none_iff.mp hLand) (by simp)
          (Nat.lt_of_succ_lt_succ hFuel) (by omega)
        refine ⟨y :: a, x, by rw [hSplit]; rfl, ?_⟩
        have hCaps : n - y.chunk.capacity - caps (z :: l) = n - caps (y :: z :: l) := by
          rw [caps_cons y]
          omega
        rw [if_neg hNext, hSeek, hCaps]

end Seek

section Start

variable {o : OpenFile} {f : DFile} {offset : Int}

/-- The pieces among which the copy starts, and the piece it starts at. -/
inductive StartsAt (P : Platform) (s : State) (len : Nat) :
    List Piece → Nat → List Piece → Piece → List Piece → Prop
  | empty (n : Nat) (ptr data : Ptr) :
      StartsAt P s len [] n [] (.fresh ptr data (chunkSize (n + len)) []) []
  | inside {l a t : List Piece} {x : Piece} {n r : Nat} : landing l n = some (a, x, t, r) →
    StartsAt P s len l n a (x.append (gap s.memory x r)) t
  | behind {a : List Piece} {x : Piece} {n : Nat} {g : Grant} (ptr : Ptr) :
      landing (a ++ [x]) n = none →
    P.answer s.memory s.requests (chunkSize (n - caps (a ++ [x]) + len)) 16 = some g →
    StartsAt P s len (a ++ [x]) n (a ++ [x.linked ptr])
      (.fresh ptr g.ptr (chunkSize (n - caps (a ++ [x]) + len))
        ((List.range (n - caps (a ++ [x]))).map g.bytes)) []

theorem first_filed {m₁ : Memory} (m' : Memory) {ptr data size : Nat} {fill : Nat → UInt8}
    (hNew : NewChunk m m₁ ptr data size fill) (hr : r ≤ size) (hSize : size < 2 ^ 64)
    (hChunks : m'.chunks = Function.update m.chunks ptr (some ⟨data, size, r, 0⟩))
    (hBlocks : m'.blocks = m₁.blocks) :
    Filed m' ptr [.fresh ptr data size ((List.range r).map fill)] ∧
      Changes m m' [] [.fresh ptr data size ((List.range r).map fill)] := by
  rw [hNew.blocks] at hBlocks
  refine ⟨fresh_filed hNew hr hSize (by rw [hChunks, Function.update_self])
    (by rw [hBlocks, Function.update_self]), ?_⟩
  constructor
  · intro p c hp _
    rw [hChunks, Function.update_of_ne (hNew.ptr_vacant.ne_chunk hp).symm, hp]
  · intro p b hp _
    rw [hBlocks, Function.update_of_ne (hNew.data_vacant.ne_block hp).symm, hp]
  · intro y hy
    obtain rfl := List.mem_singleton.mp hy
    exact Or.inr hNew.ptr_vacant.2.2.1
  · intro y hy
    obtain rfl := List.mem_singleton.mp hy
    exact Or.inr hNew.data_vacant.2.2.2

/-- The piece that a write at an offset changes or continues. -/
def touched (l : List Piece) (n : Nat) : Option Piece :=
  match landing l n with
  | some (_, x, _, _) => some x
  | none => l.getLast?

/-- Of what was there, only this piece has changed. -/
structure Spares (m m' : Memory) (w : Option Piece) : Prop where
  chunks : ∀ p c, m.chunks p = some c → (∀ y ∈ w, p ≠ y.ptr) → m'.chunks p = some c
  blocks : ∀ p b, m.blocks p = some b → (∀ y ∈ w, p ≠ y.chunk.data) → m'.blocks p = some b

theorem Only.spares {m' : Memory} (h : Only m m' x) : Spares m m' (some x) :=
  ⟨fun p c hp hNe => h.chunks p c hp (hNe x rfl), fun p b hp hNe => h.blocks p b hp (hNe x rfl)⟩

theorem Spares.only {m₁ m' : Memory} {w : Option Piece} (h : Spares m m₁ w) (hOnly : Only m₁ m' x)
    (hx : (∃ y ∈ w, x.ptr = y.ptr ∧ x.chunk.data = y.chunk.data) ∨
      m.chunks x.ptr = none ∧ m.blocks x.chunk.data = none) : Spares m m' w := by
  refine ⟨fun p c hp hNe => hOnly.chunks p c (h.chunks p c hp hNe) ?_,
    fun p b hp hNe => hOnly.blocks p b (h.blocks p b hp hNe) ?_⟩
  all_goals
    rintro rfl
    rcases hx with ⟨y, hy, hPtr, hData⟩ | ⟨hChunk, hBlock⟩
  · exact hNe y hy hPtr
  · rw [hChunk] at hp
    cases hp
  · exact hNe y hy hData
  · rw [hBlock] at hp
    cases hp

structure ReadyAt (s s₁ : State) (file : Ptr) (f : DFile) (l a : List Piece) (x : Piece)
    (t : List Piece) (w : Option Piece) : Prop where
  spares : Spares s.memory s₁.memory w
  origin : (∃ y ∈ w, x.ptr = y.ptr ∧ x.chunk.data = y.chunk.data) ∨
    s.memory.chunks x.ptr = none ∧ s.memory.blocks x.chunk.data = none
  openFiles : s₁.openFiles = s.openFiles
  files : ∃ link, s₁.memory.files =
    Function.update s.memory.files file (some { f with link := link }) ∧
    Filed s₁.memory link (a ++ x :: t)
  changes : Changes s.memory s₁.memory l (a ++ x :: t)

theorem writeStart_new (options : Nat) (offset : Int) {size : Nat}
    (hGrants : P.GrantsPair s.requests) (hOpen : o.file ≠ 0)
    (hNode : s.memory.files o.file = some f) (hLink : f.link = 0)
    (hSize : (if hasBit options useOffset then toSize (offset + len) else len) = size)
    (hPos : 0 < chunkSize size) :
    ∃ (g : Grant) (ptr : Ptr) (s₀ : State), allocateFileChunk P size s = .ok (ptr, s₀) ∧
      s₀.openFiles = s.openFiles ∧
      NewChunk s.memory s₀.memory ptr g.ptr (chunkSize size) g.bytes ∧
      writeStart P o f len offset options s =
        .ok (some (ptr, 0),
          { s₀ with memory := s₀.memory.setFile o.file { f with link := ptr } }) := by
  obtain ⟨g, ptr, s₀, _, hAlloc, hTable, hNew⟩ := allocateFileChunk_ok (s := s) hGrants hPos
  have hNode' : s₀.memory.files o.file = some f := by rw [hNew.files, hNode]
  refine ⟨g, ptr, s₀, hAlloc, hTable, hNew, ?_⟩
  rw [writeStart, if_pos hLink, hSize, bind_ok hAlloc, bind_ok (modifyFile_ok hOpen hNode')]
  rfl

theorem writeStart_empty (options : Nat) (offset : Int) {size : Nat}
    (hGrants : P.GrantsPair s.requests) (hOpen : o.file ≠ 0)
    (hNode : s.memory.files o.file = some f) (hLink : f.link = 0)
    (hSize : (if hasBit options useOffset then toSize (offset + len) else len) = size)
    (hPos : 0 < chunkSize size) :
    ∃ ptr data s₁, writeStart P o f len offset options s = .ok (some (ptr, 0), s₁) ∧
      ReadyAt s s₁ o.file f [] [] (.fresh ptr data (chunkSize size) []) [] none := by
  obtain ⟨g, ptr, s₀, -, hTable, hNew, hStart⟩ :=
    writeStart_new options offset hGrants hOpen hNode hLink hSize hPos
  set s₁ : State := { s₀ with memory := s₀.memory.setFile o.file { f with link := ptr } }
  obtain ⟨hFiled, hChanges⟩ :=
    first_filed s₁.memory hNew (Nat.zero_le _) (chunkSize_lt size) hNew.chunks rfl
  refine ⟨ptr, g.ptr, s₁, hStart, ⟨?_, ?_⟩, Or.inr ⟨hNew.ptr_vacant.2.2.1, hNew.data_vacant.2.2.2⟩,
    hTable, ⟨ptr, ?_, hFiled⟩, hChanges⟩
  · exact fun p c hp _ => hChanges.chunks p c hp fun _ hx => absurd hx List.not_mem_nil
  · exact fun p b hp _ => hChanges.blocks p b hp fun _ hx => absurd hx List.not_mem_nil
  show Function.update s₀.memory.files o.file _ = _
  rw [hNew.files]

theorem writeStart_move {options : Nat} (len : Nat) (offset : Int) (hLink : f.link ≠ 0)
    (hUse : hasBit options useOffset = false) :
    writeStart P o f len offset options s =
      .ok (some (if o.currentChunk = 0 then f.link else o.currentChunk, 0), s) := by
  rw [writeStart, if_neg hLink, if_neg (by simp [hUse])]
  rfl

theorem writeSeek_ready {file : Ptr} (hNode : s.memory.files file = some f)
    (hl : Filed s.memory f.link l) (hLand : landing l n = some (a, x, t, r)) :
    ReadyAt s (if r = 0 then s
      else { s with memory := s.memory.setChunk x.ptr (x.append (gap s.memory x r)).chunk })
      file f l a (x.append (gap s.memory x r)) t (touched l n) := by
  obtain ⟨rfl, _, hInside⟩ := landing_eq hLand
  have hSame : Function.update s.memory.files file (some { f with link := f.link }) =
      s.memory.files := by
    rw [← hNode, Function.update_eq_self]
  have hTouched : touched (a ++ x :: t) n = some x := by rw [touched, hLand]
  have hOrigin : ∀ {v : Piece}, v.ptr = x.ptr → v.chunk.data = x.chunk.data →
      (∃ y ∈ touched (a ++ x :: t) n, v.ptr = y.ptr ∧ v.chunk.data = y.chunk.data) ∨
        s.memory.chunks v.ptr = none ∧ s.memory.blocks v.chunk.data = none :=
    fun hPtr hData => Or.inl ⟨x, hTouched, hPtr, hData⟩
  by_cases hr : r = 0
  · -- nothing is extended: the piece stays what it is
    have hGap : gap s.memory x r = [] := by
      rw [gap, hr, Nat.zero_sub]
      rfl
    have hPiece : x.append (gap s.memory x r) = x := by
      rw [hGap, Piece.append, List.append_nil]
      rfl
    rw [if_pos hr, hPiece]
    exact ⟨⟨fun _ _ hp _ => hp, fun _ _ hp _ => hp⟩, hOrigin rfl rfl, rfl,
      ⟨f.link, hSame.symm, hl⟩, Changes.refl _ _⟩
  · rw [if_neg hr]
    obtain ⟨⟨hFiled, hChanges⟩, hOnly⟩ := extend_filed
      (s.memory.setChunk x.ptr (x.append (gap s.memory x r)).chunk) hl
      (Nat.le_of_lt (hInside.resolve_left hr)) rfl rfl
    exact ⟨hTouched ▸ hOnly.spares, hOrigin rfl rfl, rfl, ⟨f.link, hSame.symm, hFiled⟩, hChanges⟩

theorem writeStart_use {options : Nat} (hGrants : landing l n = none → P.GrantsPair s.requests)
    (hOpen : o.file ≠ 0) (hNode : s.memory.files o.file = some f)
    (hUse : hasBit options useOffset = true) (hl : Filed s.memory f.link l) (hn : n < 2 ^ 63)
    (hLen : len < 2 ^ 62) (hPos : landing l n = none → 0 < n - caps l + len) :
    ∃ a x t r s₁, writeStart P o f len n options s = .ok (some (x.ptr, r), s₁) ∧
      StartsAt P s len l n a x t ∧
      (landing l n ≠ none → s₁.requests = s.requests ∧ s₁.memory.blocks = s.memory.blocks) ∧
      ReadyAt s s₁ o.file f l a x t (touched l n) := by
  by_cases hEmpty : l = []
  · subst hEmpty
    have hSum : toSize ((n : Int) + len) = n + len := by
      have hCast : (n : Int) + len = ((n + len : Nat) : Int) := by push_cast; rfl
      rw [hCast, toSize_natCast (by omega)]
    have hSize : 0 < chunkSize (n + len) := by
      have hSome : 0 < n - 0 + len := hPos rfl
      simp only [chunkSize, fsChunkSize, add64, sub64, mul64]
      omega
    obtain ⟨ptr, data, s₁, hStart, hReady⟩ := writeStart_empty (s := s) options n (hGrants rfl)
      hOpen hNode hl.stored (by rw [if_pos hUse, hSum]) hSize
    exact ⟨[], _, [], 0, s₁, hStart, .empty n ptr data, fun hLand => absurd rfl hLand, hReady⟩
  · have hLink : f.link ≠ 0 := by
      obtain ⟨y, l', rfl⟩ := List.exists_cons_of_ne_nil hEmpty
      exact hl.stored.2.1
    have hFuel : l.length < s.memory.limit + 1 := Nat.lt_succ_of_le hl.stored.length_le
    have hStart : writeStart P o f len n options s =
        writeSeek P len (s.memory.limit + 1) n f.link s := by
      rw [writeStart, if_neg hLink, if_pos hUse, bind_ok steps_ok]
    rw [hStart]
    cases hLand : landing l n with
    | some place =>
      obtain ⟨a, x, t, r⟩ := place
      have hSeek := writeSeek_lands (P := P) len hl hLand hFuel hn
      refine ⟨a, x.append (gap s.memory x r), t, r, _, hSeek, .inside hLand, fun _ => ?_,
        writeSeek_ready hNode hl hLand⟩
      split <;> exact ⟨rfl, rfl⟩
    | none =>
      obtain ⟨a, x, rfl, hSeek⟩ := writeSeek_beyond (P := P) len hl hLand hEmpty hFuel hn
      have hSome := hPos hLand
      set r := n - caps (a ++ [x]) with hr
      have hSum : add64 r len = r + len := add64_of_lt (by omega)
      have hSize : 0 < chunkSize (r + len) := by
        simp only [chunkSize, fsChunkSize, add64, sub64, mul64]
        omega
      have hRoom : r ≤ chunkSize (r + len) := by
        simp only [chunkSize, fsChunkSize, add64, sub64, mul64]
        omega
      obtain ⟨g, ptr, s₁, s₂, s₃, hGap⟩ := appendGap_ok (s := s) (hGrants hLand) hl hSize hRoom
      have hTouched : touched (a ++ [x]) n = some x := by rw [touched, hLand, List.getLast?_concat]
      refine ⟨a ++ [x.linked ptr], _, [], r, s₃, ?_, .behind ptr hLand hGap.answer,
        fun h => absurd rfl h, hTouched ▸ hGap.only.spares, Or.inr hGap.vacant, hGap.table,
        ⟨f.link, ?_, ?_⟩, ?_⟩
      · rw [hSeek, hSum, bind_ok hGap.allocate, if_neg hGap.ne_zero, bind_ok hGap.link,
          bind_ok hGap.use]
        rfl
      · rw [show { f with link := f.link } = f from rfl, ← hNode, Function.update_eq_self]
        exact hGap.files
      · rw [List.append_assoc]
        exact hGap.filed
      · rw [List.append_assoc]
        exact hGap.changes

end Start

end Dandelion.FileSystem
