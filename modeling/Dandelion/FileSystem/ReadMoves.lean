import Dandelion.FileSystem.ReadCall

/-! # Reading and moving

What a read should do, and when it does if it moves the offset: from the start of the
file, from a place in its list, and from a place that a truncation left behind.
-/

namespace Dandelion.FileSystem

open Foundation.Words Foundation.Triples

variable {P : Platform} {s : State} {fd : Int} {o : OpenFile} {f : DFile} {m : Memory} {len : Nat}

section Laws

def ReadsAndMoves (P : Platform) (s : State) (fd : Int) (o : OpenFile) (f : DFile) (len : Nat)
    (offset : Int) : Prop :=
  ∃ c p, content s.memory f.link = some c ∧ position s.memory f o = some p ∧
    ∃ s', dandelionRead P fd len offset moveOffset s =
        .ok (((min len (c.length - p) : Nat), Stores.empty.put 0 ((c.drop p).take len)), s') ∧
      content s'.memory f.link = some c ∧
      position s'.memory f (s'.openFiles fd.toNat) = some (p + min len (c.length - p))

def ReadsAt (P : Platform) (s : State) (fd : Int) (f : DFile) (len : Nat) (offset : Int) : Prop :=
  ∃ c, content s.memory f.link = some c ∧
    ∃ s', dandelionRead P fd len offset useOffset s =
        .ok (((min len (c.length - offset.toNat) : Nat),
          Stores.empty.put 0 ((c.drop offset.toNat).take len)), s') ∧
      content s'.memory f.link = some c ∧ s'.openFiles fd.toNat = s.openFiles fd.toNat

/-- The chunk list and the descriptor are intact, and either all bytes after the
position fit into the buffer or the chunk at the position has more than that left.
A descriptor left behind by a truncation reads the right bytes only by accident. -/
def CanReadAndMove (m : Memory) (f : DFile) (o : OpenFile) (len : Nat) : Prop :=
  ∃ l p, pieces m f.link = some l ∧ position m f o = some p ∧
    ((∀ x ∈ l, x.ptr = o.currentChunk → o.offset ≤ x.chunk.used) ∧
        ((flat l).length - p ≤ len ∨ len < stretch l p) ∨
      ∃ x ∈ l, x.ptr = o.currentChunk ∧ x.chunk.used < o.offset ∧
        (len = 0 ∨ p + len ≤ (flat l).length ∧
          m.load x.chunk.data o.offset len = some (((flat l).drop p).take len)))

/-- The same for a given offset; an empty file must not be read at its start. -/
def CanReadAt (m : Memory) (f : DFile) (len offset : Nat) : Prop :=
  ∃ l, pieces m f.link = some l ∧ (l ≠ [] ∨ 0 < offset ∨ len = 0) ∧
    ((flat l).length - offset ≤ len ∨ len < stretch l offset)

theorem length_take_drop (c : List UInt8) (p : Nat) :
    ((c.drop p).take len).length = min len (c.length - p) := by
  rw [List.length_take, List.length_drop]

theorem content_eq_some {p : Ptr} {c : List UInt8} (h : content m p = some c) :
    ∃ l, Stored m p l ∧ c = flat l := by
  obtain ⟨l, hl, rfl⟩ := Option.map_eq_some_iff.mp h
  exact ⟨l, pieces_eq_some.mp hl, rfl⟩

theorem load_fails {q : Ptr} {i count : Nat} (hWords : s.memory.Words) (hCount : 0 < count)
    (h : 2 ^ 64 ≤ i + count ∨ s.memory.load q i count = none) :
    s.memory.load q i count = none ∧ ∃ e, loadBytes q i count s = .error e := by
  have hne : count ≠ 0 := Nat.ne_of_gt hCount
  rw [Memory.load, if_neg hne] at h ⊢
  rw [loadBytes, if_neg hne]
  by_cases hq : q = 0
  · refine ⟨if_pos hq, .null, bind_error ?_⟩
    simp only [getBlockAt, readAt, if_pos hq]
  · rw [if_neg hq] at h ⊢
    cases hBlock : s.memory.blocks q with
    | none =>
      refine ⟨rfl, .invalid, bind_error ?_⟩
      simp only [getBlockAt, readAt, if_neg hq, hBlock]
    | some block =>
      have hSize := hWords.size _ _ hBlock
      rw [hBlock, Option.bind_some] at h
      have hBig : ¬ i + count ≤ block.size := by
        intro hLe
        rcases h with h | h
        · omega
        · rw [if_pos hLe] at h
          cases h
      refine ⟨by rw [Option.bind_some, if_neg hBig], .bounds, ?_⟩
      have hRead : getBlockAt q s = .ok (block, s) := by
        simp only [getBlockAt, readAt, if_neg hq, hBlock]
      rw [bind_ok hRead, if_neg hBig]
      rfl

theorem load_size {q : Ptr} {i count : Nat} {bytes : List UInt8} (hWords : s.memory.Words)
    (hCount : 0 < count) (h : s.memory.load q i count = some bytes) : i + count < 2 ^ 64 := by
  by_contra hBig
  have hNone := (load_fails (q := q) hWords hCount (Or.inl (Nat.le_of_not_lt hBig))).1
  rw [h] at hNone
  cases hNone

end Laws

section Moving

variable {l a b : List Piece} {z : Piece} {offset : Int} {i p options : Nat} {q : Ptr}

/-- A read that returns and stores the bytes after the position, as many as fit. -/
def Reads (x : M (Int × Stores)) (s : State) (c : List UInt8) (p len : Nat)
    (after : State → Prop) : Prop :=
  ∃ s', x s = .ok (((min len (c.length - p) : Nat), Stores.empty.put 0 ((c.drop p).take len)), s') ∧
    after s'

/-- The file has its bytes and the descriptor has moved behind those that were read. -/
def MovedOn (fd : Int) (f : DFile) (l : List Piece) (p len : Nat) (s' : State) : Prop :=
  content s'.memory f.link = some (flat l) ∧
    position s'.memory f (s'.openFiles fd.toNat) = some (p + min len ((flat l).length - p))

def MovesAt (m : Memory) (o : OpenFile) (l : List Piece) (p len : Nat) : Prop :=
  (∀ x ∈ l, x.ptr = o.currentChunk → o.offset ≤ x.chunk.used) ∧ Within l p len ∨
    ∃ x ∈ l, x.ptr = o.currentChunk ∧ x.chunk.used < o.offset ∧
      (len = 0 ∨ p + len ≤ (flat l).length ∧
        m.load x.chunk.data o.offset len = some (((flat l).drop p).take len))

theorem placedAt_of_split (hUsed : ∀ x ∈ l, x.chunk.used < 2 ^ 64) (h : Stored s.memory q l)
    (hSplit : l = a ++ z :: b) (hi : i ≤ z.chunk.used) :
    PlacedAt s z.ptr (z :: b) i ∧ (z :: b).length ≤ s.memory.limit + 1 := by
  subst hSplit
  have hSuffix := h.suffix
  refine ⟨⟨hSuffix, fun x hx => hUsed x (by simp [List.mem_cons.mp hx]), by simp, ?_⟩,
    Nat.le_succ_of_le hSuffix.length_le⟩
  intro x rest hEq
  obtain ⟨rfl, rfl⟩ := List.cons.inj hEq
  exact hi

theorem readFrom_good (hRange : 0 ≤ fd ∧ fd < fsMaxFiles) (hUsed : ∀ x ∈ l, x.chunk.used < 2 ^ 64)
    (h : Stored s.memory q l) (hSplit : l = a ++ z :: b) (hi : i ≤ z.chunk.used)
    (hp : p = (flat a).length + i) (hLen : len < 2 ^ 31) (hGood : Within l p len) :
    ∃ a' z' b' j, l = a' ++ z' :: b' ∧ j ≤ z'.chunk.used ∧
      (flat a').length + j = p + min len ((flat l).length - p) ∧
      readFrom fd o len options z.ptr i s = .ok (((min len ((flat l).length - p) : Nat),
        Stores.empty.put 0 (((flat l).drop p).take len)), s.readTo fd o options z'.ptr j) := by
  obtain ⟨hPlaced, hFuel⟩ := placedAt_of_split hUsed h hSplit hi
  subst hSplit hp
  rw [within_append] at hGood
  obtain ⟨a', z', b', j, hSplit, hj, hPlace, hLoop⟩ := readLoop_exact hPlaced hFuel hLen hGood
  have hRest : (flat (a ++ z :: b)).drop ((flat a).length + i) = (flat (z :: b)).drop i := by
    rw [flat_append, List.drop_append]
    simp
  rw [← length_take_drop, hRest]
  refine ⟨a ++ a', z', b', j, by rw [hSplit, List.append_assoc], hj, ?_,
    readFrom_of_loop hRange hLoop⟩
  rw [flat_append, List.length_append]
  omega

theorem readFrom_iff {after : State → Prop} (hRange : 0 ≤ fd ∧ fd < fsMaxFiles)
    (hWords : s.memory.Words) (h : Stored s.memory f.link l) (hSplit : l = a ++ z :: b)
    (hi : i ≤ z.chunk.used) (hp : p = (flat a).length + i) (hLen : len < 2 ^ 31)
    (hAfter : ∀ a' z' b' j, l = a' ++ z' :: b' →
      (flat a').length + j = p + min len ((flat l).length - p) →
        after (s.readTo fd o options z'.ptr j)) :
    Reads (readFrom fd o len options z.ptr i) s (flat l) p len after ↔ Within l p len := by
  have hUsed : ∀ x ∈ l, x.chunk.used < 2 ^ 64 := fun x hx => hWords.used _ _ (h.chunk_eq hx)
  constructor
  · rintro ⟨s', hRead, -⟩
    by_contra hBad
    obtain ⟨hPlaced, hFuel⟩ := placedAt_of_split hUsed h hSplit hi
    subst hSplit hp
    rw [within_append] at hBad
    obtain ⟨r, hLoop, hStored⟩ := readLoop_inexact hPlaced hFuel hLen hBad
    rw [readFrom_of_loop hRange hLoop, Except.ok.injEq, Prod.mk.injEq, Prod.mk.injEq] at hRead
    rw [hRead.1.2, put_beyond] at hStored
    exact hStored rfl
  · intro hGood
    obtain ⟨a', z', b', j, hSplit', -, hPlace, hRun⟩ :=
      readFrom_good hRange hUsed h hSplit hi hp hLen hGood
    exact ⟨_, hRun, hAfter a' z' b' j hSplit' hPlace⟩

theorem readFrom_moves_iff (hRange : 0 ≤ fd ∧ fd < fsMaxFiles) (hWords : s.memory.Words)
    (h : Stored s.memory f.link l) (hSplit : l = a ++ z :: b) (hi : i ≤ z.chunk.used)
    (hp : p = (flat a).length + i) (hLen : len < 2 ^ 31) :
    Reads (readFrom fd o len moveOffset z.ptr i) s (flat l) p len (MovedOn fd f l p len) ↔
      Within l p len := by
  refine readFrom_iff hRange hWords h hSplit hi hp hLen fun a' z' b' j hSplit' hPlace =>
    ⟨h.content_eq, ?_⟩
  rw [← hPlace, State.readTo, if_pos (by decide)]
  simp only [Function.update_self]
  exact position_at (hSplit' ▸ h) rfl

theorem readLoop_stale (hWords : s.memory.Words) (h : Stored s.memory f.link l) (hz : z ∈ l)
    (hStale : z.chunk.used < i) (hi : i < 2 ^ 64) (hLen : len < 2 ^ 31) (hPos : 0 < len) :
    (∃ bytes, s.memory.load z.chunk.data i len = some bytes ∧
      readLoop (toInt32 len) (s.memory.limit + 1) 0 Stores.empty z.ptr i s =
        .ok (((len : Int), Stores.empty.put 0 bytes, z.ptr, i + len), s)) ∨
    (s.memory.load z.chunk.data i len = none ∧
      ∃ e, readLoop (toInt32 len) (s.memory.limit + 1) 0 Stores.empty z.ptr i s = .error e) := by
  have hChunk := h.chunk_eq hz
  have hWord := hWords.used _ _ hChunk
  have hne : z.ptr ≠ 0 := h.chain.ne_zero (List.mem_map.mpr ⟨z, hz, rfl⟩)
  have hNeed : toInt32 len = len := toInt32_of_small (by omega) (by omega)
  have hSize : toSize (len : Int) = len := by
    rw [toSize_of_small (by omega) (by omega), Int.toNat_natCast]
  rw [readLoop, bind_ok (getChunkAt_ok hne hChunk), hNeed, hSize, sub64_of_lt hi hStale]
  have hOutside : ∀ count, 0 < count →
      (2 ^ 64 ≤ i + count ∨ s.memory.load z.chunk.data i count = none) →
      s.memory.load z.chunk.data i count = none ∧
        ∃ e, loadBytes z.chunk.data i count s = .error e := by
    intro count hCount hOut
    exact load_fails hWords hCount hOut
  by_cases hLong : len < 2 ^ 64 - (i - z.chunk.used)
  · rw [if_pos hLong]
    cases hLoad : s.memory.load z.chunk.data i len with
    | some bytes =>
      have hFit := load_size hWords hPos hLoad
      refine Or.inl ⟨bytes, rfl, ?_⟩
      rw [bind_ok (loadBytes_ok hLoad), add64_of_lt hFit, Int.zero_add,
        toInt32_of_small (by omega) (by omega)]
      rfl
    | none =>
      obtain ⟨_, e, he⟩ := hOutside len hPos (Or.inr hLoad)
      exact Or.inr ⟨rfl, e, bind_error he⟩
  · rw [if_neg hLong]
    obtain ⟨_, e, he⟩ := hOutside (2 ^ 64 - (i - z.chunk.used)) (by omega) (Or.inl (by omega))
    exact Or.inr ⟨(hOutside len hPos (Or.inl (by omega))).1, e, bind_error he⟩

theorem readFrom_stale_iff (hRange : 0 ≤ fd ∧ fd < fsMaxFiles) (hWords : s.memory.Words)
    (h : Stored s.memory f.link l) (hSplit : l = a ++ z :: b) (hStale : z.chunk.used < o.offset)
    (hi : o.offset < 2 ^ 64) (hp : p = (flat a).length + o.offset) (hLen : len < 2 ^ 31)
    (hPos : 0 < len) :
    Reads (readFrom fd o len moveOffset z.ptr o.offset) s (flat l) p len (MovedOn fd f l p len) ↔
      (p + len ≤ (flat l).length ∧
        s.memory.load z.chunk.data o.offset len = some (((flat l).drop p).take len)) := by
  have hz : z ∈ l := by rw [hSplit]; simp
  rw [Reads]
  rcases readLoop_stale hWords h hz hStale hi hLen hPos with ⟨bytes, hLoad,
      hLoop⟩ | ⟨hLoad, e, hLoop⟩
  · have hCount := load_length hLoad
    rw [readFrom_of_loop hRange hLoop, hLoad, Option.some.injEq]
    constructor
    · rintro ⟨s', hRead, -⟩
      rw [Except.ok.injEq, Prod.mk.injEq, Prod.mk.injEq] at hRead
      obtain ⟨⟨hn, hStores⟩, _⟩ := hRead
      have hAll : p + len ≤ (flat l).length := by
        have hMin : (len : Int) = (min len ((flat l).length - p) : Nat) := hn
        omega
      refine ⟨hAll, put_injective ?_ hStores⟩
      rw [hCount, length_take_drop]
      omega
    · rintro ⟨hAll, rfl⟩
      have hMin : min len ((flat l).length - p) = len := by omega
      refine ⟨s.readTo fd o moveOffset z.ptr (o.offset + len), by rw [hMin], h.content_eq, ?_⟩
      rw [hMin, State.readTo, if_pos (by decide)]
      simp only [Function.update_self]
      rw [hp, Nat.add_assoc]
      exact position_at (hSplit ▸ h) rfl
  · rw [readFrom_fault hLoop, hLoad]
    simp

theorem dandelionRead_zero_iff (h : ReadableAt s fd o f) (hl : Stored s.memory f.link l)
    (hp : position s.memory f o = some p) :
    Reads (dandelionRead P fd 0 offset moveOffset) s (flat l) p 0 (MovedOn fd f l p 0) ↔
      MovesAt s.memory o l p 0 := by
  refine iff_of_true ⟨s, ?_, hl.content_eq, ?_⟩ ?_
  · rw [dandelionRead_zero h, Nat.zero_min, List.take_zero, Stores.put_nil]
    rfl
  · rw [h.entry, hp, Nat.zero_min, Nat.add_zero]
  · by_cases hValid : ∀ x ∈ l, x.ptr = o.currentChunk → o.offset ≤ x.chunk.used
    · exact Or.inl ⟨hValid, within_zero l p⟩
    · push Not at hValid
      obtain ⟨x, hx, hxPtr, hStale⟩ := hValid
      exact Or.inr ⟨x, hx, hxPtr, hStale, Or.inl rfl⟩

theorem dandelionRead_start_iff (h : ReadableAt s fd o f) (hWords : s.memory.Words)
    (hLen : len < 2 ^ 31) (hPos : 0 < len) (hl : Stored s.memory f.link l)
    (hp : position s.memory f o = some p) (hChunk : o.currentChunk = 0) :
    Reads (dandelionRead P fd len offset moveOffset) s (flat l) p len (MovedOn fd f l p len) ↔
      MovesAt s.memory o l p len := by
  have hNe : ∀ x ∈ l, x.ptr ≠ o.currentChunk := by
    intro x hx
    rw [hChunk]
    exact hl.chain.ne_zero (List.mem_map.mpr ⟨x, hx, rfl⟩)
  have hZero : p = 0 := by
    rw [position, pieces_eq_some.mpr hl, Option.bind_some, if_pos hChunk] at hp
    exact (Option.some.inj hp).symm
  have hRight : MovesAt s.memory o l p len ↔ Within l p len := by
    constructor
    · rintro (⟨_, hGood⟩ | ⟨x, hx, hxPtr, _⟩)
      · exact hGood
      · exact absurd hxPtr (hNe x hx)
    · intro hGood
      exact Or.inl ⟨fun x hx hxPtr => absurd hxPtr (hNe x hx), hGood⟩
  rw [hRight, Reads, dandelionRead_rest h hPos (by decide), if_pos hChunk]
  cases l with
  | nil =>
    have hLink : f.link = 0 := hl
    rw [if_neg (not_not_intro hLink), bind_ok (setOpenFile_ok h.range _)]
    refine iff_of_true
      ⟨{ s with openFiles := Function.update s.openFiles fd.toNat { o with offset := 0 } },
      ?_, hl.content_eq, ?_⟩ (Or.inl (by simp))
    · simp only [flat_nil, List.length_nil, Nat.zero_sub, Nat.min_zero, List.drop_nil,
        List.take_nil, Stores.put_nil]
      rfl
    · simp only [Function.update_self, flat_nil, List.length_nil, Nat.zero_sub, Nat.min_zero,
        Nat.add_zero]
      rw [position, pieces_eq_some.mpr hl, Option.bind_some, if_pos hChunk, hZero]
  | cons z b =>
    have hLink : f.link = z.ptr := hl.1
    rw [if_pos hl.2.1, bind_ok (setOpenFile_ok h.range _), hLink]
    exact readFrom_moves_iff h.range hWords hl (List.nil_append _).symm (Nat.zero_le _) hZero hLen

theorem dandelionRead_place_iff (h : ReadableAt s fd o f) (hWords : s.memory.Words)
    (hLen : len < 2 ^ 31) (hl : Stored s.memory f.link l) (hp : position s.memory f o = some p) :
    Reads (dandelionRead P fd len offset moveOffset) s (flat l) p len (MovedOn fd f l p len) ↔
      MovesAt s.memory o l p len := by
  rcases Nat.eq_zero_or_pos len with rfl | hPos
  · exact dandelionRead_zero_iff h hl hp
  by_cases hChunk : o.currentChunk = 0
  · exact dandelionRead_start_iff h hWords hLen hPos hl hp hChunk
  obtain ⟨a, z, b, hSplit, hz, hpEq⟩ := position_split hl hp hChunk
  have hzMem : z ∈ l := by rw [hSplit]; simp
  have hSame : ∀ x ∈ l, x.ptr = o.currentChunk → x.chunk = z.chunk := by
    intro x hx hxPtr
    have hxChunk := hl.chunk_eq hx
    rw [hxPtr, ← hz, hl.chunk_eq hzMem, Option.some.injEq] at hxChunk
    exact hxChunk.symm
  rw [Reads, dandelionRead_rest h hPos (by decide), if_neg hChunk, ← hz]
  by_cases hStale : z.chunk.used < o.offset
  · refine (readFrom_stale_iff h.range hWords hl hSplit hStale h.word hpEq hLen hPos).trans ?_
    constructor
    · exact fun hGood => Or.inr ⟨z, hzMem, hz, hStale, Or.inr hGood⟩
    · rintro (⟨hValid, _⟩ | ⟨x, hx, hxPtr, _, hZero | ⟨hAll, hLoad⟩⟩)
      · exact absurd (hValid z hzMem hz) (Nat.not_le_of_lt hStale)
      · omega
      · rw [hSame x hx hxPtr] at hLoad
        exact ⟨hAll, hLoad⟩
  · refine (readFrom_moves_iff h.range hWords hl hSplit (Nat.le_of_not_lt hStale) hpEq hLen).trans
      ?_
    constructor
    · refine fun hGood => Or.inl ⟨fun x hx hxPtr => ?_, hGood⟩
      rw [hSame x hx hxPtr]
      exact Nat.le_of_not_lt hStale
    · rintro (⟨_, hGood⟩ | ⟨x, hx, hxPtr, hxStale, _⟩)
      · exact hGood
      · rw [hSame x hx hxPtr] at hxStale
        exact absurd hxStale hStale

theorem dandelionRead_moves_iff (h : ReadableAt s fd o f) (hWords : s.memory.Words)
    (hLen : len < 2 ^ 31) (offset : Int) :
    ReadsAndMoves P s fd o f len offset ↔ CanReadAndMove s.memory f o len := by
  constructor
  · rintro ⟨c, p, hc, hp, hRead⟩
    obtain ⟨l, hl, rfl⟩ := content_eq_some hc
    exact ⟨l, p, pieces_eq_some.mpr hl, hp, (dandelionRead_place_iff h hWords hLen hl hp).mp hRead⟩
  · rintro ⟨l, p, hl, hp, hCan⟩
    have hStored := pieces_eq_some.mp hl
    exact ⟨flat l, p, hStored.content_eq, hp,
      (dandelionRead_place_iff h hWords hLen hStored hp).mpr hCan⟩

end Moving

end Dandelion.FileSystem
