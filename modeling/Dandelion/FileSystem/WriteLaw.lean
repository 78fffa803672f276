import Dandelion.FileSystem.ChunkBounds
import Dandelion.FileSystem.WriteCall

/-! # The write law

When `dandelion_write` replaces the bytes from a position on. The copy goes to
the end of a chunk, so a write at an offset is right only where that is the
offset; a write that moves the descriptor leaves it at the start of a chunk. After a
truncation two files can end in the same chunks, and then both of them are written.
-/

namespace Dandelion.FileSystem

open Foundation.Words Foundation.Runs

/-- Every other regular file that has content has the same content afterwards. -/
def SameElsewhere (m m' : Memory) (file : Ptr) : Prop :=
  ∀ q g c, q ≠ file → m.files q = some g → g.type = .file → content m g.link = some c →
    ∃ g', m'.files q = some g' ∧ content m' g'.link = some c

def padded (c : List UInt8) (n : Nat) : List UInt8 := c.take n ++ List.replicate (n - c.length) 0

def overlay (c : List UInt8) (n : Nat) (bytes : List UInt8) : List UInt8 :=
  padded c n ++ bytes ++ c.drop (n + bytes.length)

def WritesAt (P : Platform) (s : State) (fd : Int) (o : OpenFile) (f : DFile) (bytes : List UInt8)
    (n : Nat) : Prop :=
  ∃ c, content s.memory f.link = some c ∧
    ∃ s' f', dandelionWrite P fd bytes n useOffset s = .ok ((bytes.length : Int), s') ∧
      s'.memory.files o.file = some f' ∧ content s'.memory f'.link = some (overlay c n bytes) ∧
      SameElsewhere s.memory s'.memory o.file

def WritesAndMoves (P : Platform) (s : State) (fd : Int) (o : OpenFile) (f : DFile)
    (bytes : List UInt8) (offset : Int) : Prop :=
  ∃ c p, content s.memory f.link = some c ∧ position s.memory f o = some p ∧
    ∃ s' f', dandelionWrite P fd bytes offset moveOffset s = .ok ((bytes.length : Int), s') ∧
      s'.memory.files o.file = some f' ∧ content s'.memory f'.link = some (overlay c p bytes) ∧
      position s'.memory f' (s'.openFiles fd.toNat) = some (p + bytes.length) ∧
      SameElsewhere s.memory s'.memory o.file

/-- The condition on the pieces for writes of `k` bytes at the offset `n`. The chunks up
to the one where the offset lands hold exactly `n` bytes once that one is extended;
the bytes it is extended by are those that should be there, usually zeros; and
nothing is kept behind the new bytes or lost that should stay. -/
def LandsWell (P : Platform) (s : State) (l : List Piece) (n k : Nat) : Prop :=
  match landing l n with
  | some (a, x, t, r) =>
    (flat a).length + max x.chunk.used r = n ∧
      gap s.memory x r = padded (flat t) (r - x.chunk.used) ∧
      if Takes ((x.chunk.capacity - max x.chunk.used r) % 2 ^ 32) k then flat t = []
      else (flat l).length ≤ n + k
  | none =>
    if l = [] then n = 0
    else
      (flat l).length = caps l ∧
        ∀ g, P.answer s.memory s.requests (chunkSize (n - caps l + k)) 16 = some g →
          ∀ i < n - caps l, g.bytes i = 0

/-- No other regular file has this chunk. -/
def Unshared (m : Memory) (file p : Ptr) : Prop :=
  ∀ q g j, q ≠ file → m.files q = some g → g.type = .file → pieces m g.link = some j →
    ∀ y ∈ j, y.ptr ≠ p

/-- The bytes land well, in a chunk that belongs to this file alone. -/
def CanWriteAt (P : Platform) (s : State) (file : Ptr) (f : DFile) (n k : Nat) : Prop :=
  ∃ l, pieces s.memory f.link = some l ∧ LandsWell P s l n k ∧
    ∀ w ∈ touched l n, Unshared s.memory file w.ptr

section Bytes

variable {B T c b : List UInt8} {n k : Nat}

theorem byte_ne_succ (v : UInt8) : v + 1 ≠ v := by
  intro h
  have hNat := congrArg UInt8.toNat h
  rw [UInt8.toNat_add] at hNat
  have hOne : (1 : UInt8).toNat = 1 := rfl
  have hLt := v.toNat_lt
  omega

theorem padded_length (c : List UInt8) (n : Nat) : (padded c n).length = n := by
  simp only [padded, List.length_append, List.length_take, List.length_replicate]
  omega

theorem padded_append (B t : List UInt8) (k : Nat) :
    padded (B ++ t) (B.length + k) = B ++ padded t k := by
  simp only [padded, List.take_append, List.length_append]
  rw [List.take_of_length_le (by omega), List.append_assoc]
  congr 3 <;> omega

/-- Bytes of a given length land at the right place, whatever they are, only if what
stands before and behind them is right. -/
theorem overlay_iff (hk : 0 < k) :
    (∀ b : List UInt8, b.length = k → B ++ b ++ T = overlay c n b) ↔
      B = padded c n ∧ T = c.drop (n + k) := by
  constructor
  · intro h
    have hLength : B.length = n := by
      by_contra hne
      rcases Nat.lt_or_gt_of_ne hne with hLt | hLt
      · -- the first new byte lies where an old one should be
        have hp : B.length < (padded c n).length := by rw [padded_length]; exact hLt
        have hAll := h (List.replicate k ((padded c n)[B.length] + 1)) List.length_replicate
        have hAt := congrArg (fun l => l[B.length]?) hAll
        simp only [overlay, List.append_assoc] at hAt
        rw [List.getElem?_append_right le_rfl, Nat.sub_self, List.getElem?_append_left hp,
          List.getElem?_append_left (by simpa using hk), List.getElem?_replicate_of_lt hk,
          List.getElem?_eq_getElem hp, Option.some.injEq] at hAt
        exact byte_ne_succ _ hAt
      · have hp : n < B.length := hLt
        have hAll := h (List.replicate k (B[n] + 1)) List.length_replicate
        have hAt := congrArg (fun l => l[n]?) hAll
        simp only [overlay, List.append_assoc] at hAt
        rw [List.getElem?_append_left hp, List.getElem?_append_right (by rw [padded_length]),
          padded_length, Nat.sub_self, List.getElem?_append_left (by simpa using hk),
          List.getElem?_replicate_of_lt hk, List.getElem?_eq_getElem hp, Option.some.injEq] at hAt
        exact byte_ne_succ _ hAt.symm
    have hZero := h (List.replicate k 0) List.length_replicate
    simp only [overlay, List.append_assoc, List.length_replicate] at hZero
    obtain ⟨hFront, hRest⟩ := List.append_inj hZero (by rw [hLength, padded_length])
    exact ⟨hFront, List.append_cancel_left hRest⟩
  · rintro ⟨rfl, rfl⟩ b rfl
    rfl

end Bytes

variable {P : Platform} {s : State} {fd : Int} {o : OpenFile} {f : DFile} {bytes : List UInt8}
  {n k : Nat} {a l t : List Piece} {x z : Piece} {offset : Int}

section Positioned

def frontBytes (P : Platform) (s : State) (l : List Piece) (n k : Nat) : List UInt8 :=
  match landing l n with
  | some (a, x, _, r) => flat a ++ x.bytes ++ gap s.memory x r
  | none =>
    if l = [] then []
    else
      flat l ++ (P.answer s.memory s.requests (chunkSize (n - caps l + k)) 16).elim []
        fun g => (List.range (n - caps l)).map g.bytes

def restBytes (s : State) (l : List Piece) (n k : Nat) : List UInt8 :=
  match landing l n with
  | some (_, x, t, r) => if Takes (x.append (gap s.memory x r)).chunk.room k then flat t else []
  | none => []

theorem StartsAt.front_eq (h : StartsAt P s k l n a x t) :
    flat a ++ x.bytes = frontBytes P s l n k ∧
      (if Takes x.chunk.room k then flat t else []) = restBytes s l n k := by
  cases h with
  | empty ptr data =>
    refine ⟨by simp [frontBytes, landing, Piece.fresh], ?_⟩
    rw [restBytes, landing, flat_nil, ite_self]
  | inside hLand => simp [frontBytes, restBytes, hLand, Piece.append]
  | behind ptr hLand hAnswer =>
    simp [frontBytes, restBytes, hLand, hAnswer, Piece.fresh, Piece.linked]

theorem room_extended {b : Block} {m : Memory} {r : Nat} (hx : Holds m x.ptr x.chunk b)
    (hr : r ≤ x.chunk.capacity) :
    (x.append (gap m x r)).chunk.room = (x.chunk.capacity - max x.chunk.used r) % 2 ^ 32 := by
  have hGap := (hx.gap_eq hr).2
  simp only [Piece.append, FileChunk.room, hGap]
  congr 2
  omega

theorem landsWell_inside {r : Nat} (hl : Filed s.memory f.link l) (hk : 0 < k)
    (hLand : landing l n = some (a, x, t, r)) :
    LandsWell P s l n k ↔
      frontBytes P s l n k = padded (flat l) n ∧ restBytes s l n k = (flat l).drop (n + k) := by
  obtain ⟨rfl, _, hInside⟩ := landing_eq hLand
  obtain ⟨b, hx⟩ := hl.holds x (by simp)
  have hCapacity : r ≤ x.chunk.capacity := by
    rcases hInside with rfl | hLt
    · exact Nat.zero_le _
    · exact Nat.le_of_lt hLt
  have hGap := (hx.gap_eq hCapacity).2
  have hBytes := hl.stored.bytes_length (x := x) (by simp)
  have hFlat : flat (a ++ x :: t) = (flat a ++ x.bytes) ++ flat t := by simp
  have hHead : (flat a ++ x.bytes).length = (flat a).length + x.chunk.used := by
    rw [List.length_append, hBytes]
  simp only [LandsWell, frontBytes, restBytes, hLand, room_extended hx hCapacity]
  constructor
  · rintro ⟨hn, hFill, hTail⟩
    have hSum : n = (flat a ++ x.bytes).length + (r - x.chunk.used) := by omega
    refine ⟨by rw [hFlat, hSum, padded_append, hFill], ?_⟩
    split at hTail
    · rename_i hKept
      rw [if_pos hKept, hTail, hFlat, hTail, List.append_nil, List.drop_eq_nil_of_le (by omega)]
    · rename_i hLost
      rw [if_neg hLost, List.drop_eq_nil_of_le hTail]
  · rintro ⟨hFront, hRest⟩
    have hLength := congrArg List.length hFront
    rw [padded_length, List.length_append, hGap, hHead] at hLength
    have hSum : n = (flat a ++ x.bytes).length + (r - x.chunk.used) := by omega
    refine ⟨by omega, ?_, ?_⟩
    · rw [hFlat, hSum, padded_append] at hFront
      exact List.append_cancel_left hFront
    · split
      · rename_i hKept
        rw [if_pos hKept] at hRest
        have hCount := congrArg List.length hRest
        rw [List.length_drop, hFlat, List.length_append] at hCount
        exact List.eq_nil_of_length_eq_zero (by omega)
      · rename_i hLost
        rw [if_neg hLost] at hRest
        exact List.drop_eq_nil_iff.mp hRest.symm

theorem flat_le_caps {p : Ptr} {m : Memory} (hl : Filed m p l) : (flat l).length ≤ caps l := by
  induction l generalizing p with
  | nil => exact le_rfl
  | cons x l ih =>
    obtain ⟨b, hx⟩ := hl.holds x List.mem_cons_self
    have hBytes := hl.stored.bytes_length (x := x) List.mem_cons_self
    have hUsed := hx.used
    have hRest := ih hl.tail
    rw [flat_cons, List.length_append, caps_cons]
    omega

theorem landsWell_beyond (hGrants : P.GrantsPair s.requests) (hl : Filed s.memory f.link l)
    (hk : 0 < k) (hSmall : k < 2 ^ 62) (hn : n < 2 ^ 63) (hLand : landing l n = none) :
    LandsWell P s l n k ↔
      frontBytes P s l n k = padded (flat l) n ∧ restBytes s l n k = (flat l).drop (n + k) := by
  have hCaps := landing_none hLand
  have hLe := flat_le_caps hl
  simp only [LandsWell, frontBytes, restBytes, hLand]
  by_cases hEmpty : l = []
  · subst hEmpty
    rw [if_pos rfl, if_pos rfl]
    constructor
    · rintro rfl
      exact ⟨rfl, List.drop_nil.symm⟩
    · rintro ⟨hFront, _⟩
      have hLength := congrArg List.length hFront
      rw [padded_length] at hLength
      exact hLength.symm
  · obtain ⟨g, hg⟩ := hGrants s.memory s.requests (chunkSize (n - caps l + k)) 16 (Or.inl rfl) (by
      simp only [chunkSize, fsChunkSize, add64, sub64, mul64]
      omega)
    rw [if_neg hEmpty, if_neg hEmpty, hg, Option.elim_some]
    constructor
    · rintro ⟨hFull, hZero⟩
      have hn' : n = (flat l).length + (n - caps l) := by omega
      refine ⟨?_, (List.drop_eq_nil_of_le (by omega)).symm⟩
      have hPad := padded_append (flat l) [] (n - caps l)
      rw [List.append_nil, ← hn'] at hPad
      rw [hPad]
      congr 1
      apply List.ext_getElem
      · simp [padded]
      · intro i hi _
        simp only [List.length_map, List.length_range] at hi
        simp [padded, hZero g rfl i hi]
    · rintro ⟨hFront, _⟩
      have hLength := congrArg List.length hFront
      rw [padded_length, List.length_append, List.length_map, List.length_range] at hLength
      have hFull : (flat l).length = caps l := by omega
      refine ⟨hFull, fun g' hg' i hi => ?_⟩
      obtain rfl := Option.some.inj hg'
      have hAt := congrArg (fun bytes => bytes[(flat l).length + i]?) hFront
      simp only [padded] at hAt
      rw [List.getElem?_append_right (by omega),
        List.getElem?_append_right (by rw [List.length_take]; omega), List.length_take,
        List.getElem?_replicate_of_lt (by omega)] at hAt
      simpa [hi] using hAt

theorem landsWell_iff (hGrants : landing l n = none → P.GrantsPair s.requests)
    (hl : Filed s.memory f.link l) (hk : 0 < k) (hSmall : k < 2 ^ 62) (hn : n < 2 ^ 63) :
    LandsWell P s l n k ↔
      frontBytes P s l n k = padded (flat l) n ∧ restBytes s l n k = (flat l).drop (n + k) := by
  cases hLand : landing l n with
  | some place => exact landsWell_inside hl hk hLand
  | none => exact landsWell_beyond (hGrants hLand) hl hk hSmall hn hLand

end Positioned

section Sharing

variable {m m' : Memory} {p p' q : Ptr} {j l' : List Piece} {w y : Piece}

theorem touched_mem (h : w ∈ touched l n) : w ∈ l := by
  rw [touched] at h
  split at h
  · rename_i hLand
    obtain ⟨rfl, -⟩ := landing_eq hLand
    obtain rfl := Option.some.inj h
    simp
  · exact List.mem_of_getLast? h

/-- A list that does not have the touched chunk stays as it is. -/
theorem Spares.stored (h : Spares m m' (touched l n)) (hHolding : Holding m) (hl : Filed m p l)
    (hj : Filed m q j) (hOut : ∀ w ∈ touched l n, ∀ y ∈ j, y.ptr ≠ w.ptr) : Stored m' q j := by
  refine hj.stored.congr (fun y hy => ?_) fun y hy => ?_
  · exact h.chunks _ _ (hj.stored.chunk_eq hy) fun w hw => hOut w hw y hy
  · obtain ⟨b, hb⟩ := hj.holds y hy
    refine load_congr ((h.blocks _ _ hb.block fun w hw hData => hOut w hw y hy ?_).trans
      hb.block.symm)
    exact hHolding.own _ _ _ _ hb.chunk (hl.stored.chunk_eq (touched_mem hw)) hData

/-- The file and its touched chunk after a write. -/
theorem StartsAt.continues (h : StartsAt P s k l n a x t) (hAppends : Appends a x t bytes l' z)
    (hw : w ∈ touched l n) :
    ∃ b u v r, l = b ++ w :: u ∧ l' = b ++ v :: r ∧ v.ptr = w.ptr := by
  cases h with
  | empty => cases hw
  | inside hLand =>
    rw [touched, hLand] at hw
    obtain rfl := Option.some.inj hw
    obtain ⟨rfl, -⟩ := landing_eq hLand
    cases hAppends with
    | fits _ => exact ⟨_, _, _, _, rfl, rfl, rfl⟩
    | spills _ _ _ => exact ⟨_, _, _, _, rfl, rfl, rfl⟩
  | @behind b y _ _ ptr hLand _ =>
    rw [touched, hLand, List.getLast?_concat] at hw
    obtain rfl := Option.some.inj hw
    cases hAppends with
    | fits _ => exact ⟨b, [], y.linked ptr, _, rfl, List.append_assoc _ _ _, rfl⟩
    | spills _ _ _ => exact ⟨b, [], y.linked ptr, _, rfl, List.append_assoc _ _ _, rfl⟩

/-- A list that has the touched chunk goes on with the new bytes. -/
theorem Spares.shared {b u r : List Piece} {v : Piece} (h : Spares m m' (touched l n))
    (hw : w ∈ touched l n) (hl : Filed m p (b ++ w :: u)) (hl' : Stored m' p' (b ++ v :: r))
    (hPtr : v.ptr = w.ptr) (hj : Filed m q j) (hy : y ∈ j) (hSame : y.ptr = w.ptr) :
    ∃ d, flat j = d ++ flat (w :: u) ∧ content m' q = some (d ++ flat (v :: r)) := by
  obtain ⟨d, t, rfl⟩ := List.append_of_mem hy
  have hSuffix := hj.stored.suffix
  rw [hSame] at hSuffix
  obtain ⟨rfl, rfl⟩ := List.cons.inj (hSuffix.unique hl.stored.suffix)
  have hOne : ∀ w' ∈ touched l n, w' = y := fun w' hw' => Option.mem_unique hw' hw
  refine ⟨flat d, by rw [flat_append], ?_⟩
  have hRest : Stored m' y.ptr (v :: r) := hPtr ▸ hl'.suffix
  have hStored : Stored m' q (d ++ v :: r) := by
    refine hj.stored.splice (fun z hz => ?_) (fun z hz => ?_) hRest
    · refine h.chunks _ _ (hj.stored.chunk_eq (List.mem_append_left _ hz)) fun w' hw' => ?_
      rw [hOne w' hw']
      exact hj.ptr_ne z (List.mem_append_left _ hz)
    · obtain ⟨e, he⟩ := hj.holds z (List.mem_append_left _ hz)
      refine load_congr ((h.blocks _ _ he.block fun w' hw' => ?_).trans he.block.symm)
      rw [hOne w' hw']
      exact hj.data_ne z (List.mem_append_left _ hz)
  rw [hStored.content_eq, flat_append]

end Sharing

section Offsets

variable (hGrants : P.Grants) (hSound : Sound s.memory) (hWords : s.memory.Words)
  (h : WritableAt s fd o f) (hl : Filed s.memory f.link l) (hn : n < 2 ^ 63)

include hGrants hSound hWords h hl hn

theorem writesAt_iff (hLen : bytes.length < 2 ^ 31) (hne : bytes ≠ [])
    (hAlone : ∀ w ∈ touched l n, Unshared s.memory o.file w.ptr) :
    WritesAt P s fd o f bytes n ↔ frontBytes P s l n bytes.length ++ bytes ++
      restBytes s l n bytes.length = overlay (flat l) n bytes := by
  obtain ⟨a, x, t, l', z, link, s', hStarts, hAppends, hWrite, -, hFiles, hFiled, -, hSpares⟩ :=
    dandelionWrite_use hGrants h hl hn hLen hne
  obtain ⟨hFront, hBehind⟩ := hStarts.front_eq
  have hFlat := hAppends.flat_eq
  rw [hFront, hBehind] at hFlat
  have hNode' : s'.memory.files o.file = some { f with link := link } := by
    rw [hFiles, Function.update_self]
  constructor
  · rintro ⟨c, hc, s'', f', hWrite', hf', hContent, -⟩
    rw [hl.stored.content_eq, Option.some.injEq] at hc
    rw [hWrite, Except.ok.injEq, Prod.mk.injEq] at hWrite'
    obtain rfl := hWrite'.2
    rw [hNode', Option.some.injEq] at hf'
    rw [← hf', hFiled.stored.content_eq, Option.some.injEq] at hContent
    rw [← hFlat, hContent, hc]
  · intro hEq
    refine ⟨flat l, hl.stored.content_eq, s', _, hWrite, hNode', ?_, fun q g c hq hg hType hc => ?_⟩
    · rw [hFiled.stored.content_eq, hFlat, hEq]
    · obtain ⟨j, hj, hPieces, rfl⟩ := hSound.filed_of_content hWords hc
      refine ⟨g, by rw [hFiles, Function.update_of_ne hq, hg], ?_⟩
      exact (hSpares.stored hSound.holding hl hj fun w hw =>
        hAlone w hw q g j hq hg hType hPieces).content_eq

theorem overlay_of_shared {w : Piece} (hLen : bytes.length < 2 ^ 31) (hne : bytes ≠ [])
    (hw : w ∈ touched l n) (hShared : ¬ Unshared s.memory o.file w.ptr)
    (hWrites : WritesAt P s fd o f bytes n) : overlay (flat l) n bytes = flat l := by
  simp only [Unshared, not_forall, not_not] at hShared
  obtain ⟨q, g, j, hq, hg, hType, hPieces, y, hy, hSame⟩ := hShared
  have hj := hSound.filed hWords (pieces_eq_some.mp hPieces)
  obtain ⟨a, x, t, l', z, link, s', hStarts, hAppends, hWrite, -, hFiles, hFiled, -, hSpares⟩ :=
    dandelionWrite_use hGrants h hl hn hLen hne
  obtain ⟨b, u, v, r, rfl, rfl, hPtr⟩ := hStarts.continues hAppends hw
  obtain ⟨d, hFlat, hAfter⟩ := hSpares.shared hw hl hFiled.stored hPtr hj hy hSame
  obtain ⟨c, hc, s'', f', hWrite', hf', hContent, hElsewhere⟩ := hWrites
  rw [hl.stored.content_eq, Option.some.injEq] at hc
  rw [hWrite, Except.ok.injEq, Prod.mk.injEq] at hWrite'
  obtain rfl := hWrite'.2
  rw [hFiles, Function.update_self, Option.some.injEq] at hf'
  rw [← hf', hFiled.stored.content_eq, Option.some.injEq] at hContent
  obtain ⟨g', hg', hKept⟩ := hElsewhere q g _ hq hg hType hj.stored.content_eq
  rw [hFiles, Function.update_of_ne hq, hg, Option.some.injEq] at hg'
  rw [← hg', hAfter, Option.some.injEq, hFlat, List.append_cancel_left_eq] at hKept
  rw [hc, ← hContent, ← hc, flat_append, flat_append, hKept]

theorem writesAt_all_iff (hk : 0 < k) (hSmall : k < 2 ^ 31) :
    (∀ bytes, bytes.length = k → WritesAt P s fd o f bytes n) ↔
      LandsWell P s l n k ∧ ∀ w ∈ touched l n, Unshared s.memory o.file w.ptr := by
  have hne : ∀ {bytes : List UInt8}, bytes.length = k → bytes ≠ [] := fun hLength =>
    List.ne_nil_of_length_pos (hLength ▸ hk)
  have hEach := fun (hAlone : ∀ w ∈ touched l n, Unshared s.memory o.file w.ptr)
    (bytes : List UInt8) (hLength : bytes.length = k) =>
      writesAt_iff hGrants hSound hWords h hl hn (hLength ▸ hSmall) (hne hLength) hAlone
  rw [landsWell_iff (fun _ => hGrants.pair _) hl hk (by omega) hn, ← overlay_iff hk]
  constructor
  · intro hAll
    have hAlone : ∀ w ∈ touched l n, Unshared s.memory o.file w.ptr := by
      -- otherwise the other file would have to hold whatever is written
      intro w hw
      by_contra hShared
      have hOver := fun (v : UInt8) => overlay_of_shared hGrants hSound hWords h hl hn
        (by rw [List.length_replicate]; exact hSmall) (hne List.length_replicate) hw hShared
        (hAll (List.replicate k v) List.length_replicate)
      have hEq := (hOver 0).trans (hOver 1).symm
      simp only [overlay, List.append_assoc, List.append_cancel_left_eq] at hEq
      have hSame := (List.append_inj hEq (by simp)).1
      obtain hZero | hByte := (List.replicate_inj.mp hSame).2
      · exact absurd hZero (Nat.ne_of_gt hk)
      · exact absurd hByte (by decide)
    refine ⟨fun bytes hLength => ?_, hAlone⟩
    have hLaw := (hEach hAlone bytes hLength).mp (hAll bytes hLength)
    rwa [hLength] at hLaw
  · rintro ⟨hLaw, hAlone⟩ bytes hLength
    refine (hEach hAlone bytes hLength).mpr ?_
    rw [hLength]
    exact hLaw bytes hLength

end Offsets


section Moving

theorem Appends.place {l' : List Piece} (h : Appends a x t bytes l' z) :
    ∃ a' t', l' = a' ++ z :: t' ∧ (flat a').length =
      (flat a).length +
        if Takes x.chunk.room bytes.length then 0 else x.bytes.length + x.chunk.room := by
  cases h with
  | fits hTakes =>
    rw [if_pos hTakes]
    exact ⟨a, t, rfl, rfl⟩
  | spills ptr data hNot =>
    rw [if_neg hNot]
    unfold Takes at hNot
    refine ⟨a ++ [(x.append (bytes.take x.chunk.room)).linked ptr],
      [], by rw [List.append_assoc]; rfl, ?_⟩
    simp only [flat_append, flat_cons, flat_nil, List.append_nil, List.length_append, Piece.append,
      Piece.linked, List.length_take]
    omega

theorem not_writesAndMoves_empty (hGrants : P.Grants) (h : WritableAt s fd o f)
    (hLink : f.link = 0) (hLen : bytes.length < 2 ^ 31) (hne : bytes ≠ []) :
    ¬ WritesAndMoves P s fd o f bytes offset := by
  rintro ⟨c, p, _, _, s', f', hWrite, hf', _, hPosition, _⟩
  obtain ⟨ptr, data, l', z, link, s'', hAppends, hWrite', hOpen, hFiles, hFiled, _⟩ :=
    dandelionWrite_first offset hGrants h hLink hLen hne
  rw [hWrite, Except.ok.injEq, Prod.mk.injEq] at hWrite'
  obtain rfl := hWrite'.2
  rw [hFiles, Function.update_self, Option.some.injEq] at hf'
  subst hf'
  obtain ⟨a', t', rfl, hPlace⟩ := hAppends.place
  rw [hOpen, Function.update_self, position_at hFiled.stored rfl, Option.some.injEq,
    hPlace] at hPosition
  have hLength := List.length_pos_iff.mpr hne
  have hBytes : (Piece.fresh ptr data (chunkSize bytes.length) []).bytes.length = 0 := rfl
  rw [flat_nil, List.length_nil, hBytes] at hPosition
  simp only [Nat.add_zero, Nat.zero_add] at hPosition
  by_cases hTakes : Takes (Piece.fresh ptr data (chunkSize bytes.length) []).chunk.room bytes.length
  · rw [if_pos hTakes] at hPosition
    omega
  · rw [if_neg hTakes] at hPosition
    unfold Takes at hTakes
    omega

theorem not_writesAndMoves (hGrants : P.Grants) (hSound : Sound s.memory)
    (hWords : s.memory.Words) (h : WritableAt s fd o f) (hk : 0 < k) (hSmall : k < 2 ^ 31) :
    ¬ ∀ bytes, bytes.length = k → WritesAndMoves P s fd o f bytes offset := by
  intro hAll
  have hNonempty : ∀ bytes : List UInt8, bytes.length = k → bytes ≠ [] := fun bytes hLength =>
    List.ne_nil_of_length_pos (hLength ▸ hk)
  obtain ⟨c, p, hc, hp, -⟩ := hAll (List.replicate k 0) (by simp)
  obtain ⟨l, hl, -, -⟩ := hSound.filed_of_content hWords hc
  by_cases hLink : f.link = 0
  · exact not_writesAndMoves_empty hGrants h hLink
      (show (List.replicate k (0 : UInt8)).length < 2 ^ 31 by simpa using hSmall)
        (hNonempty _ (by simp)) (hAll _ (by simp))
  · obtain ⟨a, x, t, hSplit, hx, hBefore⟩ : ∃ a x t, l = a ++ x :: t ∧
        x.ptr = (if o.currentChunk = 0 then f.link else o.currentChunk) ∧ (flat a).length ≤ p := by
      by_cases hChunk : o.currentChunk = 0
      · have hne : l ≠ [] := by
          rintro rfl
          exact hLink hl.stored
        obtain ⟨x, t, rfl⟩ := List.exists_cons_of_ne_nil hne
        exact ⟨[], x, t, rfl, by rw [if_pos hChunk]; exact hl.stored.1.symm, Nat.zero_le _⟩
      · obtain ⟨a, x, t, hSplit, hx, rfl⟩ := position_split hl.stored hp hChunk
        exact ⟨a, x, t, hSplit, by rw [if_neg hChunk]; exact hx, Nat.le_add_right _ _⟩
    subst hSplit
    have hEach : ∀ bytes : List UInt8, bytes.length = k →
        flat a ++ x.bytes ++ bytes ++ (if Takes x.chunk.room k then flat t else []) =
            overlay (flat (a ++ x :: t)) p bytes ∧
          (flat a).length +
            (if Takes x.chunk.room k then 0 else x.bytes.length + x.chunk.room) = p + k := by
      intro bytes hLength
      obtain ⟨c, p', hc, hp', s', f', hWrite, hf', hContent, hPosition, _⟩ := hAll bytes hLength
      rw [hp, Option.some.injEq] at hp'
      subst hp'
      rw [hl.stored.content_eq, Option.some.injEq] at hc
      obtain ⟨l', z, s'', hAppends, hWrite', hOpen, hFiles, hFiled, _⟩ :=
        dandelionWrite_move offset hGrants h hl hx (hLength ▸ hSmall) (hNonempty bytes hLength)
      rw [hWrite, Except.ok.injEq, Prod.mk.injEq] at hWrite'
      obtain rfl := hWrite'.2
      rw [hFiles, h.node, Option.some.injEq] at hf'
      subst hf'
      rw [hFiled.stored.content_eq, hAppends.flat_eq, hLength, Option.some.injEq] at hContent
      obtain ⟨a', t', rfl, hPlace⟩ := hAppends.place
      rw [hOpen, Function.update_self, position_at hFiled.stored rfl, Option.some.injEq, hPlace,
        hLength] at hPosition
      exact ⟨by rw [hContent, hc], hPosition⟩
    -- the bytes before the new ones reach up to the position, so the descriptor should be behind
    -- them
    have hFront := ((overlay_iff hk).mp fun bytes hLength => (hEach bytes hLength).1).1
    have hLength := congrArg List.length hFront
    rw [padded_length, List.length_append] at hLength
    have hPosition := (hEach (List.replicate k 0) (by simp)).2
    split at hPosition
    · omega
    · rename_i hNot
      unfold Takes at hNot
      omega

end Moving

section Law

/-- When a write of a given length keeps to the law, whatever the bytes are: never if it moves
the descriptor, and at an offset under a condition on the chunks. -/
theorem write_law {y : Session} (hGrants : P.Grants) (hy : Reachable (Started P) (Stays P) y)
    (hWords : y.state.memory.Words) (h : WritableAt y.state fd o f) (hk : 0 < k)
    (hSmall : k < 2 ^ 31) (offset : Int) :
    (¬ ∀ bytes, bytes.length = k → WritesAndMoves P y.state fd o f bytes offset) ∧
      (n < 2 ^ 63 → ((∀ bytes, bytes.length = k → WritesAt P y.state fd o f bytes n) ↔
        CanWriteAt P y.state o.file f n k)) := by
  have hSound := sound_of_stays hy
  refine ⟨not_writesAndMoves hGrants hSound hWords h hk hSmall, fun hn => ?_⟩
  constructor
  · intro hAll
    obtain ⟨c, hc, -⟩ := hAll (List.replicate k 0) List.length_replicate
    obtain ⟨l, hl, hPieces, -⟩ := hSound.filed_of_content hWords hc
    exact ⟨l, hPieces, (writesAt_all_iff hGrants hSound hWords h hl hn hk hSmall).mp hAll⟩
  · rintro ⟨l, hPieces, hCan⟩
    have hl := hSound.filed hWords (pieces_eq_some.mp hPieces)
    exact (writesAt_all_iff hGrants hSound hWords h hl hn hk hSmall).mpr hCan

def writable (s : State) (fd : Nat) : Bool :=
  decide (fd < fsMaxFiles) && decide ((s.openFiles fd).file ≠ 0) &&
    !hasBit (s.openFiles fd).openFlags oAPPEND &&
    (s.memory.files (s.openFiles fd).file).any fun f => decide (f.type = .file)

theorem writableAt_of_writable {i : Nat} (h : writable s i = true) :
    ∃ f, WritableAt s i (s.openFiles i) f := by
  simp only [writable, Bool.and_eq_true, decide_eq_true_eq, Bool.not_eq_true',
    Option.any_eq_true] at h
  obtain ⟨⟨⟨hRange, hOpen⟩, hAccess⟩, f, hf, hType⟩ := h
  exact ⟨f, ⟨Int.natCast_nonneg i, by exact_mod_cast hRange⟩, rfl, hOpen, hf, hType, hAccess⟩

/-- Any five bytes can be written to a new file at its start. -/
theorem write_law_new_file : ∃ x o f, Reachable (Started (.bump 0)) (Stays (.bump 0)) x ∧
    WritableAt x.state 3 o f ∧
    ∀ bytes, bytes.length = 5 → WritesAt (.bump 0) x.state 3 o f bytes 0 := by
  obtain ⟨x, hx, hTest⟩ := exists_of_boundedRun (P := .bump 0)
    [.openFile [97] (oWRONLY ||| oCREAT) sIRWXU]
    (fun x => writable x.state 3 && x.state.memory.wordsBelow &&
      (x.state.memory.files (x.state.openFiles 3).file).any fun f : DFile => decide (f.link = 0))
    (by decide +kernel)
  simp only [Bool.and_eq_true, Option.any_eq_true, decide_eq_true_eq] at hTest
  obtain ⟨⟨hWritable, hWords⟩, g, hg, hLink⟩ := hTest
  obtain ⟨f, hf⟩ := writableAt_of_writable hWritable
  obtain rfl : f = g := Option.mem_unique hf.node hg
  have hStays := stays_of_advances hx
  refine ⟨x, _, f, hStays, hf, ((write_law (grants_bump 0) hStays (words_of_below hWords) hf
    (by decide) (by decide) 0).2 (by decide)).mpr ⟨[], pieces_eq_some.mpr hLink, rfl, ?_⟩⟩
  exact fun w hw => by cases hw

def leaves (fd : Nat) (file : Ptr) (w : M Int) (s : State) : Option (List UInt8) :=
  match w s with
  | .ok r =>
    if (s.openFiles fd).file = file then (r.2.memory.files file).bind fun f =>
      content r.2.memory f.link else none
  | .error _ => none

def rewound : List Call :=
  [.openFile [97] (oWRONLY ||| oCREAT) sIRWXU, .write 3 [1, 2] 0 moveOffset, .lseek 3 0 seekSet]

/-- The third byte comes behind the two instead of replacing the first, in both modes. -/
theorem write_law_fails : ∃ x o f, Reachable (Started (.bump 0)) (Stays (.bump 0)) x ∧
    WritableAt x.state 3 o f ∧ ¬ WritesAndMoves (.bump 0) x.state 3 o f [3] 0 ∧
    ¬ WritesAt (.bump 0) x.state 3 o f [3] 0 := by
  obtain ⟨x, hx, hTest⟩ := exists_of_boundedRun (P := .bump 0) rewound
    (fun x => writable x.state 3 &&
      (x.state.memory.files (x.state.openFiles 3).file).any (fun f =>
        decide (content x.state.memory f.link = some [1, 2]) &&
          decide (position x.state.memory f (x.state.openFiles 3) = some 0)) &&
      decide (leaves 3 (x.state.openFiles 3).file
        (dandelionWrite (.bump 0) 3 [3] 0 moveOffset) x.state =
        some [1, 2, 3]) &&
      decide (leaves 3 (x.state.openFiles 3).file
        (dandelionWrite (.bump 0) 3 [3] 0 useOffset) x.state =
        some [1, 2, 3])) (by decide +kernel)
  simp only [Bool.and_eq_true, decide_eq_true_eq, Option.any_eq_true] at hTest
  obtain ⟨⟨⟨hWritable, f, hNode, hContent, hPosition⟩, hMove⟩, hUse⟩ := hTest
  obtain ⟨f', hf⟩ := writableAt_of_writable hWritable
  obtain rfl : f = f' := Option.mem_unique hNode hf.node
  refine ⟨x, _, f, stays_of_advances hx, hf, ?_, ?_⟩
  · rintro ⟨c, p, hc, hp, s', g, hWrite, hg, hAfter, _⟩
    obtain rfl := Option.mem_unique hContent hc
    obtain rfl := Option.mem_unique hPosition hp
    have hLeft :
        leaves 3 (x.state.openFiles 3).file (dandelionWrite (.bump 0) 3 [3] 0 moveOffset) x.state =
        some (overlay [1, 2] 0 [3]) := by
      simp only [leaves, hWrite, hg, if_true, Option.bind_some, hAfter]
    rw [hMove] at hLeft
    exact absurd hLeft (by decide)
  · rintro ⟨c, hc, s', g, hWrite, hg, hAfter, _⟩
    obtain rfl := Option.mem_unique hContent hc
    have hLeft :
        leaves 3 (x.state.openFiles 3).file (dandelionWrite (.bump 0) 3 [3] 0 useOffset) x.state =
        some (overlay [1, 2] 0 [3]) := by
      have hWrite' : dandelionWrite (.bump 0) 3 [3] 0 useOffset x.state = .ok (1, s') := hWrite
      simp only [leaves, hWrite', hg, if_true, Option.bind_some, hAfter]
    rw [hUse] at hLeft
    exact absurd hLeft (by decide)

end Law

end Dandelion.FileSystem
