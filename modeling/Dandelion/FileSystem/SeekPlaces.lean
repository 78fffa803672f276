import Dandelion.FileSystem.ReadLaw
import Dandelion.FileSystem.Seeking

/-! # Seeking from a place

From a place in the file a seek ends where it should when the sums fit into `int`
and the block of a gap holds zeros. A descriptor may stand behind the end of its
chunk, from where the code never gets ahead.
-/

namespace Dandelion.FileSystem

open Foundation.Words Foundation.Triples

/-- A seek to `t` in a file of the content `c` as it should be. -/
def SeeksTo (s : State) (fd : Nat) (c : List UInt8) (t : Int) (call : M Int) : Prop :=
  if t < 0 then call s = .ok (-(eINVAL : Int), s)
  else ∃ s' f, call s = .ok (t, s') ∧ s'.memory.files (s.openFiles fd).file = some f ∧
    content s'.memory f.link = some (c ++ List.replicate (t.toNat - c.length) 0) ∧
    position s'.memory f (s'.openFiles fd) = some t.toNat

/-- Where the code seeks as it should, from `b` and in a file of these pieces. -/
def Seekable (P : Platform) (s : State) (l : List Piece) (overruns : Prop) (b : Nat)
    (offset : Int) : Prop :=
  if offset < 0 then b + offset < 0 ∨ b < 2 ^ 31 ∧ b + offset ≤ (flat l).length
  else min (b + offset.toNat) (flat l).length < 2 ^ 31 ∧
    ((flat l).length < b + offset.toNat → ¬ overruns ∧
      ZeroGap P s (b + offset.toNat - (flat l).length))

variable {P : Platform} {s : State} {p : Ptr} {a l t : List Piece} {x : Piece} {o : OpenFile}
  {f : DFile} {i n fd : Nat} {c : List UInt8} {offset : Int}

section Places

theorem SeeksTo.result {t : Int} {call : M Int} (h : SeeksTo s fd c t call) (ht : ¬ t < 0) :
    ∃ s', call s = .ok (t, s') := by
  rw [SeeksTo, if_neg ht] at h
  obtain ⟨s', _, hRun, _⟩ := h
  exact ⟨s', hRun⟩

theorem seeksTo_congr {t : Int} {call call' : M Int} (h : call s = call' s) :
    SeeksTo s fd c t call ↔ SeeksTo s fd c t call' := by rw [SeeksTo, SeeksTo, h]

theorem map_bytes_eq_iff {g : Grant} {r : Nat} : (List.range r).map g.bytes = List.replicate r 0 ↔
    ∀ i < r, g.bytes i = 0 := by
  simp only [List.eq_replicate_iff, List.length_map, List.length_range, true_and, List.mem_map,
    List.mem_range, forall_exists_index, and_imp, forall_apply_eq_imp_iff₂]

theorem seeksTo_here (hl : Stored s.memory f.link (a ++ x :: t))
    (hf : s.memory.files (s.openFiles fd).file = some f) {call : M Int} {v : Int}
    (hRun : call s = .ok (v, s.seekTo fd (s.openFiles fd) x.ptr i)) :
    SeeksTo s fd (flat (a ++ x :: t)) (((flat a).length + i : Nat) : Int) call ↔
      v = (((flat a).length + i : Nat) : Int) ∧
        (flat a).length + i ≤ (flat (a ++ x :: t)).length := by
  rw [SeeksTo, if_neg (by omega), Int.toNat_natCast]
  have hPosition : position (s.seekTo fd (s.openFiles fd) x.ptr i).memory f
      ((s.seekTo fd (s.openFiles fd) x.ptr i).openFiles fd) =
      some ((flat a).length + i) := by
    rw [seekTo_entry]
    exact position_at hl rfl
  constructor
  · rintro ⟨s', f', hRun', hf', hContent, -⟩
    have hEq := Except.ok.inj (hRun.symm.trans hRun')
    refine ⟨congrArg Prod.fst hEq, ?_⟩
    obtain rfl : s.seekTo fd (s.openFiles fd) x.ptr i = s' := congrArg Prod.snd hEq
    obtain rfl : f = f' := Option.mem_unique hf hf'
    have hLength := congrArg List.length (Option.mem_unique hl.content_eq hContent)
    rw [List.length_append, List.length_replicate] at hLength
    omega
  · rintro ⟨rfl, hLe⟩
    refine ⟨_, f, hRun, hf, ?_, hPosition⟩
    rw [Nat.sub_eq_zero_of_le hLe, List.replicate_zero, List.append_nil]
    exact hl.content_eq

theorem seeksTo_gap {g : Grant} {ptr : Ptr} {s' : State} {f' : DFile} {k : List Piece} {r : Nat}
    {call : M Int} {v : Int} (hAnswer : P.answer s.memory s.requests (chunkSize r) 16 = some g)
    (hf : s'.memory.files (s.openFiles fd).file = some f') (hFlat : flat k = c)
    (hFiled : Filed s'.memory f'.link
      (k ++ [.fresh ptr g.ptr (chunkSize r) ((List.range r).map g.bytes)])) (hr : 0 < r)
    (hRun : call s = .ok (v, s'.seekTo fd (s.openFiles fd) ptr r)) :
    SeeksTo s fd c ((c.length + r : Nat) : Int) call ↔ v = ((c.length + r : Nat) : Int) ∧
      ZeroGap P s r := by
  rw [SeeksTo, if_neg (by omega), Int.toNat_natCast, show c.length + r - c.length = r by omega]
  have hContent : content s'.memory f'.link = some (c ++ (List.range r).map g.bytes) := by
    rw [hFiled.stored.content_eq, flat_append, hFlat, flat_cons, flat_nil, List.append_nil,
      Piece.fresh]
  have hPosition : position (s'.seekTo fd (s.openFiles fd) ptr r).memory f'
      ((s'.seekTo fd (s.openFiles fd) ptr r).openFiles fd) = some (c.length + r) := by
    rw [seekTo_entry, ← hFlat]
    exact position_at hFiled.stored rfl
  have hZero : ZeroGap P s r ↔ ∀ i < r, g.bytes i = 0 := by
    constructor
    · exact fun h => h g hAnswer
    · intro h g' hg'
      rwa [← Option.mem_unique hAnswer hg']
  rw [hZero, ← map_bytes_eq_iff]
  constructor
  · rintro ⟨s'', f'', hRun', hf'', hContent', -⟩
    have hEq := Except.ok.inj (hRun.symm.trans hRun')
    refine ⟨congrArg Prod.fst hEq, ?_⟩
    obtain rfl : s'.seekTo fd (s.openFiles fd) ptr r = s'' := congrArg Prod.snd hEq
    obtain rfl : f' = f'' := Option.mem_unique hf hf''
    exact List.append_cancel_left (Option.mem_unique hContent hContent')
  · rintro ⟨rfl, hZero⟩
    refine ⟨_, f', hRun, hf, ?_, hPosition⟩
    rw [← hZero]
    exact hContent

end Places

section From

theorem seekFrom_back_iff (hfd : fd < fsMaxFiles) (hl : Filed s.memory f.link l) (hne : l ≠ [])
    (hp : p ≠ 0) (hf : s.memory.files (s.openFiles fd).file = some f) (hOffset : offset < 0)
    (b j : Nat) :
    SeeksTo s fd (flat l) (b + offset) (seekFrom P fd (s.openFiles fd) f offset p j (toInt32 b)) ↔
      b + offset < 0 ∨ b < 2 ^ 31 ∧ b + offset ≤ (flat l).length := by
  have hTotal : toInt32 b ≤ b := toInt32_le_self (Int.natCast_nonneg b)
  have hBound := toInt32_lt b
  by_cases hNegative : (b : Int) + offset < 0
  · have hRun : seekFrom P fd (s.openFiles fd) f offset p j (toInt32 b) s =
        .ok (-(eINVAL : Int), s) := by
      rw [seekFrom, if_pos hOffset, if_pos (Or.inr (by omega))]
      rfl
    rw [SeeksTo, if_pos hNegative, hRun]
    exact ⟨fun _ => Or.inl hNegative, fun _ => rfl⟩
  by_cases hRefused : toInt32 b + offset < 0
  · have hRun : seekFrom P fd (s.openFiles fd) f offset p j (toInt32 b) s =
        .ok (-(eINVAL : Int), s) := by
      rw [seekFrom, if_pos hOffset, if_pos (Or.inr hRefused)]
      rfl
    have hWrap : ¬ b < 2 ^ 31 := by
      intro hSmall
      rw [toInt32_of_small (by omega) (by omega)] at hRefused
      exact hNegative hRefused
    constructor
    · intro hLaw
      obtain ⟨s', hRun'⟩ := hLaw.result hNegative
      have hResult : (-(eINVAL : Int)) = b + offset := (ok_unique hRun hRun').1
      unfold eINVAL at hResult
      omega
    · rintro (h | h)
      · exact absurd h hNegative
      · exact absurd h.1 hWrap
  -- the walk from the start looks for the sum in `int`
  obtain ⟨k, hk⟩ := Int.eq_ofNat_of_zero_le (Int.not_lt.mp hRefused)
  have hWalk : seekFrom P fd (s.openFiles fd) f offset p j (toInt32 b) s = (do
      let r ← seekBack (s.memory.limit + 1) k f.link
      setOpenFile fd { s.openFiles fd with currentChunk := r.1, offset := r.2 }
      pure (k : Int) : M Int) s := by
    rw [seekFrom, if_pos hOffset, if_neg (by rintro (h | h) <;> [exact hp h; exact hRefused h]),
      bind_ok steps_ok, hk, toInt32_of_small (by omega) (by omega), toSize_natCast (by omega)]
  by_cases hInside : k ≤ (flat l).length
  · obtain ⟨a, x, t, rfl, hBefore, hAt⟩ := cut_split hne hInside
    rw [hl.stored.bytes_length (by simp)] at hAt
    have hFuel : a.length < s.memory.limit + 1 := by
      have hLength := hl.stored.length_le
      rw [List.length_append] at hLength
      omega
    have hFront : (flat a).length ≤ k := by
      rcases hBefore with rfl | hLt
      · exact Nat.zero_le _
      · exact Nat.le_of_lt hLt
    have hRun : seekFrom P fd (s.openFiles fd) f offset p j (toInt32 b) s =
        .ok ((k : Int), s.seekTo fd (s.openFiles fd) x.ptr (k - (flat a).length)) := by
      rw [hWalk, bind_ok (seekBack_ok hl.stored hBefore hAt hFuel)]
      exact bind_ok (setOpenFile_seekTo hfd _ _)
    have hPlace : (k : Int) = (((flat a).length + (k - (flat a).length) : Nat) : Int) := by omega
    by_cases hSmall : b < 2 ^ 31
    · rw [toInt32_of_small (by omega) (by omega)] at hk
      have hLaw := (seeksTo_here hl.stored hf hRun).mpr ⟨hPlace, by omega⟩
      rw [hk]
      rw [← hPlace] at hLaw
      exact ⟨fun _ => Or.inr ⟨hSmall, by omega⟩, fun _ => hLaw⟩
    · constructor
      · intro hLaw
        obtain ⟨s', hRun'⟩ := hLaw.result hNegative
        have hResult : (k : Int) = b + offset := (ok_unique hRun hRun').1
        omega
      · rintro (h | h)
        · exact absurd h hNegative
        · exact absurd h.1 hSmall
  · obtain ⟨e, he⟩ := seekBack_off (s.memory.limit + 1) hl.stored (Nat.lt_of_not_le hInside)
    rw [bind_error he] at hWalk
    constructor
    · intro hLaw
      obtain ⟨s', hRun'⟩ := hLaw.result hNegative
      rw [hWalk] at hRun'
      cases hRun'
    · rintro (h | ⟨hSmall, hLe⟩)
      · exact absurd h hNegative
      · rw [toInt32_of_small (by omega) (by omega)] at hk
        omega

theorem seekFrom_ahead_iff (hGrants : P.Grants) (hfd : fd < fsMaxFiles)
    (hl : Filed s.memory f.link (a ++ x :: t)) (hf : s.memory.files (s.openFiles fd).file = some f)
    (hi : i ≤ x.chunk.used) (hn : n < 2 ^ 63) {b : Nat} (hb : b = (flat a).length + i) :
    SeeksTo s fd (flat (a ++ x :: t)) ((b + n : Nat) : Int)
      (seekFrom P fd (s.openFiles fd) f n x.ptr i (toInt32 b)) ↔
      min (b + n) (flat (a ++ x :: t)).length < 2 ^ 31 ∧
        ((flat (a ++ x :: t)).length < b + n →
          ZeroGap P s (b + n - (flat (a ++ x :: t)).length)) := by
  obtain ⟨e, he⟩ : ∃ e, e = min n ((flat (x :: t)).length - i) := ⟨_, rfl⟩
  obtain ⟨a', y, t', j, hSplit, hSum, hLast, hRun⟩ :=
    seekFrom_ahead (P := P) fd (s.openFiles fd) f hl.suffix hi n b he
  have hWhole : a ++ x :: t = (a ++ a') ++ y :: t' := by rw [hSplit, List.append_assoc]
  have hLength : (flat (a ++ x :: t)).length = (flat a).length + (flat (x :: t)).length := by
    rw [flat_append, List.length_append]
  have hFront : (flat (a ++ a')).length + j = b + e := by
    rw [flat_append, List.length_append]
    omega
  have hUsed : x.chunk.used ≤ (flat (x :: t)).length := by
    rw [flat_cons, List.length_append, hl.stored.bytes_length (by simp)]
    omega
  have hSumInt : (b : Int) + (e : Int) = ((b + e : Nat) : Int) := by omega
  rw [hSumInt] at hRun
  by_cases hLeft : n - e = 0
  · have hAll : b + n = (flat (a ++ a')).length + j := by omega
    rw [hLeft, seekFinish_here hfd] at hRun
    rw [hWhole] at hl hLength ⊢
    rw [hAll, seeksTo_here hl.stored hf hRun, ← hFront]
    have hInside : (flat (a ++ a')).length + j ≤ (flat (a ++ a' ++ y :: t')).length := by omega
    rw [min_eq_left hInside, toInt32_eq_iff]
    exact and_congr_right fun _ => ⟨fun _ h => absurd hInside (Nat.not_le.mpr h), fun _ => hInside⟩
  · obtain rfl := hLast hLeft
    rw [hWhole] at hl hLength ⊢
    have hPos : 0 < n - e := Nat.pos_of_ne_zero hLeft
    obtain ⟨g, ptr, s', hAnswer, hFinish, hFiles, hFiled⟩ := seekFinish_gap
      (o := s.openFiles fd) hGrants hfd hl hPos
      (Nat.lt_of_le_of_lt (Nat.sub_le _ _) hn) j (toInt32 ((b + e : Nat) : Int))
    have hSize : (flat (a ++ a' ++ [y])).length = b + e := by omega
    have hAll : b + n = (flat (a ++ a' ++ [y])).length + (n - e) := by omega
    have hKept : flat (a ++ a' ++ [y.linked ptr]) = flat (a ++ a' ++ [y]) := by
      simp only [flat_append, flat_cons, flat_nil, Piece.linked]
    rw [hAll, seeksTo_gap hAnswer (by rw [hFiles, hf]) hKept (by rwa [List.append_assoc]) hPos
      (hRun.trans hFinish),
      min_eq_right (Nat.le_add_right _ _), Nat.add_sub_cancel_left, ← hSize, toInt32_add_eq_iff]
    exact and_congr_right fun _ =>
      ⟨fun hZero _ => hZero, fun hZero => hZero (Nat.lt_add_of_pos_right hPos)⟩

/-- Ahead from behind the end of a chunk: the difference that the code takes for the bytes
left in it is huge, so it stays there. -/
theorem seekFrom_overrun_iff (hfd : fd < fsMaxFiles) (hl : Filed s.memory f.link (a ++ x :: t))
    (hf : s.memory.files (s.openFiles fd).file = some f) (hi : x.chunk.used < i)
    (hn : n < 2 ^ 63) {b : Nat} (hb : b = (flat a).length + i) :
    SeeksTo s fd (flat (a ++ x :: t)) ((b + n : Nat) : Int)
      (seekFrom P fd (s.openFiles fd) f n x.ptr i (toInt32 b)) ↔
      b + n < 2 ^ 31 ∧ b + n ≤ (flat (a ++ x :: t)).length := by
  obtain ⟨block, hx⟩ := hl.holds x (by simp)
  by_cases hFar : 2 ^ 31 ≤ i
  · constructor
    · intro hLaw
      obtain ⟨s', hRun⟩ := hLaw.result (by omega)
      have hResult := (seekFrom_le (P := P) n x.ptr i b).result hRun
      omega
    · rintro ⟨hSmall, -⟩
      omega
  have hRoom : n ≤ sub64 x.chunk.used i := by
    rw [sub64_of_lt (by omega) hi]
    omega
  have hRun : seekFrom P fd (s.openFiles fd) f n x.ptr i (toInt32 b) s =
      .ok (toInt32 ((b + n : Nat) : Int), s.seekTo fd (s.openFiles fd) x.ptr (i + n)) := by
    have hStay : seekForward (s.memory.limit + 1) (sub64 x.chunk.used i) n (toInt32 b) x.ptr i s =
        .ok ((x.ptr, i, sub64 x.chunk.used i, n, toInt32 b), s) := by
      rw [seekForward, bind_ok (getChunkAt_ok hx.ne_zero hx.chunk), if_neg (by omega)]
      rfl
    rw [seekFrom, if_neg (by omega), if_pos hx.ne_zero, bind_ok (getChunkAt_ok hx.ne_zero hx.chunk),
      bind_ok steps_ok, Int.toNat_natCast, bind_ok hStay]
    simp only [ge_iff_le, if_pos hRoom, Nat.sub_self]
    rw [seekFinish_here hfd, toInt32_add, add64_of_lt (by omega), Nat.cast_add]
  rw [hb, Nat.add_assoc] at hRun ⊢
  rw [seeksTo_here hl.stored hf hRun, toInt32_eq_iff]

theorem seekFrom_iff (hGrants : P.Grants) (hfd : fd < fsMaxFiles)
    (hl : Filed s.memory f.link (a ++ x :: t)) (hf : s.memory.files (s.openFiles fd).file = some f)
    (hOffset : offset < 2 ^ 63) {b : Nat} (hb : b = (flat a).length + i) {overruns : Prop}
    (hOverruns : overruns ↔ x.chunk.used < i) :
    SeeksTo s fd (flat (a ++ x :: t)) (b + offset)
      (seekFrom P fd (s.openFiles fd) f offset x.ptr i (toInt32 b)) ↔
      Seekable P s (a ++ x :: t) overruns b offset := by
  obtain ⟨block, hx⟩ := hl.holds x (by simp)
  rw [Seekable]
  by_cases hNegative : offset < 0
  · rw [if_pos hNegative]
    exact seekFrom_back_iff hfd hl (by simp) hx.ne_zero hf hNegative b i
  obtain ⟨n, rfl⟩ := Int.eq_ofNat_of_zero_le (Int.not_lt.mp hNegative)
  rw [if_neg hNegative, Int.toNat_natCast, ← Nat.cast_add, hOverruns]
  by_cases hBehind : x.chunk.used < i
  · rw [seekFrom_overrun_iff hfd hl hf hBehind (by omega) hb]
    constructor
    · rintro ⟨hSmall, hInside⟩
      exact ⟨by omega, fun h => absurd hInside (by omega)⟩
    · rintro ⟨hSmall, hGap⟩
      have hInside : ¬ (flat (a ++ x :: t)).length < b + n := fun h => (hGap h).1 hBehind
      omega
  · rw [seekFrom_ahead_iff hGrants hfd hl hf (Nat.le_of_not_lt hBehind) (by omega) hb]
    exact and_congr_right fun _ => forall_congr' fun _ => ⟨fun h => ⟨hBehind, h⟩, fun h => h.2⟩

theorem seekFrom_empty_iff (hGrants : P.Grants) (hfd : fd < fsMaxFiles)
    (hne : (s.openFiles fd).file ≠ 0) (hf : s.memory.files (s.openFiles fd).file = some f)
    (hLink : f.link = 0) (hOffset : offset < 2 ^ 63) {overruns : Prop} (hOverruns : ¬ overruns) :
    SeeksTo s fd [] ((0 : Nat) + offset) (seekFrom P fd (s.openFiles fd) f offset 0 0 0) ↔
      Seekable P s [] overruns 0 offset := by
  rw [Seekable, Nat.cast_zero, Int.zero_add]
  by_cases hNegative : offset < 0
  · rw [if_pos hNegative, SeeksTo, if_pos hNegative, seekFrom, if_pos hNegative,
      if_pos (Or.inl rfl)]
    exact ⟨fun _ => Or.inl hNegative, fun _ => rfl⟩
  obtain ⟨n, rfl⟩ := Int.eq_ofNat_of_zero_le (Int.not_lt.mp hNegative)
  rw [if_neg hNegative, Int.toNat_natCast, flat_nil, List.length_nil, Nat.zero_add, Nat.sub_zero]
  have hWalk : seekFrom P fd (s.openFiles fd) f n 0 0 0 s =
      seekFinish P fd (s.openFiles fd) 0 0 n 0 s := by
    rw [seekFrom, if_neg (by omega), if_neg (not_not.mpr rfl), Int.toNat_natCast]
  rcases Nat.eq_zero_or_pos n with rfl | hn
  · rw [seekFinish_here hfd] at hWalk
    refine ⟨fun _ => ⟨by decide, fun h => absurd h (Nat.lt_irrefl 0)⟩, fun _ => ?_⟩
    rw [SeeksTo, if_neg (by omega)]
    refine ⟨_, f, hWalk, hf, ?_, ?_⟩
    · rw [hLink]
      exact Stored.content_eq (l := []) rfl
    · have hNone : pieces (s.seekTo fd (s.openFiles fd) 0 0).memory f.link = some [] :=
        pieces_eq_some.mpr hLink
      rw [position, hNone, seekTo_entry]
      rfl
  · obtain ⟨g, ptr, s', hAnswer, hFinish, hNode, hFiled⟩ :=
      seekFinish_first hGrants hfd hne hf hn (by omega) 0 0
    have hLaw := seeksTo_gap (c := []) (k := []) hAnswer hNode rfl hFiled hn (hWalk.trans hFinish)
    rw [List.length_nil, Nat.zero_add, Int.zero_add] at hLaw
    rw [hLaw, min_eq_right (Nat.zero_le n)]
    constructor
    · rintro ⟨-, hZero⟩
      exact ⟨by decide, fun _ => ⟨hOverruns, hZero⟩⟩
    · rintro ⟨-, hGap⟩
      exact ⟨rfl, (hGap hn).2⟩

end From

end Dandelion.FileSystem
