import Dandelion.FileSystem.Anchors
import Dandelion.FileSystem.SoundCalls
import Dandelion.FileSystem.Truncation

/-! # The walks of a seek

The code adds up the bytes it passes in a variable of type `int`, walks back from
the start for a negative offset and ahead from where it is otherwise. Behind the
last chunk it appends a new one.
-/

namespace Dandelion.FileSystem

open Foundation.Words Foundation.Triples

variable {P : Platform} {s s' : State} {p : Ptr} {a l t : List Piece} {x y : Piece} {o : OpenFile}
  {f : DFile} {i j n fuel : Nat} {T : Int}

section Walks

theorem seekCurrent_ok (h : Stored s.memory p (a ++ x :: t)) (hApart : ∀ y ∈ a, y.ptr ≠ x.ptr)
    (hFuel : a.length < fuel) (T : Int) (j : Nat) :
    seekCurrent x.ptr j fuel (toInt32 T) p s = .ok ((j, toInt32 (T + (flat a).length + j)), s) := by
  induction a generalizing p fuel T with
  | nil =>
    obtain ⟨fuel, rfl⟩ := Nat.exists_eq_add_one.mpr hFuel
    obtain ⟨rfl, hne, hChunk, -⟩ := h
    rw [seekCurrent, if_neg hne, bind_ok (getChunkAt_ok hne hChunk), if_neg (not_not.mpr rfl),
      toInt32_add]
    simp only [flat_nil, List.length_nil, Nat.cast_zero, Int.add_zero]
    rfl
  | cons y a ih =>
    obtain ⟨fuel, rfl⟩ := Nat.exists_eq_add_one.mpr (Nat.zero_lt_of_lt hFuel)
    have hBytes := h.bytes_length (x := y) List.mem_cons_self
    obtain ⟨rfl, hne, hChunk, -, hRest⟩ := h
    rw [seekCurrent, if_neg hne, bind_ok (getChunkAt_ok hne hChunk),
      if_pos (hApart y List.mem_cons_self), toInt32_add,
      ih hRest (fun z hz => hApart z (List.mem_cons_of_mem _ hz)) (Nat.lt_of_succ_lt_succ hFuel),
      flat_cons, List.length_append, hBytes, Nat.cast_add, Int.add_assoc T]

theorem seekCurrent_first (h : Stored s.memory p (a ++ x :: t)) (hApart : ∀ y ∈ a, y.ptr ≠ x.ptr)
    (hFuel : a.length < fuel) (j : Nat) :
    seekCurrent x.ptr j fuel 0 p s = .ok ((j, toInt32 (((flat a).length + j : Nat) : Int)), s) := by
  have hWalk := seekCurrent_ok h hApart hFuel 0 j
  rwa [toInt32_of_small (by decide) (by decide), Int.zero_add, ← Nat.cast_add] at hWalk

theorem seekLast_ok (h : Stored s.memory p (a ++ [x])) (hFuel : a.length < fuel) (T : Int) :
    seekLast fuel (toInt32 T) p s = .ok ((x.ptr, toInt32 (T + (flat (a ++ [x])).length)), s) := by
  induction a generalizing p fuel T with
  | nil =>
    obtain ⟨fuel, rfl⟩ := Nat.exists_eq_add_one.mpr hFuel
    have hBytes := h.bytes_length (x := x) List.mem_cons_self
    obtain ⟨rfl, hne, hChunk, -, hNext⟩ := h
    rw [seekLast, bind_ok (getChunkAt_ok hne hChunk), if_pos (show x.chunk.next = 0 from hNext),
      toInt32_add]
    simp only [List.nil_append, flat_cons, flat_nil, List.append_nil, hBytes]
    rfl
  | cons y a ih =>
    obtain ⟨fuel, rfl⟩ := Nat.exists_eq_add_one.mpr (Nat.zero_lt_of_lt hFuel)
    have hBytes := h.bytes_length (x := y) List.mem_cons_self
    obtain ⟨rfl, hne, hChunk, -, hRest⟩ := h
    have hNext : y.chunk.next ≠ 0 := by
      cases a with
      | nil => exact hRest.2.1
      | cons z a => exact hRest.2.1
    rw [seekLast, bind_ok (getChunkAt_ok hne hChunk), if_neg hNext, toInt32_add,
      ih hRest (Nat.lt_of_succ_lt_succ hFuel), List.cons_append, flat_cons, List.length_append,
      hBytes, Nat.cast_add, Int.add_assoc T]

theorem seekLast_first (h : Stored s.memory p (a ++ [x])) (hFuel : a.length < fuel) :
    seekLast fuel 0 p s = .ok ((x.ptr, toInt32 ((flat (a ++ [x])).length : Int)), s) := by
  have hWalk := seekLast_ok h hFuel 0
  rwa [toInt32_of_small (by decide) (by decide), Int.zero_add] at hWalk

theorem seekBack_ok (h : Stored s.memory p (a ++ x :: t)) (hBefore : a = [] ∨ (flat a).length < n)
    (hAt : n ≤ (flat a).length + x.chunk.used) (hFuel : a.length < fuel) :
    seekBack fuel n p s = .ok ((x.ptr, n - (flat a).length), s) := by
  induction a generalizing p fuel n with
  | nil =>
    obtain ⟨fuel, rfl⟩ := Nat.exists_eq_add_one.mpr hFuel
    obtain ⟨rfl, hne, hChunk, -⟩ := h
    rw [flat_nil, List.length_nil, Nat.zero_add] at hAt
    rw [seekBack, bind_ok (getChunkAt_ok hne hChunk), if_neg (Nat.not_lt.mpr hAt)]
    rfl
  | cons y a ih =>
    obtain ⟨fuel, rfl⟩ := Nat.exists_eq_add_one.mpr (Nat.zero_lt_of_lt hFuel)
    have hBytes := h.bytes_length (x := y) List.mem_cons_self
    obtain ⟨rfl, hne, hChunk, -, hRest⟩ := h
    have hLt := hBefore.resolve_left (List.cons_ne_nil y a)
    rw [flat_cons, List.length_append, hBytes] at hLt hAt
    rw [seekBack, bind_ok (getChunkAt_ok hne hChunk), if_pos (by omega),
      ih hRest (Or.inr (by omega)) (by omega) (Nat.lt_of_succ_lt_succ hFuel), flat_cons,
      List.length_append, hBytes, Nat.sub_add_eq]

theorem seekBack_off (fuel : Nat) (h : Stored s.memory p l) (hn : (flat l).length < n) :
    ∃ e, seekBack fuel n p s = .error e := by
  induction l generalizing p fuel n with
  | nil =>
    obtain rfl : p = 0 := h
    cases fuel with
    | zero => exact ⟨_, rfl⟩
    | succ fuel => exact ⟨.null, rfl⟩
  | cons y l ih =>
    cases fuel with
    | zero => exact ⟨_, rfl⟩
    | succ fuel =>
      have hBytes := h.bytes_length (x := y) List.mem_cons_self
      obtain ⟨rfl, hne, hChunk, -, hRest⟩ := h
      rw [flat_cons, List.length_append, hBytes] at hn
      rw [seekBack, bind_ok (getChunkAt_ok hne hChunk), if_pos (by omega)]
      exact ih _ hRest (by omega)

theorem seekForward_ok (h : Stored s.memory x.ptr (x :: t)) (hi : i ≤ x.chunk.used)
    (hFuel : t.length < fuel) (n : Nat) (T : Int) :
    ∃ a y t' j d, x :: t = a ++ y :: t' ∧ j ≤ y.chunk.used ∧ (flat a).length + j = i + d ∧ d ≤ n ∧
      (n - d ≤ y.chunk.used - j ∨ t' = []) ∧
        seekForward fuel (x.chunk.used - i) n (toInt32 T) x.ptr i s =
        .ok ((y.ptr, j, y.chunk.used - j, n - d, toInt32 (T + d)), s) := by
  induction t generalizing x i n T fuel with
  | nil =>
    obtain ⟨fuel, rfl⟩ := Nat.exists_eq_add_one.mpr hFuel
    obtain ⟨-, hne, hChunk, -, hNext⟩ := h
    refine ⟨[], x, [], i, 0, rfl, hi, by simp, Nat.zero_le _, Or.inr rfl, ?_⟩
    rw [seekForward, bind_ok (getChunkAt_ok hne hChunk), if_neg (fun h => h.2 hNext), Nat.cast_zero,
      Int.add_zero, Nat.sub_zero]
    rfl
  | cons z t ih =>
    obtain ⟨fuel, rfl⟩ := Nat.exists_eq_add_one.mpr (Nat.zero_lt_of_lt hFuel)
    have hBytes := h.bytes_length (x := x) List.mem_cons_self
    obtain ⟨-, hne, hChunk, -, hRest⟩ := h
    obtain ⟨hNext, hz, hzChunk, -⟩ := id hRest
    by_cases hAhead : x.chunk.used - i < n
    · rw [hNext] at hRest hz hzChunk
      obtain ⟨a, y, t', j, d, hSplit, hj, hSum, hd, hEnd, hRun⟩ :=
        ih hRest (Nat.zero_le _) (Nat.lt_of_succ_lt_succ hFuel) (n - (x.chunk.used - i))
          (T + ((x.chunk.used - i : Nat) : Int))
      refine ⟨x :: a, y, t', j, x.chunk.used - i + d, by rw [hSplit, List.cons_append], hj,
        ?_, by omega, ?_, ?_⟩
      · rw [flat_cons, List.length_append, hBytes]
        omega
      · rwa [← Nat.sub_sub]
      · rw [seekForward, bind_ok (getChunkAt_ok hne hChunk), if_pos ⟨hAhead, hNext ▸ hz⟩, hNext,
          bind_ok (getChunkAt_ok hz hzChunk), toInt32_add, ← Nat.sub_zero z.chunk.used, hRun,
          Nat.sub_sub, Nat.cast_add, Int.add_assoc]
    · refine ⟨[], x, z :: t, i, 0, rfl, hi, by simp, Nat.zero_le _, Or.inl (by omega), ?_⟩
      rw [seekForward, bind_ok (getChunkAt_ok hne hChunk), if_neg (fun h => hAhead h.1),
        Nat.cast_zero, Int.add_zero, Nat.sub_zero]
      rfl

end Walks

section Finish

variable {fd : Nat} {total : Int} {r : Nat}

def State.seekTo (s : State) (fd : Nat) (o : OpenFile) (p : Ptr) (offset : Nat) : State :=
  { s with openFiles :=
    Function.update s.openFiles fd { o with currentChunk := p, offset := offset } }

theorem seekTo_entry (s : State) (fd : Nat) (o : OpenFile) (p : Ptr) (offset : Nat) :
    (s.seekTo fd o p offset).openFiles fd = { o with currentChunk := p, offset := offset } :=
  Function.update_self _ _ _

theorem setOpenFile_seekTo (hfd : fd < fsMaxFiles) (p : Ptr) (offset : Nat) :
    setOpenFile fd { o with currentChunk := p, offset := offset } s =
      .ok ((), s.seekTo fd o p offset) := by
  rw [setOpenFile_ok ⟨by omega, by omega⟩]
  rfl

theorem seekFinish_here (hfd : fd < fsMaxFiles) (p : Ptr) (j : Nat) (total : Int) :
    seekFinish P fd o p j 0 total s = .ok (total, s.seekTo fd o p j) := by
  rw [seekFinish, if_pos rfl, bind_ok (setOpenFile_seekTo hfd p j)]
  rfl

/-- A gap is a new chunk, hung behind the last one or into the empty file. -/
theorem seekFinish_new (hGrants : P.Grants) (hfd : fd < fsMaxFiles) (hr : 0 < r)
    (hRoom : r ≤ chunkSize r) (p : Ptr) (j : Nat) (total : Int) :
    ∃ (g : Grant) (ptr : Ptr) (s₁ : State), P.answer s.memory s.requests (chunkSize r) 16 = some g ∧
      NewChunk s.memory s₁.memory ptr g.ptr (chunkSize r) g.bytes ∧ ∀ s₂ : State,
        attachChunk o.file p ptr
          { s₁ with memory := s₁.memory.setChunk ptr ⟨g.ptr, chunkSize r, r, 0⟩ } =
          .ok ((), s₂) → seekFinish P fd o p j r total s =
            .ok (total + r, s₂.seekTo fd o ptr r) := by
  obtain ⟨g, ptr, s₁, hAnswer, hAlloc, -, hNew⟩ :=
    allocateFileChunk_ok (s := s) (hGrants.pair _) (Nat.lt_of_lt_of_le hr hRoom)
  have hFresh : s₁.memory.chunks ptr = some ⟨g.ptr, chunkSize r, 0, 0⟩ := by
    rw [hNew.chunks, Function.update_self]
  refine ⟨g, ptr, s₁, hAnswer, hNew, fun s₂ hAttach => ?_⟩
  rw [seekFinish, if_neg (Nat.ne_of_gt hr), bind_ok hAlloc, if_neg hNew.ptr_vacant.ne_zero,
    bind_ok (modifyChunk_ok hNew.ptr_vacant.ne_zero hFresh), bind_ok hAttach,
    bind_ok (setOpenFile_seekTo hfd ptr r)]
  rfl

theorem seekFinish_gap (hGrants : P.Grants) (hfd : fd < fsMaxFiles)
    (hl : Filed s.memory p (a ++ [y])) (hr : 0 < r) (hWord : r < 2 ^ 63) (j : Nat) (total : Int) :
    ∃ (g : Grant) (ptr : Ptr) (s' : State), P.answer s.memory s.requests (chunkSize r) 16 = some g ∧
      seekFinish P fd o y.ptr j r total s = .ok (total + r, s'.seekTo fd o ptr r) ∧
        s'.memory.files = s.memory.files ∧
      Filed s'.memory p
        (a ++ [y.linked ptr, .fresh ptr g.ptr (chunkSize r) ((List.range r).map g.bytes)]) := by
  have hRoom : r ≤ chunkSize r := chunkSize_ge hWord
  obtain ⟨g, ptr, s₁, hAnswer, hNew, hRun⟩ := seekFinish_new hGrants hfd hr hRoom y.ptr j total
  obtain ⟨b, hy⟩ := hl.holds y (by simp)
  have hPtr : ptr ≠ y.ptr := hNew.ptr_vacant.ne_chunk hy.chunk
  set s₂ : State := { s₁ with memory := s₁.memory.setChunk ptr ⟨g.ptr, chunkSize r, r, 0⟩ }
  have hOld : s₂.memory.chunks y.ptr = some y.chunk := by
    show Function.update s₁.memory.chunks ptr _ y.ptr = _
    rw [Function.update_of_ne hPtr.symm, hNew.chunks, Function.update_of_ne hPtr.symm, hy.chunk]
  set s₃ : State := { s₂ with memory := s₂.memory.setChunk y.ptr { y.chunk with next := ptr } }
  obtain ⟨⟨hFiled, -⟩, -⟩ :=
    attach_filed s₃.memory hl hNew hRoom (chunkSize_lt _) (Function.update_comm hPtr _ _ _) rfl
  refine ⟨g, ptr, s₃, hAnswer, hRun s₃ ?_, hNew.files, hFiled⟩
  rw [attachChunk, if_neg hy.ne_zero]
  exact modifyChunk_ok hy.ne_zero hOld

theorem seekFinish_first (hGrants : P.Grants) (hfd : fd < fsMaxFiles) (hne : o.file ≠ 0)
    (hf : s.memory.files o.file = some f) (hr : 0 < r) (hWord : r < 2 ^ 63) (j : Nat)
    (total : Int) :
    ∃ (g : Grant) (ptr : Ptr) (s' : State), P.answer s.memory s.requests (chunkSize r) 16 = some g ∧
      seekFinish P fd o 0 j r total s = .ok (total + r, s'.seekTo fd o ptr r) ∧
      s'.memory.files o.file = some { f with link := ptr } ∧
      Filed s'.memory ptr [.fresh ptr g.ptr (chunkSize r) ((List.range r).map g.bytes)] := by
  have hRoom : r ≤ chunkSize r := chunkSize_ge hWord
  obtain ⟨g, ptr, s₁, hAnswer, hNew, hRun⟩ := seekFinish_new hGrants hfd hr hRoom 0 j total
  set s₂ : State := { s₁ with memory := s₁.memory.setChunk ptr ⟨g.ptr, chunkSize r, r, 0⟩ }
  have hNode : s₂.memory.files o.file = some f := by
    show s₁.memory.files o.file = _
    rw [hNew.files, hf]
  set s₃ : State := { s₂ with memory := s₂.memory.setFile o.file { f with link := ptr } }
  have hChunks : s₃.memory.chunks =
      Function.update s.memory.chunks ptr (some ⟨g.ptr, chunkSize r, r, 0⟩) := by
    show Function.update s₁.memory.chunks ptr _ = _
    rw [hNew.chunks, Function.update_idem]
  obtain ⟨hFiled, -⟩ := first_filed s₃.memory hNew hRoom (chunkSize_lt _) hChunks rfl
  refine ⟨g, ptr, s₃, hAnswer, hRun s₃ ?_, Function.update_self _ _ _, hFiled⟩
  rw [attachChunk, if_pos rfl]
  exact modifyFile_ok hne hNode

theorem seekFrom_ahead (fd : Nat) (o : OpenFile) (f : DFile) (hl : Filed s.memory x.ptr (x :: t))
    (hi : i ≤ x.chunk.used) (n : Nat) (T : Int) {e : Nat}
    (he : e = min n ((flat (x :: t)).length - i)) :
    ∃ a y t' j, x :: t = a ++ y :: t' ∧ (flat a).length + j = i + e ∧ (n - e ≠ 0 → t' = []) ∧
      seekFrom P fd o f n x.ptr i (toInt32 T) s =
        seekFinish P fd o y.ptr j (n - e) (toInt32 (T + e)) s := by
  obtain ⟨b, hx⟩ := hl.holds x List.mem_cons_self
  have hFuel : t.length < s.memory.limit + 1 := by
    have hLength := hl.stored.length_le
    rw [List.length_cons] at hLength
    omega
  obtain ⟨a, y, t', j, d, hSplit, hj, hSum, hd, hEnd, hRun⟩ := seekForward_ok hl.stored hi hFuel n T
  obtain ⟨b', hy⟩ := hl.holds y (by rw [hSplit]; simp)
  have hLength : (flat (x :: t)).length = (flat a).length + y.chunk.used + (flat t').length := by
    have hBytes := hl.stored.bytes_length (x := y) (by rw [hSplit]; simp)
    rw [hSplit, flat_append, flat_cons, List.length_append, List.length_append, hBytes,
      Nat.add_assoc]
  have hUsed : x.chunk.used < 2 ^ 64 := Nat.lt_of_le_of_lt hx.used hx.word
  have hUsed' : y.chunk.used < 2 ^ 64 := Nat.lt_of_le_of_lt hy.used hy.word
  have hWalk : seekFrom P fd o f n x.ptr i (toInt32 T) s =
      seekFinish P fd o y.ptr
        (add64 j (if y.chunk.used - j ≥ n - d then n - d else y.chunk.used - j))
        (n - d - (if y.chunk.used - j ≥ n - d then n - d else y.chunk.used - j))
        (toInt32 (toInt32 (T + d) + (if y.chunk.used - j ≥ n - d then n - d
          else y.chunk.used - j : Nat))) s := by
    rw [seekFrom, if_neg (by omega), if_pos hx.ne_zero, bind_ok (getChunkAt_ok hx.ne_zero hx.chunk),
      bind_ok steps_ok, sub64_of_le hUsed hi, Int.toNat_natCast, bind_ok hRun]
  refine ⟨a, y, t', j + (if y.chunk.used - j ≥ n - d then n - d else y.chunk.used - j), hSplit, ?_,
    fun hLeft => ?_, ?_⟩
  · split
    · omega
    · have := hEnd.resolve_left (by omega)
      subst this
      rw [flat_nil, List.length_nil] at hLength
      omega
  · refine hEnd.resolve_left fun hFits => hLeft ?_
    omega
  · rw [hWalk, toInt32_add]
    split
    · rw [add64_of_lt (by omega), show n - e = n - d - (n - d) by omega,
        show T + (e : Int) = T + d + ((n - d : Nat) : Int) by omega]
    · have := hEnd.resolve_left (by omega)
      subst this
      rw [flat_nil, List.length_nil] at hLength
      rw [add64_of_lt (by omega), show n - e = n - d - (y.chunk.used - j) by omega,
        show T + (e : Int) = T + d + ((y.chunk.used - j : Nat) : Int) by omega]

theorem seekFrom_le (n : Nat) (p : Ptr) (i : Nat) (T : Int) :
    Ensures (seekFrom P fd o f n p i (toInt32 T)) s fun r _ => r < 2 ^ 31 + n := by
  have hFinish : ∀ {s : State} (p : Ptr) (j r : Nat) (T : Int), r ≤ n →
      Ensures (seekFinish P fd o p j r (toInt32 T)) s fun v _ => v < 2 ^ 31 + (n : Int) := by
    intro s p j r T hr
    have hT := toInt32_lt T
    rw [seekFinish]
    refine .ite (fun _ => .after_any fun _ _ => .pure (by omega)) fun _ => .after_any fun q s₁ => ?_
    refine .ite (fun _ => .pure ?_) fun _ => .after_any fun _ _ => .after_any fun _ _ =>
      .after_any fun _ _ => .pure (by omega)
    unfold eNOMEM
    omega
  rw [seekFrom, if_neg (by omega)]
  refine .ite (fun _ => ?_) fun _ => ?_
  · refine .after_any fun c s₁ => .after_any fun fuel s₂ => ?_
    refine (ensures_seekForward _ _ _ _ _ _).bind fun r s₃ h₃ => hFinish _ _ _ _ ?_
    exact Nat.le_trans (Nat.sub_le _ _) h₃.2.2.2
  · rw [Int.toNat_natCast]
    exact hFinish _ _ _ _ (Nat.le_refl _)

end Finish

end Dandelion.FileSystem
