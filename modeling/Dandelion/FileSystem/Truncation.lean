import Dandelion.FileSystem.ReworkCalls
import Dandelion.FileSystem.WriteStart

/-! # The walk of a truncation

The walk stops at the first chunk in which the length is reached. If that is the
last one it is cut there. If it is not, the chunks behind it are released while it
still refers to them. Behind the end a gap is appended.
-/

namespace Dandelion.FileSystem

open Foundation.Chains Foundation.Triples

def Piece.cut (x : Piece) (r : Nat) : Piece := ⟨x.ptr, { x.chunk with used := r }, x.bytes.take r⟩

variable {P : Platform} {s s' : State} {m m' : Memory} {p q : Ptr} {a l t : List Piece}
  {x y : Piece} {n r fuel : Nat}

section Pieces

theorem cut_split (hne : l ≠ []) (hn : n ≤ (flat l).length) :
    ∃ a x t, l = a ++ x :: t ∧ (a = [] ∨ (flat a).length < n) ∧
      n ≤ (flat a).length + x.bytes.length := by
  induction l generalizing n with
  | nil => exact absurd rfl hne
  | cons y l ih =>
    rw [flat_cons, List.length_append] at hn
    by_cases hHere : n ≤ y.bytes.length
    · exact ⟨[], y, l, rfl, Or.inl rfl, by rw [flat_nil, List.length_nil]; omega⟩
    · have hRest : l ≠ [] := by
        rintro rfl
        rw [flat_nil, List.length_nil] at hn
        omega
      obtain ⟨a, x, t, rfl, hBefore, hAt⟩ := ih hRest (n := n - y.bytes.length) (by omega)
      refine ⟨y :: a, x, t, rfl, Or.inr ?_, ?_⟩
      · rw [flat_cons, List.length_append]
        rcases hBefore with rfl | hBefore
        · rw [flat_nil, List.length_nil]
          omega
        · omega
      · rw [flat_cons, List.length_append]
        omega

theorem cut_filed (m' : Memory) (h : Filed m q (a ++ x :: t)) (hr : r ≤ x.chunk.used)
    (hChunks : m'.chunks = Function.update m.chunks x.ptr (some (x.cut r).chunk))
    (hBlocks : m'.blocks = m.blocks) :
    Filed m' q (a ++ x.cut r :: t) := by
  obtain ⟨b, hx⟩ := h.holds x (by simp)
  have hOnly : Only m m' x :=
    ⟨fun p c hp hNe => by rw [hChunks, Function.update_of_ne hNe, hp],
      fun p b hp _ => by rw [hBlocks, hp]⟩
  have hHolds : Holds m' x.ptr (x.cut r).chunk b :=
    ⟨hx.ne_zero, by rw [hChunks, Function.update_self], hx.data_ne, by rw [hBlocks]; exact hx.block,
      Nat.le_trans hr hx.used, hx.size, hx.bounded⟩
  have hLoad : m'.load x.chunk.data 0 r = some (x.bytes.take r) := by
    rw [load_congr (congrFun hBlocks _), load_part h.stored.suffix.2.2.2.1 (by omega),
      List.drop_zero]
  exact (hOnly.refill h hHolds hLoad).1

theorem not_stored_of_gone {cs : List Ptr} {k : List Piece}
    (hSegment : Segment (nextChunk m) p cs q)
    (hChunks : ∀ p c, m'.chunks p = some c → m.chunks p = some c) (hq : q ≠ 0)
    (hGone : m'.chunks q = none) :
    ¬ Stored m' p k := by
  induction cs generalizing p k with
  | nil =>
    obtain rfl : p = q := hSegment
    intro hStored
    cases k with
    | nil => exact hq hStored
    | cons z k =>
      rw [hStored.2.2.1] at hGone
      cases hGone
  | cons r cs ih =>
    obtain ⟨rfl, hne, next, hNext, hRest⟩ := hSegment
    intro hStored
    cases k with
    | nil => exact hne hStored
    | cons z k =>
      obtain ⟨-, -, hChunk, -, hTail⟩ := hStored
      rw [nextChunk, hChunks _ _ hChunk, Option.map_some, Option.some.injEq] at hNext
      exact ih hRest (hNext ▸ hTail)

end Pieces

section Walk

theorem truncateFrom_skip (hl : Filed s.memory p (a ++ x :: t))
    (hBefore : a = [] ∨ (flat a).length < n) :
    truncateFrom P (fuel + a.length) n p s = truncateFrom P fuel (n - (flat a).length) x.ptr s := by
  induction a generalizing p n with
  | nil =>
    obtain rfl : p = x.ptr := hl.stored.1
    rfl
  | cons y a ih =>
    obtain rfl : p = y.ptr := hl.stored.1
    obtain ⟨b, hy⟩ := hl.holds y List.mem_cons_self
    have hBytes := hl.stored.bytes_length (x := y) List.mem_cons_self
    have hLt := hBefore.resolve_left (List.cons_ne_nil y a)
    rw [flat_cons, List.length_append, hBytes] at hLt
    have hNext : y.chunk.next ≠ 0 := by
      cases a with
      | nil => exact hl.tail.stored.2.1
      | cons z a => exact hl.tail.stored.2.1
    rw [List.length_cons, ← Nat.add_assoc, truncateFrom,
      bind_ok (getChunkAt_ok hy.ne_zero hy.chunk), if_neg (by omega),
      if_neg hNext, ih hl.tail (Or.inr (by omega)), flat_cons, List.length_append, hBytes,
      Nat.sub_add_eq]

theorem truncateFrom_at (hl : Filed s.memory p (a ++ x :: t))
    (hBefore : a = [] ∨ (flat a).length < n) (hFuel : a.length < fuel) :
    ∃ k, truncateFrom P fuel n p s = truncateFrom P (k + 1) (n - (flat a).length) x.ptr s := by
  obtain ⟨k, rfl⟩ := Nat.exists_eq_add_of_lt hFuel
  refine ⟨k, ?_⟩
  rw [show a.length + k + 1 = k + 1 + a.length by omega, truncateFrom_skip hl hBefore]

theorem truncateFrom_last (hl : Filed s.memory p (a ++ [x]))
    (hBefore : a = [] ∨ (flat a).length < n) (hn : n ≤ (flat a).length + x.chunk.used)
    (hFuel : a.length < fuel) :
    truncateFrom P fuel n p s =
      .ok (0, { s with memory :=
        s.memory.setChunk x.ptr (x.cut (n - (flat a).length)).chunk }) := by
  obtain ⟨b, hx⟩ := hl.holds x (by simp)
  obtain ⟨k, hRun⟩ := truncateFrom_at (P := P) hl hBefore hFuel
  have hNext : x.chunk.next = 0 := hl.suffix.tail.stored
  rw [hRun, truncateFrom, bind_ok (getChunkAt_ok hx.ne_zero hx.chunk), if_pos (by omega),
    bind_ok (modifyChunk_ok hx.ne_zero hx.chunk), bind_ok steps_ok]
  exact bind_ok (by rw [freeCut, if_pos hNext]; rfl)

theorem drop_chunks_some {c : FileChunk} (h : (m.drop p).chunks q = some c) :
    q ≠ p ∧ m.chunks q = some c := by
  rw [drop_chunks] at h
  by_cases hq : q = p
  · rw [hq, Function.update_self] at h
    cases h
  · exact ⟨hq, by rwa [Function.update_of_ne hq] at h⟩

theorem drop_files_some {f : DFile} (h : (m.drop p).files q = some f) : m.files q = some f := by
  rw [drop_files] at h
  by_cases hq : q = p
  · rw [hq, Function.update_self] at h
    cases h
  · rwa [Function.update_of_ne hq] at h

theorem freeCut_gone (fuel : Nat) (p : Ptr) :
    Ensures (freeCut fuel p) s fun _ s' => (p ≠ 0 → s'.memory.chunks p = none) ∧
      (∀ q c, s'.memory.chunks q = some c → s.memory.chunks q = some c) ∧
      ∀ q f, s'.memory.files q = some f → s.memory.files q = some f := by
  induction fuel generalizing s p with
  | zero => trivial
  | succ fuel ih =>
    rw [freeCut]
    refine .ite (fun hZero => .pure ⟨fun h => absurd hZero h, fun _ _ h => h, fun _ _ h => h⟩)
      fun _ => ?_
    refine ensures_chunk fun c _ _ => ?_
    refine (ensures_dandelionFree c.data).bind fun _ s₂ h₂ => ?_
    obtain ⟨-, rfl⟩ := h₂
    refine (ensures_dandelionFree p).bind fun _ s₃ h₃ => ?_
    obtain ⟨-, rfl⟩ := h₃
    refine (ih c.next).imp fun _ s₄ h₄ => ?_
    obtain ⟨-, hChunks, hFiles⟩ := h₄
    refine ⟨fun _ => ?_, fun q e hq => (drop_chunks_some (drop_chunks_some (hChunks q e hq)).2).2,
      fun q f hq => drop_files_some (drop_files_some (hFiles q f hq))⟩
    cases hGone : s₄.memory.chunks p with
    | none => rfl
    | some e => exact absurd rfl (drop_chunks_some (hChunks p e hGone)).1

/-- Where chunks follow the one in which the length is reached, the list is broken afterwards. -/
theorem truncateFrom_breaks (hl : Filed s.memory p (a ++ x :: y :: t))
    (hBefore : a = [] ∨ (flat a).length < n) (hn : n ≤ (flat a).length + x.chunk.used)
    (hFuel : a.length < fuel) :
    Ensures (truncateFrom P fuel n p) s fun _ s' => (∀ k, ¬ Stored s'.memory p k) ∧
      ∀ q f, s'.memory.files q = some f → s.memory.files q = some f := by
  obtain ⟨b, hx⟩ := hl.holds x (by simp)
  obtain ⟨k, hRun⟩ := truncateFrom_at (P := P) hl hBefore hFuel
  refine .of_eq hRun ?_
  rw [truncateFrom]
  refine .after (getChunkAt_ok hx.ne_zero hx.chunk) ?_
  rw [if_pos (by omega)]
  refine .after (modifyChunk_ok hx.ne_zero hx.chunk) (.after steps_ok ?_)
  refine (freeCut_gone _ _).bind fun _ s₂ hGone => .pure ⟨fun k => ?_, hGone.2.2⟩
  -- before the chunks are released the list still leads to the one behind the cut
  have hNext : x.chunk.next = y.ptr := hl.suffix.tail.stored.1
  obtain ⟨m, hLeft, hRight⟩ := segment_append.mp
    (show Chain _ _ (a.map Piece.ptr ++ x.ptr :: (y :: t).map Piece.ptr) from
    List.map_append ▸ hl.stored.chain)
  obtain ⟨rfl, hne, -⟩ := hRight
  have hSegment :
      Segment (nextChunk (s.memory.setChunk x.ptr { x.chunk with used := n - (flat a).length })) p
      (a.map Piece.ptr ++ [x.ptr]) y.ptr := by
    refine segment_append.mpr ⟨x.ptr, hLeft.congr fun q hq => ?_, rfl, hne, y.ptr, ?_, rfl⟩
    · obtain ⟨z, hz, rfl⟩ := List.mem_map.mp hq
      have hApart := hl.ptr_ne z (List.mem_append_left _ hz)
      rw [nextChunk, nextChunk, setChunk_chunks, Function.update_of_ne hApart]
    · rw [nextChunk, setChunk_chunks, Function.update_self, ← hNext]
      rfl
  have hy : y.ptr ≠ 0 := hNext ▸ hl.suffix.tail.stored.2.1
  exact not_stored_of_gone hSegment hGone.2.1 hy (hNext ▸ hGone.1 (hNext ▸ hy))

theorem truncateFrom_gap (hGrants : P.Grants) (hl : Filed s.memory p (a ++ [x]))
    (hn : (flat (a ++ [x])).length < n) (hWord : n < 2 ^ 63) (hFuel : a.length < fuel) :
    ∃ g ptr s₁ s₂ s₃, truncateFrom P fuel n p s = .ok (0, s₃) ∧
      AppendsGap P s s₁ s₂ s₃ p a x [] (n - (flat (a ++ [x])).length) (n - (flat (a ++ [x])).length)
        g ptr := by
  obtain ⟨b, hx⟩ := hl.holds x (by simp)
  have hFlat : (flat (a ++ [x])).length = (flat a).length + x.chunk.used := by
    rw [flat_append, List.length_append, flat_cons, flat_nil, List.append_nil,
      hl.stored.bytes_length (by simp)]
  obtain ⟨k, hRun⟩ := truncateFrom_at (P := P) (n := n) hl (Or.inr (by omega)) hFuel
  have hNext : x.chunk.next = 0 := hl.suffix.tail.stored
  have hRest : n - (flat (a ++ [x])).length = n - (flat a).length - x.chunk.used := by omega
  rw [hRest]
  set r := n - (flat a).length - x.chunk.used
  have hRoom : r ≤ chunkSize r := chunkSize_ge (by omega)
  obtain ⟨g, ptr, s₁, s₂, s₃, hGap⟩ :=
    appendGap_ok (s := s) (hGrants.pair _) hl (Nat.lt_of_lt_of_le (by omega) hRoom) hRoom
  refine ⟨g, ptr, s₁, s₂, s₃, ?_, hGap⟩
  rw [hRun, truncateFrom, bind_ok (getChunkAt_ok hx.ne_zero hx.chunk), if_neg (by omega),
    if_pos hNext, bind_ok hGap.allocate, bind_ok hGap.link, bind_ok hGap.use]
  rfl

end Walk

end Dandelion.FileSystem
