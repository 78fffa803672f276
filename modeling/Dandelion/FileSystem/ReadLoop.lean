import Dandelion.FileSystem.Content

/-! # The copy loop of `dandelion_read`

From a place inside the chunk list the loop copies piece by piece. The length
it compares each piece with is never reduced, so three things can happen: all
that remains fits, the piece at the place is longer than the buffer, or the
copy runs over the end of the buffer.
-/

namespace Dandelion.FileSystem

open Foundation.Words Foundation.Triples

section Stores

variable (stores : Stores) (start : Int) (a b : List UInt8)

theorem Stores.put_nil : stores.put start [] = stores := by
  funext i
  simp only [Stores.put, List.length_nil]
  rw [if_neg (by omega)]

theorem Stores.put_put : (stores.put start a).put (start + a.length) b =
    stores.put start (a ++ b) := by
  funext i
  simp only [Stores.put, List.length_append, Nat.cast_add]
  by_cases hB : start + a.length ≤ i ∧ i < start + a.length + b.length
  · rw [if_pos hB, if_pos (by omega), List.getD_append_right _ _ _ _ (by omega)]
    congr 2
    omega
  · rw [if_neg hB]
    by_cases hA : start ≤ i ∧ i < start + a.length
    · rw [if_pos hA, if_pos (by omega), List.getD_append _ _ _ _ (by omega)]
    · rw [if_neg hA, if_neg (by omega)]

theorem Stores.put_keeps {i : Int} (h : stores i ≠ none) : stores.put start a i ≠ none := by
  unfold Stores.put
  split
  · simp
  · exact h

theorem Stores.put_covers {i : Int} (hLow : start ≤ i) (hHigh : i < start + a.length) :
    stores.put start a i ≠ none := by
  rw [Stores.put, if_pos ⟨hLow, hHigh⟩]
  simp

end Stores

/-- How many bytes lie between a position and the end of the chunk that holds it. -/
def stretch : List Piece → Nat → Nat
  | [], _ => 0
  | x :: l, n => if n < x.bytes.length then x.bytes.length - n else stretch l (n - x.bytes.length)

/-- All that follows the position fits into the buffer, or the chunk there has more left than
that. -/
def Within (l : List Piece) (p len : Nat) : Prop := (flat l).length - p ≤ len ∨ len < stretch l p

theorem stretch_append (l k : List Piece) (n : Nat) :
    stretch (l ++ k) ((flat l).length + n) = stretch k n := by
  induction l with
  | nil => simp
  | cons x l ih =>
    rw [List.cons_append, stretch, flat_cons, List.length_append, if_neg (by omega), ← ih]
    congr 1
    omega

theorem within_append {l k : List Piece} {n len : Nat} : Within (l ++ k) ((flat l).length + n) len ↔
    Within k n len := by
  rw [Within, Within, stretch_append, flat_append, List.length_append, Nat.add_sub_add_left]

theorem within_zero (l : List Piece) (p : Nat) : Within l p 0 := by
  induction l generalizing p with
  | nil => exact Or.inl (Nat.zero_sub p).le
  | cons x l ih =>
    by_cases hHere : p < x.bytes.length
    · exact Or.inr (by rw [stretch, if_pos hHere]; omega)
    · obtain ⟨n, rfl⟩ := Nat.exists_eq_add_of_le (Nat.le_of_not_lt hHere)
      have hRest : Within ([x] ++ l) ((flat [x]).length + n) 0 ↔ Within l n 0 := within_append
      rw [flat_cons, flat_nil, List.append_nil] at hRest
      exact hRest.mpr (ih n)

section Loop

variable {s : State} {p : Ptr} {x y : Piece} {l rest : List Piece} {len o fuel : Nat} {acc : Int}
  {stores : Stores}

theorem readLoop_long (h : Stored s.memory p (x :: rest)) (hLen : len < 2 ^ 31)
    (hWord : x.chunk.used < 2 ^ 64) (hLong : o + len < x.chunk.used) :
    readLoop (toInt32 len) (fuel + 1) acc stores p o s =
      .ok ((toInt32 (acc + len), stores.put acc ((x.bytes.drop o).take len), p, o + len), s) := by
  obtain ⟨_, hne, hChunk, hLoad, _⟩ := h
  have hNeed : toInt32 len = len := toInt32_of_small (by omega) (by omega)
  have hSize : toSize (len : Int) = len := by
    rw [toSize_of_small (by omega) (by omega), Int.toNat_natCast]
  rw [readLoop, bind_ok (getChunkAt_ok hne hChunk), hNeed, hSize, sub64_of_le hWord (by omega),
    if_pos (by omega), bind_ok (loadBytes_ok (load_part hLoad (by omega))), add64_of_lt (by omega)]
  rfl

theorem readLoop_short (h : Stored s.memory p (x :: rest)) (hLen : len < 2 ^ 31)
    (hWord : x.chunk.used < 2 ^ 64) (ho : o ≤ x.chunk.used) (hShort : x.chunk.used ≤ o + len) :
    readLoop (toInt32 len) (fuel + 1) acc stores p o s =
      if x.chunk.next ≠ 0 then
        readLoop (toInt32 len) fuel (toInt32 (acc + (x.bytes.drop o).length))
          (stores.put acc (x.bytes.drop o))
          x.chunk.next 0 s
      else .ok ((toInt32 (acc + (x.bytes.drop o).length), stores.put acc (x.bytes.drop o), p,
        x.chunk.used), s) := by
  obtain ⟨_, hne, hChunk, hLoad, _⟩ := h
  have hLength := load_length hLoad
  have hNeed : toInt32 len = len := toInt32_of_small (by omega) (by omega)
  have hSize : toSize (len : Int) = len := by
    rw [toSize_of_small (by omega) (by omega), Int.toNat_natCast]
  have hAll : (x.bytes.drop o).take (x.chunk.used - o) = x.bytes.drop o :=
    List.take_of_length_le (by rw [List.length_drop]; omega)
  have hCount : x.chunk.used - o = (x.bytes.drop o).length := by rw [List.length_drop, hLength]
  have hDone : o + (x.chunk.used - o) = x.chunk.used := by omega
  rw [readLoop, bind_ok (getChunkAt_ok hne hChunk), hNeed, hSize, sub64_of_le hWord ho,
    if_neg (by omega), bind_ok (loadBytes_ok (load_part hLoad (by omega))), hAll,
    add64_of_lt (by omega), hDone, hCount]
  split <;> rfl

theorem readLoop_next (h : Stored s.memory p (x :: y :: rest)) (hLen : len < 2 ^ 31)
    (hWord : x.chunk.used < 2 ^ 64) (ho : o ≤ x.chunk.used) (hShort : x.chunk.used ≤ o + len) :
    readLoop (toInt32 len) (fuel + 1) acc stores p o s =
      readLoop (toInt32 len) fuel (toInt32 (acc + (x.bytes.drop o).length))
        (stores.put acc (x.bytes.drop o))
        y.ptr 0 s := by
  obtain ⟨_, _, _, _, hy, hyne, _⟩ := id h
  rw [readLoop_short h hLen hWord ho hShort, if_pos hyne, hy]

theorem readLoop_last (h : Stored s.memory p [x]) (hLen : len < 2 ^ 31)
    (hWord : x.chunk.used < 2 ^ 64) (ho : o ≤ x.chunk.used) (hShort : x.chunk.used ≤ o + len) :
    readLoop (toInt32 len) (fuel + 1) acc stores p o s =
      .ok ((toInt32 (acc + (x.bytes.drop o).length), stores.put acc (x.bytes.drop o), p,
        x.chunk.used), s) := by
  have hNext : x.chunk.next = 0 := h.2.2.2.2
  rw [readLoop_short h hLen hWord ho hShort, if_neg (not_not_intro hNext)]

structure PlacedAt (s : State) (p : Ptr) (l : List Piece) (o : Nat) : Prop where
  stored : Stored s.memory p l
  words : ∀ x ∈ l, x.chunk.used < 2 ^ 64
  nonempty : l ≠ []
  inside : ∀ x rest, l = x :: rest → o ≤ x.chunk.used

theorem PlacedAt.tail (h : PlacedAt s p (x :: y :: rest) o) : PlacedAt s y.ptr (y :: rest) 0 where
  stored := by
    obtain ⟨_, _, _, _, hRest⟩ := h.stored
    have hNext : x.chunk.next = y.ptr := hRest.1
    exact hNext ▸ hRest
  words z hz := h.words z (List.mem_cons_of_mem _ hz)
  nonempty := by simp
  inside _ _ _ := Nat.zero_le _

theorem readLoop_all (acc : Int) (stores : Stores) (h : PlacedAt s p l o) (hFuel : l.length ≤ fuel)
    (hLen : len < 2 ^ 31) (hFits : ((flat l).drop o).length ≤ len) (hAcc : 0 ≤ acc)
    (hSmall : acc + ((flat l).drop o).length < 2 ^ 31) :
    ∃ before z, l = before ++ [z] ∧ readLoop (toInt32 len) fuel acc stores p o s =
      .ok ((acc + ((flat l).drop o).length, stores.put acc ((flat l).drop o), z.ptr, z.chunk.used),
        s) := by
  induction l generalizing p o fuel acc stores with
  | nil => exact absurd rfl h.nonempty
  | cons x rest ih =>
    obtain ⟨fuel, rfl⟩ := Nat.exists_eq_add_one.mpr (Nat.zero_lt_of_lt hFuel)
    have ho := h.inside x rest rfl
    have hWord := h.words x List.mem_cons_self
    have hLength := h.stored.bytes_length (x := x) List.mem_cons_self
    have hDrop : (flat (x :: rest)).drop o = x.bytes.drop o ++ flat rest := by
      rw [flat_cons, List.drop_append_of_le_length (by omega)]
    rw [hDrop, List.length_append] at hFits hSmall
    rw [hDrop]
    have hPart : (x.bytes.drop o).length = x.chunk.used - o := by rw [List.length_drop, hLength]
    cases rest with
    | nil =>
      have hp : p = x.ptr := h.stored.1
      refine ⟨[], x, rfl, ?_⟩
      rw [readLoop_last h.stored hLen hWord ho (by omega), flat_nil, List.append_nil,
        toInt32_of_small (by omega) (by rw [flat_nil] at hSmall; simpa using hSmall), ← hp]
    | cons y rest =>
      have hTail := h.tail
      have hInt : toInt32 (acc + (x.bytes.drop o).length) = acc + (x.bytes.drop o).length :=
        toInt32_of_small (by omega) (by push_cast at hSmall; omega)
      rw [readLoop_next h.stored hLen hWord ho (by omega), hInt]
      obtain ⟨before, z, hSplit, hLoop⟩ := ih (acc + (x.bytes.drop o).length)
        (stores.put acc (x.bytes.drop o)) hTail (Nat.le_of_succ_le_succ hFuel)
        (by rw [List.drop_zero]; omega) (by omega)
          (by rw [List.drop_zero]; push_cast at hSmall; omega)
      refine ⟨x :: before, z, by rw [hSplit]; rfl, ?_⟩
      rw [hLoop, List.drop_zero, Stores.put_put, List.length_append]
      push_cast
      rw [Int.add_assoc]

theorem readLoop_first (acc : Int) (stores : Stores) (h : PlacedAt s p l o)
    (hFuel : l.length ≤ fuel) (hLen : len < 2 ^ 31) (hLong : len < stretch l o) (hAcc : 0 ≤ acc)
    (hSmall : acc + len < 2 ^ 31) :
    ∃ before z after o', l = before ++ z :: after ∧ (flat before).length + o' = o ∧
      o' + len ≤ z.chunk.used ∧
      readLoop (toInt32 len) fuel acc stores p o s =
        .ok ((acc + len, stores.put acc (((flat l).drop o).take len), z.ptr, o' + len), s) := by
  induction l generalizing p o fuel with
  | nil => exact absurd rfl h.nonempty
  | cons x rest ih =>
    obtain ⟨fuel, rfl⟩ := Nat.exists_eq_add_one.mpr (Nat.zero_lt_of_lt hFuel)
    have ho := h.inside x rest rfl
    have hWord := h.words x List.mem_cons_self
    have hLength := h.stored.bytes_length (x := x) List.mem_cons_self
    have hDrop : (flat (x :: rest)).drop o = x.bytes.drop o ++ flat rest := by
      rw [flat_cons, List.drop_append_of_le_length (by omega)]
    rw [stretch] at hLong
    by_cases hHere : o < x.bytes.length
    · rw [if_pos hHere] at hLong
      have hp : p = x.ptr := h.stored.1
      refine ⟨[], x, rest, o, rfl, by simp, by omega, ?_⟩
      rw [readLoop_long h.stored hLen hWord (by omega), toInt32_of_small (by omega) hSmall, hDrop,
        List.take_append_of_le_length (by rw [List.length_drop]; omega), ← hp]
    · -- the place is the end of a chunk: nothing is copied and the next one is tried
      rw [if_neg hHere] at hLong
      have hEnd : o = x.bytes.length := by omega
      have hNone : x.bytes.drop o = [] := by rw [hEnd, List.drop_length]
      cases rest with
      | nil => simp [stretch] at hLong
      | cons y rest =>
        rw [hEnd, Nat.sub_self] at hLong
        have hInt : toInt32 acc = acc := toInt32_of_small (by omega) (by omega)
        rw [readLoop_next h.stored hLen hWord ho (by omega), hNone, List.length_nil, Stores.put_nil,
          Nat.cast_zero, Int.add_zero, hInt]
        obtain ⟨before, z, after, o', hSplit, ho', hUsed, hLoop⟩ :=
          ih h.tail (Nat.le_of_succ_le_succ hFuel) hLong
        refine ⟨x :: before, z, after, o', by rw [hSplit]; rfl, ?_, hUsed, ?_⟩
        · rw [flat_cons, List.length_append]
          omega
        · rw [hLoop, hDrop, hNone, List.drop_zero, List.nil_append]

theorem readLoop_keeps (acc : Int) (stores : Stores) (h : PlacedAt s p l o)
    (hFuel : l.length ≤ fuel) (hLen : len < 2 ^ 31) :
    ∃ r, readLoop (toInt32 len) fuel acc stores p o s = .ok (r, s) ∧
      ∀ i, stores i ≠ none → r.2.1 i ≠ none := by
  induction l generalizing p o fuel acc stores with
  | nil => exact absurd rfl h.nonempty
  | cons x rest ih =>
    obtain ⟨fuel, rfl⟩ := Nat.exists_eq_add_one.mpr (Nat.zero_lt_of_lt hFuel)
    have ho := h.inside x rest rfl
    have hWord := h.words x List.mem_cons_self
    by_cases hLong : o + len < x.chunk.used
    · exact ⟨_, readLoop_long h.stored hLen hWord hLong, fun i hi => Stores.put_keeps _ _ _ hi⟩
    · cases rest with
      | nil =>
        exact ⟨_, readLoop_last h.stored hLen hWord ho (by omega),
          fun i hi => Stores.put_keeps _ _ _ hi⟩
      | cons y rest =>
        obtain ⟨r, hLoop, hKeeps⟩ := ih (toInt32 (acc + (x.bytes.drop o).length))
          (stores.put acc (x.bytes.drop o)) h.tail (Nat.le_of_succ_le_succ hFuel)
        refine ⟨r, ?_, fun i hi => hKeeps i (Stores.put_keeps _ _ _ hi)⟩
        rw [readLoop_next h.stored hLen hWord ho (by omega), hLoop]

theorem readLoop_overruns (h : PlacedAt s p l o) (hFuel : l.length ≤ fuel) (hLen : len < 2 ^ 31)
    (hAcc : 0 ≤ acc) (hRoom : acc ≤ len) (hMore : len < acc + ((flat l).drop o).length)
    (hFirst : 0 < acc ∨ stretch l o ≤ len) :
    ∃ r, readLoop (toInt32 len) fuel acc stores p o s = .ok (r, s) ∧ r.2.1 len ≠ none := by
  induction l generalizing p o fuel acc stores with
  | nil => exact absurd rfl h.nonempty
  | cons x rest ih =>
    obtain ⟨fuel, rfl⟩ := Nat.exists_eq_add_one.mpr (Nat.zero_lt_of_lt hFuel)
    have ho := h.inside x rest rfl
    have hWord := h.words x List.mem_cons_self
    have hLength := h.stored.bytes_length (x := x) List.mem_cons_self
    have hDrop : (flat (x :: rest)).drop o = x.bytes.drop o ++ flat rest := by
      rw [flat_cons, List.drop_append_of_le_length (by omega)]
    have hPart : (x.bytes.drop o).length = x.chunk.used - o := by rw [List.length_drop, hLength]
    rw [hDrop, List.length_append, Nat.cast_add] at hMore
    by_cases hLong : o + len < x.chunk.used
    · -- the whole buffer length is copied once more, behind what was copied already
      have hPos : 0 < acc := by
        refine hFirst.resolve_right fun hLe => ?_
        rw [stretch, if_pos (by omega)] at hLe
        omega
      refine ⟨_, readLoop_long h.stored hLen hWord hLong, Stores.put_covers _ _ _ hRoom ?_⟩
      rw [List.length_take, List.length_drop]
      omega
    · by_cases hCovers : (len : Int) < acc + (x.bytes.drop o).length
      · cases rest with
        | nil =>
          exact ⟨_, readLoop_last h.stored hLen hWord ho (by omega),
            Stores.put_covers _ _ _ hRoom hCovers⟩
        | cons y rest =>
          obtain ⟨r, hLoop, hKeeps⟩ := readLoop_keeps (toInt32 (acc + (x.bytes.drop o).length))
            (stores.put acc (x.bytes.drop o)) h.tail (Nat.le_of_succ_le_succ hFuel) hLen
          refine ⟨r, ?_, hKeeps _ (Stores.put_covers _ _ _ hRoom hCovers)⟩
          rw [readLoop_next h.stored hLen hWord ho (by omega), hLoop]
      · cases rest with
        | nil =>
          rw [flat_nil, List.length_nil] at hMore
          omega
        | cons y rest =>
          have hInt : toInt32 (acc + (x.bytes.drop o).length) = acc + (x.bytes.drop o).length :=
            toInt32_of_small (by omega) (by omega)
          rw [readLoop_next h.stored hLen hWord ho (by omega), hInt]
          refine ih h.tail (Nat.le_of_succ_le_succ hFuel) (by omega) (by omega)
            (by rw [List.drop_zero]; omega) ?_
          by_cases hPos : 0 < acc + ((x.bytes.drop o).length : Int)
          · exact Or.inl hPos
          · refine Or.inr ?_
            have hLe := hFirst.resolve_left (by omega)
            rw [stretch, if_neg (by omega)] at hLe
            have hZero : o - x.bytes.length = 0 := by omega
            rwa [hZero] at hLe

end Loop

end Dandelion.FileSystem
