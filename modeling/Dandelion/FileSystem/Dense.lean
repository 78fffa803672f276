import Dandelion.FileSystem.WriteCall

/-! # Writing at the end of a file

A file that was only written at its end has full chunks except for the last one. A
write at its length, or from its last chunk on, adds the string to its content and
leaves it so.
-/

namespace Dandelion.FileSystem

inductive Dense : List Piece → Prop
  | nil : Dense []
  | snoc {a : List Piece} {x : Piece} :
      (∀ y ∈ a, 0 < y.chunk.capacity ∧ y.chunk.used = y.chunk.capacity) →
      0 < x.chunk.capacity → x.chunk.used ≤ x.chunk.capacity →
        x.chunk.capacity - x.chunk.used < 2 ^ 32 → Dense (a ++ [x])

/-- Every place in a list is a place in a longer one, with the same bytes before it. -/
def Extended (l l' : List Piece) : Prop :=
  ∀ a x b, l = a ++ x :: b → ∃ a' x' b', l' = a' ++ x' :: b' ∧ x'.ptr = x.ptr ∧ flat a' = flat a ∧
    x.bytes <+: x'.bytes

variable {P : Platform} {s : State} {m : Memory} {p : Ptr} {fd : Int} {o : OpenFile} {f : DFile}
  {bytes : List UInt8} {a l l' l'' t : List Piece} {x z : Piece} {n len : Nat} {offset : Int}
  {uses : Bool}

section Lists

theorem caps_append (a t : List Piece) : caps (a ++ t) = caps a + caps t := by
  rw [caps, List.map_append, List.sum_append]
  rfl

theorem flat_length_full (hLengths : ∀ y ∈ a, y.bytes.length = y.chunk.used)
    (hFull : ∀ y ∈ a, 0 < y.chunk.capacity ∧ y.chunk.used = y.chunk.capacity) :
    (flat a).length = caps a := by
  induction a with
  | nil => rfl
  | cons y a ih =>
    have hRest := ih (fun z hz => hLengths z (List.mem_cons_of_mem _ hz)) fun z hz =>
      hFull z (List.mem_cons_of_mem _ hz)
    have hHere := (hLengths y List.mem_cons_self).trans (hFull y List.mem_cons_self).2
    rw [caps_cons, ← hRest, ← hHere]
    exact List.length_append

theorem Dense.fresh (ptr data : Ptr)
    (ha : ∀ y ∈ a, 0 < y.chunk.capacity ∧ y.chunk.used = y.chunk.capacity) (hPos : 0 < len)
    (hLen : len < 2 ^ 31) (hBytes : bytes.length ≤ len) :
    Dense (a ++ [.fresh ptr data (chunkSize len) bytes]) := by
  have hSmall : len < 2 ^ 63 := Nat.lt_trans hLen (by decide)
  refine .snoc ha (chunkSize_pos hPos hSmall) (Nat.le_trans hBytes (chunkSize_ge hSmall)) ?_
  show chunkSize len - bytes.length < 2 ^ 32
  rw [chunkSize_of_small hSmall]
  omega

theorem Dense.last (h : Dense (a ++ [x])) :
    (∀ y ∈ a, 0 < y.chunk.capacity ∧ y.chunk.used = y.chunk.capacity) ∧
    0 < x.chunk.capacity ∧ x.chunk.used ≤ x.chunk.capacity ∧
      x.chunk.capacity - x.chunk.used < 2 ^ 32 := by
  generalize hl : a ++ [x] = l at h
  cases h with
  | nil => exact absurd hl (by simp)
  | snoc ha hPos hUsed hRoom =>
    obtain ⟨rfl, hx⟩ := List.append_inj' hl rfl
    obtain rfl := (List.cons.inj hx).1
    exact ⟨ha, hPos, hUsed, hRoom⟩

theorem Dense.appends (h : Dense (a ++ [x])) (hAppends : Appends a x [] bytes l' z)
    (hLen : bytes.length < 2 ^ 31) :
    Dense l' ∧ flat l' = flat (a ++ [x]) ++ bytes ∧ l'.getLast? = some z := by
  obtain ⟨ha, hPos, hUsed, hRoom⟩ := h.last
  have hFlat : flat l' = flat (a ++ [x]) ++ bytes := by
    rw [hAppends.flat_eq, flat_append]
    simp [flat]
  have hRest : x.chunk.room = x.chunk.capacity - x.chunk.used := Nat.mod_eq_of_lt hRoom
  cases hAppends with
  | fits hTakes =>
    have hFits := (takes_iff hLen).mp hTakes
    refine ⟨.snoc ha hPos ?_ ?_, hFlat, List.getLast?_concat⟩
    · show x.chunk.used + bytes.length ≤ x.chunk.capacity
      omega
    · show x.chunk.capacity - (x.chunk.used + bytes.length) < 2 ^ 32
      omega
  | spills ptr data hNot =>
    rw [takes_iff hLen, Nat.not_le] at hNot
    have hDrop : (bytes.drop x.chunk.room).length = bytes.length - x.chunk.room := List.length_drop
    rw [← List.singleton_append, ← List.append_assoc] at hFlat ⊢
    refine ⟨.fresh ptr data (fun y hy => ?_) (by omega) (by omega) (Nat.le_refl _), hFlat,
      List.getLast?_concat⟩
    rcases List.mem_append.mp hy with hOld | hLast
    · exact ha y hOld
    · obtain rfl := List.mem_singleton.mp hLast
      refine ⟨hPos, ?_⟩
      show x.chunk.used + (bytes.take x.chunk.room).length = x.chunk.capacity
      rw [List.length_take]
      omega

theorem Dense.length_eq (h : Dense (a ++ [x])) (hl : Filed m p (a ++ [x])) :
    (flat (a ++ [x])).length = caps a + x.chunk.used := by
  rw [flat_append, List.length_append,
    flat_length_full (fun z hz => hl.stored.bytes_length (List.mem_append_left _ hz)) h.last.1,
    ← hl.stored.bytes_length (List.mem_append_right a List.mem_cons_self)]
  simp [flat]

theorem StartsAt.dense (h : StartsAt P s len l n a x t) (hl : Filed m p l) (hDense : Dense l)
    (hn : n = (flat l).length) (hPos : 0 < len) (hLen : len < 2 ^ 31) :
    t = [] ∧ Dense (a ++ [x]) ∧ flat (a ++ [x]) = flat l := by
  cases h with
  | empty n ptr data =>
    obtain rfl : n = 0 := hn
    rw [Nat.zero_add]
    exact ⟨rfl, .fresh ptr data (by simp) hPos hLen (Nat.zero_le _), rfl⟩
  | @inside _ _ _ y _ r hLand =>
    obtain ⟨rfl, hPlace, hInside⟩ := landing_eq hLand
    rcases List.eq_nil_or_concat' t with rfl | ⟨t', z, rfl⟩
    · -- the offset is the end of the last chunk, so nothing is filled up to it
      have hLength := hDense.length_eq hl
      have hSame : y.append (gap s.memory y r) = y := by
        have hGap : gap s.memory y r = [] := by
          rw [gap, show r - y.chunk.used = 0 by omega]
          rfl
        rw [hGap, Piece.append, List.append_nil]
        rfl
      rw [hSame]
      exact ⟨rfl, hDense, rfl⟩
    · have hSplit : a ++ y :: (t' ++ [z]) = (a ++ y :: t') ++ [z] := by simp
      rw [hSplit] at hDense hl hn
      have hLength := hDense.length_eq hl
      have hFull := hDense.last.1 y (by simp)
      rw [caps_append, caps_cons] at hLength
      omega
  | @behind b y _ g ptr hLand hg =>
    have hBeyond := landing_none hLand
    obtain ⟨ha, hPos', hUsed, -⟩ := hDense.last
    have hLength := hDense.length_eq hl
    rw [caps_append] at hBeyond
    have hCaps : caps (b ++ [y]) = caps b + y.chunk.capacity := by rw [caps_append]; rfl
    have hOne : caps [y] = y.chunk.capacity := rfl
    have hZero : n - caps (b ++ [y]) = 0 := by omega
    rw [hZero, Nat.zero_add]
    refine ⟨rfl, .fresh ptr g.ptr (fun z hz => ?_) hPos hLen (Nat.zero_le _), ?_⟩
    · rcases List.mem_append.mp hz with hOld | hLast
      · exact ha z hOld
      · obtain rfl := List.mem_singleton.mp hLast
        exact ⟨hPos', show y.chunk.used = y.chunk.capacity by omega⟩
    · rw [flat_append, flat_append, flat_append]
      simp [flat, Piece.linked, Piece.fresh]

end Lists

section Extending

theorem Extended.nil : Extended [] l' := by
  intro a x b hl
  exact absurd hl (by simp)

theorem Extended.trans (h : Extended l l') (h' : Extended l' l'') : Extended l l'' := by
  intro a x b hl
  obtain ⟨a', x', b', hl', hPtr, hFlat, hBytes⟩ := h a x b hl
  obtain ⟨a'', x'', b'', hl'', hPtr', hFlat', hBytes'⟩ := h' a' x' b' hl'
  exact ⟨a'', x'', b'', hl'', hPtr'.trans hPtr, hFlat'.trans hFlat, hBytes.trans hBytes'⟩

theorem Extended.last (a : List Piece) (x y : Piece) (t : List Piece) (hPtr : y.ptr = x.ptr)
    (hBytes : x.bytes <+: y.bytes) : Extended (a ++ [x]) (a ++ y :: t) := by
  intro c z b hl
  rcases List.eq_nil_or_concat' b with rfl | ⟨b, w, rfl⟩
  · obtain ⟨rfl, hz⟩ := List.append_inj' hl rfl
    obtain rfl := (List.cons.inj hz).1
    exact ⟨a, y, t, rfl, hPtr, rfl, hBytes⟩
  · have hSplit : a ++ [x] = (c ++ z :: b) ++ [w] := by simpa using hl
    obtain ⟨rfl, -⟩ := List.append_inj' hSplit rfl
    exact ⟨c, z, b ++ y :: t, by simp, rfl, rfl, List.prefix_rfl⟩

theorem Appends.extended (h : Appends a x [] bytes l' z) : Extended (a ++ [x]) l' := by
  cases h with
  | fits _ => exact .last a x (x.append bytes) [] rfl (List.prefix_append _ _)
  | spills ptr data _ =>
    exact .last a x ((x.append (bytes.take x.chunk.room)).linked ptr) _ rfl (List.prefix_append _ _)

theorem StartsAt.extended (h : StartsAt P s len l n a x []) : Extended l (a ++ [x]) := by
  cases h with
  | empty => exact .nil
  | @inside _ _ _ y _ r hLand =>
    obtain ⟨rfl, -⟩ := landing_eq hLand
    exact .last a y (y.append (gap s.memory y r)) [] rfl (List.prefix_append _ _)
  | @behind b y _ g ptr hLand hg =>
    rw [List.append_assoc]
    exact .last b y (y.linked ptr) _ rfl List.prefix_rfl

end Extending

section Writing

theorem dandelionWrite_grows (hGrants : P.Grants) (h : WritableAt s fd o f)
    (hl : Filed s.memory f.link l) (hDense : Dense l) (hne : bytes ≠ [])
    (hLen : bytes.length < 2 ^ 31)
    (hOffset : uses = true → offset = (flat l).length ∧ (flat l).length < 2 ^ 63)
    (hCurrent : uses = false → ∀ x ∈ l.getLast?, o.currentChunk = x.ptr) :
    ∃ l' link current inside s',
      dandelionWrite P fd bytes offset (if uses then useOffset else moveOffset) s =
        .ok ((bytes.length : Int), s') ∧
      s'.openFiles =
        Function.update s.openFiles fd.toNat { o with currentChunk := current, offset := inside } ∧
      s'.memory.files = Function.update s.memory.files o.file (some { f with link := link }) ∧
      Filed s'.memory link l' ∧ Changes s.memory s'.memory l l' ∧ Extended l l' ∧ Dense l' ∧
        flat l' = flat l ++ bytes ∧
      (uses = false → ∀ x ∈ l'.getLast?, current = x.ptr) := by
  have hPos := List.length_pos_iff.mpr hne
  cases uses with
  | true =>
    obtain ⟨rfl, hSmall⟩ := hOffset rfl
    obtain ⟨a, x, t, l', z, link, s', hStarts, hAppends, hRun, hTable, hFiles, hFiled,
        hChanges, -⟩ :=
      dandelionWrite_use hGrants h hl hSmall hLen hne
    obtain ⟨rfl, hBefore, hFlat⟩ := hStarts.dense hl hDense rfl hPos hLen
    obtain ⟨hAfter, hFlat', -⟩ := hBefore.appends hAppends hLen
    refine ⟨l', link, o.currentChunk, o.offset, s', hRun, ?_, hFiles, hFiled, hChanges,
      hStarts.extended.trans hAppends.extended, hAfter, ?_, fun hNot => ?_⟩
    · rw [hTable, ← h.entry, Function.update_eq_self]
    · rw [hFlat', hFlat]
    · cases hNot
  | false =>
    cases hDense with
    | nil =>
      have hLink : f.link = 0 := hl.stored
      obtain ⟨ptr, data, l', z, link, s', hAppends, hRun, hTable, hFiles, hFiled, hChanges⟩ :=
        dandelionWrite_first offset hGrants h hLink hLen hne
      have hNew : Dense ([] ++ [.fresh ptr data (chunkSize bytes.length) []]) :=
        .fresh ptr data (by simp) hPos hLen (Nat.zero_le _)
      obtain ⟨hAfter, hFlat, hLast⟩ := hNew.appends hAppends hLen
      refine ⟨l', link, z.ptr, 0, s', hRun, hTable, hFiles, hFiled, hChanges, .nil, hAfter, hFlat,
        fun _ x hx => ?_⟩
      rw [hLast] at hx
      exact congrArg Piece.ptr (Option.some.inj hx)
    | @snoc a x ha hCapacity hUsed hRoom =>
      have hCurrentLast : o.currentChunk = x.ptr := hCurrent rfl x List.getLast?_concat
      obtain ⟨b, hx⟩ := hl.holds x (List.mem_append_right _ List.mem_cons_self)
      obtain ⟨l', z, s', hAppends, hRun, hTable, hFiles, hFiled, hChanges⟩ :=
        dandelionWrite_move offset hGrants h
        hl (by rw [hCurrentLast, if_neg hx.ne_zero]) hLen hne
      have hBefore : Dense (a ++ [x]) := .snoc ha hCapacity hUsed hRoom
      obtain ⟨hAfter, hFlat, hLast⟩ := hBefore.appends hAppends hLen
      refine ⟨l', f.link, z.ptr, 0, s', hRun, hTable, ?_, hFiled, hChanges, hAppends.extended,
        hAfter, hFlat, fun _ x hx => ?_⟩
      · rw [hFiles, ← h.node, Function.update_eq_self]
      · rw [hLast] at hx
        exact congrArg Piece.ptr (Option.some.inj hx)

end Writing

end Dandelion.FileSystem
