import Dandelion.System.DebugNames

/-! # Terminators of the copied names

The string at a name goes on until a zero byte. In the pages that is the padding of
the name, or the first byte behind it if no name follows there.
-/

namespace Dandelion.System.Debug

variable {K : Kernel} {s : State} {placed : List (Place × List UInt8)} {x y : Place × List UInt8}
  {i time : Nat}

section Reading

/-- The byte behind the name is zero when the set folder is opened: it is padding, or in the page
and nothing follows there, or behind the page, in no page of ours and zero. -/
def Terminated (K : Kernel) (time : Nat) (names : List (List UInt8)) (i : Nat) : Prop :=
  ∀ name, names[i]? = some name →
    ¬ wordSize ∣ name.length ∨
    ((after ((names.take (i + 1)).map List.length)).used * wordSize < pageSize ∧
      ∀ next, names[i + 1]? = some next →
      pageSize < (after ((names.take (i + 1)).map List.length)).used * wordSize + next.length) ∨
    ((after ((names.take (i + 1)).map List.length)).used * wordSize = pageSize ∧
      (∀ k < (after (names.map List.length)).mapped,
        K.page k ≠ K.page ((after ((names.take (i + 1)).map List.length)).mapped - 1) + pageSize) ∧
      K.outside time (K.page ((after ((names.take (i + 1)).map List.length)).mapped - 1) +
        pageSize) = some 0)

theorem State.read_page {k o : Nat} (hk : k < s.mapped) (ho : o < pageSize) :
    s.read K time (K.page k + o) = some (s.bytes (K.page k + o)) :=
  if_pos ⟨k, hk, Nat.le_add_right _ _, by omega⟩

theorem Holds.read_name (h : Holds K s placed) (time : Nat) (hx : x ∈ placed) :
    ∀ j < x.2.length, s.read K time (x.1.address K + j) = x.2[j]? := by
  intro j hj
  have hEnd := h.end_le hx
  rw [← h.bytes x hx j hj, Place.address, Nat.add_assoc]
  exact State.read_page (h.mapped x hx) (by omega)

def Plain (placed : List (Place × List UInt8)) : Prop := ∀ x ∈ placed, x.2 ≠ [] ∧ 0 ∉ x.2

theorem Holds.read_first (h : Holds K s placed) (hPlain : Plain placed) (hx : x ∈ placed) :
    s.read K time (x.1.address K) ≠ some 0 := by
  obtain ⟨hPos, hZero⟩ := hPlain x hx
  have hRead := h.read_name time hx 0 (List.length_pos_iff.mpr hPos)
  rw [Nat.add_zero] at hRead
  rw [hRead]
  exact fun hEq => hZero (List.mem_of_getElem? hEq)

theorem Holds.stringAt_iff (h : Holds K s placed) (hx : x ∈ placed) :
    StringAt (s.read K time) (x.1.address K) x.2 ↔
      s.read K time (x.1.address K + x.2.length) = some 0 :=
  and_iff_right (h.read_name time hx)

theorem Holds.before (h : Holds K s placed) {j : Nat} (hx : placed[i]? = some x)
    (hy : placed[j]? = some y) (hLt : i < j) :
    Before x y := by
  obtain ⟨hi, rfl⟩ := List.getElem?_eq_some_iff.mp hx
  obtain ⟨hj, rfl⟩ := List.getElem?_eq_some_iff.mp hy
  exact List.pairwise_iff_getElem.mp h.order i j hi hj hLt

theorem Filled.next (h : Filled K s placed) (hx : placed[i]? = some x)
    (hy : placed[i + 1]? = some y) :
    if pageSize < (x.1.word + words x.2.length + words y.2.length) * wordSize then y.1.page =
      x.1.page + 1
    else y.1.page = x.1.page ∧ y.1.word = x.1.word + words x.2.length := by
  have hTake : (sizes placed).take (i + 1 + 1) = (sizes placed).take (i + 1) ++ [y.2.length] := by
    rw [List.take_add_one, sizes, List.getElem?_map, hy]
    rfl
  have hEnds := h.ends (i + 1) y hy
  rw [hTake, after_concat, h.ends i x hx, Cursor.advance] at hEnds
  split at hEnds
  · rename_i hNew
    have hMapped := congrArg Cursor.mapped hEnds
    rw [if_pos (hNew.resolve_left (Nat.succ_ne_zero _))]
    exact (Nat.succ.inj hMapped).symm
  · rename_i hOld
    have hMapped := congrArg Cursor.mapped hEnds
    have hUsed := congrArg Cursor.used hEnds
    dsimp only at hMapped hUsed
    rw [if_neg (not_or.mp hOld).2]
    omega

theorem Holds.read_behind (h : Holds K s placed) (hx : placed[i]? = some x)
    (hIn : x.1.word * wordSize + x.2.length < pageSize)
    (hLater : ∀ j y, i < j → placed[j]? = some y → y.1.page = x.1.page →
      x.1.word * wordSize + x.2.length < y.1.word * wordSize) :
    s.read K time (x.1.address K + x.2.length) = some 0 := by
  have hMem := List.mem_of_getElem? hx
  rw [Place.address, Nat.add_assoc, State.read_page (h.mapped x hMem) hIn]
  refine congrArg some (h.zero _ (h.mapped x hMem) _ hIn fun y hy hPage => ?_)
  obtain ⟨j, hj⟩ := List.getElem?_of_mem hy
  rcases Nat.lt_trichotomy j i with hBefore | rfl | hAfter
  · rcases h.before hj hx hBefore with hLt | ⟨-, hWord⟩
    · omega
    · have hEnd := Nat.mul_le_mul_right wordSize hWord
      have hWords := words_spec y.2.length
      rw [Nat.add_mul] at hEnd
      omega
  · obtain rfl := Option.mem_unique hx hj
    exact Or.inr (Nat.le_refl _)
  · exact Or.inl (hLater j y hAfter hj hPage)

theorem Filled.terminated_iff (h : Filled K s placed) (hx : placed[i]? = some x) :
    Terminated K time (placed.map Prod.snd) i ↔ ¬ wordSize ∣ x.2.length ∨
      ((x.1.word + words x.2.length) * wordSize < pageSize ∧ ∀ y, placed[i + 1]? = some y →
        pageSize < (x.1.word + words x.2.length) * wordSize + y.2.length) ∨
      ((x.1.word + words x.2.length) * wordSize = pageSize ∧
        (∀ k < s.mapped, K.page k ≠ K.page x.1.page + pageSize) ∧
        K.outside time (K.page x.1.page + pageSize) = some 0) := by
  have hName : (placed.map Prod.snd)[i]? = some x.2 := by rw [List.getElem?_map, hx]; rfl
  have hSizes : (placed.map Prod.snd).map List.length = sizes placed := List.map_map
  have hEnds : after (((placed.map Prod.snd).take (i + 1)).map List.length) =
      ⟨x.1.page + 1, x.1.word + words x.2.length⟩ := by
    rw [List.map_take, hSizes, h.ends i x hx]
  have hNext : ∀ P : List UInt8 → Prop,
      (∀ next, (placed.map Prod.snd)[i + 1]? = some next → P next) ↔
      ∀ y, placed[i + 1]? = some y → P y.2 := by
    intro P
    rw [List.getElem?_map]
    constructor
    · intro hAll y hy
      exact hAll y.2 (by rw [hy]; rfl)
    · intro hAll next hEq
      obtain ⟨y, hy, rfl⟩ := Option.map_eq_some_iff.mp hEq
      exact hAll y hy
  rw [Terminated, hEnds, hSizes, h.cursor]
  simp only [hNext, hName, Option.some.injEq, forall_eq', Nat.add_sub_cancel]

theorem Filled.later_page (h : Filled K s placed) (hx : placed[i]? = some x)
    (hNext : ∀ y, placed[i + 1]? = some y → y.1.page ≠ x.1.page) {j : Nat} (hLt : i < j)
    (hy : placed[j]? = some y) :
    y.1.page ≠ x.1.page := by
  rcases Nat.eq_or_lt_of_le hLt with rfl | hFar
  · exact hNext y hy
  · have hj := (List.getElem?_eq_some_iff.mp hy).1
    have hz : placed[i + 1]? = some (placed[i + 1]) := List.getElem?_eq_getElem (by omega)
    have hne := hNext _ hz
    rcases h.before hx hz (Nat.lt_succ_self i) with hPage | hSame
    · rcases h.before hz hy hFar with hPage' | hSame'
      · omega
      · omega
    · exact absurd hSame.1.symm hne

theorem Filled.next_page_iff (h : Filled K s placed) (hx : placed[i]? = some x)
    (hy : placed[i + 1]? = some y) :
    pageSize < (x.1.word + words x.2.length) * wordSize + y.2.length ↔ y.1.page ≠ x.1.page := by
  have hFits : pageSize < (x.1.word + words x.2.length) * wordSize + y.2.length ↔
      pageSize < (x.1.word + words x.2.length + words y.2.length) * wordSize := by
    simp only [words, wordSize, pageSize]
    omega
  have hNext := h.next hx hy
  rw [hFits]
  split at hNext
  · rename_i hNew
    exact iff_of_true hNew (by omega)
  · rename_i hOld
    exact iff_of_false hOld (not_not.mpr hNext.1)

theorem Filled.read_after_page (h : Filled K s placed) (hPlain : Plain placed) (k : Nat) :
    s.read K time (K.page k + pageSize) = some 0 ↔
      (∀ j < s.mapped, K.page j ≠ K.page k + pageSize) ∧
        K.outside time (K.page k + pageSize) = some 0 := by
  by_cases hOwn : ∃ j < s.mapped, K.page j = K.page k + pageSize
  · obtain ⟨j, hj, hEq⟩ := hOwn
    obtain ⟨y, hy, hFirst⟩ := h.first j hj
    have hAddress : y.1.address K = K.page k + pageSize := by
      rw [Place.address, hFirst, ← hEq, Nat.zero_mul, Nat.add_zero]
    refine iff_of_false ?_ fun hNone => hNone.1 j hj hEq
    rw [← hAddress]
    exact h.read_first hPlain hy
  · have hNone : ∀ j < s.mapped, K.page j ≠ K.page k + pageSize := fun j hj hEq => hOwn ⟨j, hj, hEq⟩
    rw [and_iff_right hNone, State.read, if_neg]
    rintro ⟨j, hj, hLow, hHigh⟩
    have hne := hNone j hj
    have hApart := K.apart j k
    have hSelf : j = k → K.page j = K.page k := congrArg K.page
    omega

theorem Filled.stringAt_iff_terminated (h : Filled K s placed) (hPlain : Plain placed) (time : Nat)
    (hx : placed[i]? = some x) :
    StringAt (s.read K time) (x.1.address K) x.2 ↔ Terminated K time (placed.map Prod.snd) i := by
  have hMem := List.mem_of_getElem? hx
  have hInside := h.inside x hMem
  rw [h.stringAt_iff hMem, h.terminated_iff hx]
  by_cases hDvd : wordSize ∣ x.2.length
  · -- the name fills its words, and what is behind it decides
    have hFull : words x.2.length * wordSize = x.2.length := by
      simp only [words, wordSize] at hDvd ⊢
      omega
    have hEnd : (x.1.word + words x.2.length) * wordSize = x.1.word * wordSize + x.2.length := by
      rw [Nat.add_mul, hFull]
    rw [or_iff_right (not_not.mpr hDvd)]
    rcases Nat.lt_or_eq_of_le hInside with hIn | hLast
    · rw [or_iff_left fun hAt => Nat.ne_of_lt hIn hAt.1, and_iff_right hIn]
      constructor
      · intro hZero y hy
        refine (h.next_page_iff hx hy).mpr fun hSame => ?_
        have hNext := h.next hx hy
        rw [if_neg fun hNew => by rw [if_pos hNew] at hNext; omega] at hNext
        have hAddress : y.1.address K = x.1.address K + x.2.length := by
          rw [Place.address, Place.address, hNext.1, hNext.2, hEnd, Nat.add_assoc]
        exact h.read_first hPlain (List.mem_of_getElem? hy) (hAddress ▸ hZero)
      · intro hNext
        have hOther := fun y hy => (h.next_page_iff hx hy).mp (hNext y hy)
        exact h.read_behind hx (hEnd ▸ hIn) fun j y hLt hy hPage =>
          absurd hPage (h.later_page hx hOther hLt hy)
    · rw [or_iff_right fun hAt => Nat.ne_of_lt hAt.1 hLast,
        and_iff_right hLast, ← h.read_after_page hPlain, Place.address,
        Nat.add_assoc, ← hEnd, hLast]
  · -- the rest of the last word is padding
    have hWords := words_spec x.2.length
    have hPadded : x.2.length ≠ words x.2.length * wordSize :=
      fun hEq => hDvd ⟨_, hEq.trans (Nat.mul_comm _ _)⟩
    rw [Nat.add_mul] at hInside
    refine iff_of_true (h.read_behind hx (by omega) fun j y hLt hy hPage => ?_) (Or.inl hDvd)
    rcases h.before hx hy hLt with hOther | ⟨-, hWord⟩
    · omega
    · have hEnd := Nat.mul_le_mul_right wordSize hWord
      rw [Nat.add_mul] at hEnd
      omega

end Reading

end Dandelion.System.Debug
