import Dandelion.System.DebugPlatform

/-! # Names in the memory of `debug_alloc`

The allocations of a page lie one behind the other, and what they do not fill is
zero. So a name has a terminator where its length is not a multiple of the word
size, and otherwise only if nothing is placed right behind it.
-/

namespace Dandelion.System.Debug

variable {K : Kernel} {s : State} {m : Nat → UInt8} {name : List UInt8} {a d e n k size : Nat}

section Copying

theorem myMemcpy_outside (h : a < d ∨ d + name.length ≤ a) : myMemcpy d name m a = m a := by
  induction name generalizing d m with
  | nil => rfl
  | cons c name ih =>
    rw [List.length_cons] at h
    rw [myMemcpy, ih (by omega), Function.update_of_ne (by omega)]

theorem myMemcpy_inside {i : Nat} (hi : i < name.length) :
    some (myMemcpy d name m (d + i)) = name[i]? := by
  induction name generalizing d m i with
  | nil => exact absurd hi (Nat.not_lt_zero i)
  | cons c name ih =>
    rw [myMemcpy]
    cases i with
    | zero =>
      rw [Nat.add_zero d, myMemcpy_outside (Or.inl (Nat.lt_add_one d)), Function.update_self]
      rfl
    | succ i =>
      rw [show d + (i + 1) = d + 1 + i by omega, ih (Nat.lt_of_succ_lt_succ hi)]
      rfl

/-- What the loop over the name of an item makes of a byte. -/
def pretend (c : UInt8) : UInt8 := if c = plus then slash else c

theorem pretendFolders_eq : pretendFolders a n m e = if a ≤ e ∧ e < a + n then pretend (m e)
    else m e := by
  induction n generalizing a m with
  | zero => rw [pretendFolders, if_neg (by omega)]
  | succ n ih =>
    rw [pretendFolders, ih]
    have hHere : (if m a = plus then Function.update m a slash else m) a = pretend (m a) := by
      rw [pretend]
      split
      · exact Function.update_self _ _ _
      · rfl
    have hElse : e ≠ a → (if m a = plus then Function.update m a slash else m) e = m e := by
      intro hne
      split
      · exact Function.update_of_ne hne _ _
      · rfl
    by_cases hEq : e = a
    · rw [hEq, hHere, if_neg (by omega), if_pos (by omega)]
    · rw [hElse hEq]
      by_cases hIn : a ≤ e ∧ e < a + (n + 1)
      · rw [if_pos hIn, if_pos (by omega)]
      · rw [if_neg hIn, if_neg (by omega)]

theorem words_spec (size : Nat) :
    size ≤ words size * wordSize ∧ words size * wordSize < size + wordSize := by
  simp only [words, wordSize]
  omega

end Copying

section Placing

structure Place where
  page : Nat
  word : Nat

def Place.address (K : Kernel) (p : Place) : Nat := K.page p.page + p.word * wordSize

def Before (x y : Place × List UInt8) : Prop :=
  x.1.page < y.1.page ∨ (x.1.page = y.1.page ∧ x.1.word + words x.2.length ≤ y.1.word)

structure Holds (K : Kernel) (s : State) (placed : List (Place × List UInt8)) : Prop where
  null : s.mapped = 0 → s.bufferSpace = 0
  space : ∀ k, s.mapped = k + 1 → s.bufferSpace = K.page k
  mapped : ∀ x ∈ placed, x.1.page < s.mapped
  inside : ∀ x ∈ placed, (x.1.word + words x.2.length) * wordSize ≤ pageSize
  below : ∀ x ∈ placed, x.1.page + 1 = s.mapped → x.1.word + words x.2.length ≤ s.used
  order : placed.Pairwise Before
  bytes : ∀ x ∈ placed, ∀ i < x.2.length, some (s.bytes (x.1.address K + i)) = x.2[i]?
  zero : ∀ k < s.mapped, ∀ o < pageSize, (∀ x ∈ placed, x.1.page = k →
    o < x.1.word * wordSize ∨ x.1.word * wordSize + x.2.length ≤ o) → s.bytes (K.page k + o) = 0

variable {placed : List (Place × List UInt8)} {x : Place × List UInt8}

theorem Holds.start (K : Kernel) : Holds K .start [] where
  null _ := rfl
  space k hk := absurd hk (by simp [State.start])
  mapped x hx := absurd hx List.not_mem_nil
  inside x hx := absurd hx List.not_mem_nil
  below x hx := absurd hx List.not_mem_nil
  order := List.Pairwise.nil
  bytes x hx := absurd hx List.not_mem_nil
  zero _ hk := absurd hk (Nat.not_lt_zero _)

theorem Holds.end_le (h : Holds K s placed) (hx : x ∈ placed) :
    x.1.word * wordSize + x.2.length ≤ pageSize := by
  have hInside := h.inside x hx
  have hWords := words_spec x.2.length
  rw [Nat.add_mul] at hInside
  omega

theorem Kernel.not_in_page (K : Kernel) {j : Nat} (hne : j ≠ k) (he : e < pageSize) :
    ¬ (K.page k ≤ K.page j + e ∧ K.page j + e < K.page k + pageSize) := by
  have hApart := K.apart j k hne
  omega

theorem Holds.vmAlloc (h : Holds K s placed) :
    Holds K { (vmAlloc K s).2 with bufferSpace := (vmAlloc K s).1, used := 0 } placed where
  null hZero := absurd hZero (Nat.succ_ne_zero _)
  space k hk := congrArg K.page (Nat.succ.inj hk)
  mapped x hx := Nat.lt_succ_of_lt (h.mapped x hx)
  inside := h.inside
  below x hx hLast := absurd (Nat.succ.inj hLast) (Nat.ne_of_lt (h.mapped x hx))
  order := h.order
  bytes x hx i hi := by
    have hEnd := h.end_le hx
    rw [← h.bytes x hx i hi]
    refine congrArg some (if_neg ?_)
    rw [Place.address, Nat.add_assoc]
    exact K.not_in_page (Nat.ne_of_lt (h.mapped x hx)) (by omega)
  zero k hk o ho hFree := by
    rcases Nat.eq_or_lt_of_le (Nat.le_of_lt_succ hk) with rfl | hLt
    · exact if_pos ⟨Nat.le_add_right _ _, by omega⟩
    · rw [← h.zero k hLt o ho hFree]
      exact if_neg (K.not_in_page (Nat.ne_of_lt hLt) ho)

theorem Holds.place (h : Holds K s placed) (hk : s.mapped = k + 1) (name : List UInt8)
    (hRoom : (s.used + words name.length) * wordSize ≤ pageSize)
    (hInside : ∀ i < name.length, some (m (Place.address K ⟨k, s.used⟩ + i)) = name[i]?)
    (hOutside : ∀ a, a < Place.address K ⟨k, s.used⟩ ∨
      Place.address K ⟨k, s.used⟩ + name.length ≤ a → m a = s.bytes a) :
    Holds K { s with used := s.used + words name.length, bytes := m }
      (placed ++ [(⟨k, s.used⟩, name)]) := by
  have hWords := words_spec name.length
  rw [Nat.add_mul] at hRoom
  have hCases : ∀ {x}, x ∈ placed ++ [(⟨k, s.used⟩, name)] → x ∈ placed ∨
      x = (⟨k, s.used⟩, name) := fun hx =>
    (List.mem_append.mp hx).imp_right List.mem_singleton.mp
  have hPage : ∀ x ∈ placed, x.1.page ≠ k →
      ∀ o < pageSize, m (K.page x.1.page + o) = s.bytes (K.page x.1.page + o) := by
    intro x _ hne o ho
    have hNot := K.not_in_page hne ho
    refine hOutside _ ?_
    rw [Place.address]
    dsimp only
    omega
  refine ⟨h.null, h.space, fun x hx => ?_, fun x hx => ?_, fun x hx hLast => ?_, ?_,
    fun x hx i hi => ?_, fun j hj o ho hFree => ?_⟩
  · rcases hCases hx with hOld | rfl
    · exact h.mapped x hOld
    · exact hk ▸ Nat.lt_succ_self k
  · rcases hCases hx with hOld | rfl
    · exact h.inside x hOld
    · rw [Nat.add_mul]
      exact hRoom
  · rcases hCases hx with hOld | rfl
    · exact Nat.le_add_right_of_le (h.below x hOld hLast)
    · exact Nat.le_refl _
  · refine List.pairwise_append.mpr ⟨h.order, List.pairwise_singleton _ _, fun x hx y hy => ?_⟩
    obtain rfl := List.mem_singleton.mp hy
    have hMapped := h.mapped x hx
    rcases Nat.eq_or_lt_of_le (show x.1.page ≤ k by omega) with hEq | hLt
    · exact Or.inr ⟨hEq, h.below x hx (by omega)⟩
    · exact Or.inl hLt
  · rcases hCases hx with hOld | rfl
    · rw [← h.bytes x hOld i hi]
      have hEnd := h.end_le hOld
      refine congrArg some ?_
      rw [Place.address, Nat.add_assoc]
      by_cases hPageEq : x.1.page = k
      · refine hOutside _ (Or.inl ?_)
        have hBelow := Nat.mul_le_mul_right wordSize (h.below x hOld (by omega))
        have hOwn := words_spec x.2.length
        rw [Nat.add_mul] at hBelow
        rw [Place.address, hPageEq]
        dsimp only
        omega
      · exact hPage x hOld hPageEq _ (by omega)
    · exact hInside i hi
  · have hOld : s.bytes (K.page j + o) = 0 :=
      h.zero j hj o ho fun x hx => hFree x (List.mem_append_left _ hx)
    rw [← hOld]
    refine hOutside _ ?_
    rw [Place.address]
    by_cases hEq : j = k
    · subst hEq
      have hNew := hFree _ (List.mem_append_right _ (List.mem_singleton_self _)) rfl
      dsimp only at hNew ⊢
      omega
    · have hNot := K.not_in_page hEq ho
      dsimp only
      omega

end Placing

section Filling

/-- The number of pages and the used words of the last one. -/
structure Cursor where
  mapped : Nat
  used : Nat

def Cursor.advance (c : Cursor) (size : Nat) : Cursor :=
  if c.mapped = 0 ∨ pageSize < (c.used + words size) * wordSize then ⟨c.mapped + 1, words size⟩
  else ⟨c.mapped, c.used + words size⟩

def after (sizes : List Nat) : Cursor := sizes.foldl Cursor.advance ⟨0, 0⟩

theorem after_concat (sizes : List Nat) (size : Nat) :
    after (sizes ++ [size]) = (after sizes).advance size :=
  List.foldl_append ..

def sizes (placed : List (Place × List UInt8)) : List Nat := placed.map fun x => x.2.length

structure Filled (K : Kernel) (s : State) (placed : List (Place × List UInt8)) :
    Prop extends Holds K s placed where
  cursor : after (sizes placed) = ⟨s.mapped, s.used⟩
  ends : ∀ i x, placed[i]? = some x →
    after ((sizes placed).take (i + 1)) = ⟨x.1.page + 1, x.1.word + words x.2.length⟩
  first : ∀ k < s.mapped, ∃ x ∈ placed, x.1 = ⟨k, 0⟩

variable {placed : List (Place × List UInt8)} {x : Place × List UInt8}

theorem Filled.start (K : Kernel) : Filled K .start [] where
  toHolds := .start K
  cursor := rfl
  ends i x hx := absurd hx (by simp)
  first k hk := absurd hk (Nat.not_lt_zero k)

theorem Filled.bufferSpace_eq_zero (h : Filled K s placed) : s.bufferSpace = 0 ↔ s.mapped = 0 := by
  refine ⟨fun hNull => ?_, h.null⟩
  by_contra hne
  obtain ⟨k, hk⟩ := Nat.exists_eq_succ_of_ne_zero hne
  exact K.page_ne_null k ((h.space k hk).symm.trans hNull)

theorem Filled.makeRoom (h : Filled K s placed) (hSize : size ≤ pageSize) :
    ∃ p : Place, Holds K (makeRoom K size s) placed ∧ (makeRoom K size s).mapped = p.page + 1 ∧
      (makeRoom K size s).used = p.word ∧ (p.word + words size) * wordSize ≤ pageSize ∧
      (p.page = s.mapped ∧ p.word = 0 ∨ p.page + 1 = s.mapped) ∧
      (Cursor.mk s.mapped s.used).advance size = ⟨p.page + 1, p.word + words size⟩ := by
  have hBase := h.bufferSpace_eq_zero
  rw [Debug.makeRoom]
  by_cases hNew : s.mapped = 0 ∨ pageSize < (s.used + words size) * wordSize
  · rw [if_pos (hNew.imp_left hBase.mpr)]
    refine ⟨⟨s.mapped, 0⟩, h.toHolds.vmAlloc, rfl, rfl, ?_, Or.inl ⟨rfl, rfl⟩, ?_⟩
    · simp only [words, wordSize, pageSize] at hSize ⊢
      omega
    · rw [Cursor.advance, if_pos hNew, Nat.zero_add]
  · rw [if_neg fun hOr => hNew (hOr.imp_left hBase.mp)]
    obtain ⟨k, hk⟩ := Nat.exists_eq_succ_of_ne_zero (not_or.mp hNew).1
    refine ⟨⟨k, s.used⟩, h.toHolds, hk, rfl, Nat.le_of_not_lt (not_or.mp hNew).2,
      Or.inr hk.symm, ?_⟩
    rw [Cursor.advance, if_neg hNew]
    exact congrArg (Cursor.mk · _) hk

theorem Filled.fill (h : Filled K s placed) (hSize : name.length ≤ pageSize) :
    ∃ p : Place, (debugAlloc K name.length s).1 = p.address K ∧ ∀ m : Nat → UInt8,
      (∀ i < name.length, some (m (p.address K + i)) = name[i]?) →
      (∀ a, a < p.address K ∨ p.address K + name.length ≤ a →
        m a = (debugAlloc K name.length s).2.bytes a) →
      Filled K { (debugAlloc K name.length s).2 with bytes := m } (placed ++ [(p, name)]) := by
  obtain ⟨p, hRoom, hMapped, hUsed, hFits, hWhere, hAdvance⟩ := h.makeRoom hSize
  have hPlace : (⟨p.page, (Debug.makeRoom K name.length s).used⟩ : Place) = p := by rw [hUsed]
  refine ⟨p, ?_, fun m hInside hOutside => ?_⟩
  · rw [debugAlloc, Place.address, hRoom.space _ hMapped, hUsed]
  have hCursor : after (sizes (placed ++ [(p, name)])) =
      ⟨p.page + 1, p.word + words name.length⟩ := by
    rw [sizes, List.map_append, List.map_singleton, after_concat, ← sizes, h.cursor, hAdvance]
  have hHolds :=
    hRoom.place (m := m) hMapped name (by rwa [hUsed]) (by rwa [hPlace]) (by rwa [hPlace])
  rw [hPlace] at hHolds
  refine ⟨hHolds, ?_, fun i x hx => ?_, fun k hk => ?_⟩
  · rw [hCursor, ← hMapped, ← hUsed]
    rfl
  · rcases Nat.lt_trichotomy i placed.length with hLt | rfl | hGt
    · rw [List.getElem?_append_left hLt] at hx
      rw [sizes, List.map_append,
        List.take_append_of_le_length (by rw [List.length_map]; exact hLt)]
      exact h.ends i x hx
    · rw [List.getElem?_concat_length] at hx
      obtain rfl := Option.some.inj hx
      rw [List.take_of_length_le
        (by rw [sizes, List.length_map, List.length_append]; exact Nat.le_refl _), hCursor]
    · rw [List.getElem?_eq_none (by rw [List.length_append]; exact hGt)] at hx
      cases hx
  · have hk' : k < p.page + 1 := hMapped ▸ hk
    by_cases hOld : k < s.mapped
    · obtain ⟨x, hx, hFirst⟩ := h.first k hOld
      exact ⟨x, List.mem_append_left _ hx, hFirst⟩
    · rcases hWhere with ⟨hPage, hWord⟩ | hSame
      · refine ⟨(p, name), List.mem_append_right _ (List.mem_singleton_self _), ?_⟩
        obtain rfl : k = p.page := by omega
        rw [← hWord]
      · omega

theorem Filled.copyName (h : Filled K s placed) (hSize : name.length ≤ pageSize) :
    ∃ p : Place, (copyName K name s).1 = p.address K ∧
      Filled K (copyName K name s).2 (placed ++ [(p, name)]) := by
  obtain ⟨p, hp, hFill⟩ := h.fill hSize
  refine ⟨p, hp, hFill _ (fun i hi => ?_) fun a ha => ?_⟩
  · rw [hp]
    exact myMemcpy_inside hi
  · rw [hp]
    exact myMemcpy_outside ha

theorem Filled.copyItemName (h : Filled K s placed) (hSize : name.length ≤ pageSize) :
    ∃ p : Place, Filled K (copyItemName K name s) (placed ++ [(p, name.map pretend)]) := by
  have hLength : (name.map pretend).length = name.length := List.length_map _
  obtain ⟨p, hp, hFill⟩ := h.fill (show (name.map pretend).length ≤ pageSize by rwa [hLength])
  rw [hLength] at hp hFill
  refine ⟨p, hFill _ (fun i hi => ?_) fun a ha => ?_⟩
  · rw [Debug.copyName, hp]
    dsimp only
    rw [pretendFolders_eq, if_pos (by omega), List.getElem?_map, ← myMemcpy_inside hi]
    rfl
  · rw [Debug.copyName, hp]
    dsimp only
    rw [pretendFolders_eq, if_neg (by omega), myMemcpy_outside ha]

end Filling

end Dandelion.System.Debug
