import Dandelion.Runtime.HeapLayout

/-! # The best-fit search

The search loop folds over the slabs. A free slab whose aligned start lies
past its own end makes the remaining size wrap to a huge value, so that slab
is taken for a fit. The outcome of the search is settled by these two notions.
-/

namespace Dandelion.Runtime.Heap

open Foundation.Words Foundation.Tiling

structure Request (size alignment : Nat) : Prop where
  size_pos : 0 < size
  size_le : size ≤ 2 ^ 60
  alignment_pos : 0 < alignment
  alignment_lt : alignment < 2 ^ 61

theorem isOccupied_eq {n : Nat} (h : n < 2 ^ 64) : isOccupied n = decide (2 ^ 63 ≤ n) := by
  by_cases hn : n < 2 ^ 63
  · have hFree : isOccupied (descriptor .free n) = Owner.free.occupied := isOccupied_descriptor hn
    rw [descriptor_free] at hFree
    rw [hFree]
    symm
    simpa [Owner.occupied] using hn
  · have hSkip : isOccupied (descriptor .skip (n - 2 ^ 63)) = Owner.skip.occupied :=
      isOccupied_descriptor (by simp only [topBit]; omega)
    have hn' : descriptor .skip (n - 2 ^ 63) = n := by
      rw [descriptor, Owner.occupied, tagged_true (by simp only [topBit]; omega)]
      simp only [topBit]
      omega
    rw [hn'] at hSkip
    rw [hSkip]
    symm
    simpa [Owner.occupied] using hn

theorem localSize_eq {size : Nat} (h : size < 2 ^ 63) : localSize size = (size + 7) / 8 := by
  unfold localSize
  rw [add64_of_lt (by omega), sub64_of_le (by omega) (by omega)]
  congr 1

theorem request_of_size {size : Nat} (alignment : Nat) (hPos : 0 < size) (h : size < 2 ^ 63) :
    Request (localSize size) (localAlignment alignment) := by
  rw [localSize_eq h]
  refine ⟨by omega, by omega, ?_, ?_⟩
  · dsimp only [localAlignment]
    split <;> omega
  · have hWord := sub64_lt (add64 alignment 8) 1
    dsimp only [localAlignment]
    split <;> omega

section Skip

variable {size alignment start : Nat}

theorem skipIndices_eq (hReq : Request size alignment) (h : start < 2 ^ 61) :
    skipIndices alignment start =
      if (start + 1) % alignment = 0 then 0 else alignment - (start + 1) % alignment := by
  have hMod := Nat.mod_lt (start + 1) hReq.alignment_pos
  have hAlign := hReq.alignment_lt
  simp only [skipIndices, add64_of_lt (show start + 1 < 2 ^ 64 by omega),
    sub64_of_le (show alignment < 2 ^ 64 by omega) hMod.le]

theorem skipIndices_lt (hReq : Request size alignment) (h : start < 2 ^ 61) :
    skipIndices alignment start < alignment := by
  rw [skipIndices_eq hReq h]
  have hMod := Nat.mod_lt (start + 1) hReq.alignment_pos
  have hPos := hReq.alignment_pos
  split <;> omega

end Skip

/-- The slab has room for the request after the indices skipped for alignment. -/
def Fits (size alignment : Nat) (t : Slab) : Prop :=
  t.start + skipIndices alignment t.start + size + 1 ≤ t.stop

def Underflows (alignment : Nat) (t : Slab) : Prop :=
  t.stop < t.start + skipIndices alignment t.start

instance (size alignment : Nat) (t : Slab) : Decidable (Fits size alignment t) :=
  inferInstanceAs (Decidable (_ ≤ _))

instance (alignment : Nat) (t : Slab) : Decidable (Underflows alignment t) :=
  inferInstanceAs (Decidable (_ < _))

def potential (alignment : Nat) (t : Slab) : Nat := potentialSize alignment t.start t.stop

section Potential

variable {size alignment : Nat} {t u : Slab}

theorem potential_of_room (hReq : Request size alignment) (hStart : t.start < 2 ^ 61)
    (hStop : t.stop < 2 ^ 61) (h : t.start + skipIndices alignment t.start + 1 ≤ t.stop) :
    potential alignment t = t.stop - (t.start + skipIndices alignment t.start) - 1 := by
  have hSkip := skipIndices_lt hReq hStart
  have hAlign := hReq.alignment_lt
  have hFirst : sub64 t.stop (t.start + skipIndices alignment t.start) =
      t.stop - (t.start + skipIndices alignment t.start) := sub64_of_le (by omega) (by omega)
  rw [potential, potentialSize, add64_of_lt (by omega), hFirst, sub64_of_le (by omega) (by omega)]

theorem potential_of_wrap (hReq : Request size alignment) (hStart : t.start < 2 ^ 61)
    (hStop : t.stop < 2 ^ 61) (h : t.stop < t.start + skipIndices alignment t.start + 1) :
    potential alignment t = 2 ^ 64 - (t.start + skipIndices alignment t.start + 1 - t.stop) := by
  have hSkip := skipIndices_lt hReq hStart
  have hAlign := hReq.alignment_lt
  rw [potential, potentialSize, add64_of_lt (by omega)]
  by_cases hEq : t.stop = t.start + skipIndices alignment t.start
  · have hFirst : sub64 t.stop (t.start + skipIndices alignment t.start) = 0 := by
      rw [hEq, sub64_of_le (by omega) le_rfl, Nat.sub_self]
    rw [hFirst, sub64_of_lt (by omega) (by omega)]
    omega
  · have hFirst : sub64 t.stop (t.start + skipIndices alignment t.start) =
        2 ^ 64 - (t.start + skipIndices alignment t.start - t.stop) :=
      sub64_of_lt (by omega) (by omega)
    rw [hFirst, sub64_of_le (by omega) (by omega)]
    omega

theorem accepted_iff (hReq : Request size alignment) (hStart : t.start < 2 ^ 61)
    (hStop : t.stop < 2 ^ 61) :
    (size ≤ potential alignment t ∧ potential alignment t < maxVal) ↔
      Fits size alignment t ∨ Underflows alignment t := by
  have hSkip := skipIndices_lt hReq hStart
  have hAlign := hReq.alignment_lt
  have hSize := hReq.size_le
  simp only [Fits, Underflows, maxVal, maxWord]
  by_cases h : t.start + skipIndices alignment t.start + 1 ≤ t.stop
  · rw [potential_of_room hReq hStart hStop h]
    omega
  · rw [potential_of_wrap hReq hStart hStop (by omega)]
    omega

/-- A slab that really fits is preferred to every slab that wraps. -/
theorem Fits.potential_lt (hFits : Fits size alignment t) (hReq : Request size alignment)
    (htStart : t.start < 2 ^ 61) (htStop : t.stop < 2 ^ 61)
    (huStart : u.start < 2 ^ 61) (huStop : u.stop < 2 ^ 61) (hu : ¬ Fits size alignment u)
    (hSize : size ≤ potential alignment u) : potential alignment t < potential alignment u := by
  have htSkip := skipIndices_lt hReq htStart
  have huSkip := skipIndices_lt hReq huStart
  have hAlign := hReq.alignment_lt
  simp only [Fits] at hFits hu
  rw [potential_of_room hReq htStart htStop (by omega)]
  by_cases h : u.start + skipIndices alignment u.start + 1 ≤ u.stop
  · rw [potential_of_room hReq huStart huStop h] at hSize
    omega
  · rw [potential_of_wrap hReq huStart huStop (by omega)]
    omega

end Potential

def scan (size alignment : Nat) : Nat × Nat → List Slab → Nat × Nat
  | best, [] => best
  | best, t :: l =>
    if t.label = .free ∧ size ≤ potential alignment t ∧ potential alignment t < best.2 then
      scan size alignment (t.start, potential alignment t) l
    else scan size alignment best l

theorem searchFit_eq_scan {s : State} {slabs : List Slab} (h : Described s slabs)
    (size alignment : Nat) {l : List Slab} (hl : ∀ t ∈ l, t ∈ slabs) {current fuel : Nat}
    (hTiles : Tiles current s.lastDescriptor l) (hFuel : l.length < fuel) (best : Nat × Nat) :
    searchFit s size alignment fuel best.1 best.2 current = some (scan size alignment best l) := by
  induction l generalizing current fuel best with
  | nil =>
    obtain ⟨fuel, rfl⟩ := Nat.exists_eq_add_one.mpr (Nat.zero_lt_of_lt hFuel)
    rw [tiles_nil] at hTiles
    rw [searchFit, hTiles, h.get_last]
    simp [scan]
  | cons t l ih =>
    obtain ⟨fuel, rfl⟩ := Nat.exists_eq_add_one.mpr (Nat.zero_lt_of_lt hFuel)
    obtain ⟨rfl, hLe, hRest⟩ := hTiles
    have ht := hl t List.mem_cons_self
    have hBounds := h.bounds ht
    have hLast := h.last_lt
    have hStop : t.stop < topBit := lt_topBit (by omega)
    have hRec := fun best' => ih (fun u hu => hl u (List.mem_cons_of_mem _ hu)) hRest
      (by simpa using hFuel) best'
    have hMax : descriptor t.label t.stop ≠ maxVal :=
      tagged_ne_maxWord (by simp only [topBit]; omega)
    rw [searchFit, h.get_start ht, clearOccupied_descriptor hStop, isOccupied_descriptor hStop]
    simp only [if_neg hMax, add64_of_lt (show t.stop + 1 < 2 ^ 64 by omega)]
    by_cases hFree : t.label = .free
    · rw [scan, hFree]
      simp only [Owner.occupied, Bool.false_eq_true, if_false, true_and]
      change (if size ≤ potential alignment t ∧ potential alignment t < best.2 then _ else _) = _
      split
      · exact hRec (t.start, potential alignment t)
      · exact hRec best
    · have hLeave :
          ¬ (t.label = .free ∧ size ≤ potential alignment t ∧ potential alignment t < best.2) :=
        fun hTake => hFree hTake.1
      rw [if_pos (Owner.occupied_eq_true.mpr hFree), scan, if_neg hLeave]
      exact hRec best

theorem scan_spec (size alignment : Nat) (best : Nat × Nat) (l : List Slab) :
    (scan size alignment best l = best ∧
      ∀ t ∈ l, t.label = .free → size ≤ potential alignment t → best.2 ≤ potential alignment t) ∨
    ∃ t ∈ l, t.label = .free ∧ scan size alignment best l = (t.start, potential alignment t) ∧
      size ≤ potential alignment t ∧ potential alignment t < best.2 ∧
      ∀ u ∈ l, u.label = .free → size ≤ potential alignment u →
        potential alignment t ≤ potential alignment u := by
  induction l generalizing best with
  | nil => exact Or.inl ⟨rfl, by simp⟩
  | cons t l ih =>
    rw [scan]
    split
    · rename_i hTake
      right
      rcases ih (t.start, potential alignment t) with ⟨hScan, hMin⟩ | ⟨u, hu, hFree, hScan, hSize,
          hLt, hMin⟩
      · refine ⟨t, List.mem_cons_self, hTake.1, hScan, hTake.2.1, hTake.2.2, ?_⟩
        intro u hu hFree hSize
        rcases List.mem_cons.mp hu with rfl | hu
        · exact le_rfl
        · exact hMin u hu hFree hSize
      · refine ⟨u, List.mem_cons_of_mem _ hu, hFree, hScan, hSize, hLt.trans hTake.2.2, ?_⟩
        intro v hv hvFree hvSize
        rcases List.mem_cons.mp hv with rfl | hv
        · exact hLt.le
        · exact hMin v hv hvFree hvSize
    · rename_i hLeave
      rcases ih best with ⟨hScan, hMin⟩ | ⟨u, hu, hFree, hScan, hSize, hLt, hMin⟩
      · refine Or.inl ⟨hScan, ?_⟩
        intro v hv hvFree hvSize
        rcases List.mem_cons.mp hv with rfl | hv
        · by_contra hBeats
          exact hLeave ⟨hvFree, hvSize, Nat.lt_of_not_le hBeats⟩
        · exact hMin v hv hvFree hvSize
      · refine Or.inr ⟨u, List.mem_cons_of_mem _ hu, hFree, hScan, hSize, hLt, ?_⟩
        intro v hv hvFree hvSize
        rcases List.mem_cons.mp hv with rfl | hv
        · by_contra hBeats
          exact hLeave ⟨hvFree, hvSize, by omega⟩
        · exact hMin v hv hvFree hvSize

inductive Found (size alignment : Nat) (slabs : List Slab) : Nat × Nat → Prop
  | fit (t : Slab) (mem : t ∈ slabs) (free : t.label = .free) (fits : Fits size alignment t)
      (least : ∀ u ∈ slabs, u.label = .free → Fits size alignment u →
        potential alignment t ≤ potential alignment u) :
      Found size alignment slabs (t.start, potential alignment t)
  | wrapped (t : Slab) (mem : t ∈ slabs) (free : t.label = .free)
      (underflows : Underflows alignment t)
      (noFit : ∀ u ∈ slabs, u.label = .free → ¬ Fits size alignment u) :
      Found size alignment slabs (t.start, potential alignment t)
  | nothing (noFit : ∀ u ∈ slabs, u.label = .free → ¬ Fits size alignment u)
      (noWrap : ∀ u ∈ slabs, u.label = .free → ¬ Underflows alignment u) :
      Found size alignment slabs (maxVal, maxVal)

theorem searchFit_found {s : State} {slabs : List Slab} (h : Described s slabs)
    {size alignment : Nat} (hReq : Request size alignment) :
    ∃ r, searchFit s size alignment (2 ^ 64) maxVal maxVal 0 = some r ∧
      Found size alignment slabs r ∧ (r.2 = maxVal ↔ r = (maxVal, maxVal)) := by
  have hLast := h.last_lt
  have hLength := h.tiles.length_le
  have hSmall : ∀ t ∈ slabs, t.start < 2 ^ 61 ∧ t.stop < 2 ^ 61 := by
    intro t ht
    have := h.bounds ht
    omega
  have hSearch := searchFit_eq_scan h size alignment (fun _ => id)
    h.tiles (show slabs.length < 2 ^ 64 by omega) (maxVal, maxVal)
  refine ⟨_, hSearch, ?_⟩
  rcases scan_spec size alignment (maxVal, maxVal) slabs with
    ⟨hScan, hMin⟩ | ⟨t, ht, hFree, hScan, hSize, hLt, hMin⟩
  · have hNone : ∀ u ∈ slabs, u.label = .free →
        ¬ (Fits size alignment u ∨ Underflows alignment u) := by
      intro u hu hFree hAccepted
      obtain ⟨huSize, huLt⟩ := (accepted_iff hReq (hSmall u hu).1 (hSmall u hu).2).mpr hAccepted
      exact absurd (hMin u hu hFree huSize) (Nat.not_le_of_lt huLt)
    rw [hScan]
    exact ⟨.nothing (fun u hu hf hFits => hNone u hu hf (Or.inl hFits))
      (fun u hu hf hWraps => hNone u hu hf (Or.inr hWraps)), by simp⟩
  · have hAccepted := (accepted_iff hReq (hSmall t ht).1 (hSmall t ht).2).mp ⟨hSize, hLt⟩
    rw [hScan]
    refine ⟨?_, ?_⟩
    · by_cases hFits : Fits size alignment t
      · exact .fit t ht hFree hFits (fun u hu hf hFitsU => hMin u hu hf
          ((accepted_iff hReq (hSmall u hu).1 (hSmall u hu).2).mpr (Or.inl hFitsU)).1)
      · refine .wrapped t ht hFree (hAccepted.resolve_left hFits) ?_
        intro u hu hf hFitsU
        have huSize := ((accepted_iff hReq (hSmall u hu).1 (hSmall u hu).2).mpr (Or.inl hFitsU)).1
        have hBeats := hFitsU.potential_lt hReq (hSmall u hu).1 (hSmall u hu).2
          (hSmall t ht).1 (hSmall t ht).2 hFits hSize
        exact absurd (hMin u hu hf huSize) (Nat.not_le_of_lt hBeats)
    · have hNe : potential alignment t ≠ maxVal := Nat.ne_of_lt hLt
      simp [hNe]

end Dandelion.Runtime.Heap
