import Dandelion.Runtime.HeapCut

/-! # Freeing a block

The freed slab is fused with a free neighbour on either side. None of the
checks that a debug build makes can fail for the pointer of an occupied slab.
-/

namespace Dandelion.Runtime.Heap

open Foundation Foundation.Words Foundation.Tiling

structure Drops (l : List Slab) (t : Slab) (l' : List Slab) : Prop where
  forth : ∀ u ∈ l, u.label ≠ .free → u = t ∨ u ∈ l'
  back : ∀ u ∈ l', u.label ≠ .free → u ∈ l ∧ u ≠ t

/-- The cells that freeing may store to: ends of the freed slab or of a free one. -/
def FreeCell (slabs : List Slab) (t : Slab) (i : Nat) : Prop :=
  (i = t.start ∨ i = t.stop) ∨ ∃ u ∈ slabs, u.label = .free ∧ (i = u.start ∨ i = u.stop)

theorem sparse_join {l r : List Slab} {t : Slab} (hLeft : Sparse (· = Owner.free) (l ++ [t]))
    (hRight : Sparse (· = Owner.free) (t :: r)) : Sparse (· = Owner.free) (l ++ t :: r) := by
  obtain ⟨hl, _, hJoin⟩ := List.isChain_append.mp hLeft
  refine List.isChain_append.mpr ⟨hl, hRight, ?_⟩
  intro x hx y hy
  exact hJoin x hx y (by simpa using hy)

section

variable {s : State} {before after : List Slab} {t : Slab}

theorem Cut.merge_left (h : Cut s before t after) :
    ∃ front start,
      (if t.start ≠ 0 ∧ !isOccupied (s.get (sub64 t.start 1)) then s.get (sub64 t.start 1)
        else t.start) = start ∧
      Cut s front ⟨start, t.stop, .free⟩ after ∧
      (∀ u : Slab, u.label = .free → Sparse (· = Owner.free) (front ++ [u])) ∧
      (∀ u : Slab, u.label ≠ .free → (u ∈ before ↔ u ∈ front)) ∧
      (start = t.start ∨ ∃ u ∈ before, u.label = .free ∧ start = u.start) := by
  have hBounds := h.hole.bounds
  have hRange := h.range
  by_cases hZero : t.start = 0
  · have hEmpty : before = [] := by
      have hTiles := h.hole.tiles.before
      cases before with
      | nil => rfl
      | cons u l =>
        have := hTiles.bounds (s := u) List.mem_cons_self
        omega
    subst hEmpty
    refine ⟨[], t.start, if_neg (fun hAnd => hAnd.1 hZero), h.relabel .free, ?_, fun _ _ => Iff.rfl,
      Or.inl rfl⟩
    exact fun u _ => List.isChain_singleton u
  obtain ⟨front, p, rfl, hStop⟩ := h.hole.tiles.exists_previous (s := t) (by omega)
  have hp := h.hole.left_bounds (t := p) (by simp)
  have hGet : s.get (sub64 t.start 1) = descriptor p.label p.start := by
    rw [sub64_of_le (by omega) (by omega), h.get_previous.2]
  rw [hGet, isOccupied_descriptor (lt_topBit (by omega))]
  by_cases hFree : p.label = .free
  · refine ⟨front, p.start, ?_, h.join_left .free, ?_, ?_, Or.inr ⟨p, by simp, hFree, rfl⟩⟩
    · rw [hFree]
      exact if_pos ⟨hZero, rfl⟩
    · exact fun u hu => Sparse.resize_last h.sparseLeft (hu.trans hFree.symm)
    · intro u hu
      have hne : u ≠ p := fun hEq => hu (hEq ▸ hFree)
      simp [hne]
  · refine ⟨front ++ [p], t.start, ?_, h.relabel .free, ?_, fun _ _ => Iff.rfl, Or.inl rfl⟩
    · rw [Owner.occupied_eq_true.mpr hFree]
      exact if_neg (fun hAnd => Bool.false_ne_true hAnd.2)
    · intro u _
      rw [List.append_assoc]
      exact sparse_of_occupied (Sparse.left h.sparseLeft) hFree (List.isChain_singleton u)

theorem Cut.merge_right (h : Cut s before t after) :
    ∃ rest stop, (if !isOccupied (s.get (add64 t.stop 1)) then s.get (add64 t.stop 1) else t.stop) =
      stop ∧
      Cut s before ⟨t.start, stop, .free⟩ rest ∧
      (∀ u : Slab, u.label = .free → Sparse (· = Owner.free) (u :: rest)) ∧
      (∀ u : Slab, u.label ≠ .free → (u ∈ after ↔ u ∈ rest)) ∧
      (stop = t.stop ∨ ∃ u ∈ after, u.label = .free ∧ stop = u.stop) := by
  have hBounds := h.hole.bounds
  have hRange := h.range
  have hSucc : add64 t.stop 1 = t.stop + 1 := add64_of_lt (by omega)
  rw [hSucc]
  cases after with
  | nil =>
    refine ⟨[], t.stop, ?_, h.relabel .free, ?_, fun _ _ => Iff.rfl, Or.inl rfl⟩
    · rw [h.get_end, isOccupied_maxVal]
      rfl
    · exact fun u _ => List.isChain_singleton u
  | cons n rest =>
    have hn := h.hole.tiles.after.bounds (s := n) List.mem_cons_self
    rw [h.get_next, isOccupied_descriptor (lt_topBit (by omega))]
    by_cases hFree : n.label = .free
    · refine ⟨rest, n.stop, ?_, h.join_right .free, ?_, ?_, Or.inr ⟨n, by simp, hFree, rfl⟩⟩
      · rw [hFree]
        rfl
      · exact fun u hu => Sparse.resize_head h.sparseRight (hu.trans hFree.symm)
      · intro u hu
        have hne : u ≠ n := fun hEq => hu (hEq ▸ hFree)
        simp [hne]
    · refine ⟨n :: rest, t.stop, ?_, h.relabel .free, ?_, fun _ _ => Iff.rfl, Or.inl rfl⟩
      · rw [Owner.occupied_eq_true.mpr hFree]
        rfl
      · intro u _
        exact sparse_of_occupied (List.isChain_singleton u : Sparse (· = Owner.free) [u]) hFree
          (List.isChain_cons.mp h.sparseRight).2

end

structure Freed (s s' : State) (slabs : List Slab) (t : Slab) (slabs' : List Slab) : Prop where
  described : Described s' slabs'
  drops : Drops slabs t slabs'
  touches : Touches (FreeCell slabs t) s s'
  allocBase : s'.allocBase = s.allocBase
  lastDescriptor : s'.lastDescriptor = s.lastDescriptor

theorem mergeFree_freed {s : State} {before after : List Slab} {t : Slab}
    (h : Described s (before ++ t :: after)) (hOcc : t.label ≠ .free) :
    ∃ slabs', Freed s (mergeFree s t.start t.stop) (before ++ t :: after) t slabs' := by
  obtain ⟨front, start, hStart, hCut, hSparse, hFront, hStartCell⟩ := h.cut.merge_left
  obtain ⟨rest, stop, hStop, hCut', hSparse', hRest, hStopCell⟩ := hCut.merge_right
  have hEq : mergeFree s t.start t.stop = s.mark ⟨start, stop, .free⟩ := by
    simp only [mergeFree, hStart]
    rw [hStop]
    rfl
  have hBounds := hCut'.hole.bounds
  have hOld := h.bounds (t := t) (by simp)
  have hRange := h.range
  have hUnique : ∀ u ∈ before ++ after, u ≠ t := by
    intro u hu hEqt
    rcases List.mem_append.mp hu with hu | hu
    · have := h.cut.hole.left_bounds hu
      rw [hEqt] at this
      omega
    · have := h.cut.hole.right_bounds hu
      rw [hEqt] at this
      omega
  rw [hEq]
  refine ⟨front ++ ⟨start, stop, .free⟩ :: rest, ?_, ⟨?_, ?_⟩, ?_, rfl, rfl⟩
  · exact hCut'.fill (sparse_join (hSparse _ rfl) (hSparse' _ rfl))
  · intro u hu huOcc
    rcases List.mem_append.mp hu with hu | hu
    · exact Or.inr (List.mem_append_left _ ((hFront u huOcc).mp hu))
    · rcases List.mem_cons.mp hu with rfl | hu
      · exact Or.inl rfl
      · exact Or.inr (List.mem_append_right _ (List.mem_cons_of_mem _ ((hRest u huOcc).mp hu)))
  · intro u hu huOcc
    rcases List.mem_append.mp hu with hu | hu
    · have hu' := (hFront u huOcc).mpr hu
      exact ⟨List.mem_append_left _ hu', hUnique u (List.mem_append_left _ hu')⟩
    · rcases List.mem_cons.mp hu with rfl | hu
      · exact absurd rfl huOcc
      · have hu' := (hRest u huOcc).mpr hu
        exact ⟨List.mem_append_right _ (List.mem_cons_of_mem _ hu'),
          hUnique u (List.mem_append_right _ hu')⟩
  · refine .mark hBounds.1 (by simp only at hBounds ⊢; omega) ?_ ?_
    · rcases hStartCell with hEqStart | ⟨u, hu, huFree, hEqStart⟩
      · exact Or.inl (Or.inl hEqStart)
      · exact Or.inr ⟨u, List.mem_append_left _ hu, huFree, Or.inl hEqStart⟩
    · rcases hStopCell with hEqStop | ⟨u, hu, huFree, hEqStop⟩
      · exact Or.inl (Or.inr hEqStop)
      · exact Or.inr ⟨u, List.mem_append_right _ (List.mem_cons_of_mem _ hu), huFree,
          Or.inr hEqStop⟩

theorem dandelionFree_freed (P : Platform) {s : State} {slabs : List Slab} {t : Slab}
    (h : Described s slabs) (ht : t ∈ slabs) (hOcc : t.label ≠ .free) :
    ∃ s' slabs', dandelionFree P s (s.freeRoot + 8 * (t.start + 1)) = (.ret (), s') ∧
      Freed s s' slabs t slabs' := by
  have hBounds := h.bounds ht
  have hLast := h.last_lt
  have hIndex : pointerDiff (s.freeRoot + 8 * (t.start + 1)) s.freeRoot = t.start + 1 := by
    unfold pointerDiff
    omega
  have hPred : sub64 (t.start + 1) 1 = t.start := by
    rw [sub64_of_le (by omega) (by omega)]
    omega
  have hStart := lt_topBit (show t.start < 2 ^ 61 by omega)
  have hStop := lt_topBit (show t.stop < 2 ^ 61 by omega)
  have hFlag := Owner.occupied_eq_true.mpr hOcc
  obtain ⟨before, after, rfl⟩ := List.append_of_mem ht
  obtain ⟨slabs', hFreed⟩ := mergeFree_freed h hOcc
  refine ⟨_, slabs', ?_, hFreed⟩
  simp only [dandelionFree, hIndex, hPred, h.get_start ht, h.get_stop ht,
    clearOccupied_descriptor hStop, clearOccupied_descriptor hStart, isOccupied_descriptor hStop,
    isOccupied_descriptor hStart, hFlag, Bool.not_true, Bool.false_eq_true, and_false, if_false,
    ne_eq, not_true_eq_false]

end Dandelion.Runtime.Heap
