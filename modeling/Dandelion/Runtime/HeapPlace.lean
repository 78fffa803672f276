import Dandelion.Runtime.HeapCut
import Dandelion.Runtime.HeapSearch

/-! # Placing a block in a free slab

A slab with room for the request is cut into at most three parts: the indices
skipped for alignment, the block, and a free rest. Without room the code takes
its exit branch, and only then.
-/

namespace Dandelion.Runtime.Heap

open Foundation Foundation.Words Foundation.Tiling

def actualStart (alignment start : Nat) : Nat := start + skipIndices alignment start

structure Adds (l : List Slab) (b : Slab) (l' : List Slab) : Prop where
  mem : b ∈ l'
  forth : ∀ t ∈ l, t.label ≠ .free → ∃ t' ∈ l', t'.label = t.label ∧ t'.start = t.start ∧
    t.stop ≤ t'.stop
  back : ∀ t' ∈ l', t'.label ≠ .free → t' = b ∨
    ∃ t ∈ l, t.label = t'.label ∧ t.start = t'.start ∧ t.stop ≤ t'.stop

theorem Adds.of_kept {before before' after after' : List Slab} {t b : Slab} (ht : t.label = .free)
    (hBefore : Kept before before') (hAfter : Kept after after') :
    Adds (before ++ t :: after) b (before' ++ b :: after') where
  mem := by simp
  forth u hu hOcc := by
    rcases List.mem_append.mp hu with hu | hu
    · obtain ⟨u', hu', hSame⟩ := hBefore.forth u hu hOcc
      exact ⟨u', List.mem_append_left _ hu', hSame⟩
    · rcases List.mem_cons.mp hu with rfl | hu
      · exact absurd ht hOcc
      · obtain ⟨u', hu', hSame⟩ := hAfter.forth u hu hOcc
        exact ⟨u', List.mem_append_right _ (List.mem_cons_of_mem _ hu'), hSame⟩
  back u hu hOcc := by
    rcases List.mem_append.mp hu with hu | hu
    · obtain ⟨u', hu', hSame⟩ := hBefore.back u hu hOcc
      exact Or.inr ⟨u', List.mem_append_left _ hu', hSame⟩
    · rcases List.mem_cons.mp hu with rfl | hu
      · exact Or.inl rfl
      · obtain ⟨u', hu', hSame⟩ := hAfter.back u hu hOcc
        exact Or.inr ⟨u', List.mem_append_right _ (List.mem_cons_of_mem _ hu'), hSame⟩

/-- The cells that placing a block may store to: the slab it is cut from, or a
start descriptor before it. -/
def PlaceCell (before : List Slab) (t : Slab) (i : Nat) : Prop :=
  (t.start ≤ i ∧ i ≤ t.stop) ∨ ∃ p ∈ before, i = p.start

section Split

variable {s : State} {before after : List Slab} {t : Slab} {skip : Nat}

theorem splitFront_cut (h : Cut s before t after) (hFree : t.label = .free)
    (hSparse : Sparse (· = Owner.free) (before ++ [t])) (hSkip : t.start + skip ≤ t.stop) :
    ∃ before', Kept before before' ∧
      Cut (splitFront s t.start skip) before' ⟨t.start + skip, t.stop, .free⟩ after ∧
      Touches (PlaceCell before t) s (splitFront s t.start skip) ∧
      (splitFront s t.start skip).allocBase = s.allocBase ∧
      (splitFront s t.start skip).lastDescriptor = s.lastDescriptor := by
  have hBounds := h.hole.bounds
  have hRange := h.range
  by_cases hZero : skip = 0
  · subst hZero
    refine ⟨before, .refl before, ?_, ?_, by simp [splitFront], by simp [splitFront]⟩
    · simpa [splitFront] using h.relabel .free
    · simpa [splitFront] using Touches.refl _ s
  have hStart : add64 t.start skip = t.start + skip := add64_of_lt (by omega)
  have hLast : sub64 (t.start + skip) 1 = t.start + skip - 1 := sub64_of_le (by omega) (by omega)
  have hNext : t.start + skip - 1 + 1 = t.start + skip := by omega
  by_cases hJoin : skip < 3 ∧ t.start ≠ 0
  · -- fewer than three indices after another slab: that slab takes them over
    obtain ⟨front, p, rfl, hStop⟩ := h.hole.tiles.exists_previous (s := t) (by omega)
    have hp := h.hole.left_bounds (t := p) (by simp)
    have hOcc : p.label ≠ .free := by
      intro hpFree
      have hPair := (List.isChain_append.mp hSparse).2.2 p (by simp) t (by simp)
      exact hPair ⟨hpFree, hFree⟩
    have hPrevious : clearOccupied (s.get (sub64 t.start 1)) = p.start := by
      rw [sub64_of_le (by omega) (by omega), h.get_previous.2,
        clearOccupied_descriptor (lt_topBit (by omega))]
    have hEq : splitFront s t.start skip = s.mark ⟨p.start, t.start + skip - 1, p.label⟩ := by
      simp only [splitFront, if_neg hZero, if_pos hJoin.1, if_pos hJoin.2, hStart, hLast, hPrevious,
        setOccupied_eq hOcc]
      rfl
    rw [hEq]
    refine ⟨front ++ [⟨p.start, t.start + skip - 1, p.label⟩],
      (Kept.refl front).append (.grown (by omega)), ?_, ?_, rfl, rfl⟩
    · have hCut := h.extend_left .free (m := t.start + skip - 1) (by omega) (by omega)
      rwa [hNext] at hCut
    · refine Touches.mark (by simp only; omega) (by simp only; omega) ?_ ?_
      · exact Or.inr ⟨p, by simp, rfl⟩
      · exact Or.inl (by simp only; omega)
  · -- otherwise they become a free slab of their own
    have hEq : splitFront s t.start skip = s.mark ⟨t.start, t.start + skip - 1, .free⟩ := by
      by_cases hShort : skip < 3
      · have hRoot : t.start = 0 := by
          by_contra hne
          exact hJoin ⟨hShort, hne⟩
        simp only [splitFront, if_neg hZero, if_pos hShort, if_neg (not_not_intro hRoot),
          hStart, hLast, State.mark, descriptor_free]
        rw [hRoot]
      · simp only [splitFront, if_neg hZero, if_neg hShort, hStart, hLast]
        rfl
    rw [hEq]
    refine ⟨before ++ [⟨t.start, t.start + skip - 1, .free⟩], ?_, ?_, ?_, rfl, rfl⟩
    · have hKept := (Kept.refl before).append
        (.free (l := []) (r := [⟨t.start, t.start + skip - 1, .free⟩])
        (by simp) (by simp))
      simpa using hKept
    · have hCut := h.split_left .free (m := t.start + skip - 1) (by omega) (by omega)
        (Sparse.resize_last hSparse hFree.symm)
      rwa [hNext] at hCut
    · refine Touches.mark (by simp only; omega) (by simp only; omega) ?_ ?_
      · exact Or.inl (by simp only; omega)
      · exact Or.inl (by simp only; omega)

end Split

variable {s : State} {before after : List Slab} {t : Slab} {size alignment : Nat}

theorem occupy_eq {start stop : Nat} (hStart : s.freeRoot + 8 * (start + 1) < 2 ^ 64)
    (bytes : Nat) :
    occupy s start stop =
      (.ret (s.freeRoot + 8 * (start + 1)), s.mark ⟨start, stop, .block bytes⟩) := by
  have hOcc : Owner.block bytes ≠ .free := by simp
  simp only [occupy, setOccupied_eq hOcc, add64_of_lt (show start + 1 < 2 ^ 64 by omega)]
  rw [State.address_eq (by simpa using hStart)]
  rfl

structure Placed (s s' : State) (before : List Slab) (t : Slab) (after : List Slab)
    (start size bytes : Nat) (slabs' : List Slab) : Prop where
  described : Described s' slabs'
  adds : ∃ stop, start + size + 1 ≤ stop ∧
    Adds (before ++ t :: after) ⟨start, stop, .block bytes⟩ slabs'
  touches : Touches (PlaceCell before t) s s'
  allocBase : s'.allocBase = s.allocBase
  lastDescriptor : s'.lastDescriptor = s.lastDescriptor

theorem placeBlock_of_fits (h : Described s (before ++ t :: after)) (hFree : t.label = .free)
    (hReq : Request size alignment) (hFits : Fits size alignment t) (bytes : Nat) :
    ∃ s' slabs', placeBlock s t.start size alignment =
        (.ret (s.freeRoot + 8 * (actualStart alignment t.start + 1)), s') ∧
      Placed s s' before t after (actualStart alignment t.start) size bytes slabs' := by
  have hBounds := h.bounds (t := t) (by simp)
  have hLast := h.last_lt
  have hRange := h.range
  have hSize := hReq.size_pos
  have hSizeLe := hReq.size_le
  have hSkipLt := skipIndices_lt hReq (show t.start < 2 ^ 61 by omega)
  have hAlign := hReq.alignment_lt
  unfold Fits at hFits
  unfold actualStart
  generalize hSkipEq : skipIndices alignment t.start = skip at *
  have hStop : s.get t.start = t.stop := by
    rw [h.get_start (by simp), hFree, descriptor_free]
  have hStart : add64 t.start skip = t.start + skip := add64_of_lt (by omega)
  have hEnd : add64 (add64 (t.start + skip) size) 1 = t.start + skip + size + 1 :=
    add64_add64_of_lt (by omega)
  have hEnd2 : add64 (t.start + skip + size + 1) 2 = t.start + skip + size + 3 :=
    add64_of_lt (by omega)
  have hEnd1 : add64 (t.start + skip + size + 1) 1 = t.start + skip + size + 2 :=
    add64_of_lt (by omega)
  have hSparse : Sparse (· = Owner.free) (before ++ [t] ++ after) := by
    simpa using h.sparse
  obtain ⟨before', hKept, hCut, hTouch, hBase, hDesc⟩ := splitFront_cut
    h.cut hFree (Sparse.left hSparse) (show t.start + skip ≤ t.stop by omega)
  have hRoot : (splitFront s t.start skip).freeRoot = s.freeRoot := hTouch.root
  have hPlace : placeBlock s t.start size alignment =
      if t.stop > t.start + skip + size + 3 then
        occupy ((splitFront s t.start skip).mark ⟨t.start + skip + size + 2, t.stop, .free⟩)
          (t.start + skip) (t.start + skip + size + 1)
      else occupy (splitFront s t.start skip) (t.start + skip) t.stop := by
    simp only [placeBlock, hStop, hSkipEq, hStart, hEnd, hEnd1, hEnd2,
      if_neg (show ¬ t.stop < t.start + skip + size + 1 by omega)]
    rfl
  rw [hPlace]
  split
  · -- the rest of the slab stays free
    rename_i hRest
    have hTail :
        Sparse (· = Owner.free) ((⟨t.start + skip + size + 2, t.stop, .free⟩ : Slab) :: after) :=
      Sparse.resize_head (Sparse.right h.sparse) hFree.symm
    have hCut' := hCut.split_right (.block bytes) (m := t.start + skip + size + 1)
      (by simp only; omega) (by simp only; omega) hTail
    rw [occupy_eq (by simp only [State.mark_freeRoot, hRoot]; omega) bytes]
    refine ⟨_, _, by rw [State.mark_freeRoot, hRoot], hCut'.fill_occupied (by simp), ?_, ?_, ?_, ?_⟩
    · refine ⟨t.start + skip + size + 1, le_rfl, .of_kept hFree hKept ?_⟩
      have hAfter := Kept.append
        (.free (l := []) (r := [⟨t.start + skip + size + 2, t.stop, .free⟩])
        (by simp) (by simp)) (Kept.refl after)
      simpa using hAfter
    · refine (hTouch.trans (.mark (by simp only; omega) (by simp only [hRoot]; omega) ?_ ?_)).trans
        (.mark (by simp only; omega) (by simp only [State.mark_freeRoot, hRoot]; omega) ?_ ?_)
      · exact Or.inl (by simp only; omega)
      · exact Or.inl (by simp only; omega)
      · exact Or.inl (by simp only; omega)
      · exact Or.inl (by simp only; omega)
    · simpa using hBase
    · simpa using hDesc
  · -- at most two spare indices: the block takes them
    rw [occupy_eq (by rw [hRoot]; omega) bytes]
    refine ⟨_, _, by rw [hRoot], (hCut.relabel (.block bytes)).fill_occupied (by simp), ?_,
      ?_, ?_, ?_⟩
    · exact ⟨t.stop, hFits, .of_kept hFree hKept (Kept.refl after)⟩
    · refine hTouch.trans (.mark (by simp only; omega) (by simp only [hRoot]; omega) ?_ ?_)
      · exact Or.inl (by simp only; omega)
      · exact Or.inl (by simp only; omega)
    · simpa using hBase
    · simpa using hDesc

theorem placeBlock_of_not_fits (h : Described s (before ++ t :: after)) (hFree : t.label = .free)
    (hReq : Request size alignment) (hFits : ¬ Fits size alignment t) :
    (placeBlock s t.start size alignment).1 = .exit (skipIndices alignment t.start) := by
  have hBounds := h.bounds (t := t) (by simp)
  have hLast := h.last_lt
  have hSizeLe := hReq.size_le
  have hSkipLt := skipIndices_lt hReq (show t.start < 2 ^ 61 by omega)
  have hAlign := hReq.alignment_lt
  unfold Fits at hFits
  have hStop : s.get t.start = t.stop := by
    rw [h.get_start (by simp), hFree, descriptor_free]
  have hStart : add64 t.start (skipIndices alignment t.start) =
      t.start + skipIndices alignment t.start := add64_of_lt (by omega)
  have hEnd : add64 (add64 (t.start + skipIndices alignment t.start) size) 1 =
      t.start + skipIndices alignment t.start + size + 1 := add64_add64_of_lt (by omega)
  simp only [placeBlock, hStop, hStart, hEnd,
    if_pos (show t.stop < t.start + skipIndices alignment t.start + size + 1 by omega)]

end Dandelion.Runtime.Heap
