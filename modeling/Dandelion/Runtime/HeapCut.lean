import Dandelion.Runtime.HeapLayout

/-! # Cutting and fusing slabs

While a slab is being reworked its own descriptors are stale, but those of all
other slabs hold. Each pair of descriptor writes of the source turns one such
intermediate state into another, or closes it.
-/

namespace Dandelion.Runtime.Heap

open Foundation Foundation.Tiling Foundation.BoundaryTags

/-- The occupied slabs of two layouts correspond; a slab may have grown at its end. -/
structure Kept (l l' : List Slab) : Prop where
  forth : ∀ t ∈ l, t.label ≠ .free → ∃ t' ∈ l', t'.label = t.label ∧ t'.start = t.start ∧
    t.stop ≤ t'.stop
  back : ∀ t' ∈ l', t'.label ≠ .free → ∃ t ∈ l, t.label = t'.label ∧ t.start = t'.start ∧
    t.stop ≤ t'.stop

theorem Kept.refl (l : List Slab) : Kept l l :=
  ⟨fun t ht _ => ⟨t, ht, rfl, rfl, le_rfl⟩, fun t ht _ => ⟨t, ht, rfl, rfl, le_rfl⟩⟩

theorem Kept.append {l l' r r' : List Slab} (hl : Kept l l') (hr : Kept r r') :
    Kept (l ++ r) (l' ++ r') where
  forth t ht hOcc := by
    rcases List.mem_append.mp ht with ht | ht
    · obtain ⟨t', ht', h⟩ := hl.forth t ht hOcc
      exact ⟨t', List.mem_append_left _ ht', h⟩
    · obtain ⟨t', ht', h⟩ := hr.forth t ht hOcc
      exact ⟨t', List.mem_append_right _ ht', h⟩
  back t ht hOcc := by
    rcases List.mem_append.mp ht with ht | ht
    · obtain ⟨t', ht', h⟩ := hl.back t ht hOcc
      exact ⟨t', List.mem_append_left _ ht', h⟩
    · obtain ⟨t', ht', h⟩ := hr.back t ht hOcc
      exact ⟨t', List.mem_append_right _ ht', h⟩

theorem Kept.free {l r : List Slab} (hl : ∀ t ∈ l, t.label = .free)
    (hr : ∀ t ∈ r, t.label = .free) :
    Kept l r :=
  ⟨fun t ht hOcc => absurd (hl t ht) hOcc, fun t ht hOcc => absurd (hr t ht) hOcc⟩

theorem Kept.grown {p : Slab} {m : Nat} (h : p.stop ≤ m) : Kept [p] [⟨p.start, m, p.label⟩] where
  forth t ht _ := by
    obtain rfl := List.mem_singleton.mp ht
    exact ⟨_, List.mem_singleton.mpr rfl, rfl, rfl, h⟩
  back t ht _ := by
    obtain rfl := List.mem_singleton.mp ht
    exact ⟨p, List.mem_singleton.mpr rfl, rfl, rfl, h⟩

theorem sparse_of_occupied {before after : List Slab} {t : Slab}
    (hBefore : Sparse (· = Owner.free) before) (ht : t.label ≠ .free)
    (hAfter : Sparse (· = Owner.free) after) : Sparse (· = Owner.free) (before ++ t :: after) := by
  refine List.isChain_append.mpr ⟨hBefore, ?_, ?_⟩
  · refine List.isChain_cons.mpr ⟨?_, hAfter⟩
    intro u _ hBoth
    exact ht hBoth.1
  · intro u _ v hv hBoth
    rw [List.head?_cons, Option.mem_some_iff] at hv
    exact ht (hv ▸ hBoth.2)

theorem Sparse.left {l r : List Slab} (h : Sparse (· = Owner.free) (l ++ r)) :
    Sparse (· = Owner.free) l := (List.isChain_append.mp h).1

theorem Sparse.right {l r : List Slab} (h : Sparse (· = Owner.free) (l ++ r)) :
    Sparse (· = Owner.free) r := (List.isChain_append.mp h).2.1

theorem Sparse.resize_last {l : List Slab} {t u : Slab} (h : Sparse (· = Owner.free) (l ++ [t]))
    (hLabel : u.label = t.label) : Sparse (· = Owner.free) (l ++ [u]) := by
  obtain ⟨hl, _, hJoin⟩ := List.isChain_append.mp h
  refine List.isChain_append.mpr ⟨hl, List.isChain_singleton u, ?_⟩
  intro x hx y hy
  rw [List.head?_cons, Option.mem_some_iff] at hy
  subst hy
  rw [hLabel]
  exact hJoin x hx t rfl

theorem Sparse.resize_head {l : List Slab} {t u : Slab} (h : Sparse (· = Owner.free) (t :: l))
    (hLabel : u.label = t.label) : Sparse (· = Owner.free) (u :: l) := by
  obtain ⟨hHead, hl⟩ := List.isChain_cons.mp h
  refine List.isChain_cons.mpr ⟨?_, hl⟩
  rw [hLabel]
  exact hHead

structure Cut (s : State) (before : List Slab) (t : Slab) (after : List Slab) : Prop where
  rooted : 0 < s.freeRoot
  range : s.freeRoot + 8 * (s.lastDescriptor + 1) < 2 ^ 64
  hole : Hole descriptor s.view s.lastDescriptor before t after
  sentinel : s.view s.lastDescriptor = maxVal
  sparseLeft : Sparse (· = Owner.free) before
  sparseRight : Sparse (· = Owner.free) after

variable {s : State} {before after : List Slab} {t : Slab}

theorem Described.cut (h : Described s (before ++ t :: after)) : Cut s before t after where
  rooted := h.rooted
  range := h.range
  hole := .of_marked h.tiles h.marked
  sentinel := h.sentinel
  sparseLeft := Sparse.left h.sparse
  sparseRight := (List.isChain_cons.mp (Sparse.right h.sparse)).2

section

variable (h : Cut s before t after)

include h

theorem Cut.in_range {i : Nat} (hi : i ≤ s.lastDescriptor) :
    s.freeRoot + 8 * i < 2 ^ 64 := by
  have := h.range
  omega

theorem Cut.of_mark {u v : Slab} {before' after' : List Slab}
    (hLe : u.start ≤ u.stop) (hLast : u.stop < s.lastDescriptor)
    (hHole : Hole descriptor (BoundaryTags.mark descriptor s.view u) s.lastDescriptor
      before' v after')
    (hLeft : Sparse (· = Owner.free) before') (hRight : Sparse (· = Owner.free) after') :
    Cut (s.mark u) before' v after' := by
  have hView := State.mark_view (t := u) hLe (h.in_range hLast.le)
  refine ⟨h.rooted, h.range, ?_, ?_, hLeft, hRight⟩
  · rw [hView]
    exact hHole
  · rw [hView, State.mark_lastDescriptor, mark_of_ne (by omega) (by omega), h.sentinel]

theorem Cut.fill (hSparse : Sparse (· = Owner.free) (before ++ t :: after)) :
    Described (s.mark t) (before ++ t :: after) := by
  have hBounds := h.hole.bounds
  have hView := State.mark_view hBounds.1 (h.in_range hBounds.2.le)
  refine ⟨h.rooted, h.range, ?_, h.hole.tiles, ?_, ?_, hSparse⟩
  · rw [State.mark_lastDescriptor]
    omega
  · rw [hView]
    exact h.hole.fill
  · rw [hView, State.mark_lastDescriptor, mark_of_ne (by omega) (by omega), h.sentinel]

theorem Cut.fill_occupied (ht : t.label ≠ .free) :
    Described (s.mark t) (before ++ t :: after) :=
  h.fill (sparse_of_occupied h.sparseLeft ht h.sparseRight)

theorem Cut.split_left (x : Owner) {m : Nat}
    (hLow : t.start ≤ m) (hHigh : m < t.stop)
    (hSparse : Sparse (· = Owner.free) (before ++ [⟨t.start, m, .free⟩])) :
    Cut (s.mark ⟨t.start, m, .free⟩) (before ++ [⟨t.start, m, .free⟩]) ⟨m + 1, t.stop, x⟩ after :=
  h.of_mark hLow (hHigh.trans h.hole.bounds.2) (h.hole.split_left .free x hLow hHigh) hSparse
    h.sparseRight

theorem Cut.split_right (x : Owner) {m : Nat}
    (hLow : t.start ≤ m) (hHigh : m < t.stop)
    (hSparse : Sparse (· = Owner.free) (⟨m + 1, t.stop, .free⟩ :: after)) :
    Cut (s.mark ⟨m + 1, t.stop, .free⟩) before ⟨t.start, m, x⟩ (⟨m + 1, t.stop, .free⟩ :: after) :=
  h.of_mark hHigh h.hole.bounds.2 (h.hole.split_right .free x hLow hHigh) h.sparseLeft hSparse

end

theorem Cut.extend_left {front : List Slab} {p : Slab} (h : Cut s (front ++ [p]) t after)
    (x : Owner) {m : Nat} (hLow : t.start ≤ m) (hHigh : m < t.stop) :
    Cut (s.mark ⟨p.start, m, p.label⟩) (front ++ [⟨p.start, m, p.label⟩])
      ⟨m + 1, t.stop, x⟩ after := by
  have hp := h.hole.left_bounds (t := p) (by simp)
  have ht := h.hole.bounds
  exact h.of_mark (by simp only; omega) (by simp only; omega) (h.hole.extend_left x hLow hHigh)
    (Sparse.resize_last h.sparseLeft rfl) h.sparseRight

theorem Cut.join_left {front : List Slab} {p : Slab} (h : Cut s (front ++ [p]) t after)
    (x : Owner) :
    Cut s front ⟨p.start, t.stop, x⟩ after where
  rooted := h.rooted
  range := h.range
  hole := h.hole.join_left x
  sentinel := h.sentinel
  sparseLeft := Sparse.left h.sparseLeft
  sparseRight := h.sparseRight

theorem Cut.join_right {rest : List Slab} {n : Slab} (h : Cut s before t (n :: rest)) (x : Owner) :
    Cut s before ⟨t.start, n.stop, x⟩ rest where
  rooted := h.rooted
  range := h.range
  hole := h.hole.join_right x
  sentinel := h.sentinel
  sparseLeft := h.sparseLeft
  sparseRight := (List.isChain_cons.mp h.sparseRight).2

theorem Cut.relabel (h : Cut s before t after) (x : Owner) :
    Cut s before ⟨t.start, t.stop, x⟩ after where
  rooted := h.rooted
  range := h.range
  hole := h.hole.relabel x
  sentinel := h.sentinel
  sparseLeft := h.sparseLeft
  sparseRight := h.sparseRight

theorem Cut.get_previous {front : List Slab} {p : Slab} (h : Cut s (front ++ [p]) t after) :
    p.stop + 1 = t.start ∧ s.get (t.start - 1) = descriptor p.label p.start := by
  obtain ⟨front', q, hEq, hStop⟩ := h.hole.tiles.exists_previous (s := t) (by
    have := h.hole.left_bounds (t := p) (by simp)
    omega)
  obtain ⟨_, hLast⟩ := List.append_inj' hEq rfl
  obtain rfl : p = q := by simpa using hLast
  have ht := h.hole.bounds
  refine ⟨hStop, ?_⟩
  rw [← hStop, Nat.add_sub_cancel, State.get_eq (h.in_range (by omega))]
  exact (h.hole.left p (by simp)).2

theorem Cut.get_next {rest : List Slab} {n : Slab} (h : Cut s before t (n :: rest)) :
    s.get (t.stop + 1) = descriptor n.label n.stop := by
  have hStart : n.start = t.stop + 1 := h.hole.tiles.after.1
  have hn := (h.hole.tiles.after.bounds (s := n) List.mem_cons_self).2
  rw [← hStart, State.get_eq (h.in_range (by omega))]
  exact (h.hole.right n List.mem_cons_self).1

theorem Cut.get_end (h : Cut s before t []) : s.get (t.stop + 1) = maxVal := by
  have hEnd : t.stop + 1 = s.lastDescriptor := h.hole.tiles.after
  rw [hEnd, State.get_eq (h.in_range le_rfl), h.sentinel]

end Dandelion.Runtime.Heap
