import Dandelion.Foundation.Tiling

/-! # Boundary tags over a tiling

An array carries boundary tags for a span when its first cell names the last
one and the last one names the first, both under the span's label. While a
span is being cut up or fused with its neighbours its own tags are stale; the
`Hole` predicate keeps the tags of all the others.
-/

namespace Dandelion.Foundation.BoundaryTags

open Tiling

set_option autoImplicit false

universe u v

variable {α : Type u} {β : Type v} {code : α → Nat → β} {cells : Nat → β}

def Marked (code : α → Nat → β) (cells : Nat → β) (s : Span α) : Prop :=
  cells s.start = code s.label s.stop ∧ cells s.stop = code s.label s.start

def mark (code : α → Nat → β) (cells : Nat → β) (s : Span α) : Nat → β :=
  Function.update (Function.update cells s.start (code s.label s.stop)) s.stop
    (code s.label s.start)

theorem marked_mark (s : Span α) : Marked code (mark code cells s) s := by
  unfold Marked mark
  refine ⟨?_, Function.update_self ..⟩
  by_cases h : s.start = s.stop
  · rw [h, Function.update_self]
  · rw [Function.update_of_ne h, Function.update_self]

theorem mark_of_ne {s : Span α} {i : Nat} (hStart : i ≠ s.start) (hStop : i ≠ s.stop) :
    mark code cells s i = cells i := by
  rw [mark, Function.update_of_ne hStop, Function.update_of_ne hStart]

theorem Marked.mark_of_apart {s t : Span α} (h : Marked code cells t)
    (ht : t.start ≤ t.stop) (hs : s.start ≤ s.stop)
    (hApart : t.stop < s.start ∨ s.stop < t.start) : Marked code (mark code cells s) t :=
  ⟨(mark_of_ne (by omega) (by omega)).trans h.1, (mark_of_ne (by omega) (by omega)).trans h.2⟩

theorem Marked.update_of_lt {t : Span α} (h : Marked code cells t)
    (hLe : t.start ≤ t.stop) {i : Nat} (hi : t.stop < i) (x : β) :
    Marked code (Function.update cells i x) t :=
  ⟨(Function.update_of_ne (by omega) x cells).trans h.1,
    (Function.update_of_ne (by omega) x cells).trans h.2⟩

structure Hole (code : α → Nat → β) (cells : Nat → β) (bound : Nat)
    (before : List (Span α)) (s : Span α) (after : List (Span α)) : Prop where
  tiles : Tiles 0 bound (before ++ s :: after)
  left : ∀ t ∈ before, Marked code cells t
  right : ∀ t ∈ after, Marked code cells t

variable {bound : Nat} {before after : List (Span α)} {s : Span α}

theorem Hole.of_marked (hTiles : Tiles 0 bound (before ++ s :: after))
    (hMarked : ∀ t ∈ before ++ s :: after, Marked code cells t) :
    Hole code cells bound before s after where
  tiles := hTiles
  left t ht := hMarked t (List.mem_append_left _ ht)
  right t ht := hMarked t (List.mem_append_right _ (List.mem_cons_of_mem _ ht))

theorem Hole.at_end {l : List (Span α)} {last : Nat} (hTiles : Tiles 0 last l)
    (hMarked : ∀ t ∈ l, Marked code cells t) (x : α) (h : last < bound) :
    Hole code cells bound l ⟨last, bound - 1, x⟩ [] where
  tiles :=
    tiles_append.mpr ⟨last, hTiles, rfl, by simp only; omega, by simp only [tiles_nil]; omega⟩
  left := hMarked
  right := by simp

section

variable (h : Hole code cells bound before s after)

include h

theorem Hole.bounds :
    s.start ≤ s.stop ∧ s.stop < bound := by
  have := h.tiles.bounds (s := s) (by simp)
  omega

theorem Hole.left_bounds {t : Span α} (ht : t ∈ before) :
    t.start ≤ t.stop ∧ t.stop < s.start := by
  have := h.tiles.before.bounds ht
  omega

theorem Hole.right_bounds {t : Span α} (ht : t ∈ after) :
    s.stop < t.start ∧ t.start ≤ t.stop := by
  have := h.tiles.after.bounds ht
  omega

theorem Hole.fill :
    ∀ t ∈ before ++ s :: after, Marked code (mark code cells s) t := by
  intro t ht
  have hs := h.bounds
  rcases List.mem_append.mp ht with ht | ht
  · have hBound := h.left_bounds ht
    exact (h.left t ht).mark_of_apart hBound.1 hs.1 (Or.inl hBound.2)
  · rcases List.mem_cons.mp ht with rfl | ht
    · exact marked_mark t
    · have hBound := h.right_bounds ht
      exact (h.right t ht).mark_of_apart hBound.2 hs.1 (Or.inr hBound.1)

theorem Hole.split_left (label x : α) {m : Nat}
    (hLow : s.start ≤ m) (hHigh : m < s.stop) :
    Hole code (mark code cells ⟨s.start, m, label⟩) bound
      (before ++ [⟨s.start, m, label⟩]) ⟨m + 1, s.stop, x⟩ after where
  tiles := by
    have hMiddle : Tiles s.start (s.stop + 1) [⟨s.start, m, label⟩, ⟨m + 1, s.stop, x⟩] :=
      ⟨rfl, hLow, rfl, hHigh, rfl⟩
    have hTiles := h.tiles.replace hMiddle
    simpa using hTiles
  left t ht := by
    rcases List.mem_append.mp ht with ht | ht
    · have hBound := h.left_bounds ht
      exact (h.left t ht).mark_of_apart hBound.1 hLow (Or.inl hBound.2)
    · rw [List.mem_singleton.mp ht]
      exact marked_mark _
  right t ht := by
    have hBound := h.right_bounds ht
    exact (h.right t ht).mark_of_apart hBound.2 hLow (Or.inr (by simp only; omega))

theorem Hole.split_right (label x : α) {m : Nat}
    (hLow : s.start ≤ m) (hHigh : m < s.stop) :
    Hole code (mark code cells ⟨m + 1, s.stop, label⟩) bound
      before ⟨s.start, m, x⟩ (⟨m + 1, s.stop, label⟩ :: after) where
  tiles := by
    have hMiddle : Tiles s.start (s.stop + 1) [⟨s.start, m, x⟩, ⟨m + 1, s.stop, label⟩] :=
      ⟨rfl, hLow, rfl, hHigh, rfl⟩
    have hTiles := h.tiles.replace hMiddle
    simpa using hTiles
  left t ht := by
    have hBound := h.left_bounds ht
    exact (h.left t ht).mark_of_apart hBound.1 hHigh (Or.inl (by simp only; omega))
  right t ht := by
    rcases List.mem_cons.mp ht with rfl | ht
    · exact marked_mark _
    · have hBound := h.right_bounds ht
      exact (h.right t ht).mark_of_apart hBound.2 hHigh (Or.inr hBound.1)

end

theorem Hole.extend_left {front : List (Span α)} {p : Span α}
    (h : Hole code cells bound (front ++ [p]) s after) (x : α) {m : Nat}
    (hLow : s.start ≤ m) (hHigh : m < s.stop) :
    Hole code (mark code cells ⟨p.start, m, p.label⟩) bound
      (front ++ [⟨p.start, m, p.label⟩]) ⟨m + 1, s.stop, x⟩ after := by
  have hp := h.left_bounds (t := p) (by simp)
  have hpm : p.start ≤ m := by omega
  have hTiles : Tiles 0 bound (front ++ p :: (s :: after)) := by simpa using h.tiles
  obtain ⟨c, hFront, hStart, hLe, hNext, hsLe, hAfter⟩ := tiles_append.mp hTiles
  refine ⟨?_, ?_, ?_⟩
  · rw [List.append_assoc]
    exact tiles_append.mpr ⟨c, hFront, hStart, hpm, rfl, hHigh, hAfter⟩
  · intro t ht
    rcases List.mem_append.mp ht with ht | ht
    · have hBound := hFront.bounds ht
      exact (h.left t (List.mem_append_left _ ht)).mark_of_apart hBound.2.1 hpm
        (Or.inl (by simp only; omega))
    · rw [List.mem_singleton.mp ht]
      exact marked_mark _
  · intro t ht
    have hBound := h.right_bounds ht
    exact (h.right t ht).mark_of_apart hBound.2 hpm (Or.inr (by simp only; omega))

theorem Hole.join_left {front : List (Span α)} {p : Span α}
    (h : Hole code cells bound (front ++ [p]) s after) (x : α) :
    Hole code cells bound front ⟨p.start, s.stop, x⟩ after := by
  have hTiles : Tiles 0 bound (front ++ p :: (s :: after)) := by simpa using h.tiles
  obtain ⟨c, hFront, hStart, hLe, hNext, hsLe, hAfter⟩ := tiles_append.mp hTiles
  exact ⟨tiles_append.mpr ⟨c, hFront, hStart, by simp only; omega, hAfter⟩,
    fun t ht => h.left t (List.mem_append_left _ ht), h.right⟩

theorem Hole.join_right {rest : List (Span α)} {n : Span α}
    (h : Hole code cells bound before s (n :: rest)) (x : α) :
    Hole code cells bound before ⟨s.start, n.stop, x⟩ rest := by
  obtain ⟨c, hBefore, hStart, hLe, hNext, hnLe, hRest⟩ := tiles_append.mp h.tiles
  exact ⟨tiles_append.mpr ⟨c, hBefore, hStart, by simp only; omega, hRest⟩,
    h.left, fun t ht => h.right t (List.mem_cons_of_mem _ ht)⟩

theorem Hole.relabel (h : Hole code cells bound before s after) (x : α) :
    Hole code cells bound before ⟨s.start, s.stop, x⟩ after := by
  obtain ⟨c, hBefore, hStart, hLe, hAfter⟩ := tiles_append.mp h.tiles
  exact ⟨tiles_append.mpr ⟨c, hBefore, hStart, hLe, hAfter⟩, h.left, h.right⟩

end Dandelion.Foundation.BoundaryTags
