import Mathlib.Data.List.Chain
import Mathlib.Data.List.Pairwise
import Mathlib.Tactic.Linarith

/-! # Labelled tilings of an index range

A list of spans tiles `[a, b)` when each span begins where the previous one
ended. A span of a tiling can be cut up, and neighbours can be fused, without
disturbing the spans around them.
-/

namespace Dandelion.Foundation.Tiling

set_option autoImplicit false

universe u

variable {α : Type u}

/-- A non-empty index range with both ends included. -/
structure Span (α : Type u) where
  start : Nat
  stop : Nat
  label : α
  deriving DecidableEq

def Tiles : Nat → Nat → List (Span α) → Prop
  | a, b, [] => a = b
  | a, b, s :: l => s.start = a ∧ s.start ≤ s.stop ∧ Tiles (s.stop + 1) b l

@[simp] theorem tiles_nil {a b : Nat} : Tiles a b ([] : List (Span α)) ↔ a = b := Iff.rfl

@[simp] theorem tiles_cons {a b : Nat} {s : Span α} {l : List (Span α)} :
    Tiles a b (s :: l) ↔ s.start = a ∧ s.start ≤ s.stop ∧ Tiles (s.stop + 1) b l := Iff.rfl

theorem tiles_append {a c : Nat} {l r : List (Span α)} :
    Tiles a c (l ++ r) ↔ ∃ b, Tiles a b l ∧ Tiles b c r := by
  induction l generalizing a with
  | nil => simp
  | cons s l ih =>
    rw [List.cons_append, tiles_cons, ih]
    constructor
    · rintro ⟨hStart, hLe, b, hLeft, hRight⟩
      exact ⟨b, ⟨hStart, hLe, hLeft⟩, hRight⟩
    · rintro ⟨b, ⟨hStart, hLe, hLeft⟩, hRight⟩
      exact ⟨hStart, hLe, b, hLeft, hRight⟩

theorem Tiles.le {a b : Nat} {l : List (Span α)} (h : Tiles a b l) : a ≤ b := by
  induction l generalizing a with
  | nil => exact Nat.le_of_eq h
  | cons s l ih =>
    obtain ⟨rfl, hLe, hRest⟩ := h
    have := ih hRest
    omega

theorem Tiles.length_le {a b : Nat} {l : List (Span α)} (h : Tiles a b l) : a + l.length ≤ b := by
  induction l generalizing a with
  | nil => exact Nat.le_of_eq h
  | cons s l ih =>
    obtain ⟨rfl, hLe, hRest⟩ := h
    have := ih hRest
    simp only [List.length_cons]
    omega

theorem Tiles.bounds {a b : Nat} {l : List (Span α)} (h : Tiles a b l) {s : Span α} (hs : s ∈ l) :
    a ≤ s.start ∧ s.start ≤ s.stop ∧ s.stop < b := by
  induction l generalizing a with
  | nil => cases hs
  | cons t l ih =>
    obtain ⟨rfl, hLe, hRest⟩ := h
    have hLast := hRest.le
    rcases List.mem_cons.mp hs with rfl | hs
    · omega
    · have := ih hRest hs
      omega

theorem Tiles.eq_of_overlap {a b : Nat} {l : List (Span α)} (h : Tiles a b l) {s t : Span α}
    (hs : s ∈ l) (ht : t ∈ l) (hLeft : s.start ≤ t.stop) (hRight : t.start ≤ s.stop) : s = t := by
  induction l generalizing a with
  | nil => cases hs
  | cons u l ih =>
    obtain ⟨_, _, hRest⟩ := h
    rcases List.mem_cons.mp hs with hsu | hsl <;> rcases List.mem_cons.mp ht with htu | htl
    · exact hsu.trans htu.symm
    · have hBound := hRest.bounds htl
      rw [hsu] at hRight
      omega
    · have hBound := hRest.bounds hsl
      rw [htu] at hLeft
      omega
    · exact ih hRest hsl htl

theorem Tiles.disjoint {a b : Nat} {l : List (Span α)} (h : Tiles a b l) {s t : Span α}
    (hs : s ∈ l) (ht : t ∈ l) (hne : s ≠ t) : s.stop < t.start ∨ t.stop < s.start := by
  by_contra hOverlap
  exact hne (h.eq_of_overlap hs ht (by omega) (by omega))

theorem Tiles.replace {a b : Nat} {before after middle : List (Span α)} {s : Span α}
    (h : Tiles a b (before ++ s :: after)) (hMiddle : Tiles s.start (s.stop + 1) middle) :
    Tiles a b (before ++ (middle ++ after)) := by
  obtain ⟨c, hBefore, hStart, hLe, hAfter⟩ := tiles_append.mp h
  exact tiles_append.mpr ⟨c, hBefore, tiles_append.mpr ⟨s.stop + 1, hStart ▸ hMiddle, hAfter⟩⟩

theorem Tiles.before {a b : Nat} {before after : List (Span α)} {s : Span α}
    (h : Tiles a b (before ++ s :: after)) : Tiles a s.start before := by
  obtain ⟨c, hBefore, hStart, _⟩ := tiles_append.mp h
  rwa [hStart]

theorem Tiles.after {a b : Nat} {before after : List (Span α)} {s : Span α}
    (h : Tiles a b (before ++ s :: after)) : Tiles (s.stop + 1) b after := by
  obtain ⟨c, _, _, _, hAfter⟩ := tiles_append.mp h
  exact hAfter

theorem Tiles.exists_last {a b : Nat} {l : List (Span α)} (h : Tiles a b l) (hab : a < b) :
    ∃ before s, l = before ++ [s] ∧ s.stop + 1 = b := by
  rcases List.eq_nil_or_concat l with rfl | ⟨before, s, rfl⟩
  · exact absurd (tiles_nil.mp h) (by omega)
  · obtain ⟨c, _, _, _, hEnd⟩ := tiles_append.mp (by simpa using h)
    exact ⟨before, s, by simp, hEnd⟩

theorem Tiles.exists_previous {a b : Nat} {before after : List (Span α)} {s : Span α}
    (h : Tiles a b (before ++ s :: after)) (hs : a < s.start) :
    ∃ front p, before = front ++ [p] ∧ p.stop + 1 = s.start :=
  h.before.exists_last hs

theorem Tiles.map {β : Type u} {f : Span α → Span β}
    (hf : ∀ s, (f s).start = s.start ∧ (f s).stop = s.stop) {a b : Nat} {l : List (Span α)}
    (h : Tiles a b l) : Tiles a b (l.map f) := by
  induction l generalizing a with
  | nil => exact h
  | cons s l ih =>
    obtain ⟨hStart, hLe, hRest⟩ := h
    obtain ⟨hfStart, hfStop⟩ := hf s
    exact ⟨hfStart.trans hStart, by rw [hfStart, hfStop]; exact hLe, by rw [hfStop]; exact ih hRest⟩

theorem Tiles.starts_increasing {a b : Nat} {l : List (Span α)} (h : Tiles a b l) :
    (l.map Span.start).Pairwise (· < ·) := by
  induction l generalizing a with
  | nil => exact .nil
  | cons s l ih =>
    obtain ⟨_, hLe, hRest⟩ := h
    refine List.Pairwise.cons ?_ (ih hRest)
    intro n hn
    obtain ⟨t, ht, rfl⟩ := List.mem_map.mp hn
    have hBounds := hRest.bounds ht
    omega

/-- No two neighbouring spans satisfy the predicate together. -/
def Sparse (p : α → Prop) (l : List (Span α)) : Prop :=
  l.IsChain (fun s t => ¬ (p s.label ∧ p t.label))

theorem Sparse.eq_single {p : α → Prop} {a b : Nat} {l : List (Span α)} (h : Sparse p l)
    (hTiles : Tiles a b l) (hab : a < b) (hAll : ∀ s ∈ l, p s.label) :
    ∃ s, l = [s] ∧ s.start = a ∧ s.stop + 1 = b := by
  match l, hTiles, h, hAll with
  | [], hTiles, _, _ => exact absurd (tiles_nil.mp hTiles) (by omega)
  | [s], hTiles, _, _ => exact ⟨s, rfl, hTiles.1, hTiles.2.2⟩
  | s :: t :: l, _, h, hAll =>
    exact absurd ⟨hAll s (by simp), hAll t (by simp)⟩ (List.isChain_cons_cons.mp h).1

end Dandelion.Foundation.Tiling
