import Dandelion.Foundation.Words
import Dandelion.FileSystem.Paths

/-! # Paths as pointers and lengths

The functions of `paths.c` on what they are given: an index into a string and a
length. A read outside the string ends them without a result. Iterating
`get_component_advance` visits the components from left to right.
-/

namespace Dandelion.FileSystem

open Foundation.Words

/-- A pointer into a string, as the index it points to, and a length. -/
structure Slice where
  path : Nat
  length : Nat
  deriving DecidableEq

variable {text : List UInt8} {test : UInt8 → Bool} {p q : Slice} {start remaining index : Nat}

section Functions

/-- Count up from `index` while the bytes satisfy the test, with `remaining` indices up to the
bound. -/
def countWhile (text : List UInt8) (test : UInt8 → Bool) (start : Nat) : Nat → Nat → Option Nat
  | 0, index => some index
  | remaining + 1, index => do
    let c ← text[start + index]?
    if test c then countWhile text test start remaining (index + 1) else some index

namespace Slice

def getNextComponent (text : List UInt8) (p : Slice) : Option Slice := do
  let skipped ← countWhile text (· = slash) p.path p.length 0
  let newPath := p.path + skipped
  let newLength := p.length - skipped
  let index ← countWhile text (· ≠ slash) newPath newLength 0
  some ⟨newPath, index⟩

def getComponentAdvance (text : List UInt8) (p : Slice) : Option (Slice × Slice) := do
  let newComponent ← getNextComponent text p
  let newEnd := newComponent.path + newComponent.length
  some (newComponent, ⟨newEnd, p.path + p.length - newEnd⟩)

/-- What the calls of `get_component_advance` return up to the first empty component, that one
included. `none` stands for a read outside the string or for more than the given rounds. -/
def advances (text : List UInt8) : Nat → Slice → Option (List (Slice × Slice))
  | 0, _ => none
  | rounds + 1, p => do
    let r ← getComponentAdvance text p
    if r.1.length = 0 then some [r] else (r :: ·) <$> advances text rounds r.2

end Slice

/-- The loop of `get_directories`: the index of the last slash so far is kept in an `int`. -/
def lastSlashFrom (text : List UInt8) (start : Nat) : Nat → Nat → Int → Option Int
  | 0, _, last => some last
  | remaining + 1, index, last => do
    let c ← text[start + index]?
    lastSlashFrom text start remaining (index + 1) (if c = slash then toInt32 index else last)

/-- Count down from an index while the bytes satisfy the test, stopping at zero. -/
def countDownFrom (text : List UInt8) (test : UInt8 → Bool) (start : Nat) : Nat → Option Nat
  | 0 => some 0
  | index + 1 => do
    let c ← text[start + (index + 1)]?
    if test c then countDownFrom text test start index else some (index + 1)

namespace Slice

def getDirectories (text : List UInt8) (p : Slice) : Option Slice := do
  let lastSlash ← lastSlashFrom text p.path p.length 0 (-1)
  some ⟨p.path, (if lastSlash > 0 then lastSlash else 0).toNat⟩

/-- On an empty path the first index is in front of the string. -/
def getFile (text : List UInt8) (p : Slice) : Option Slice :=
  if p.length = 0 then none
  else do
    let fileStart ← countDownFrom text (· = slash) p.path (p.length - 1)
    let fileStart ← countDownFrom text (· ≠ slash) p.path fileStart
    let c ← text[p.path + fileStart]?
    let fileStart := if c = slash then fileStart + 1 else fileStart
    some ⟨p.path + fileStart, p.length - fileStart⟩

def bytes (text : List UInt8) (p : Slice) : List UInt8 := (text.drop p.path).take p.length

end Slice

end Functions

section Counting

theorem countWhile_spec (test : UInt8 → Bool) (h : start + index + remaining ≤ text.length) :
    ∃ k, countWhile text test start remaining index = some (index + k) ∧ k ≤ remaining ∧
      (∀ j, start + index ≤ j → j < start + index + k → ∃ c, text[j]? = some c ∧ test c = true) ∧
      (k < remaining → ∃ c, text[start + index + k]? = some c ∧ test c = false) := by
  induction remaining generalizing index with
  | zero => exact ⟨0, rfl, Nat.le_refl 0, fun j hLow hHigh => by omega, fun h => by omega⟩
  | succ remaining ih =>
    obtain ⟨c, hc⟩ : ∃ c, text[start + index]? = some c := ⟨_, List.getElem?_eq_getElem (by omega)⟩
    have hRun : countWhile text test start (remaining + 1) index =
        if test c then countWhile text test start remaining (index + 1) else some index := by
      rw [countWhile, hc]
      rfl
    rw [hRun]
    cases hTest : test c with
    | false => exact ⟨0, rfl, Nat.zero_le _, fun j hLow hHigh => by omega, fun _ => ⟨c, hc, hTest⟩⟩
    | true =>
      obtain ⟨k, hk, hLe, hAll, hStop⟩ := @ih (index + 1) (by omega)
      refine ⟨k + 1, ?_, by omega, fun j hLow hHigh => ?_, fun hLt => ?_⟩
      · rw [if_pos rfl, hk, Nat.add_right_comm index 1 k, Nat.add_assoc index k 1]
      · rcases Nat.eq_or_lt_of_le hLow with rfl | hLt
        · exact ⟨c, hc, hTest⟩
        · exact hAll j (by omega) (by omega)
      · have hNext := hStop (by omega)
        rwa [show start + (index + 1) + k = start + index + (k + 1) by omega] at hNext

end Counting

section Components

def Slice.Ends (text : List UInt8) (p : Slice) : Prop := p.path + p.length = text.length

/-- A substring that is not empty, has no slash and cannot be made longer. -/
structure Slice.Maximal (text : List UInt8) (q : Slice) : Prop where
  nonempty : 0 < q.length
  inside : q.path + q.length ≤ text.length
  plain : ∀ j, q.path ≤ j → j < q.path + q.length → text[j]? ≠ some slash
  left : q.path = 0 ∨ text[q.path - 1]? = some slash
  right : q.path + q.length = text.length ∨ text[q.path + q.length]? = some slash

def Boundary (text : List UInt8) (i : Nat) : Prop :=
  i = 0 ∨ text[i - 1]? = some slash ∨ i = text.length ∨ text[i]? = some slash

/-- What one call does: it skips slashes, and the component goes on to a slash or to the end. -/
structure Steps (text : List UInt8) (p q rest : Slice) : Prop where
  ahead : p.path ≤ q.path
  skipped : ∀ j, p.path ≤ j → j < q.path → text[j]? = some slash
  inside : q.path + q.length ≤ text.length
  plain : ∀ j, q.path ≤ j → j < q.path + q.length → text[j]? ≠ some slash
  right : q.path + q.length = text.length ∨ text[q.path + q.length]? = some slash
  last : q.length = 0 → q.path = text.length
  onward : rest.path = q.path + q.length
  ends : rest.Ends text

theorem getComponentAdvance_steps (hp : p.Ends text) :
    ∃ q rest, p.getComponentAdvance text = some (q, rest) ∧ Steps text p q rest := by
  have hEnds : p.path + p.length = text.length := hp
  obtain ⟨i, hi, hiLe, hSkipped, hiStop⟩ := countWhile_spec (fun c => decide (c = slash))
    (show p.path + 0 + p.length ≤ text.length by omega)
  obtain ⟨k, hk, hkLe, hPlain, hkStop⟩ := countWhile_spec (fun c => decide (c ≠ slash))
    (show p.path + i + 0 + (p.length - i) ≤ text.length by omega)
  rw [Nat.zero_add] at hi hk
  have hRun : p.getComponentAdvance text =
      some (⟨p.path + i, k⟩, ⟨p.path + i + k, p.path + p.length - (p.path + i + k)⟩) := by
    rw [Slice.getComponentAdvance, Slice.getNextComponent, hi]
    simp only [Option.bind_eq_bind, Option.bind_some, hk]
  refine ⟨_, _, hRun, Nat.le_add_right _ _, fun j hLow hHigh => ?_, ?_,
    fun j hLow hHigh hSlash => ?_, ?_, fun hZero => ?_, rfl, ?_⟩
  · obtain ⟨c, hc, hTest⟩ := hSkipped j hLow hHigh
    rw [hc, of_decide_eq_true hTest]
  · show p.path + i + k ≤ text.length
    omega
  · obtain ⟨c, hc, hTest⟩ := hPlain j hLow hHigh
    rw [hSlash] at hc
    exact of_decide_eq_true hTest (Option.some.inj hc).symm
  · rcases Nat.lt_or_ge k (p.length - i) with hLt | hGe
    · obtain ⟨c, hc, hTest⟩ := hkStop hLt
      refine Or.inr (hc.trans (congrArg some ?_))
      exact not_not.mp (of_decide_eq_false hTest)
    · exact Or.inl (show p.path + i + k = text.length by omega)
  · -- a component without bytes starts neither at a slash nor at another byte
    obtain rfl : k = 0 := hZero
    show p.path + i = text.length
    by_contra hne
    obtain ⟨c, hc, hTest⟩ := hiStop (by omega)
    obtain ⟨c', hc', hTest'⟩ := hkStop (by omega)
    obtain rfl : c = c' := Option.mem_unique hc hc'
    exact of_decide_eq_false hTest (not_not.mp (of_decide_eq_false hTest'))
  · show p.path + i + k + (p.path + p.length - (p.path + i + k)) = text.length
    omega

theorem Steps.boundary {rest : Slice} (h : Steps text p q rest) : Boundary text rest.path := by
  rw [h.onward]
  exact Or.inr (Or.inr h.right)

theorem Steps.maximal {rest : Slice} (h : Steps text p q rest) (hp : Boundary text p.path)
    (hq : 0 < q.length) :
    q.Maximal text := by
  refine ⟨hq, h.inside, h.plain, ?_, h.right⟩
  rcases Nat.eq_or_lt_of_le h.ahead with hEq | hLt
  · rw [hEq] at hp
    have hInside := h.inside
    rcases hp with hZero | hSlash | hEnd | hSlash
    · exact Or.inl hZero
    · exact Or.inr hSlash
    · omega
    · exact absurd hSlash (h.plain _ (Nat.le_refl _) (by omega))
  · exact Or.inr (h.skipped _ (by omega) (by omega))

theorem Steps.cases {rest s : Slice} (h : Steps text p q rest) (hs : s.Maximal text)
    (hLow : p.path ≤ s.path) :
    s = q ∨ rest.path < s.path := by
  have hNonempty := hs.nonempty
  have hNotBefore : q.path ≤ s.path := by
    by_contra hLt
    exact hs.plain s.path (Nat.le_refl _) (by omega) (h.skipped _ hLow (by omega))
  rw [h.onward]
  rcases Nat.lt_or_ge s.path (q.path + q.length) with hIn | hBehind
  · -- both start at the same place, and both stop at the first slash
    have hStart : s.path = q.path := by
      rcases hs.left with hZero | hSlash
      · omega
      · by_contra hne
        exact h.plain (s.path - 1) (by omega) (by omega) hSlash
    have hLength : s.length = q.length := by
      have hInside := h.inside
      have hInside' := hs.inside
      rcases Nat.lt_trichotomy s.length q.length with hLt | hEq | hGt
      · rcases hs.right with hEnd | hSlash
        · omega
        · exact absurd hSlash (h.plain _ (by omega) (by omega))
      · exact hEq
      · rcases h.right with hEnd | hSlash
        · omega
        · exact absurd hSlash (hs.plain _ (by omega) (by omega))
    obtain ⟨i, n⟩ := s
    obtain ⟨j, k⟩ := q
    cases hStart
    cases hLength
    exact Or.inl rfl
  · refine Or.inr ?_
    rcases Nat.eq_or_lt_of_le hBehind with hEq | hLt
    · have hInside := hs.inside
      rcases h.right with hEnd | hSlash
      · omega
      · rw [hEq] at hSlash
        exact absurd hSlash (hs.plain _ (Nat.le_refl _) (by omega))
    · exact hLt

theorem advances_succ {rest : Slice} (h : p.getComponentAdvance text = some (q, rest))
    (rounds : Nat) :
    p.advances text (rounds + 1) =
      if q.length = 0 then some [(q, rest)]
        else ((q, rest) :: ·) <$> rest.advances text rounds := by
  rw [Slice.advances, h]
  rfl

theorem advances_spec {rounds : Nat} (hp : p.Ends text) (hBoundary : Boundary text p.path)
    (h : p.length < rounds) :
    ∃ l last, p.advances text rounds = some (l ++ [last]) ∧ last.1.length = 0 ∧
      (∀ r ∈ l ++ [last], r.1.path + r.1.length ≤ text.length ∧ r.2.Ends text) ∧
      (l.map Prod.fst).Pairwise (fun a b => a.path + a.length < b.path) ∧
      ∀ s : Slice, s ∈ l.map Prod.fst ↔ s.Maximal text ∧ p.path ≤ s.path := by
  induction rounds generalizing p with
  | zero => omega
  | succ rounds ih =>
    obtain ⟨q, rest, hRun, hStep⟩ := getComponentAdvance_steps hp
    have hNext := advances_succ hRun rounds
    by_cases hZero : q.length = 0
    · refine ⟨[], (q, rest), by rw [hNext, if_pos hZero]; rfl, hZero, ?_, List.Pairwise.nil,
        fun s => ?_⟩
      · rintro r (_ | ⟨_, hr⟩)
        · exact ⟨hStep.inside, hStep.ends⟩
        · cases hr
      · refine ⟨fun hs => (by cases hs), fun hs => ?_⟩
        have hNonempty := hs.1.nonempty
        have hInside := hs.1.inside
        have hLast := hStep.last hZero
        rcases hStep.cases hs.1 hs.2 with rfl | hBehind
        · omega
        · rw [hStep.onward] at hBehind
          omega
    · have hEnds : p.path + p.length = text.length := hp
      have hRest : rest.path + rest.length = text.length := hStep.ends
      have hAhead := hStep.ahead
      have hOnward := hStep.onward
      obtain ⟨l, last, hl, hLast, hInside, hSorted, hMem⟩ :=
        ih (p := rest) hStep.ends hStep.boundary (by omega)
      refine ⟨(q, rest) :: l, last, by rw [hNext, if_neg hZero, hl]; rfl, hLast, ?_, ?_,
        fun s => ?_⟩
      · rintro r (_ | ⟨_, hr⟩)
        · exact ⟨hStep.inside, hStep.ends⟩
        · exact hInside r hr
      · refine List.pairwise_cons.mpr ⟨fun s hs => ?_, hSorted⟩
        obtain ⟨hMax, hLow⟩ := (hMem s).mp hs
        rcases hStep.cases hMax (by omega) with rfl | hBehind
        · omega
        · rwa [hOnward] at hBehind
      · rw [List.map_cons, List.mem_cons, hMem]
        constructor
        · rintro (rfl | ⟨hMax, hLow⟩)
          · exact ⟨hStep.maximal hBoundary (Nat.pos_of_ne_zero hZero), hAhead⟩
          · exact ⟨hMax, by omega⟩
        · rintro ⟨hMax, hLow⟩
          rcases hStep.cases hMax hLow with rfl | hBehind
          · exact Or.inl rfl
          · exact Or.inr ⟨hMax, Nat.le_of_lt hBehind⟩

/-- The iteration over any string ends, stays inside the string, and its components are the
maximal substrings without a slash, in their order. -/
theorem component_enumeration (text : List UInt8) :
    ∃ l last, Slice.advances text (text.length + 1) ⟨0, text.length⟩ = some (l ++ [last]) ∧
      last.1.length = 0 ∧
      (∀ r ∈ l ++ [last], r.1.path + r.1.length ≤ text.length ∧ r.2.Ends text) ∧
      (l.map Prod.fst).Pairwise (fun a b => a.path + a.length < b.path) ∧
      ∀ s : Slice, s ∈ l.map Prod.fst ↔ s.Maximal text := by
  have hWhole : Slice.Ends text ⟨0, text.length⟩ := Nat.zero_add _
  obtain ⟨l, last, hRun, hLast, hInside, hSorted, hMem⟩ :=
    advances_spec hWhole (Or.inl rfl) (Nat.lt_succ_self text.length)
  refine ⟨l, last, hRun, hLast, hInside, hSorted, fun s => ?_⟩
  rw [hMem]
  exact and_iff_left (Nat.zero_le _)

end Components

end Dandelion.FileSystem
