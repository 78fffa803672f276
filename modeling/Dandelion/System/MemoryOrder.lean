import Dandelion.Foundation.Comparisons
import Dandelion.System.Freestanding

/-! # The order of `memcmp`

`memcmp` finds the first difference of two ranges, and returns how their addresses
are ordered. It is the lexicographic order where the bytes are ordered alike.
-/

namespace Dandelion.System

open Foundation.Comparisons

variable {m m' : Memory} {n k one two : Nat}

section Differences

def range (m : Memory) (start n : Nat) : List Nat :=
  (List.range n).map fun i => (m (start + i)).toNat

theorem range_succ (m : Memory) (start n : Nat) :
    range m start (n + 1) = (m start).toNat :: range m (start + 1) n := by
  rw [range, range, List.range_succ_eq_map, List.map_cons, List.map_map, Nat.add_zero]
  refine congrArg _ (List.map_congr_left fun i _ => ?_)
  rw [Function.comp_apply, Nat.succ_eq_add_one, Nat.add_assoc, Nat.add_comm 1 i]

def DifferAt (m : Memory) (one two i : Nat) : Prop :=
  m (one + i) ≠ m (two + i) ∧ ∀ j < i, m (one + j) = m (two + j)

theorem memcmpLoop_cases (m : Memory) (one two remaining i : Nat)
    (h : ∀ j < i, m (one + j) = m (two + j)) :
    (memcmpLoop m one two remaining i = 0 ∧ ∀ j < i + remaining, m (one + j) = m (two + j)) ∨
      ∃ k < i + remaining, DifferAt m one two k ∧
        memcmpLoop m one two remaining i = if one > two then 1 else -1 := by
  induction remaining generalizing i with
  | zero => exact Or.inl ⟨rfl, h⟩
  | succ remaining ih =>
    rw [memcmpLoop]
    by_cases hDiffer : m (one + i) ≠ m (two + i)
    · exact Or.inr ⟨i, by omega, ⟨hDiffer, h⟩, if_pos hDiffer⟩
    · rw [if_neg hDiffer, show i + (remaining + 1) = i + 1 + remaining by omega]
      refine ih (i + 1) fun j hj => ?_
      rcases Nat.eq_or_lt_of_le (Nat.le_of_lt_succ hj) with rfl | hLt
      · exact not_not.mp hDiffer
      · exact h j hLt

theorem memcmp_cases (m : Memory) (one two n : Nat) :
    (memcmp m one two n = 0 ∧ ∀ j < n, m (one + j) = m (two + j)) ∨
      ∃ k < n, DifferAt m one two k ∧ memcmp m one two n = if one > two then 1 else -1 := by
  have hCases := memcmpLoop_cases m one two n 0 fun j hj => by omega
  rwa [Nat.zero_add] at hCases

theorem range_congr (h : ∀ j < n, m (one + j) = m (two + j)) : range m one n = range m two n :=
  List.map_congr_left fun i hi => by rw [h i (List.mem_range.mp hi)]

theorem signs_range (hk : k < n) (h : DifferAt m one two k) :
    Signs (if m (one + k) < m (two + k) then -1 else 1) (range m one n) (range m two n) := by
  induction k generalizing n one two with
  | zero =>
    obtain ⟨n, rfl⟩ : ∃ k, n = k + 1 := ⟨n - 1, by omega⟩
    rw [range_succ, range_succ]
    exact signs_differ _ _ fun hEq => h.1 (UInt8.toNat_inj.mp hEq)
  | succ k ih =>
    obtain ⟨n, rfl⟩ : ∃ k, n = k + 1 := ⟨n - 1, by omega⟩
    have hAt : ∀ a, a + (k + 1) = a + 1 + k := fun a => by omega
    have hNext : DifferAt m (one + 1) (two + 1) k := by
      refine ⟨?_, fun j hj => ?_⟩
      · rw [← hAt, ← hAt]
        exact h.1
      · have hEq := h.2 (j + 1) (by omega)
        rwa [← Nat.add_assoc, ← Nat.add_assoc, Nat.add_right_comm one,
          Nat.add_right_comm two] at hEq
    rw [range_succ, range_succ, hAt, hAt, show m one = m two from h.2 0 (Nat.succ_pos k)]
    exact signs_cons.mpr (ih (by omega) hNext)

end Differences

section Law

/-- Where the ranges differ first, the order of the bytes is that of the addresses. -/
def OrderedAlike (m : Memory) (one two n : Nat) : Prop :=
  ∀ k < n, DifferAt m one two k → (m (one + k) < m (two + k) ↔ one < two)

/-- The result is the lexicographic order of the bytes. -/
def ComparesBytes (m : Memory) (one two n : Nat) : Prop :=
  Signs (memcmp m one two n) (range m one n) (range m two n)

theorem DifferAt.unique {i : Nat} (hk : DifferAt m one two k) (hi : DifferAt m one two i) :
    k = i := by
  rcases Nat.lt_trichotomy k i with hLt | hEq | hLt
  · exact absurd (hi.2 k hLt) hk.1
  · exact hEq
  · exact absurd (hk.2 i hLt) hi.1

theorem comparesBytes_iff : ComparesBytes m one two n ↔ OrderedAlike m one two n := by
  rcases memcmp_cases m one two n with ⟨hZero, hSame⟩ | ⟨k, hk, hDiffer, hResult⟩
  · refine iff_of_true ?_ fun k hk hDiffer => absurd (hSame k hk) hDiffer.1
    rw [ComparesBytes, hZero, range_congr hSame]
    exact signs_equal _
  · have hAddresses : one ≠ two := fun hEq => hDiffer.1 (by rw [hEq])
    have hSigns := signs_range hk hDiffer
    have hOrder : OrderedAlike m one two n ↔ (m (one + k) < m (two + k) ↔ one < two) :=
      ⟨fun h => h k hk hDiffer, fun h i _ hi => hDiffer.unique hi ▸ h⟩
    rw [hOrder, ComparesBytes, hResult]
    by_cases hBytes : m (one + k) < m (two + k)
    · rw [if_pos hBytes] at hSigns
      have hLess := hSigns.1.mp (by decide)
      rw [iff_true_left hBytes]
      constructor
      · intro hLaw
        by_contra hNot
        rw [if_pos (by omega)] at hLaw
        exact absurd (hLaw.1.mpr hLess) (by decide)
      · intro hLt
        rwa [if_neg (by omega)]
    · rw [if_neg hBytes] at hSigns
      have hMore := hSigns.2.2.mp (by decide)
      rw [iff_false_left hBytes]
      constructor
      · intro hLaw hLt
        rw [if_neg (by omega)] at hLaw
        exact absurd (hLaw.2.2.mpr hMore) (by decide)
      · intro hNot
        rwa [if_pos (by omega)]

theorem memcmp_comm (m : Memory) (one two n : Nat) : memcmp m two one n = -memcmp m one two n := by
  rcases memcmp_cases m one two n with ⟨hZero, hSame⟩ | ⟨k, hk, hDiffer, hResult⟩
  · rcases memcmp_cases m two one n with ⟨hZero', -⟩ | ⟨i, hi, hDiffer', -⟩
    · rw [hZero, hZero']
      rfl
    · exact absurd (hSame i hi).symm hDiffer'.1
  · have hAddresses : one ≠ two := fun hEq => hDiffer.1 (by rw [hEq])
    rcases memcmp_cases m two one n with ⟨-, hSame⟩ | ⟨i, hi, -, hResult'⟩
    · exact absurd (hSame k hk).symm hDiffer.1
    · rw [hResult, hResult']
      split <;> split <;> omega

theorem memcmp_eq_zero_iff : memcmp m one two n = 0 ↔ range m one n = range m two n := by
  rcases memcmp_cases m one two n with ⟨hZero, hSame⟩ | ⟨k, hk, hDiffer, hResult⟩
  · exact iff_of_true hZero (range_congr hSame)
  · have hSigns := signs_range hk hDiffer
    refine iff_of_false ?_ fun hEq => ?_
    · rw [hResult]
      split <;> decide
    · have hNone := hSigns.2.1.mpr hEq
      split at hNone
      · exact absurd hNone (by decide)
      · exact absurd hNone (by decide)

theorem memcmp_bounds (m : Memory) (one two n : Nat) :
    -1 ≤ memcmp m one two n ∧ memcmp m one two n ≤ 1 := by
  rcases memcmp_cases m one two n with ⟨hZero, -⟩ | ⟨k, -, -, hResult⟩
  · rw [hZero]
    decide
  · rw [hResult]
    split <;> decide

theorem ComparesBytes.congr {one' two' : Nat} (h : ComparesBytes m one two n)
    (h' : ComparesBytes m' one' two' n) (hOne : range m' one' n = range m one n)
    (hTwo : range m' two' n = range m two n) :
    memcmp m' one' two' n = memcmp m one two n := by
  rw [ComparesBytes, hOne, hTwo] at h'
  have hLess := h.1.trans h'.1.symm
  have hMore := h.2.2.trans h'.2.2.symm
  have hBounds := memcmp_bounds m one two n
  have hBounds' := memcmp_bounds m' one' two' n
  omega

/-- Any two ranges of equal length: the result is zero where they are equal, the two results have
opposite signs, and the sign is that of the bytes where the addresses are ordered as the bytes are.
Among ranges that are compared so, only the contents count and the order is transitive. -/
theorem memcmp_lexicographic_iff (m : Memory) (one two n : Nat) :
    (ComparesBytes m one two n ↔ OrderedAlike m one two n) ∧
    (memcmp m one two n = 0 ↔ range m one n = range m two n) ∧
      memcmp m two one n = -memcmp m one two n ∧
    (∀ m' one' two', range m' one' n = range m one n → range m' two' n = range m two n →
      OrderedAlike m one two n → OrderedAlike m' one' two' n →
        memcmp m' one' two' n = memcmp m one two n) ∧
    ∀ three, OrderedAlike m one two n → OrderedAlike m two three n → OrderedAlike m one three n →
      memcmp m one two n ≤ 0 → memcmp m two three n ≤ 0 → memcmp m one three n ≤ 0 ∧
        (memcmp m one three n = 0 → memcmp m one two n = 0 ∧ memcmp m two three n = 0) := by
  refine ⟨comparesBytes_iff, memcmp_eq_zero_iff, memcmp_comm m one two n, ?_, ?_⟩
  · intro m' one' two' hOne hTwo h h'
    exact (comparesBytes_iff.mpr h).congr (comparesBytes_iff.mpr h') hOne hTwo
  · intro three h12 h23 h13 hFirst hSecond
    exact (comparesBytes_iff.mpr h12).trans (comparesBytes_iff.mpr h23)
      (comparesBytes_iff.mpr h13) hFirst hSecond

/-- The byte at address zero is the larger one, and `memcmp` finds it smaller. The ranges at zero
and at two are equal, and it finds the one between them above the first and below the last. -/
theorem memcmp_lexicographic_fails : ∃ m : Memory, m 0 > m 1 ∧ memcmp m 0 1 1 = -1 ∧
    ¬ ComparesBytes m 0 1 1 ∧
    memcmp m 1 2 1 = -1 ∧ memcmp m 0 2 1 = 0 := by
  refine ⟨fun a => if a = 1 then 0 else 1, by decide, by decide, ?_, by decide, by decide⟩
  rw [comparesBytes_iff]
  intro hAlike
  exact absurd ((hAlike 0 (by decide) ⟨by decide, fun j hj => by omega⟩).mpr (by decide))
    (by decide)

end Law

end Dandelion.System
