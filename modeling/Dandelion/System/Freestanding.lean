import Mathlib.Logic.Function.Basic
import Dandelion.Foundation.Words

/-! # The freestanding memory functions

`memcpy` copies words and then bytes, always upwards. `memmove` copies downwards
where the destination starts inside the source, and decides that with an `int`.
`memcmp` compares bytes, but what it returns where they differ is the order of
the two addresses.
-/

namespace Dandelion.System

open Foundation.Words

abbrev Memory := Nat → UInt8

variable {m : Memory} {dest src n w k e a : Nat}

section Functions

def copyUnit (w : Nat) (m : Memory) (dest src : Nat) : Memory := fun a =>
  if dest ≤ a ∧ a < dest + w then m (src + (a - dest)) else m a

def copyUnits (w : Nat) : Nat → Memory → Nat → Nat → Memory
  | 0, m, _, _ => m
  | units + 1, m, dest, src => copyUnits w units (copyUnit w m dest src) (dest + w) (src + w)

def pointerSize : Nat := 8

def memcpy (m : Memory) (dest src n : Nat) : Memory :=
  let toCopy := pointerSize * (n / pointerSize)
  copyUnits 1 (n - toCopy) (copyUnits pointerSize (n / pointerSize) m dest src) (dest + toCopy)
    (src + toCopy)

/-- Copy the bytes below an index, the last one first. -/
def copyBack : Nat → Memory → Nat → Nat → Memory
  | 0, m, _, _ => m
  | i + 1, m, dest, src => copyBack i (Function.update m (dest + i) (m (src + i))) dest src

/-- The size is narrowed to an `int` in the test and in the start of the loop. The difference of the
pointers is exact: it is one of type `ptrdiff_t` or not defined. -/
def memmove (m : Memory) (dest src n : Nat) : Memory :=
  if src = dest ∨ n = 0 then m
  else if dest > src ∧ ((dest - src : Nat) : Int) < toInt32 n then
    copyBack (toInt32 ((n - 1 : Nat) : Int) + 1).toNat m dest src
  else memcpy m dest src n

/-- The loop of `memcmp` from an index on. The pointers are compared, not the bytes. -/
def memcmpLoop (m : Memory) (one two : Nat) : Nat → Nat → Int
  | 0, _ => 0
  | remaining + 1, i =>
    if m (one + i) ≠ m (two + i) then if one > two then 1 else -1
      else memcmpLoop m one two remaining (i + 1)

def memcmp (m : Memory) (one two n : Nat) : Int := memcmpLoop m one two n 0

end Functions

section Copying

theorem copyUnit_inside (he : e < w) : copyUnit w m dest src (dest + e) = m (src + e) := by
  rw [copyUnit, if_pos ⟨Nat.le_add_right _ _, by omega⟩, Nat.add_sub_cancel_left]

theorem copyUnit_outside (h : a < dest ∨ dest + w ≤ a) : copyUnit w m dest src a = m a :=
  if_neg (by omega)

theorem copyUnits_outside (h : a < dest ∨ dest + w * k ≤ a) : copyUnits w k m dest src a = m a := by
  induction k generalizing m dest src with
  | zero => rfl
  | succ k ih =>
    rw [Nat.mul_succ] at h
    rw [copyUnits, ih (by omega)]
    exact copyUnit_outside (by omega)

theorem copyUnits_inside (he : e < w * k) (hSource : ∀ i < e, dest + i ≠ src + e) :
    copyUnits w k m dest src (dest + e) = m (src + e) := by
  induction k generalizing m dest src e with
  | zero => omega
  | succ k ih =>
    rw [Nat.mul_succ] at he
    rw [copyUnits]
    rcases Nat.lt_or_ge e w with hFirst | hLater
    · rw [copyUnits_outside (by omega)]
      exact copyUnit_inside hFirst
    · obtain ⟨j, rfl⟩ := Nat.exists_eq_add_of_le hLater
      have hNext : copyUnits w k (copyUnit w m dest src) (dest + w) (src + w) (dest + w + j) =
          copyUnit w m dest src (src + w + j) := by
        refine ih (by omega) fun i hi => ?_
        have hne := hSource (w + i) (by omega)
        omega
      rw [← Nat.add_assoc, hNext, Nat.add_assoc src]
      refine copyUnit_outside ?_
      by_contra hIn
      exact hSource (src + (w + j) - dest) (by omega) (by omega)

theorem memcpy_split (n : Nat) : pointerSize * (n / pointerSize) ≤ n := Nat.mul_div_le n pointerSize

theorem memcpy_outside (h : a < dest ∨ dest + n ≤ a) : memcpy m dest src n a = m a := by
  have hLe := memcpy_split n
  rw [memcpy, copyUnits_outside (by omega), copyUnits_outside (by omega)]

theorem memcpy_inside (he : e < n) (hSource : ∀ i < e, dest + i ≠ src + e) :
    memcpy m dest src n (dest + e) = m (src + e) := by
  have hLe := memcpy_split n
  rw [memcpy]
  rcases Nat.lt_or_ge e (pointerSize * (n / pointerSize)) with hWord | hByte
  · rw [copyUnits_outside (by omega)]
    exact copyUnits_inside hWord hSource
  · obtain ⟨j, rfl⟩ := Nat.exists_eq_add_of_le hByte
    rw [← Nat.add_assoc, copyUnits_inside (by omega) fun i hi => by
      have hne := hSource (pointerSize * (n / pointerSize) + i) (by omega)
      omega]
    rw [Nat.add_assoc]
    refine copyUnits_outside ?_
    by_contra hIn
    exact hSource (src + (pointerSize * (n / pointerSize) + j) - dest) (by omega) (by omega)

theorem memcpy_first (h : pointerSize ≤ n) : memcpy m dest src n =
    memcpy (copyUnit pointerSize m dest src) (dest + pointerSize) (src + pointerSize)
      (n - pointerSize) := by
  have hDiv : n / pointerSize = (n - pointerSize) / pointerSize + 1 :=
    Nat.div_eq_sub_div (by decide) h
  have hLe := memcpy_split (n - pointerSize)
  rw [memcpy, memcpy, hDiv, Nat.mul_succ, copyUnits,
    show n - (pointerSize * ((n - pointerSize) / pointerSize) + pointerSize) =
      n - pointerSize - pointerSize * ((n - pointerSize) / pointerSize) by omega,
    show dest + (pointerSize * ((n - pointerSize) / pointerSize) + pointerSize) =
      dest + pointerSize + pointerSize * ((n - pointerSize) / pointerSize) by omega,
    show src + (pointerSize * ((n - pointerSize) / pointerSize) + pointerSize) =
      src + pointerSize + pointerSize * ((n - pointerSize) / pointerSize) by omega]

theorem copyBack_outside (h : a < dest ∨ dest + k ≤ a) : copyBack k m dest src a = m a := by
  induction k generalizing m with
  | zero => rfl
  | succ k ih => rw [copyBack, ih (by omega), Function.update_of_ne (by omega)]

theorem copyBack_inside (hUp : src < dest) (he : e < k) :
    copyBack k m dest src (dest + e) = m (src + e) := by
  induction k generalizing m with
  | zero => omega
  | succ k ih =>
    rw [copyBack]
    rcases Nat.eq_or_lt_of_le (Nat.le_of_lt_succ he) with rfl | hLt
    · rw [copyBack_outside (by omega), Function.update_self]
    · rw [ih hLt, Function.update_of_ne (by omega)]

end Copying

section Moving

/-- The destination holds the source as it was, and nothing else has changed. -/
def Moves (m m' : Memory) (dest src n : Nat) : Prop :=
  (∀ i < n, m' (dest + i) = m (src + i)) ∧ ∀ a, a < dest ∨ dest + n ≤ a → m' a = m a

theorem moves_memcpy (h : dest ≤ src ∨ src + n ≤ dest) : Moves m (memcpy m dest src n) dest src n :=
  ⟨fun _ he => memcpy_inside he fun _ _ => by omega, fun _ ha => memcpy_outside ha⟩

theorem moves_copyBack (hUp : src < dest) : Moves m (copyBack n m dest src) dest src n :=
  ⟨fun _ he => copyBack_inside hUp he, fun _ ha => copyBack_outside ha⟩

def marked (a : Nat) : Memory := Function.update (fun _ => 0) a 1

theorem marked_self (a : Nat) : marked a a = 1 := Function.update_self _ _ _

theorem marked_of_ne (h : e ≠ a) : marked a e = 0 := Function.update_of_ne h _ _

theorem not_moves_memcpy (hUp : src < dest) (hOverlap : dest < src + n) (hLong : pointerSize < n) :
    ∃ m, ¬ Moves m (memcpy m dest src n) dest src n := by
  obtain ⟨d, rfl⟩ := Nat.exists_eq_add_of_le (Nat.le_of_lt hUp)
  obtain ⟨e, he⟩ : ∃ e, e = max pointerSize d := ⟨_, rfl⟩
  have hSize : pointerSize = 8 := rfl
  refine ⟨marked (src + e), fun hMoves => ?_⟩
  have hGood := hMoves.1 e (by omega)
  obtain ⟨j, rfl⟩ : ∃ j, e = pointerSize + j := ⟨e - pointerSize, by omega⟩
  rw [marked_self, memcpy_first (by omega), ← Nat.add_assoc (src + d),
    memcpy_inside (by omega) fun i hi => by omega,
    show src + pointerSize + j = src + d + (pointerSize + j - d) by omega,
    copyUnit_inside (by omega), marked_of_ne (by omega)] at hGood
  exact absurd hGood (by decide)

theorem not_moves_copyBack (hne : src ≠ dest) (hk : k < n) :
    ∃ m, ¬ Moves m (copyBack k m dest src) dest src n := by
  refine ⟨marked (src + (n - 1)), fun hMoves => ?_⟩
  have hGood := hMoves.1 (n - 1) (by omega)
  rw [marked_self, copyBack_outside (by omega), marked_of_ne (by omega)] at hGood
  exact absurd hGood (by decide)

/-- Every memory is moved, unless the destination starts inside the source and the size is not an
`int`. -/
theorem memmove_moves_iff (dest src n : Nat) :
    (∀ m, Moves m (memmove m dest src n) dest src n) ↔ dest ≤ src ∨ src + n ≤ dest ∨
      n < 2 ^ 31 := by
  by_cases hNothing : src = dest ∨ n = 0
  · refine iff_of_true (fun m => ?_) (by omega)
    rw [memmove, if_pos hNothing]
    refine ⟨fun i hi => ?_, fun _ _ => rfl⟩
    rcases hNothing with rfl | rfl
    · rfl
    · omega
  by_cases hBack : dest > src ∧ ((dest - src : Nat) : Int) < toInt32 n
  · have hRun : ∀ m, memmove m dest src n =
        copyBack (toInt32 ((n - 1 : Nat) : Int) + 1).toNat m dest src := fun m => by
      rw [memmove, if_neg hNothing, if_pos hBack]
    simp only [hRun]
    have hLe := toInt32_le_self (Int.natCast_nonneg n)
    by_cases hSmall : n < 2 ^ 31
    · refine iff_of_true (fun m => ?_) (Or.inr (Or.inr hSmall))
      rw [toInt32_eq_iff.mpr (show n - 1 < 2 ^ 31 by omega),
        show ((n - 1 : Nat) : Int) + 1 = n by omega, Int.toNat_natCast]
      exact moves_copyBack hBack.1
    · refine iff_of_false (fun hAll => ?_) (by omega)
      have hNarrow := toInt32_lt ((n - 1 : Nat) : Int)
      have hLt := toInt32_lt (n : Int)
      have hFewer : (toInt32 ((n - 1 : Nat) : Int) + 1).toNat < n := by
        rcases Nat.eq_or_lt_of_le (Nat.le_of_not_lt hSmall) with hEq | hGt
        · have hMin : toInt32 ((2 ^ 31 : Nat) : Int) = -2 ^ 31 := by decide
          rw [← hEq, hMin] at hBack
          omega
        · omega
      obtain ⟨m, hBad⟩ := not_moves_copyBack (show src ≠ dest by omega) hFewer
      exact hBad (hAll m)
  · have hRun : ∀ m, memmove m dest src n = memcpy m dest src n := fun m => by
      rw [memmove, if_neg hNothing, if_neg hBack]
    simp only [hRun]
    by_cases hApart : dest ≤ src ∨ src + n ≤ dest
    · exact iff_of_true (fun m => moves_memcpy hApart) (by omega)
    · have hLarge : ¬ n < 2 ^ 31 := by
        intro hSmall
        rw [toInt32_eq_iff.mpr hSmall] at hBack
        omega
      refine iff_of_false (fun hAll => ?_) (by omega)
      obtain ⟨m, hBad⟩ := not_moves_memcpy (show src < dest by omega) (show dest < src + n by omega)
        (show 8 < n by omega)
      exact hBad (hAll m)

/-- Two to the thirty-one bytes are moved up by one. -/
theorem memmove_moves_fails : ∃ m, ¬ Moves m (memmove m 1 0 (2 ^ 31)) 1 0 (2 ^ 31) := by
  obtain ⟨m, hBad⟩ :=
    not_moves_memcpy (show 0 < 1 by decide) (show 1 < 0 + 2 ^ 31 by decide) (by decide)
  refine ⟨m, ?_⟩
  rwa [memmove, if_neg (by decide), if_neg (by decide)]

end Moving

section Bytewise

theorem copyUnits_add (j k : Nat) :
    copyUnits w (j + k) m dest src =
      copyUnits w k (copyUnits w j m dest src) (dest + w * j) (src + w * j) := by
  induction j generalizing m dest src with
  | zero => rw [Nat.zero_add]; rfl
  | succ j ih =>
    rw [Nat.add_right_comm, copyUnits, ih, copyUnits, Nat.mul_succ, Nat.add_comm (w * j),
      Nat.add_assoc, Nat.add_assoc]

theorem copyUnits_head (h : 0 < w * k) : copyUnits w k m dest src dest = m src :=
  copyUnits_inside (e := 0) h fun i hi => absurd hi (Nat.not_lt_zero i)

theorem copyUnit_bytewise (h : dest ≤ src ∨ src + w ≤ dest) :
    copyUnit w m dest src = copyUnits 1 w m dest src := by
  funext a
  by_cases ha : dest ≤ a ∧ a < dest + w
  · obtain ⟨e, rfl⟩ := Nat.exists_eq_add_of_le ha.1
    rw [copyUnit_inside (by omega), copyUnits_inside (by omega) fun i hi => by omega]
  · rw [copyUnit_outside (by omega), copyUnits_outside (by omega)]

theorem copyUnits_bytewise (h : dest ≤ src ∨ src + w ≤ dest) :
    copyUnits w k m dest src = copyUnits 1 (w * k) m dest src := by
  induction k generalizing m dest src with
  | zero => rfl
  | succ k ih =>
    rw [copyUnits, copyUnit_bytewise h, ih (by omega), Nat.mul_succ, Nat.add_comm (w * k),
      copyUnits_add, Nat.one_mul]

/-- Copying words upwards does what copying bytes does, whatever memory holds, exactly if no word
that is read is overwritten in part by its own copy. -/
theorem memcpy_bytewise_iff (dest src n : Nat) :
    (∀ m, memcpy m dest src n = copyUnits 1 n m dest src) ↔
      dest ≤ src ∨ src + pointerSize ≤ dest ∨ n < pointerSize := by
  constructor
  · intro h
    by_contra hNot
    obtain ⟨d, rfl⟩ := Nat.exists_eq_add_of_le (show src ≤ dest by omega)
    obtain ⟨k, rfl⟩ := Nat.exists_eq_add_of_le (show d ≤ n by omega)
    have hWords : memcpy (marked src) (src + d) src (d + k) (src + d + d) = 0 := by
      rw [memcpy_first (by omega), memcpy_outside (by omega), copyUnit_inside (by omega),
        marked_of_ne (by omega)]
    have hBytes : copyUnits 1 (d + k) (marked src) (src + d) src (src + d + d) = 1 := by
      rw [copyUnits_add, Nat.one_mul, copyUnits_head (by omega), copyUnits_head (by omega),
        marked_self]
    rw [h, hBytes] at hWords
    cases hWords
  · intro h m
    have hSplit := memcpy_split n
    have hWords : copyUnits pointerSize (n / pointerSize) m dest src =
        copyUnits 1 (pointerSize * (n / pointerSize)) m dest src := by
      rcases Nat.lt_or_ge n pointerSize with hShort | hLong
      · rw [Nat.div_eq_of_lt hShort]
        rfl
      · exact copyUnits_bytewise (by omega)
    obtain ⟨k, hk⟩ := Nat.exists_eq_add_of_le hSplit
    have hAll : copyUnits 1 (pointerSize * (n / pointerSize) + k) m dest src = _ :=
      copyUnits_add _ k
    rw [← hk, Nat.one_mul] at hAll
    rw [memcpy, hWords, hAll, Nat.sub_eq_of_eq_add' hk]

end Bytewise

end Dandelion.System
