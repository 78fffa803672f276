import Mathlib.Data.Int.ModEq
import Mathlib.Data.Nat.Bitwise

/-! # Machine words as natural numbers

Arithmetic modulo two to the sixty-four, and words whose top bit is a tag.
A value below two to the sixty-three and its tag are recovered exactly from
the tagged word, so the tagged form loses nothing. Conversions between integer
types keep what is in the range of the type.
-/

namespace Dandelion.Foundation.Words

set_option autoImplicit false

def add64 (a b : Nat) : Nat := (a + b) % 2 ^ 64
def sub64 (a b : Nat) : Nat := (a + (2 ^ 64 - b % 2 ^ 64)) % 2 ^ 64
def mul64 (a b : Nat) : Nat := (a * b) % 2 ^ 64

theorem sub64_lt (a b : Nat) : sub64 a b < 2 ^ 64 := Nat.mod_lt _ (by decide)

theorem add64_of_lt {a b : Nat} (h : a + b < 2 ^ 64) : add64 a b = a + b := Nat.mod_eq_of_lt h

theorem add64_modEq {m : Nat} (hm : m ∣ 2 ^ 64) (a b : Nat) : add64 a b ≡ a + b [MOD m] :=
  (Nat.mod_modEq _ _).of_dvd hm

theorem mul64_modEq {m : Nat} (hm : m ∣ 2 ^ 64) (a b : Nat) : mul64 a b ≡ a * b [MOD m] :=
  (Nat.mod_modEq _ _).of_dvd hm

theorem add64_add64_of_lt {a b c : Nat} (h : a + b + c < 2 ^ 64) :
    add64 (add64 a b) c = a + b + c := by
  rw [add64_of_lt (show a + b < 2 ^ 64 by omega), add64_of_lt h]

theorem mul64_of_lt {a b : Nat} (h : a * b < 2 ^ 64) : mul64 a b = a * b := Nat.mod_eq_of_lt h

theorem sub64_of_le {a b : Nat} (ha : a < 2 ^ 64) (h : b ≤ a) : sub64 a b = a - b := by
  unfold sub64
  omega

theorem sub64_of_lt {a b : Nat} (hb : b < 2 ^ 64) (h : a < b) : sub64 a b = 2 ^ 64 - (b - a) := by
  unfold sub64
  omega

def topBit : Nat := 2 ^ 63

def maxWord : Nat := 2 ^ 64 - 1

def tagged (payload : Nat) (tag : Bool) : Nat := if tag then payload ||| topBit else payload

theorem or_topBit {n : Nat} (h : n < topBit) : n ||| topBit = n + topBit := by
  have hOr := Nat.two_pow_add_eq_or_of_lt (i := 63) h 1
  rw [Nat.lor_comm]
  simp only [topBit, Nat.mul_one] at hOr ⊢
  omega

theorem and_topBit_eq_zero {n : Nat} (h : n < topBit) : topBit &&& n = 0 := by
  rw [Nat.land_comm]
  simp only [topBit] at h ⊢
  rw [Nat.and_two_pow, Nat.testBit_lt_two_pow h]
  rfl

theorem and_topBit_ne_zero {n : Nat} (h : n < topBit) : topBit &&& (n + topBit) ≠ 0 := by
  rw [Nat.land_comm]
  simp only [topBit] at h ⊢
  rw [Nat.and_two_pow, Nat.add_comm, Nat.testBit_two_pow_add_eq, Nat.testBit_lt_two_pow h]
  decide

theorem and_not_topBit (n : Nat) : n &&& (topBit - 1) = n % topBit :=
  Nat.and_two_pow_sub_one_eq_mod n 63

theorem tagged_true {n : Nat} (h : n < topBit) : tagged n true = n + topBit := or_topBit h

@[simp] theorem tagged_false (n : Nat) : tagged n false = n := rfl

theorem tagged_ne_maxWord {n : Nat} {tag : Bool} (h : n + 1 < topBit) : tagged n tag ≠ maxWord := by
  cases tag with
  | false =>
    rw [tagged_false]
    simp only [topBit, maxWord] at *
    omega
  | true =>
    rw [tagged_true (by omega)]
    simp only [topBit, maxWord] at *
    omega

theorem tag_of_tagged {n : Nat} {tag : Bool} (h : n < topBit) :
    ((topBit &&& tagged n tag) != 0) = tag := by
  cases tag with
  | false => simp [and_topBit_eq_zero h]
  | true => simpa [tagged_true h] using and_topBit_ne_zero h

theorem payload_of_tagged {n : Nat} {tag : Bool} (h : n < topBit) :
    tagged n tag &&& (topBit - 1) = n := by
  rw [and_not_topBit]
  cases tag with
  | false => exact Nat.mod_eq_of_lt h
  | true => rw [tagged_true h, Nat.add_mod_right, Nat.mod_eq_of_lt h]

theorem tag_of_maxWord : ((topBit &&& maxWord) != 0) = true := by decide

section Conversions

def toInt32 (i : Int) : Int := (i + 2 ^ 31) % 2 ^ 32 - 2 ^ 31

def toSize (i : Int) : Nat := (i % 2 ^ 64).toNat

theorem toInt32_of_small {i : Int} (hLow : -2 ^ 31 ≤ i) (hHigh : i < 2 ^ 31) : toInt32 i = i := by
  unfold toInt32
  omega

theorem toSize_of_small {i : Int} (hLow : 0 ≤ i) (hHigh : i < 2 ^ 64) : toSize i = i.toNat := by
  unfold toSize
  omega

theorem toSize_natCast {n : Nat} (h : n < 2 ^ 64) : toSize n = n := by
  rw [toSize_of_small (Int.natCast_nonneg n) (by exact_mod_cast h), Int.toNat_natCast]

theorem toInt32_add (i j : Int) : toInt32 (toInt32 i + j) = toInt32 (i + j) := by
  unfold toInt32
  omega

theorem toInt32_lt (i : Int) : toInt32 i < 2 ^ 31 := by
  unfold toInt32
  omega

theorem toInt32_le_self {i : Int} (h : 0 ≤ i) : toInt32 i ≤ i := by
  unfold toInt32
  omega

theorem toInt32_eq_iff {k : Nat} : toInt32 k = k ↔ k < 2 ^ 31 := by
  unfold toInt32
  omega

theorem toInt32_add_eq_iff {k r : Nat} : toInt32 k + r = ((k + r : Nat) : Int) ↔ k < 2 ^ 31 := by
  rw [Nat.cast_add, Int.add_left_inj, toInt32_eq_iff]

end Conversions

end Dandelion.Foundation.Words
