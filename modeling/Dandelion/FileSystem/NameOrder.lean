import Mathlib.Data.Int.Order.Basic
import Mathlib.Data.List.GetD
import Dandelion.Foundation.Comparisons
import Dandelion.FileSystem.Paths

/-! # The order of names

`namecmp` compares two names up to their bounds or terminators. Whatever the
bounds are, it is the lexicographic order of the character values of what the
names then consist of, so comparisons with different bounds agree.
-/

namespace Dandelion.FileSystem

open Foundation.Comparisons

/-- The bytes that count: up to the bound and the first zero. -/
def trim (name : List UInt8) (bound : Nat) : List UInt8 := (name.take bound).takeWhile (· ≠ 0)

/-- Names are ordered by the values of their characters. -/
def nameKey (signed : Bool) (name : List UInt8) (bound : Nat) : List Int :=
  (trim name bound).map (charVal signed)

variable {signed : Bool} {a b : UInt8} {name name1 name2 : List UInt8} {bound length1 length2 : Nat}

theorem charVal_injective (signed : Bool) : Function.Injective (charVal signed) := by
  intro a b h
  have ha := a.toNat_lt
  have hb := b.toNat_lt
  unfold charVal at h
  apply UInt8.toNat_inj.mp
  split at h <;> split at h <;> omega

theorem nameKey_eq_iff : nameKey signed name1 length1 = nameKey signed name2 length2 ↔
    trim name1 length1 = trim name2 length2 :=
  (List.map_injective_iff.mpr (charVal_injective signed)).eq_iff

theorem trim_zero (name : List UInt8) : trim name 0 = [] := by
  rw [trim, List.take_zero, List.takeWhile_nil]

theorem trim_drop {index : Nat} (h : index < bound) :
    trim (name.drop index) (bound - index) =
      if name.getD index 0 = 0 then []
      else name.getD index 0 :: trim (name.drop (index + 1)) (bound - (index + 1)) := by
  obtain ⟨n, hn⟩ : ∃ n, bound - index = n + 1 := ⟨bound - index - 1, by omega⟩
  have hn' : bound - (index + 1) = n := by omega
  by_cases hIn : index < name.length
  · rw [trim, List.drop_eq_getElem_cons hIn, hn, hn', List.take_succ_cons, List.takeWhile_cons,
      List.getD_eq_getElem _ _ hIn]
    by_cases hZero : name[index] = 0
    · simp [hZero]
    · simp [hZero, trim]
  · have hNone : name.drop index = [] := List.drop_eq_nil_of_le (Nat.le_of_not_lt hIn)
    rw [trim, hNone, if_pos (List.getD_eq_default _ _ (Nat.le_of_not_lt hIn)), List.take_nil,
      List.takeWhile_nil]

theorem signs_namecmpLoop {remaining index : Nat} (h : index + remaining = min length1 length2) :
    Signs (namecmpLoop signed name1 length1 name2 length2 remaining index)
      (nameKey signed (name1.drop index) (length1 - index))
        (nameKey signed (name2.drop index) (length2 - index)) := by
  induction remaining generalizing index with
  | zero =>
    -- one of the names is exhausted, the other one may go on
    rw [namecmpLoop, nameKey, nameKey]
    rcases Nat.lt_trichotomy length1 length2 with hLt | hEq | hLt
    · obtain rfl : length1 = index := by omega
      rw [Nat.sub_self, trim_zero, trim_drop hLt]
      by_cases hZero : name2.getD length1 0 = 0
      · rw [if_neg (fun h => h.2 hZero), if_neg (fun h => Nat.lt_asymm hLt h.1), if_pos hZero]
        exact signs_equal []
      · rw [if_pos ⟨hLt, hZero⟩, if_neg hZero]
        exact signs_nil_cons _ _
    · obtain rfl : length1 = index := by omega
      obtain rfl : length1 = length2 := hEq
      rw [Nat.sub_self, trim_zero, trim_zero, if_neg (fun h => Nat.lt_irrefl _ h.1),
        if_neg (fun h => Nat.lt_irrefl _ h.1)]
      exact signs_equal []
    · obtain rfl : length2 = index := by omega
      rw [Nat.sub_self, trim_zero, trim_drop hLt, if_neg (fun h => Nat.lt_asymm hLt h.1)]
      by_cases hZero : name1.getD length2 0 = 0
      · rw [if_neg (fun h => h.2 hZero), if_pos hZero]
        exact signs_equal []
      · rw [if_pos ⟨hLt, hZero⟩, if_neg hZero]
        exact signs_cons_nil _ _
  | succ remaining ih =>
    have hNext := ih (show (index + 1) + remaining = min length1 length2 by omega)
    rw [namecmpLoop, nameKey, nameKey, trim_drop (show index < length1 by omega),
      trim_drop (show index < length2 by omega)]
    set x := name1.getD index 0
    set y := name2.getD index 0
    by_cases hx : x = 0
    · by_cases hy : y = 0
      · simp only [if_neg (fun h : x = y ∧ x ≠ 0 => h.2 hx), if_pos (And.intro hx hy), if_pos hx,
          if_pos hy]
        exact signs_equal []
      · simp only [if_neg (fun h : x = y ∧ x ≠ 0 => h.2 hx),
          if_neg (fun h : x = 0 ∧ y = 0 => hy h.2), if_pos hx, if_neg hy]
        exact signs_nil_cons _ _
    · by_cases hy : y = 0
      · simp only [if_neg (fun h : x = y ∧ x ≠ 0 => hx (h.1.trans hy)),
          if_neg (fun h : x = 0 ∧ y = 0 => hx h.1), if_neg hx, if_pos hy]
        exact signs_cons_nil _ _
      · by_cases hxy : x = y
        · simp only [if_pos (And.intro hxy hx), if_neg hx, if_neg hy]
          rw [hxy]
          exact signs_cons.mpr hNext
        · simp only [if_neg (fun h : x = y ∧ x ≠ 0 => hxy h.1),
            if_neg (fun h : x = 0 ∧ y = 0 => hx h.1), if_neg hx, if_neg hy]
          exact signs_differ _ _ (fun h => hxy (charVal_injective signed h))

theorem signs_namecmp : Signs (namecmp signed name1 length1 name2 length2)
    (nameKey signed name1 length1) (nameKey signed name2 length2) :=
  signs_namecmpLoop (Nat.zero_add _)

theorem namecmp_neg_iff : namecmp signed name1 length1 name2 length2 < 0 ↔
    nameKey signed name1 length1 < nameKey signed name2 length2 := signs_namecmp.1

theorem namecmp_eq_zero_iff : namecmp signed name1 length1 name2 length2 = 0 ↔
    trim name1 length1 = trim name2 length2 := signs_namecmp.2.1.trans nameKey_eq_iff

theorem namecmp_pos_iff : namecmp signed name1 length1 name2 length2 > 0 ↔
    nameKey signed name2 length2 < nameKey signed name1 length1 := signs_namecmp.2.2

section Reads

/-- The loop of `namecmp` where every byte that is compared is read first. -/
def namecmpLoopReads (signed : Bool) (read1 : Nat → Option UInt8) (length1 : Nat)
    (read2 : Nat → Option UInt8) (length2 : Nat) : Nat → Nat → Option Int
  | 0, index => do
    -- the second operands of the conjunctions are read only if the first ones hold
    let longer2 ← if length1 < length2 then (fun b => decide (b ≠ 0)) <$> read2 index
        else some false
    if longer2 then some (-1)
    else do
      let longer1 ← if length2 < length1 then (fun a => decide (a ≠ 0)) <$> read1 index
          else some false
      if longer1 then some 1 else some 0
  | remaining + 1, index => do
    let a ← read1 index
    let b ← read2 index
    if a = b ∧ a ≠ 0 then namecmpLoopReads signed read1 length1 read2 length2 remaining (index + 1)
    else if a = 0 ∧ b = 0 then some 0
    else if a = 0 then some (-1)
    else if b = 0 then some 1
    else if charVal signed a < charVal signed b then some (-1) else some 1

def namecmpReads (signed : Bool) (read1 : Nat → Option UInt8) (length1 : Nat)
    (read2 : Nat → Option UInt8) (length2 : Nat) : Option Int :=
  namecmpLoopReads signed read1 length1 read2 length2 (min length1 length2) 0

def readsBelow (name : List UInt8) (bound : Nat) (index : Nat) : Option UInt8 :=
  if index < bound then some (name.getD index 0) else none

theorem readsBelow_of_lt {index : Nat} (h : index < bound) :
    readsBelow name bound index = some (name.getD index 0) :=
  if_pos h

theorem namecmpLoopReads_eq {remaining index : Nat} (h : index + remaining = min length1 length2) :
    namecmpLoopReads signed (readsBelow name1 length1) length1 (readsBelow name2 length2) length2
      remaining index =
      some (namecmpLoop signed name1 length1 name2 length2 remaining index) := by
  induction remaining generalizing index with
  | zero =>
    rw [namecmpLoopReads, namecmpLoop]
    rcases Nat.lt_trichotomy length1 length2 with hLt | hEq | hLt
    · rw [if_pos hLt, if_neg (Nat.lt_asymm hLt), readsBelow_of_lt (show index < length2 by omega)]
      generalize name2.getD index 0 = b
      by_cases hZero : b = 0
      · simp [hZero, Nat.lt_asymm hLt]
      · simp [hZero, hLt]
    · simp [hEq]
    · rw [if_neg (Nat.lt_asymm hLt), if_pos hLt, readsBelow_of_lt (show index < length1 by omega)]
      generalize name1.getD index 0 = a
      by_cases hZero : a = 0
      · simp [hZero, Nat.lt_asymm hLt]
      · simp [hZero, hLt, Nat.lt_asymm hLt]
  | succ remaining ih =>
    rw [namecmpLoopReads, namecmpLoop, readsBelow_of_lt (show index < length1 by omega),
      readsBelow_of_lt (show index < length2 by omega)]
    simp only [Option.bind_eq_bind, Option.bind_some]
    split
    · exact ih (by omega)
    · split
      · rfl
      · split
        · rfl
        · split
          · rfl
          · split <;> rfl

/-- Any two names within any bounds: the bytes that are read are below the bounds, and the result
is the order of the names, so it is antisymmetric, and transitive for any third name and bound. -/
theorem namecmp_total_order (signed : Bool) (name1 : List UInt8) (length1 : Nat)
    (name2 : List UInt8) (length2 : Nat) :
    namecmpReads signed (readsBelow name1 length1) length1 (readsBelow name2 length2) length2 =
      some (namecmp signed name1 length1 name2 length2) ∧
    Signs (namecmp signed name1 length1 name2 length2) (nameKey signed name1 length1)
      (nameKey signed name2 length2) ∧
    (namecmp signed name1 length1 name2 length2 = 0 ↔ trim name1 length1 = trim name2 length2) ∧
    (namecmp signed name1 length1 name2 length2 < 0 ↔
      namecmp signed name2 length2 name1 length1 > 0) ∧
    ∀ name3 length3, namecmp signed name1 length1 name2 length2 ≤ 0 →
      namecmp signed name2 length2 name3 length3 ≤ 0 →
      namecmp signed name1 length1 name3 length3 ≤ 0 ∧
      (namecmp signed name1 length1 name3 length3 = 0 →
        namecmp signed name1 length1 name2 length2 = 0 ∧
          namecmp signed name2 length2 name3 length3 = 0) := by
  refine ⟨namecmpLoopReads_eq (Nat.zero_add _), signs_namecmp, namecmp_eq_zero_iff, ?_,
    fun name3 length3 h12 h23 => ?_⟩
  · rw [namecmp_neg_iff, namecmp_pos_iff]
  · exact signs_namecmp.trans signs_namecmp signs_namecmp h12 h23

end Reads

end Dandelion.FileSystem
