import Mathlib.Data.List.Basic
import Mathlib.Data.List.TakeDrop
import Dandelion.Foundation.Words

/-! # Names and paths

A path is the slice of a string that the code holds as a pointer and a length.
Names are fields of sixty-four bytes that a zero may end early. Whether `char`
is signed is left to the platform and decides the order of names.
-/

namespace Dandelion.FileSystem

open Foundation.Words

abbrev Path := List UInt8

def fsNameLength : Nat := 64
def fsPathLength : Nat := 4096

def slash : UInt8 := 47
def dot : UInt8 := 46

def charVal (signed : Bool) (c : UInt8) : Int :=
  if signed ∧ 128 ≤ c.toNat then (c.toNat : Int) - 256 else c.toNat

def namelen (name : List UInt8) (maxLen : Nat) : Nat :=
  ((name.take maxLen).takeWhile (· ≠ 0)).length

/-- The loop of `namecmp` from `index` on, with `remaining` indices up to the shorter bound. -/
def namecmpLoop (signed : Bool) (name1 : List UInt8) (length1 : Nat) (name2 : List UInt8)
    (length2 : Nat) :
    Nat → Nat → Int
  | 0, index =>
    if length1 < length2 ∧ name2.getD index 0 ≠ 0 then -1
    else if length2 < length1 ∧ name1.getD index 0 ≠ 0 then 1
    else 0
  | remaining + 1, index =>
    let a := name1.getD index 0
    let b := name2.getD index 0
    if a = b ∧ a ≠ 0 then namecmpLoop signed name1 length1 name2 length2 remaining (index + 1)
    else if a = 0 ∧ b = 0 then 0
    else if a = 0 then -1
    else if b = 0 then 1
    else if charVal signed a < charVal signed b then -1 else 1

def namecmp (signed : Bool) (name1 : List UInt8) (length1 : Nat) (name2 : List UInt8)
    (length2 : Nat) : Int :=
  namecmpLoop signed name1 length1 name2 length2 (min length1 length2) 0

def getNextComponent (path : Path) : Path := (path.dropWhile (· = slash)).takeWhile (· ≠ slash)

/-- The next component and what is left of the path after it. -/
def getComponentAdvance (path : Path) : Path × Path :=
  (getNextComponent path, (path.dropWhile (· = slash)).dropWhile (· ≠ slash))

theorem advance_length {path : Path} (h : (getComponentAdvance path).1 ≠ []) :
    (getComponentAdvance path).2.length < path.length := by
  simp only [getComponentAdvance, getNextComponent] at h ⊢
  have hSplit := congrArg List.length
    (List.takeWhile_append_dropWhile (p := fun c => decide (c ≠ slash))
      (l := path.dropWhile (· = slash)))
  have hDrop := (List.dropWhile_sublist (l := path) (fun c => decide (c = slash))).length_le
  have hPos := List.length_pos_iff.mpr h
  rw [List.length_append] at hSplit
  omega

/-- The components that a loop over `get_component_advance` visits within some rounds. -/
def componentsWithin : Nat → Path → List Path
  | 0, _ => []
  | rounds + 1, path =>
    if (getComponentAdvance path).1 = [] then []
    else (getComponentAdvance path).1 :: componentsWithin rounds (getComponentAdvance path).2

/-- A path has at most as many components as bytes. -/
def components (path : Path) : List Path := componentsWithin path.length path

theorem componentsWithin_of_le {path : Path} {rounds : Nat} (h : path.length ≤ rounds) :
    componentsWithin rounds path = components path := by
  induction rounds using Nat.strongRecOn generalizing path with
  | ind rounds ih =>
    by_cases hEmpty : (getComponentAdvance path).1 = []
    · have hNone : ∀ n, componentsWithin n path = [] := by
        intro n
        cases n with
        | zero => rfl
        | succ n => rw [componentsWithin, if_pos hEmpty]
      rw [components, hNone, hNone]
    · have hLength := advance_length hEmpty
      obtain ⟨m, hm⟩ := Nat.exists_eq_add_one.mpr (Nat.zero_lt_of_lt hLength)
      obtain ⟨n, rfl⟩ :=
        Nat.exists_eq_add_one.mpr (Nat.zero_lt_of_lt (Nat.lt_of_lt_of_le hLength h))
      rw [components, hm, componentsWithin, componentsWithin, if_neg hEmpty, if_neg hEmpty,
        ih n (Nat.lt_succ_self n) (by omega), ih m (by omega) (by omega)]

theorem components_cons {path : Path} (h : (getComponentAdvance path).1 ≠ []) :
    components path = (getComponentAdvance path).1 :: components (getComponentAdvance path).2 := by
  have hLength := advance_length h
  obtain ⟨m, hm⟩ := Nat.exists_eq_add_one.mpr (Nat.zero_lt_of_lt hLength)
  rw [components, hm, componentsWithin, if_neg h, componentsWithin_of_le (by omega)]

/-- The index of the last slash, which the code keeps in an `int`. -/
def lastSlash (path : Path) : Int :=
  path.zipIdx.foldl (fun last c => if c.1 = slash then toInt32 c.2 else last) (-1)

def getDirectories (path : Path) : Path :=
  path.take (if lastSlash path > 0 then (lastSlash path).toNat else 0)

/-- Count down from an index while the bytes satisfy the test, stopping at zero. -/
def countDown (test : UInt8 → Bool) (path : Path) : Nat → Nat
  | 0 => 0
  | index + 1 => if test (path.getD (index + 1) 0) then countDown test path index else index + 1

/-- On the empty path the code reads in front of the string: `none`. -/
def getFile (path : Path) : Option Path :=
  if path.length = 0 then none
  else
    let fileStart := countDown (· = slash) path (path.length - 1)
    let fileStart := countDown (· ≠ slash) path fileStart
    some (path.drop (if path.getD fileStart 0 = slash then fileStart + 1 else fileStart))

end Dandelion.FileSystem
