import Mathlib.Data.List.TakeWhile
import Dandelion.FileSystem.PathSplit
import Dandelion.FileSystem.Slices

/-! # Splitting a path into directories and a file

On a pointer and a length the functions of `paths.c` compute what they compute on
the bytes, except that `get_directories` keeps the last slash in an `int`. Taken
together the two parts have the components of the path unless it ends with a
slash, or the `int` is too small and something lies between the two cuts.
-/

namespace Dandelion.FileSystem

open Foundation.Words

variable {text front name path : List UInt8} {test : UInt8 → Bool} {k : Nat}

section Content

theorem components_advance (path : Path) :
    path.filter (· ≠ slash) =
      (getComponentAdvance path).1 ++ (getComponentAdvance path).2.filter (· ≠ slash) := by
  have hSkip : (path.takeWhile fun c => decide (c = slash)).filter (fun c => decide (c ≠ slash)) =
      [] := by
    refine List.filter_eq_nil_iff.mpr fun c hc => ?_
    have hSlash := List.mem_takeWhile_imp hc
    simpa using hSlash
  have hName : (getNextComponent path).filter (fun c => decide (c ≠ slash)) =
      getNextComponent path :=
    List.filter_eq_self.mpr fun c hc => List.mem_takeWhile_imp (p := fun c => decide (c ≠ slash)) hc
  calc path.filter (· ≠ slash)
      = (path.takeWhile (· = slash) ++ path.dropWhile (· = slash)).filter (· ≠ slash) := by
        rw [List.takeWhile_append_dropWhile]
    _ = (path.dropWhile (· = slash)).filter (· ≠ slash) := by
        rw [List.filter_append, hSkip, List.nil_append]
    _ = (getNextComponent path ++ (getComponentAdvance path).2).filter (· ≠ slash) := by
        rw [getNextComponent, getComponentAdvance, List.takeWhile_append_dropWhile]
    _ = (getComponentAdvance path).1 ++ (getComponentAdvance path).2.filter (· ≠ slash) := by
        rw [List.filter_append, hName]
        rfl

theorem components_empty (h : (getComponentAdvance path).1 = []) : components path = [] := by
  rw [components]
  cases path with
  | nil => rfl
  | cons c path => rw [List.length_cons, componentsWithin, if_pos h]

theorem components_flatten (path : Path) : (components path).flatten = path.filter (· ≠ slash) := by
  induction hLength : path.length using Nat.strongRecOn generalizing path with
  | ind n ih =>
    rw [components_advance path]
    by_cases hEmpty : (getComponentAdvance path).1 = []
    · have hRest : (getComponentAdvance path).2 = [] := by
        have hSplit : getNextComponent path ++ (getComponentAdvance path).2 =
            path.dropWhile (· = slash) :=
          List.takeWhile_append_dropWhile
        have hNone : getNextComponent path = [] := hEmpty
        rw [hNone, List.nil_append] at hSplit
        rw [hSplit]
        by_contra hne
        obtain ⟨c, rest, hc⟩ := List.exists_cons_of_ne_nil hne
        have hStop := List.head?_dropWhile_not (fun c => decide (c = slash)) path
        rw [hc] at hStop
        have hStarts : getNextComponent path = c :: rest.takeWhile (· ≠ slash) := by
          rw [getNextComponent, hc]
          exact List.takeWhile_cons_of_pos (by simpa using hStop)
        rw [hNone] at hStarts
        cases hStarts
      rw [components_empty hEmpty, hEmpty, hRest]
      rfl
    · rw [components_cons hEmpty, List.flatten_cons]
      exact congrArg _ (ih _ (hLength ▸ advance_length hEmpty) _ rfl)

theorem components_take_iff (path : Path) (k : Nat) :
    components (path.take k) = components path ↔ ∀ c ∈ path.drop k, c = slash := by
  constructor
  · intro h c hc
    have hFilter := congrArg List.flatten h
    rw [components_flatten, components_flatten] at hFilter
    have hSplit : path.filter (· ≠ slash) =
        (path.take k).filter (· ≠ slash) ++ (path.drop k).filter (· ≠ slash) := by
      rw [← List.filter_append, List.take_append_drop]
    rw [hSplit, List.self_eq_append_right, List.filter_eq_nil_iff] at hFilter
    simpa using hFilter c hc
  · intro h
    have hSlashes : path.drop k = List.replicate (path.drop k).length slash :=
      List.eq_replicate_of_mem h
    have hSplit := (List.take_append_drop k path).symm
    rw [hSlashes] at hSplit
    cases hLength : (path.drop k).length with
    | zero =>
      rw [hSplit, hLength, List.replicate_zero, List.append_nil, List.take_take, Nat.min_self]
    | succ n =>
      have hAll := components_append (path.take k) (List.replicate n slash)
      rw [components_slashes, List.append_nil] at hAll
      rw [hLength, List.replicate_succ] at hSplit
      rw [← hAll, ← hSplit]

end Content

section Loops

variable {start remaining index a b : Nat} {last : Int}

theorem lastSlashFrom_add (text : List UInt8) (start a b index : Nat) (last : Int) :
    lastSlashFrom text start (a + b) index last =
      (lastSlashFrom text start a index last).bind (lastSlashFrom text start b (index + a)) := by
  induction a generalizing index last with
  | zero => rw [Nat.zero_add, lastSlashFrom, Option.bind_some, Nat.add_zero]
  | succ a ih =>
    rw [Nat.add_right_comm, lastSlashFrom, lastSlashFrom]
    cases text[start + index]? with
    | none => rfl
    | some c =>
      simp only [Option.bind_eq_bind, Option.bind_some]
      rw [ih, Nat.add_right_comm index 1 a, Nat.add_assoc index a 1]

theorem lastSlashFrom_some (last : Int) (h : start + index + remaining ≤ text.length) :
    ∃ r, lastSlashFrom text start remaining index last = some r := by
  induction remaining generalizing index last with
  | zero => exact ⟨last, rfl⟩
  | succ remaining ih =>
    rw [lastSlashFrom, List.getElem?_eq_getElem (show start + index < text.length by omega)]
    exact ih _ (by omega)

theorem lastSlashFrom_plain (h : start + index + remaining ≤ text.length)
    (hPlain : ∀ j, start + index ≤ j → j < start + index + remaining → text[j]? ≠ some slash) :
    lastSlashFrom text start remaining index last = some last := by
  induction remaining generalizing index with
  | zero => rfl
  | succ remaining ih =>
    obtain ⟨c, hc⟩ : ∃ c, text[start + index]? = some c := ⟨_, List.getElem?_eq_getElem (by omega)⟩
    have hne : c ≠ slash :=
      fun hEq => hPlain _ (Nat.le_refl _) (by omega) (hc.trans (congrArg some hEq))
    rw [lastSlashFrom, hc]
    simp only [Option.bind_eq_bind, Option.bind_some]
    rw [if_neg hne]
    exact ih (by omega) fun j hLow hHigh => hPlain j (by omega) (by omega)

theorem countDownFrom_eq (h : index < text.length) :
    countDownFrom text test 0 index = some (countDown test text index) := by
  induction index with
  | zero => rfl
  | succ index ih =>
    rw [countDownFrom, countDown, Nat.zero_add, List.getElem?_eq_getElem h,
      List.getD_eq_getElem _ _ h]
    simp only [Option.bind_eq_bind, Option.bind_some]
    split
    · exact ih (by omega)
    · rfl

end Loops

section Splits

theorem countDown_le (test : UInt8 → Bool) (text : List UInt8) (index : Nat) :
    countDown test text index ≤ index := by
  induction index with
  | zero => exact Nat.le_refl 0
  | succ index ih =>
    rw [countDown]
    split
    · exact Nat.le_succ_of_le ih
    · exact Nat.le_refl _

theorem getFile_slice (hne : text ≠ []) :
    ∃ f, Slice.getFile text ⟨0, text.length⟩ = some f ∧ f.path + f.length = text.length ∧
      getFile text = some (f.bytes text) := by
  have hLength := List.length_pos_iff.mpr hne
  obtain ⟨i, hi⟩ : ∃ i, i = countDown (fun c => decide (c = slash)) text (text.length - 1) :=
    ⟨_, rfl⟩
  obtain ⟨j, hj⟩ : ∃ j, j = countDown (fun c => decide (c ≠ slash)) text i := ⟨_, rfl⟩
  have hiLe := countDown_le (fun c => decide (c = slash)) text (text.length - 1)
  have hjLe := countDown_le (fun c => decide (c ≠ slash)) text i
  have hFirst : countDownFrom text (fun c => decide (c = slash)) 0 (text.length - 1) = some i := by
    rw [countDownFrom_eq (by omega), ← hi]
  have hSecond : countDownFrom text (fun c => decide (c ≠ slash)) 0 i = some j := by
    rw [countDownFrom_eq (by omega), ← hj]
  have hIn : j < text.length := by omega
  have hRun : Slice.getFile text ⟨0, text.length⟩ =
      some ⟨0 + if text[j] = slash then j + 1 else j, text.length - if text[j] = slash then j + 1
        else j⟩ := by
    rw [Slice.getFile, if_neg (show text.length ≠ 0 by omega)]
    simp only [hFirst, hSecond, Option.bind_eq_bind, Option.bind_some, Nat.zero_add,
      List.getElem?_eq_getElem hIn]
  refine ⟨_, hRun, ?_, ?_⟩
  · show 0 + (if text[j] = slash then j + 1 else j) + (text.length - if text[j] = slash then j + 1
      else j) = text.length
    split <;> omega
  · rw [getFile, if_neg (show text.length ≠ 0 by omega)]
    simp only [← hi, ← hj, Slice.bytes, Nat.zero_add, List.getD_eq_getElem _ _ hIn]
    rw [List.take_of_length_le (by rw [List.length_drop])]

theorem getDirectories_slice_plain (hSlash : slash ∉ text) :
    Slice.getDirectories text ⟨0, text.length⟩ = some ⟨0, 0⟩ := by
  have hLoop : lastSlashFrom text 0 text.length 0 (-1) = some (-1) :=
    lastSlashFrom_plain (by omega) fun j _ _ h => hSlash (List.mem_of_getElem? h)
  rw [Slice.getDirectories, hLoop]
  rfl

/-- The cut is at the last slash as far as an `int` can say where that is. -/
theorem getDirectories_slice (front : List UInt8) (hSlash : slash ∉ name) :
    Slice.getDirectories (front ++ slash :: name) ⟨0, (front ++ slash :: name).length⟩ =
      some ⟨0, (toInt32 front.length).toNat⟩ := by
  have hLength : (front ++ slash :: name).length = front.length + (1 + name.length) := by
    rw [List.length_append, List.length_cons, Nat.add_comm 1]
  have hAt : (front ++ slash :: name)[front.length]? = some slash := by
    rw [List.getElem?_append_right (Nat.le_refl _), Nat.sub_self, List.getElem?_cons_zero]
  obtain ⟨r, hr⟩ := lastSlashFrom_some (-1)
    (show 0 + 0 + front.length ≤ (front ++ slash :: name).length by omega)
  have hOne : lastSlashFrom (front ++ slash :: name) 0 1 front.length r =
      some (toInt32 front.length) := by
    rw [lastSlashFrom, Nat.zero_add, hAt]
    simp only [Option.bind_eq_bind, Option.bind_some, if_true]
    rw [lastSlashFrom]
  have hRest : lastSlashFrom (front ++ slash :: name) 0 name.length (front.length + 1)
      (toInt32 front.length) =
      some (toInt32 front.length) := by
    refine lastSlashFrom_plain (by omega) fun j hLow _ h => hSlash ?_
    rw [List.getElem?_append_right (by omega),
      show j - front.length = (j - front.length - 1) + 1 by omega, List.getElem?_cons_succ] at h
    exact List.mem_of_getElem? h
  have hLoop : lastSlashFrom (front ++ slash :: name) 0 (front ++ slash :: name).length 0 (-1) =
      some (toInt32 front.length) := by
    rw [hLength, lastSlashFrom_add, hr, Option.bind_some, Nat.zero_add, lastSlashFrom_add, hOne,
      Option.bind_some, hRest]
  rw [Slice.getDirectories, hLoop]
  simp only [Option.bind_eq_bind, Option.bind_some]
  split
  · rfl
  · rw [Int.toNat_zero, Int.toNat_of_nonpos (by omega)]

end Splits

section Law

/-- Both functions stay inside the path, the file has no slash, and the components of the
directories followed by the file are those of the path. -/
def SplitsExactly (text : List UInt8) : Prop :=
  ∃ d f, Slice.getDirectories text ⟨0, text.length⟩ = some d ∧
    Slice.getFile text ⟨0, text.length⟩ = some f ∧
    d.path + d.length ≤ text.length ∧ f.path + f.length ≤ text.length ∧
    components (d.bytes text) ++ [f.bytes text] = components text ∧ slash ∉ f.bytes text

/-- Between the last slash and where an `int` says that it is, there are only slashes. -/
def CutsFar (text : List UInt8) : Prop :=
  ∀ front name, text = front ++ slash :: name → slash ∉ name →
    ∀ c ∈ front.drop (toInt32 front.length).toNat, c = slash

theorem toInt32_toNat_le (n : Nat) : (toInt32 n).toNat ≤ n := by
  have hLe := toInt32_le_self (Int.natCast_nonneg n)
  omega

/-- The last slash is at one place only. -/
theorem last_slash_unique {front front' name name' : List UInt8}
    (h : front ++ slash :: name = front' ++ slash :: name') (hSlash : slash ∉ name)
    (hSlash' : slash ∉ name') : front = front' := by
  rcases List.append_eq_append_iff.mp h with ⟨a, rfl, hRest⟩ | ⟨a, rfl, hRest⟩ <;> cases a with
  | nil => simp
  | cons c a =>
    rw [List.cons_append, List.cons.injEq] at hRest
    simp_all

/-- Any path with a component. -/
theorem splits_exactly_iff (h : components text ≠ []) :
    SplitsExactly text ↔ text.getLast? ≠ some slash ∧ CutsFar text := by
  rcases path_forms text with ⟨k, rfl⟩ | ⟨front, name, k, rfl, hFront, hName, hSlash⟩
  · exact absurd (components_slashes k) h
  have hne : front ++ name ++ List.replicate k slash ≠ [] := by simp [hName]
  obtain ⟨f, hf, hInside, hBytes⟩ := getFile_slice hne
  have hFile : f.bytes (front ++ name ++ List.replicate k slash) = name ++ List.replicate k slash :=
    Option.mem_unique hBytes (hFront.getFile_eq hName hSlash)
  cases k with
  | succ k =>
    -- slashes at the end stay in the file
    have hLast : (front ++ name ++ List.replicate (k + 1) slash).getLast? = some slash := by
      rw [List.replicate_succ', ← List.append_assoc, List.getLast?_concat]
    refine ⟨?_, fun hGood => absurd hLast hGood.1⟩
    rintro ⟨d, f', -, hf', -, -, -, hPlain⟩
    obtain rfl : f = f' := Option.mem_unique hf hf'
    rw [hFile] at hPlain
    exact absurd (List.mem_append_right _ (List.mem_replicate.mpr ⟨Nat.succ_ne_zero k, rfl⟩)) hPlain
  | zero =>
    have hAll := hFront.components_append (k := 0) hName hSlash
    rw [List.replicate_zero, List.append_nil] at hf hInside hFile hAll ⊢
    rw [List.append_nil] at hFile
    have hEnd : (front ++ name).getLast? ≠ some slash := by
      rw [List.getLast?_append_of_ne_nil _ hName]
      exact fun hEq => hSlash (List.mem_of_getLast? hEq)
    rw [and_iff_right hEnd]
    rcases hFront with rfl | ⟨q, rfl⟩
    · have hDirs := getDirectories_slice_plain hSlash
      rw [List.nil_append] at hf hInside hFile hAll ⊢
      refine ⟨fun _ front name' hSplit _ => ?_,
        fun _ => ⟨_, f, hDirs, hf, Nat.zero_le _, Nat.le_of_eq hInside, ?_, ?_⟩⟩
      · exact absurd (hSplit ▸ List.mem_append_right front List.mem_cons_self) hSlash
      · rw [hFile, hAll]
        rfl
      · rwa [hFile]
    · have hText : q ++ [slash] ++ name = q ++ slash :: name := by
        rw [List.append_assoc, List.singleton_append]
      have hDirs := getDirectories_slice q hSlash
      rw [← hText] at hDirs
      have hLe := toInt32_toNat_le q.length
      have hTake : Slice.bytes (q ++ [slash] ++ name) ⟨0, (toInt32 q.length).toNat⟩ =
          q.take (toInt32 q.length).toNat := by
        rw [Slice.bytes, List.drop_zero, hText, List.take_append_of_le_length hLe]
      have hOuter : components (q ++ [slash]) = components q := by
        rw [components_append q [], components_nil, List.append_nil]
      rw [hOuter] at hAll
      have hLaw : SplitsExactly (q ++ [slash] ++ name) ↔
          ∀ c ∈ q.drop (toInt32 q.length).toNat, c = slash := by
        rw [← components_take_iff]
        constructor
        · rintro ⟨d, f', hd, hf', -, -, hSame, -⟩
          obtain rfl := Option.mem_unique hDirs hd
          obtain rfl : f = f' := Option.mem_unique hf hf'
          rw [hTake, hFile, hAll] at hSame
          exact List.append_cancel_right hSame
        · intro hSame
          refine ⟨_, f, hDirs, hf, ?_, Nat.le_of_eq hInside, ?_, ?_⟩
          · dsimp only
            rw [List.append_assoc, List.length_append]
            omega
          · rw [hTake, hFile, hAll, hSame]
          · rwa [hFile]
      rw [hLaw]
      constructor
      · intro hAllSlash front name' hSplit hSlash'
        rw [hText] at hSplit
        rwa [← last_slash_unique hSplit hSlash hSlash']
      · exact fun hCut => hCut q name hText hSlash

/-- `/a/b` -/
theorem splits_exactly_plain : SplitsExactly [slash, 97, slash, 98] := by
  refine (splits_exactly_iff (by decide)).mpr ⟨by decide, fun front name hSplit _ => ?_⟩
  have hLength := congrArg List.length hSplit
  rw [List.length_append, List.length_cons] at hLength
  rw [toInt32_of_small (by omega)
    (by simp only [List.length_cons, List.length_nil] at hLength; omega), Int.toNat_natCast,
    List.drop_length]
  exact fun c hc => absurd hc List.not_mem_nil

/-- `a/`: the directories are `a` and so is the file, with its slash. -/
theorem splits_exactly_fails : components [97, slash] ≠ [] ∧ ¬ SplitsExactly [97, slash] ∧
    Slice.getDirectories [97, slash] ⟨0, 2⟩ = some ⟨0, 1⟩ ∧
      Slice.getFile [97, slash] ⟨0, 2⟩ = some ⟨0, 2⟩ := by
  refine ⟨by decide, ?_, by decide, by decide⟩
  rintro ⟨d, f, -, hf, -, -, -, hPlain⟩
  have hf' : Slice.getFile [97, slash] ⟨0, 2⟩ = some ⟨0, 2⟩ := by decide
  obtain rfl := Option.mem_unique hf' hf
  exact hPlain (by decide)

end Law

end Dandelion.FileSystem
