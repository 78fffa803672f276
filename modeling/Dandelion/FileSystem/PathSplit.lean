import Mathlib.Data.List.GetD
import Mathlib.Data.List.Induction
import Dandelion.FileSystem.Paths

/-! # Taking paths apart

A path is made of slashes alone, or it has a last component that slashes may
follow. `get_directories` cuts at the last slash of all, `get_file` starts at
the last component, so the two agree only if nothing follows it.
-/

namespace Dandelion.FileSystem

open Foundation.Words

variable {path front name : Path} {k : Nat}

section Components

theorem components_slash (path : Path) : components (slash :: path) = components path := by
  have hAdvance : getComponentAdvance (slash :: path) = getComponentAdvance path := by
    have hDrop : (slash :: path).dropWhile (fun c => decide (c = slash)) = path.dropWhile
        fun c => decide (c = slash) :=
      List.dropWhile_cons_of_pos (by decide)
    rw [getComponentAdvance, getNextComponent, hDrop]
    rfl
  by_cases h : (getComponentAdvance path).1 = []
  · rw [components, List.length_cons, componentsWithin, if_pos (hAdvance ▸ h), components]
    cases path with
    | nil => rfl
    | cons c path => rw [List.length_cons, componentsWithin, if_pos h]
  · rw [components_cons h, components_cons (hAdvance ▸ h), hAdvance]

theorem components_name (hne : name ≠ []) (hSlash : slash ∉ name)
    (hRest : path = [] ∨ ∃ q, path = slash :: q) :
    components (name ++ path) = name :: components path := by
  have hAll : ∀ c ∈ name, decide (c ≠ slash) = true :=
    fun c hc => decide_eq_true fun h => hSlash (h ▸ hc)
  have hStart : (name ++ path).dropWhile (fun c => decide (c = slash)) = name ++ path := by
    cases name with
    | nil => exact absurd rfl hne
    | cons c name => exact List.dropWhile_cons_of_neg (by simpa using hAll c List.mem_cons_self)
  have hTake : path.takeWhile (fun c => decide (c ≠ slash)) = [] ∧
      path.dropWhile (fun c => decide (c ≠ slash)) = path := by
    rcases hRest with rfl | ⟨q, rfl⟩
    · exact ⟨rfl, rfl⟩
    · exact ⟨List.takeWhile_cons_of_neg (by decide), List.dropWhile_cons_of_neg (by decide)⟩
  have hAdvance : getComponentAdvance (name ++ path) = (name, path) := by
    rw [getComponentAdvance, getNextComponent, hStart, List.takeWhile_append_of_pos hAll,
      List.dropWhile_append_of_pos hAll, hTake.1, hTake.2, List.append_nil]
  rw [components_cons (by rw [hAdvance]; exact hne), hAdvance]

theorem components_nil : components [] = [] := rfl

theorem components_slashes (k : Nat) : components (List.replicate k slash) = [] := by
  induction k with
  | zero => rfl
  | succ k ih => rw [List.replicate_succ, components_slash, ih]

theorem components_append (front path : Path) :
    components (front ++ slash :: path) = components front ++ components path := by
  induction hLength : front.length using Nat.strongRecOn generalizing front with
  | ind n ih =>
    cases front with
    | nil => exact components_slash path
    | cons c front =>
      by_cases hc : c = slash
      · subst hc
        rw [List.cons_append, components_slash, components_slash]
        exact ih front.length (by rw [← hLength]; exact Nat.lt_succ_self _) front rfl
      · -- the first component, up to the slash that ends it
        obtain ⟨first, rest, hSplit, hne, hSlash, hStop⟩ :
            ∃ first rest, c :: front = first ++ rest ∧ first ≠ [] ∧
            slash ∉ first ∧ (rest = [] ∨ ∃ q, rest = slash :: q) := by
          by_cases hMem : slash ∈ c :: front
          · obtain ⟨first, q, hSplit, hSlash⟩ := List.eq_append_cons_of_mem hMem
            refine ⟨first, slash :: q, hSplit, ?_, hSlash, Or.inr ⟨q, rfl⟩⟩
            rintro rfl
            exact hc (List.cons.inj hSplit).1
          · exact ⟨c :: front, [], (List.append_nil _).symm, List.cons_ne_nil _ _, hMem, Or.inl rfl⟩
        have hShort : rest.length < n := by
          have hLengths := congrArg List.length hSplit
          rw [List.length_append, hLength] at hLengths
          have hPositive := List.length_pos_iff.mpr hne
          omega
        have hStop' : rest ++ slash :: path = [] ∨ ∃ q, rest ++ slash :: path = slash :: q := by
          rcases hStop with h | ⟨q, h⟩
          · exact Or.inr ⟨path, by rw [h]; rfl⟩
          · exact Or.inr ⟨q ++ slash :: path, by rw [h]; rfl⟩
        rw [hSplit, List.append_assoc, components_name hne hSlash hStop',
          components_name hne hSlash hStop, ih rest.length hShort rest rfl, List.cons_append]

end Components

section Forms

def Front (front : Path) : Prop := front = [] ∨ ∃ q, front = q ++ [slash]

theorem path_forms (path : Path) : (∃ k, path = List.replicate k slash) ∨
    ∃ front name k, path = front ++ name ++ List.replicate k slash ∧ Front front ∧ name ≠ [] ∧
      slash ∉ name := by
  induction path using List.reverseRecOn with
  | nil => exact Or.inl ⟨0, rfl⟩
  | append_singleton path c ih =>
    by_cases hc : c = slash
    · subst hc
      rcases ih with ⟨k, rfl⟩ | ⟨front, name, k, rfl, h⟩
      · exact Or.inl ⟨k + 1, List.replicate_succ'.symm⟩
      · exact Or.inr ⟨front, name, k + 1, by rw [List.replicate_succ', ← List.append_assoc], h⟩
    · refine Or.inr ?_
      have hOne : slash ∉ [c] := by simpa using Ne.symm hc
      rcases ih with ⟨k, rfl⟩ | ⟨front, name, k, rfl, hFront, hne, hSlash⟩
      · cases k with
        | zero => exact ⟨[], [c], 0, rfl, Or.inl rfl, List.cons_ne_nil _ _, hOne⟩
        | succ k =>
          refine ⟨_, [c], 0, (List.append_nil _).symm,
            Or.inr ⟨List.replicate k slash, List.replicate_succ'⟩, List.cons_ne_nil _ _, hOne⟩
      · cases k with
        | zero =>
          refine ⟨front, name ++ [c], 0, by simp, hFront, by simp, fun h => ?_⟩
          rcases List.mem_append.mp h with h | h
          · exact hSlash h
          · exact hOne h
        | succ k =>
          refine ⟨_, [c], 0, (List.append_nil _).symm,
            Or.inr ⟨front ++ name ++ List.replicate k slash, ?_⟩, List.cons_ne_nil _ _, hOne⟩
          rw [List.replicate_succ', ← List.append_assoc]

theorem Front.components_append (h : Front front) (hne : name ≠ []) (hSlash : slash ∉ name) :
    components (front ++ name ++ List.replicate k slash) = components front ++ [name] := by
  have hName : components (name ++ List.replicate k slash) = [name] := by
    rw [components_name hne hSlash, components_slashes]
    cases k with
    | zero => exact Or.inl rfl
    | succ k => exact Or.inr ⟨_, List.replicate_succ⟩
  rcases h with rfl | ⟨q, rfl⟩
  · exact hName
  · rw [List.append_assoc, List.append_assoc, List.singleton_append,
      FileSystem.components_append, hName, FileSystem.components_append q [], components_nil,
      List.append_nil]

end Forms

section Splits

theorem lastSlash_fold (hSlash : slash ∉ name) (n : Nat) (last : Int) :
    (name.zipIdx n).foldl (fun last c => if c.1 = slash then toInt32 c.2 else last) last =
    last := by
  induction name generalizing n with
  | nil => rfl
  | cons c name ih =>
    rw [List.mem_cons, not_or] at hSlash
    rw [List.zipIdx_cons, List.foldl_cons, if_neg (Ne.symm hSlash.1), ih hSlash.2]

theorem getDirectories_name (hSlash : slash ∉ name) : getDirectories name = [] := by
  rw [getDirectories, lastSlash, lastSlash_fold hSlash, if_neg (by decide), List.take_zero]

theorem getDirectories_append (hSlash : slash ∉ name) (hShort : front.length < fsPathLength) :
    getDirectories (front ++ slash :: name) = front := by
  have hLast : lastSlash (front ++ slash :: name) = front.length := by
    unfold fsPathLength at hShort
    rw [lastSlash, List.zipIdx_append, List.foldl_append, List.zipIdx_cons, List.foldl_cons,
      if_pos rfl, lastSlash_fold hSlash, Nat.zero_add, toInt32_of_small (by omega) (by omega)]
  rw [getDirectories, hLast, Int.toNat_natCast]
  split
  · exact List.take_left
  · rename_i h
    have hEmpty : front = [] := List.eq_nil_of_length_eq_zero (by omega)
    rw [List.take_zero, hEmpty]

variable {test : UInt8 → Bool} {i : Nat}

theorem countDown_run (h : ∀ j, i < j → j ≤ i + k → test (path.getD j 0) = true) :
    countDown test path (i + k) = countDown test path i := by
  induction k with
  | zero => rfl
  | succ k ih =>
    rw [← Nat.add_assoc, countDown, if_pos (h _ (by omega) (by omega))]
    exact ih fun j hLow hHigh => h j hLow (by omega)

theorem countDown_stop (h : i = 0 ∨ test (path.getD i 0) = false) : countDown test path i = i := by
  cases i with
  | zero => rfl
  | succ i =>
    rcases h with h | h
    · cases h
    · rw [countDown, if_neg (by rw [h]; decide)]

theorem getD_name (hSlash : slash ∉ name) {j : Nat} (hLow : front.length ≤ j)
    (hHigh : j < front.length + name.length) :
    (front ++ name ++ List.replicate k slash).getD j 0 ≠ slash := by
  rw [List.getD_append _ _ _ _ (by rw [List.length_append]; exact hHigh),
    List.getD_append_right _ _ _ _ hLow, List.getD_eq_getElem _ _ (by omega)]
  exact fun h => hSlash (h ▸ List.getElem_mem _)

theorem getD_slashes {j : Nat} (hLow : path.length ≤ j) (hHigh : j < path.length + k) :
    (path ++ List.replicate k slash).getD j 0 = slash := by
  rw [List.getD_append_right _ _ _ _ hLow,
    List.getD_eq_getElem _ _ (by rw [List.length_replicate]; omega), List.getElem_replicate]

theorem Front.getFile_eq (h : Front front) (hne : name ≠ []) (hSlash : slash ∉ name) :
    getFile (front ++ name ++ List.replicate k slash) = some (name ++ List.replicate k slash) := by
  set path := front ++ name ++ List.replicate k slash with hPath
  have hName := List.length_pos_iff.mpr hne
  have hLength : path.length = front.length + name.length + k := by
    rw [hPath, List.length_append, List.length_append, List.length_replicate]
  have hEnd : countDown (fun c => decide (c = slash)) path (path.length - 1) =
      front.length + name.length - 1 := by
    rw [hLength,
      show front.length + name.length + k - 1 = front.length + name.length - 1 + k by omega,
      countDown_run fun j hLow hHigh => ?_, countDown_stop (Or.inr ?_)]
    · exact decide_eq_false (getD_name hSlash (by omega) (by omega))
    · exact decide_eq_true
        (getD_slashes (by rw [List.length_append]; omega) (by rw [List.length_append]; omega))
  have hRun : ∀ j, front.length ≤ j → j ≤ front.length + name.length - 1 →
      decide (path.getD j 0 ≠ slash) = true :=
    fun j hLow hHigh => decide_eq_true (getD_name hSlash hLow (by omega))
  rw [getFile, if_neg (by omega)]
  simp only [hEnd]
  rcases h with rfl | ⟨q, rfl⟩
  · have hStart :
        countDown (fun c => decide (c ≠ slash)) path (([] : Path).length + name.length - 1) =
          0 := by
      rw [List.length_nil, Nat.zero_add, show name.length - 1 = 0 + (name.length - 1) by omega,
        countDown_run fun j _ hHigh => hRun j (Nat.zero_le j) (by rw [List.length_nil]; omega)]
      rfl
    rw [hStart, if_neg (of_decide_eq_true (hRun 0 (Nat.zero_le 0) (Nat.zero_le _))),
      List.drop_zero, hPath, List.nil_append]
  · have hAt : path.getD q.length 0 = slash := by
      rw [hPath, List.append_assoc, List.append_assoc,
        List.getD_append_right _ _ _ _ (Nat.le_refl _), Nat.sub_self]
      rfl
    have hStart : countDown (fun c => decide (c ≠ slash)) path
        ((q ++ [slash]).length + name.length - 1) = q.length := by
      rw [List.length_append, List.length_singleton] at hRun ⊢
      rw [show q.length + 1 + name.length - 1 = q.length + name.length by omega,
        countDown_run fun j hLow hHigh => hRun j (by omega) (by omega), countDown_stop (Or.inr ?_)]
      exact decide_eq_false (not_not.mpr hAt)
    rw [hStart, if_pos hAt, hPath, List.append_assoc,
      List.drop_left' (by rw [List.length_append, List.length_singleton])]

theorem getFile_slashes (k : Nat) :
    getFile (List.replicate (k + 1) slash) = some (List.replicate k slash) := by
  have hAt : ∀ j ≤ k, (List.replicate (k + 1) slash).getD j 0 = slash := fun j hj => by
    rw [List.getD_eq_getElem _ _ (by rw [List.length_replicate]; omega), List.getElem_replicate]
  have hEnd : countDown (fun c => decide (c = slash)) (List.replicate (k + 1) slash) k = 0 := by
    have hRun : countDown (fun c => decide (c = slash)) (List.replicate (k + 1) slash)
        (0 + k) = _ :=
      countDown_run fun j _ hj => decide_eq_true (hAt j (by omega))
    rwa [Nat.zero_add] at hRun
  rw [getFile, if_neg (by rw [List.length_replicate]; omega)]
  simp only [List.length_replicate, Nat.add_sub_cancel, hEnd]
  rw [countDown_stop (Or.inl rfl), if_pos (hAt 0 (Nat.zero_le k)), List.drop_replicate]
  rfl

/-- A path that ends with its last component: both splits cut in front of it. -/
structure EndsPlain (path : Path) (dirs : List Path) (last : Path) : Prop where
  components : components path = dirs ++ [last]
  directories : FileSystem.components (getDirectories path) = dirs
  found : getFile path = some last
  proper : last ≠ [] ∧ slash ∉ last
  ends : path.getLast? ≠ some slash

/-- A path with slashes at its end: `get_directories` keeps the last component, and `get_file` the
slashes. -/
structure EndsSlash (path file : Path) : Prop where
  directories : components (getDirectories path) = components path
  found : getFile path = some file
  last : components file = (components path).getLast?.toList
  proper : file ≠ [dot] ∧ file ≠ [dot, dot]
  ends : path.getLast? = some slash

theorem EndsPlain.components_last {dirs : List Path} {last : Path} (h : EndsPlain path dirs last) :
    FileSystem.components last = [last] := by
  have hName := components_name h.proper.1 h.proper.2 (Or.inl rfl)
  rwa [List.append_nil] at hName

theorem ends_cases (hne : path ≠ []) (hShort : path.length < fsPathLength) :
    (∃ dirs last, EndsPlain path dirs last) ∨ ∃ file, EndsSlash path file := by
  rcases path_forms path with ⟨k, rfl⟩ | ⟨front, name, k, rfl, hFront, hName, hSlash⟩
  · cases k with
    | zero => exact absurd rfl hne
    | succ k =>
      refine Or.inr ⟨List.replicate k slash, ?_, getFile_slashes k, ?_, ?_, ?_⟩
      · rw [List.length_replicate] at hShort
        rw [List.replicate_succ', getDirectories_append List.not_mem_nil
          (by rw [List.length_replicate]; omega), ← List.replicate_succ', components_slashes,
          components_slashes]
      · rw [components_slashes, components_slashes]
        rfl
      · constructor
        · exact fun h =>
            absurd (List.eq_of_mem_replicate (h ▸ List.mem_singleton.mpr rfl : dot ∈ _)) (by decide)
        · exact fun h => absurd (List.eq_of_mem_replicate (h ▸ List.mem_cons_self : dot ∈ _))
            (by decide)
      · rw [List.replicate_succ', List.getLast?_append]
        rfl
  · have hAll := hFront.components_append (k := k) hName hSlash
    have hFile := hFront.getFile_eq (k := k) hName hSlash
    cases k with
    | zero =>
      rw [List.replicate_zero, List.append_nil] at hAll ⊢
      rw [List.replicate_zero, List.append_nil, List.append_nil] at hFile
      refine Or.inl ⟨components front, name, hAll, ?_, hFile, ⟨hName, hSlash⟩, fun h => hSlash ?_⟩
      · rcases hFront with rfl | ⟨q, rfl⟩
        · rw [List.nil_append, getDirectories_name hSlash]
        · simp only [List.length_append] at hShort
          rw [List.append_assoc, List.singleton_append, getDirectories_append hSlash (by omega),
            components_append q [], components_nil, List.append_nil]
      · rw [List.getLast?_append_of_ne_nil _ hName] at h
        exact List.mem_of_getLast? h
    | succ k =>
      have hCut : front ++ name ++ List.replicate (k + 1) slash =
          front ++ name ++ List.replicate k slash ++ [slash] := by
        rw [List.replicate_succ', List.append_assoc _ (List.replicate k slash)]
      have hLast : components (name ++ List.replicate (k + 1) slash) = [name] :=
        by
        have hAlone : Front [] := Or.inl rfl
        exact hAlone.components_append hName hSlash
      refine Or.inr ⟨name ++ List.replicate (k + 1) slash, ?_, hFile, ?_, ?_, ?_⟩
      · rw [hCut, List.length_append, List.length_singleton] at hShort
        rw [hAll, hCut, getDirectories_append List.not_mem_nil (by omega),
          hFront.components_append hName hSlash]
      · rw [hAll, hLast, List.getLast?_append]
        rfl
      · have hMem : slash ∈ name ++ List.replicate (k + 1) slash :=
          List.mem_append_right _ (List.mem_replicate.mpr ⟨Nat.succ_ne_zero k, rfl⟩)
        constructor
        · exact fun h => absurd (h ▸ hMem) (by decide)
        · exact fun h => absurd (h ▸ hMem) (by decide)
      · rw [hCut, List.getLast?_append]
        rfl

end Splits

end Dandelion.FileSystem
