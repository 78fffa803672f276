import Dandelion.FileSystem.StreamFronts

/-! # Entries and their names

Reading a directory that stays as it is returns its entries in order, also after
a return to an earlier position. Of a name 63 bytes are copied, the byte after
them is left as it was, and the terminator is stored behind the array.
-/

namespace Dandelion.FileSystem

open Foundation.Runs Foundation.Triples

structure DirStream where
  dir : Ptr
  child : Nat
  deriving DecidableEq

def dandelionTelldir (x : DirStream) : Nat := x.child

def dandelionSeekdir (x : DirStream) (index : Nat) : DirStream := { x with child := index }

def dNameSize : Nat := 64

def Dirent.stores (e : Dirent) : Stores :=
  let maxNameLength := min 256 fsNameLength
  (Stores.put (fun _ => none) 0 ((List.range (maxNameLength - 1)).map fun i =>
    e.dName.getD i 0)).put maxNameLength [0]

/-- The string in `d_name` after the call, given what was there before. -/
def Dirent.string (e : Dirent) (before : Nat → UInt8) : List UInt8 :=
  trim ((List.range dNameSize).map fun i : Nat => (e.stores i).getD (before i)) dNameSize

/-- Calls on a stream, each one in the state that the program has come to by then. -/
def readdirs : DirStream → List State → Except Fault (List (Option Dirent) × DirStream)
  | x, [] => .ok ([], x)
  | x, s :: rest => do
    let ((_, child, entry), _) ← dandelionReaddir x.dir x.child s
    let (entries, y) ← readdirs { x with child := child } rest
    pure (entry :: entries, y)

def direntAt (m : Memory) (l : List Ptr) (index : Nat) : Option Dirent :=
  l[index]?.bind fun p => (m.files p).map fun f =>
    ⟨index, 0, if f.type = .file then dtREG else dtDIR, f.name.take (min 256 fsNameLength - 1)⟩

/-- A state that the program comes to while the directory stays as it is. -/
def Still (P : Platform) (s : State) (d : Ptr) (t : State) : Prop :=
  (∃ y, Reachable (Started P) (Proceeds P) y ∧ y.state = t) ∧ isDirectory t.memory d = true ∧
    entriesAt t.memory d = entriesAt s.memory d ∧
    ∀ p ∈ entriesAt s.memory d, nameOf t.memory p = nameOf s.memory p

/-- Every child is returned once, in order, and then the end is reported. -/
def ReturnsInOrder (P : Platform) (s : State) (d : Ptr) : Prop :=
  ∀ states, (∀ t ∈ states, Still P s d t) → readdirs ⟨d, 0⟩ states =
    .ok (states.mapIdx fun i t => direntAt t.memory (entriesAt s.memory d) i,
      ⟨d, min states.length (entriesAt s.memory d).length⟩)

/-- From a position that was told, the stream goes on as it did. -/
def Resumes (P : Platform) (s : State) (d : Ptr) : Prop :=
  ∀ first between rest, (∀ t ∈ first ++ between ++ rest, Still P s d t) → ∃ a b c x y z z',
    readdirs ⟨d, 0⟩ first = .ok (a, x) ∧ readdirs x between = .ok (b, y) ∧
      readdirs x rest = .ok (c, z) ∧
      readdirs (dandelionSeekdir y (dandelionTelldir x)) rest = .ok (c, z')

/-- The strings are the names, for structures with this content. -/
def NamesExact (P : Platform) (s : State) (d : Ptr) (before : Nat → UInt8) : Prop :=
  ∀ t i p e, Still P s d t → (entriesAt s.memory d)[i]? = some p →
    dandelionReaddir d i t = .ok ((0, i + 1, some e), t) → e.string before = entryName s.memory p

def StoresInside (P : Platform) (s : State) (d : Ptr) : Prop :=
  ∀ t i e, Still P s d t → dandelionReaddir d i t = .ok ((0, i + 1, some e), t) →
    ∀ j, e.stores j ≠ none → 0 ≤ j ∧ j < dNameSize

structure ReaddirLaw (P : Platform) (s : State) (d : Ptr) : Prop where
  order : ReturnsInOrder P s d
  resumes : Resumes P s d
  names : ∀ before, NamesExact P s d before
  inside : StoresInside P s d

variable {P : Platform} {s t : State} {L : Ptr → List Ptr} {d p : Ptr} {f : DFile} {l : List Ptr}
  {e : Dirent} {before : Nat → UInt8} {name : List UInt8}

section Strings

theorem trim_eq_range (name : List UInt8) (bound : Nat) :
    trim name bound = ((List.range bound).map fun i => name.getD i 0).takeWhile (· ≠ 0) := by
  have hPad : (List.range bound).map (fun i => name.getD i 0) =
      name.take bound ++ List.replicate (bound - name.length) 0 := by
    refine List.ext_getElem (by simp; omega) fun i hi _ => ?_
    rw [List.length_map, List.length_range] at hi
    rw [List.getElem_map, List.getElem_range]
    by_cases hName : i < name.length
    · rw [List.getElem_append_left (by simp; omega), List.getElem_take,
        List.getD_eq_getElem _ _ hName]
    · rw [List.getElem_append_right (by simp; omega), List.getElem_replicate,
        List.getD_eq_default _ _ (Nat.not_lt.mp hName)]
  rw [hPad, trim, List.takeWhile_append]
  split
  · rename_i hAll
    have hNone : (List.replicate (bound - name.length) (0 : UInt8)).takeWhile (· ≠ 0) = [] := by
      cases bound - name.length with
      | zero => rfl
      | succ k => rfl
    rw [hNone, List.append_nil, List.takeWhile_eq_self_iff.mpr]
    exact List.takeWhile_eq_self_iff.mp ((List.takeWhile_prefix _).eq_of_length hAll)
  · rfl

theorem takeWhile_last_iff (a : List UInt8) (x y : UInt8) :
    (a ++ [x]).takeWhile (· ≠ 0) = (a ++ [y]).takeWhile (· ≠ 0) ↔
    ((a ++ [y]).takeWhile (· ≠ 0)).length < a.length ∨ x = y := by
  by_cases hAll : ∀ b ∈ a, b ≠ 0
  · have hOne : ∀ z : UInt8, (a ++ [z]).takeWhile (· ≠ 0) = a ++ if z = 0 then [] else [z] := by
      intro z
      rw [List.takeWhile_append_of_pos fun b hb => by simpa using hAll b hb]
      by_cases hz : z = 0
      · rw [if_pos hz, List.takeWhile_cons_of_neg (by simp [hz])]
      · rw [if_neg hz, List.takeWhile_cons_of_pos (by simp [hz]), List.takeWhile_nil]
    rw [hOne, hOne, List.append_cancel_left_eq]
    constructor
    · intro hSame
      refine Or.inr ?_
      by_cases hx : x = 0
      · by_cases hy : y = 0
        · rw [hx, hy]
        · rw [if_pos hx, if_neg hy] at hSame
          cases hSame
      · by_cases hy : y = 0
        · rw [if_neg hx, if_pos hy] at hSame
          cases hSame
        · rw [if_neg hx, if_neg hy] at hSame
          exact (List.cons.inj hSame).1
    · rintro (hShort | rfl)
      · rw [List.length_append] at hShort
        omega
      · rfl
  · have hSame : ∀ z : UInt8, (a ++ [z]).takeWhile (· ≠ 0) = a.takeWhile (· ≠ 0) ∧
        (a.takeWhile (· ≠ 0)).length < a.length := by
      intro z
      have hLt : (a.takeWhile (· ≠ 0)).length < a.length := by
        refine Nat.lt_of_le_of_ne (List.takeWhile_prefix _).length_le fun hLength => hAll ?_
        have hWhole :=
          (List.takeWhile_prefix (p := fun b : UInt8 => decide (b ≠ 0))).eq_of_length hLength
        intro b hb
        simpa using List.takeWhile_eq_self_iff.mp hWhole b hb
      rw [List.takeWhile_append, if_neg (Nat.ne_of_lt hLt)]
      exact ⟨rfl, hLt⟩
    rw [(hSame x).1, (hSame y).1]
    exact ⟨fun _ => Or.inl (hSame y).2, fun _ => rfl⟩

theorem stores_low {i : Nat} (hi : i < 63) : e.stores i = some (e.dName.getD i 0) := by
  have hName : min 256 fsNameLength = 64 := by decide
  simp only [Dirent.stores, hName, Stores.put, List.length_cons, List.length_nil, List.length_map,
    List.length_range]
  rw [if_neg (by omega), if_pos (by omega)]
  simp [List.getD_eq_getElem?_getD, hi]

theorem stores_last : e.stores (63 : Nat) = none := by
  have hName : min 256 fsNameLength = 64 := by decide
  simp only [Dirent.stores, hName, Stores.put, List.length_cons, List.length_nil, List.length_map,
    List.length_range]
  rw [if_neg (by omega), if_neg (by omega)]

theorem stores_outside : e.stores (64 : Nat) = some 0 := by
  have hName : min 256 fsNameLength = 64 := by decide
  simp only [Dirent.stores, hName, Stores.put, List.length_cons, List.length_nil]
  rw [if_pos (by omega)]
  rfl

/-- The string is the name exactly if the name ends among the bytes that are copied, or
the last byte of the array happens to be right. -/
theorem string_iff (name : List UInt8) (hName : e.dName = name.take 63) :
    e.string before = trim name fsNameLength ↔ (trim name fsNameLength).length < 63 ∨
      before 63 = name.getD 63 0 := by
  have hRange : List.range 64 = List.range 63 ++ [63] := List.range_succ
  have hFront : ((List.range 63).map fun i : Nat => (e.stores i).getD (before i)) =
      (List.range 63).map fun i => name.getD i 0 := by
    refine List.map_congr_left fun i hi => ?_
    rw [List.mem_range] at hi
    rw [stores_low hi, Option.getD_some, hName]
    simp [List.getD_eq_getElem?_getD, hi]
  have hBytes : ((List.range dNameSize).map fun i : Nat => (e.stores i).getD (before i)) =
      ((List.range 63).map fun i => name.getD i 0) ++ [before 63] := by
    rw [dNameSize, hRange, List.map_append, hFront, List.map_singleton, stores_last,
      Option.getD_none]
  have hLeft : e.string before =
      (((List.range 63).map fun i => name.getD i 0) ++ [before 63]).takeWhile (· ≠ 0) := by
    rw [Dirent.string, hBytes, trim, List.take_of_length_le (by simp [dNameSize])]
  have hRight : trim name fsNameLength =
      (((List.range 63).map fun i => name.getD i 0) ++ [name.getD 63 0]).takeWhile (· ≠ 0) := by
    rw [trim_eq_range, show fsNameLength = 64 from rfl, hRange, List.map_append, List.map_singleton]
  rw [hLeft, hRight, takeWhile_last_iff, List.length_map, List.length_range]

end Strings

section Reading

theorem readdir_some {i : Nat} (h : Listing P t.memory L) (hd : isDirectory t.memory d = true)
    (hp : (L d)[i]? = some p) :
    ∃ f e, t.memory.files p = some f ∧ direntAt t.memory (L d) i = some e ∧
      e.dName = f.name.take 63 ∧
      dandelionReaddir d i t = .ok ((0, i + 1, some e), t) := by
  obtain ⟨f, hf, -⟩ := h.live (List.mem_of_getElem? hp)
  refine ⟨f, _, hf, ?_, rfl, dandelionReaddir_entry h hd hp hf⟩
  rw [direntAt, hp, Option.bind_some, hf, Option.map_some]

theorem readdirs_ok {states : List State} (hStates : ∀ t ∈ states, ∃ L, Listing P t.memory L ∧
      isDirectory t.memory d = true ∧ L d = l) (k : Nat) :
    readdirs ⟨d, min k l.length⟩ states =
      .ok (states.mapIdx fun i t => direntAt t.memory l (k + i),
        ⟨d, min (k + states.length) l.length⟩) := by
  induction states generalizing k with
  | nil => rfl
  | cons t rest ih =>
    obtain ⟨L, hListing, hd, rfl⟩ := hStates t List.mem_cons_self
    have hRest := ih (fun t ht => hStates t (List.mem_cons_of_mem _ ht)) (k + 1)
    have hIndex : ∀ i, k + 1 + i = k + (i + 1) := fun i => by omega
    simp only [hIndex] at hRest
    rw [List.mapIdx_cons, List.length_cons, readdirs, Nat.add_zero]
    cases hp : (L d)[k]? with
    | some p =>
      obtain ⟨f, e, -, hEntry, -, hRun⟩ := readdir_some hListing hd hp
      obtain ⟨hLt, -⟩ := List.getElem?_eq_some_iff.mp hp
      rw [Nat.min_eq_left (show k + 1 ≤ (L d).length from hLt)] at hRest
      dsimp only
      rw [Nat.min_eq_left (Nat.le_of_lt hLt), hRun, hEntry]
      change (readdirs ⟨d, k + 1⟩ rest >>= _ : Except Fault _) = _
      rw [hRest]
      rfl
    | none =>
      have hLe := List.getElem?_eq_none_iff.mp hp
      obtain ⟨r, hRun⟩ := dandelionReaddir_end hListing hd (le_refl (L d).length)
      rw [Nat.min_eq_right (Nat.le_succ_of_le hLe)] at hRest
      dsimp only
      rw [Nat.min_eq_right hLe, hRun, direntAt, hp, Option.bind_none]
      change (readdirs ⟨d, (L d).length⟩ rest >>= _ : Except Fault _) = _
      rw [hRest]
      rfl

variable (hP : P.Linkable)

include hP

theorem Still.listing (h : Still P s d t) :
    ∃ L, Listing P t.memory L ∧ isDirectory t.memory d = true ∧ L d = entriesAt s.memory d := by
  obtain ⟨⟨y, hy, rfl⟩, hd, hSame, -⟩ := h
  obtain ⟨L, hSteady⟩ := steady_of_reachable hP hy
  exact ⟨L, hSteady.listing, hd, (entriesAt_eq hSteady.listing hd).symm.trans hSame⟩

theorem returnsInOrder : ReturnsInOrder P s d := by
  intro states hStates
  have hRun := readdirs_ok (fun t ht => (hStates t ht).listing hP) 0
  simp only [Nat.zero_add, Nat.zero_min] at hRun
  exact hRun

theorem resumes : Resumes P s d := by
  intro first between rest hStates
  have hMem : ∀ t, t ∈ first ∨ t ∈ between ∨ t ∈ rest →
      ∃ L, Listing P t.memory L ∧ isDirectory t.memory d = true ∧
      L d = entriesAt s.memory d := by
    intro t ht
    refine (hStates t ?_).listing hP
    simp only [List.mem_append]
    tauto
  have hFirst := readdirs_ok (fun t ht => hMem t (Or.inl ht)) 0
  rw [Nat.zero_min, Nat.zero_add] at hFirst
  have hBetween := readdirs_ok (fun t ht => hMem t (Or.inr (Or.inl ht))) first.length
  have hRest := readdirs_ok (fun t ht => hMem t (Or.inr (Or.inr ht))) first.length
  exact ⟨_, _, _, _, _, _, _, hFirst, hBetween, hRest, hRest⟩

theorem namesExact_iff (hs : Still P s d s) : NamesExact P s d before ↔ ∀ p ∈ entriesAt s.memory d,
    (entryName s.memory p).length < 63 ∨ before 63 = (nameOf s.memory p).getD 63 0 := by
  constructor
  · intro hExact p hp
    obtain ⟨i, hi, hAt⟩ := List.mem_iff_getElem.mp hp
    have hAt? : (entriesAt s.memory d)[i]? = some p := by rw [List.getElem?_eq_getElem hi, hAt]
    obtain ⟨L, hListing, hd, hL⟩ := hs.listing hP
    obtain ⟨f, e, hf, -, hName, hRun⟩ := readdir_some hListing hd (hL ▸ hAt?)
    have hSame := hExact s i p e hs hAt? hRun
    rw [entryName_of hf] at hSame ⊢
    rw [nameOf_of hf]
    exact (string_iff f.name hName).mp hSame
  · intro hBytes t i p e ht hAt hRun
    obtain ⟨L, hListing, hd, hL⟩ := ht.listing hP
    obtain ⟨f, e', hf, -, hName, hRun'⟩ := readdir_some hListing hd (hL ▸ hAt)
    obtain rfl : e = e' := by
      rw [hRun'] at hRun
      injection hRun with hPair
      injection hPair with hFirst
      injection hFirst with _ hSecond
      injection hSecond with _ hThird
      exact (Option.some.inj hThird).symm
    have hp := List.mem_of_getElem? hAt
    have hOld := ht.2.2.2 p hp
    rw [nameOf_of hf] at hOld
    have hByte := hBytes p hp
    rw [entryName, ← hOld] at hByte ⊢
    exact (string_iff f.name hName).mpr hByte

theorem storesInside_iff (hs : Still P s d s) : StoresInside P s d ↔ entriesAt s.memory d = [] := by
  constructor
  · intro hInside
    by_contra hne
    obtain ⟨p, l, hl⟩ := List.exists_cons_of_ne_nil hne
    obtain ⟨L, hListing, hd, hL⟩ := hs.listing hP
    obtain ⟨f, e, -, -, -, hRun⟩ := readdir_some (i := 0) hListing hd (by rw [hL, hl]; rfl)
    have hOut :=
      hInside s 0 e hs hRun (64 : Nat) (by rw [stores_outside]; exact Option.some_ne_none _)
    exact absurd hOut.2 (by decide)
  · intro hEmpty t i e ht hRun
    obtain ⟨L, hListing, hd, hL⟩ := ht.listing hP
    have hPast : (L d).length ≤ i := by
      rw [hL, hEmpty]
      exact Nat.zero_le i
    obtain ⟨r, hEnd⟩ := dandelionReaddir_end hListing hd hPast
    rw [hEnd] at hRun
    cases hRun

end Reading

section Law

theorem still_of_opendir {x : Session} (hP : P.Linkable) (hx : Reachable (Started P) (Proceeds P) x)
    (hOpen : dandelionOpendir P name x.state = .ok ((0, d), s)) : Still P s d s := by
  have hStep : Proceeds P x (.call (.opendir name)) ⟨s, d :: x.dirs⟩ := by
    change (dandelionOpendir P name >>= _) x.state = _
    rw [bind_ok hOpen]
    rfl
  refine ⟨⟨_, .step hx hStep, rfl⟩, ?_, rfl, fun _ _ => rfl⟩
  obtain ⟨L, hSteady⟩ := steady_of_reachable hP hx
  have hAll : Ensures (dandelionOpendir P name) x.state fun r s => r.1 = 0 →
      isDirectory s.memory r.2 = true := by
    rw [dandelionOpendir]
    refine (readsOnly_findFile name).seq fun current => ?_
    refine .ite (fun _ => .pure fun h => absurd h (by decide)) fun _ =>
      ensures_file fun f _ hf => ?_
    refine .ite (fun _ => .pure fun h => absurd h (by decide)) fun hType => ?_
    have hd := isDirectory_iff.mpr ⟨f, hf, not_not.mp hType⟩
    exact (modifyFile_directory hd current (by intro _; rfl)).bind fun _ s₃ h₃ => .pure fun _ => h₃
  exact hAll.result hOpen rfl

/-- A stream opened in any state that is reached returns the entries in order and resumes.
The names are exact if each is shorter than what is copied or the byte behind that is
right, and what is stored is inside only in an empty directory. -/
theorem readdir_law_iff {x : Session} (hP : P.Linkable) (hx : Reachable (Started P) (Proceeds P) x)
    (hOpen : dandelionOpendir P name x.state = .ok ((0, d), s)) :
    (ReaddirLaw P s d ↔ entriesAt s.memory d = []) ∧ ReturnsInOrder P s d ∧ Resumes P s d ∧
      ∀ before, NamesExact P s d before ↔ ∀ p ∈ entriesAt s.memory d,
        (entryName s.memory p).length < 63 ∨ before 63 = (nameOf s.memory p).getD 63 0 := by
  have hs := still_of_opendir hP hx hOpen
  refine ⟨⟨fun hLaw => (storesInside_iff hP hs).mp hLaw.inside, fun hEmpty => ?_⟩,
    returnsInOrder hP, resumes hP, fun before => namesExact_iff hP hs⟩
  refine ⟨returnsInOrder hP, resumes hP, fun before => (namesExact_iff hP hs).mpr fun p hp => ?_,
    (storesInside_iff hP hs).mpr hEmpty⟩
  rw [hEmpty] at hp
  cases hp

/-- A new directory has no entries. -/
theorem readdir_law_empty : ∃ x s d, Reachable (Started (.bump 0)) (Proceeds (.bump 0)) x ∧
    dandelionOpendir (.bump 0) [98] x.state = .ok ((0, d), s) ∧ ReaddirLaw (.bump 0) s d := by
  obtain ⟨x, hx, hTest⟩ := exists_of_bareRun (P := .bump 0) [.mkdir [98] sIRWXU]
    (fun x => passes (dandelionOpendir (.bump 0) [98] x.state) fun r =>
      r.1.1 == 0 && entriesAt r.2.memory r.1.2 == []) (by decide +kernel)
  obtain ⟨⟨⟨code, d⟩, s⟩, hOpen, hBoth⟩ := exists_of_passes hTest
  rw [Bool.and_eq_true, beq_iff_eq, beq_iff_eq] at hBoth
  obtain ⟨hZero, hEmpty⟩ := hBoth
  obtain rfl : code = 0 := hZero
  have hReached := proceeds_of_completes hx
  exact ⟨x, s, d, hReached, hOpen, (readdir_law_iff linkable_bump hReached hOpen).1.mpr hEmpty⟩

/-- A directory with a file whose name has 63 bytes: the terminator is stored behind the
array, and the name goes on with what was in its last byte. -/
theorem readdir_law_fails : ∃ x s d, Reachable (Started (.bump 0)) (Proceeds (.bump 0)) x ∧
    dandelionOpendir (.bump 0) [slash] x.state = .ok ((0, d), s) ∧ ¬ ReaddirLaw (.bump 0) s d ∧
    ¬ StoresInside (.bump 0) s d ∧ ¬ NamesExact (.bump 0) s d fun _ => 1 := by
  obtain ⟨x, hx, hTest⟩ := exists_of_bareRun (P := .bump 0)
    [.openFile (List.replicate 63 97) (oWRONLY ||| oCREAT) sIRWXU]
    (fun x => passes (dandelionOpendir (.bump 0) [slash] x.state) fun r =>
      r.1.1 == 0 && (entriesAt r.2.memory r.1.2).any fun p =>
        decide (63 ≤ (entryName r.2.memory p).length) && (nameOf r.2.memory p).getD 63 0 == 0)
          (by decide +kernel)
  obtain ⟨⟨⟨code, d⟩, s⟩, hOpen, hBoth⟩ := exists_of_passes hTest
  rw [Bool.and_eq_true, beq_iff_eq, List.any_eq_true] at hBoth
  obtain ⟨hZero, p, hp, hName⟩ := hBoth
  obtain rfl : code = 0 := hZero
  rw [Bool.and_eq_true, decide_eq_true_eq, beq_iff_eq] at hName
  have hReached := proceeds_of_completes hx
  have hs := still_of_opendir linkable_bump hReached hOpen
  have hInside : ¬ StoresInside (.bump 0) s d := by
    rw [storesInside_iff linkable_bump hs]
    exact List.ne_nil_of_mem hp
  refine ⟨x, s, d, hReached, hOpen, fun hLaw => hInside hLaw.inside, hInside, fun hExact => ?_⟩
  rcases (namesExact_iff linkable_bump hs).mp hExact p hp with hShort | hByte
  · exact absurd hShort (Nat.not_lt.mpr hName.1)
  · rw [show (nameOf s.memory p).getD 63 0 = 0 from hName.2] at hByte
    exact absurd hByte (by decide)

end Law

end Dandelion.FileSystem
