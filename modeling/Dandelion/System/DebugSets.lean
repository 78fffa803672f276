import Dandelion.System.DebugTerminators

/-! # The strings by which the set folders are opened

All sets are named before the first of their folders is opened, and the items of a
folder are named before the next one is. So the names behind a set are those of the
sets after it and of the items of the sets before it.
-/

namespace Dandelion.System.Debug

variable {K : Kernel} {s : State} {placed : List (Place × List UInt8)} {i j : Nat}
variable {dirents : List Dirent} {items : List Item} {sets : List IoSetInfo}

section Copied

def setNames (dirents : List Dirent) : List (List UInt8) :=
  (dirents.filter fun d => !d.name.isDots).map fun d => d.name.bytes

def itemNames (items : List Item) : List (List UInt8) :=
  (items.filter fun item => !item.name.isDots).map fun item => item.name.bytes.map pretend

/-- The names that are stored for the items of so many sets from one on. -/
def itemsFrom (K : Kernel) (i count : Nat) : List (List UInt8) :=
  (List.range' i count).flatMap fun t => itemNames ((K.openat t).getD [])

def copied (K : Kernel) (dirents : List Dirent) (i : Nat) : List (List UInt8) :=
  setNames dirents ++ itemsFrom K 0 i

variable {s' : State}

theorem Name.fits (n : Name) : n.bytes.length ≤ pageSize := Nat.le_trans n.short (by decide)

theorem Filled.importSets (h : Filled K s placed) (hDirs : ∀ d ∈ dirents, d.type = dtDir) :
    ∃ new s', importSets K dirents s = some (new.map fun x => ⟨x.1.address K, x.2.length⟩, s') ∧
      Filled K s' (placed ++ new) ∧ new.map Prod.snd = setNames dirents := by
  induction dirents generalizing s placed with
  | nil => exact ⟨[], s, rfl, (List.append_nil placed).symm ▸ h, rfl⟩
  | cons d dirents ih =>
    have hRest : ∀ d ∈ dirents, d.type = dtDir := fun d hd => hDirs d (List.mem_cons_of_mem _ hd)
    rw [Debug.importSets, setNames, List.filter_cons]
    cases hDots : d.name.isDots with
    | true => exact ih h hRest
    | false =>
      obtain ⟨p, hp, hFilled⟩ := h.copyName d.name.fits
      obtain ⟨new, s', hRun, hNew, hNames⟩ := ih hFilled hRest
      refine ⟨(p, d.name.bytes) :: new, s', ?_, ?_, ?_⟩
      · rw [if_neg Bool.false_ne_true, if_neg (not_not.mpr (hDirs d List.mem_cons_self))]
        dsimp only
        rw [hRun, hp]
        rfl
      · rwa [List.append_assoc, List.singleton_append] at hNew
      · rw [List.map_cons, hNames]
        rfl

theorem Filled.importItems (h : Filled K s placed) (hRun : importItems K items s = some s') :
    ∃ new, Filled K s' (placed ++ new) ∧ new.map Prod.snd = itemNames items := by
  induction items generalizing s placed with
  | nil =>
    obtain rfl := Option.some.inj hRun
    exact ⟨[], (List.append_nil placed).symm ▸ h, rfl⟩
  | cons item items ih =>
    rw [Debug.importItems] at hRun
    rw [itemNames, List.filter_cons]
    cases hDots : item.name.isDots with
    | true =>
      rw [if_pos hDots] at hRun
      exact ih h hRun
    | false =>
      rw [if_neg (hDots ▸ Bool.false_ne_true)] at hRun
      split at hRun
      · obtain ⟨p, hFilled⟩ := h.copyItemName item.name.fits
        obtain ⟨new, hNew, hNames⟩ := ih hFilled hRun
        refine ⟨(p, item.name.bytes.map pretend) :: new, ?_, ?_⟩
        · rwa [List.append_assoc, List.singleton_append] at hNew
        · rw [List.map_cons, hNames]
          rfl
      · cases hRun

theorem Filled.openSets (h : Filled K s placed) (hOpened : (openSets K i sets s)[j]? = some s') :
    ∃ new, Filled K s' (placed ++ new) ∧ new.map Prod.snd = itemsFrom K i j := by
  induction sets generalizing i j s placed with
  | nil => exact absurd hOpened (by simp [Debug.openSets])
  | cons set sets ih =>
    rw [Debug.openSets] at hOpened
    cases j with
    | zero =>
      obtain rfl := Option.some.inj hOpened
      exact ⟨[], (List.append_nil placed).symm ▸ h, rfl⟩
    | succ j =>
      rw [List.getElem?_cons_succ] at hOpened
      cases hItems : K.openat i with
      | none => exact absurd hOpened (by simp [hItems])
      | some items =>
        cases hImport : Debug.importItems K items s with
        | none => exact absurd hOpened (by simp [hItems, hImport])
        | some r =>
          rw [hItems, Option.bind_some, hImport, Option.elim_some] at hOpened
          obtain ⟨first, hFirst, hFirstNames⟩ := h.importItems hImport
          obtain ⟨new, hNew, hNames⟩ := ih hFirst hOpened
          refine ⟨first ++ new, ?_, ?_⟩
          · rwa [← List.append_assoc]
          · rw [List.map_append, hFirstNames, hNames, itemsFrom, itemsFrom, List.range'_succ,
              List.flatMap_cons, hItems]
            rfl

end Copied

section Opened

/-- The folder can be opened and all its items can be loaded. -/
def Loads (K : Kernel) (i : Nat) : Prop :=
  ∃ items, K.openat i = some items ∧ ∀ item ∈ items, item.loads = true

theorem importItems_some (h : ∀ item ∈ items, item.loads = true) (s : State) :
    ∃ s', importItems K items s = some s' := by
  induction items generalizing s with
  | nil => exact ⟨s, rfl⟩
  | cons item items ih =>
    have hRest := ih fun item hItem => h item (List.mem_cons_of_mem _ hItem)
    rw [importItems, if_pos (h item List.mem_cons_self)]
    split
    · exact hRest s
    · exact hRest _

theorem length_openSets (h : ∀ t, Loads K t) (i : Nat) (s : State) :
    (openSets K i sets s).length = sets.length := by
  induction sets generalizing i s with
  | nil => rfl
  | cons set sets ih =>
    obtain ⟨items, hItems, hLoads⟩ := h i
    obtain ⟨s', hImport⟩ := importItems_some (K := K) hLoads s
    rw [openSets, hItems, Option.bind_some, hImport, Option.elim_some, List.length_cons,
      List.length_cons, ih]

theorem length_openSets_le (K : Kernel) (sets : List IoSetInfo) (i : Nat) (s : State) :
    (openSets K i sets s).length ≤ sets.length := by
  induction sets generalizing i s with
  | nil => exact Nat.le_refl _
  | cons set sets ih =>
    rw [openSets, List.length_cons, List.length_cons]
    refine Nat.succ_le_succ ?_
    cases (K.openat i).bind fun items => importItems K items s with
    | none => exact Nat.zero_le _
    | some s' => exact ih (i + 1) s'

theorem copied_plain (hNames : placed.map Prod.snd = copied K dirents i) : Plain placed := by
  intro x hx
  have hMem : x.2 ∈ copied K dirents i := hNames ▸ List.mem_map_of_mem hx
  rcases List.mem_append.mp hMem with hSet | hItem
  · obtain ⟨d, -, hd⟩ := List.mem_map.mp hSet
    exact hd ▸ ⟨d.name.nonempty, d.name.plain⟩
  · obtain ⟨t, -, ht⟩ := List.mem_flatMap.mp hItem
    obtain ⟨item, -, hEq⟩ := List.mem_map.mp ht
    rw [← hEq]
    refine ⟨fun hNil => item.name.nonempty (List.map_eq_nil_iff.mp hNil), fun hZero => ?_⟩
    obtain ⟨c, hc, hPretend⟩ := List.mem_map.mp hZero
    rw [pretend] at hPretend
    split at hPretend
    · exact absurd hPretend (by decide)
    · exact item.name.plain (hPretend ▸ hc)

/-- The string by which a set folder is opened is the name of its entry. -/
def OpenedByName (K : Kernel) (dirents : List Dirent) (sets : List IoSetInfo) (opened : List State)
    (i : Nat) : Prop :=
  ∀ s set name, opened[i]? = some s → sets[i]? = some set → (setNames dirents)[i]? = some name →
    StringAt (s.read K i) set.ident name

/-- Whatever the folders hold, the sets that are opened are opened by their names exactly if these
are terminated among the names copied before. -/
theorem set_names_survive_iff (K : Kernel) (hDirs : ∀ d ∈ dirents, d.type = dtDir) :
    ∃ sets opened, platformInit K dirents = some (sets, opened) ∧
      sets.length = (setNames dirents).length ∧
      ((∀ t, Loads K t) → opened.length = sets.length) ∧
      ∀ i < opened.length, OpenedByName K dirents sets opened i ↔
        Terminated K i (copied K dirents i) i := by
  obtain ⟨placed, s₀, hRun, hFilled, hNames⟩ := (Filled.start K).importSets hDirs
  rw [List.nil_append] at hFilled
  refine ⟨_, _, congrArg (Option.map _) hRun, ?_, fun hLoads => length_openSets hLoads 0 s₀,
    fun i hi => ?_⟩
  · rw [List.length_map, ← hNames, List.length_map]
  · have hPlaced : i < placed.length := by
      have hLe := length_openSets_le K (placed.map fun x => ⟨x.1.address K, x.2.length⟩) 0 s₀
      rw [List.length_map] at hLe
      exact Nat.lt_of_lt_of_le hi hLe
    have hx : placed[i]? = some placed[i] := List.getElem?_eq_getElem hPlaced
    have hSet : (setNames dirents)[i]? = some placed[i].2 := by
      rw [← hNames, List.getElem?_map, hx]
      rfl
    obtain ⟨new, hOpen, hItems⟩ := hFilled.openSets (List.getElem?_eq_getElem hi)
    have hCopied : (placed ++ new).map Prod.snd = copied K dirents i := by
      rw [List.map_append, hNames, hItems, copied]
    have hLaw := hOpen.stringAt_iff_terminated (copied_plain hCopied) i
      ((List.getElem?_append_left hPlaced).trans hx)
    rw [← hCopied, ← hLaw]
    constructor
    · intro hAll
      exact hAll _ _ _ (List.getElem?_eq_getElem hi) (by rw [List.getElem?_map, hx]; rfl) hSet
    · intro hString s set name hs hset hname
      rw [List.getElem?_eq_getElem hi] at hs
      rw [List.getElem?_map, hx] at hset
      rw [hSet] at hname
      rwa [← Option.some.inj hs, ← Option.some.inj hset, ← Option.some.inj hname]

theorem sparse_ne_null (k : Nat) : 2 * pageSize * (k + 1) ≠ 0 := by
  simp only [pageSize]
  omega

theorem sparse_apart (j k : Nat) (hne : j ≠ k) :
    2 * pageSize * (j + 1) + pageSize ≤ 2 * pageSize * (k + 1) ∨
    2 * pageSize * (k + 1) + pageSize ≤ 2 * pageSize * (j + 1) := by
  simp only [pageSize]
  omega

/-- Pages that are not next to each other, and folders that are empty. -/
def sparse : Kernel where
  page k := 2 * pageSize * (k + 1)
  page_ne_null := sparse_ne_null
  apart := sparse_apart
  outside _ _ := none
  openat _ := some []

def abc : Name := ⟨[97, 98, 99], by decide, by decide, by decide⟩

def abcdefgh : Name := ⟨[97, 98, 99, 100, 101, 102, 103, 104], by decide, by decide, by decide⟩

def folders (names : List Name) : List Dirent := names.map fun name => ⟨name, dtDir⟩

/-- Two names that do not fill their words. -/
theorem set_names_survive_padded :
    ∃ sets opened, platformInit sparse (folders [abc, abc]) = some (sets, opened) ∧
    ∀ i < opened.length, OpenedByName sparse (folders [abc, abc]) sets opened i := by
  have hDirs : ∀ d ∈ folders [abc, abc], d.type = dtDir := by decide
  obtain ⟨sets, opened, hRun, -, -, hLaw⟩ := set_names_survive_iff sparse hDirs
  refine ⟨sets, opened, hRun, fun i hi => (hLaw i hi).mpr fun name hName => Or.inl ?_⟩
  have hItems : itemsFrom sparse 0 i = [] := List.flatMap_eq_nil_iff.mpr fun t _ => rfl
  have hMem := List.mem_of_getElem? hName
  rw [copied, hItems] at hMem
  have hAll : ∀ name ∈ setNames (folders [abc, abc]) ++ [], ¬ wordSize ∣ name.length := by decide
  exact hAll name hMem

/-- The names `abcdefgh` and `abc`: the first folder is opened by `abcdefghabc`. -/
theorem set_names_survive_fails : ∃ sets s rest,
    platformInit sparse (folders [abcdefgh, abc]) = some (sets, s :: rest) ∧
      ¬ OpenedByName sparse (folders [abcdefgh, abc]) sets (s :: rest) 0 ∧
      ∃ set, sets[0]? = some set ∧
        StringAt (s.read sparse 0) set.ident (abcdefgh.bytes ++ abc.bytes) := by
  refine ⟨_, _, _, rfl, fun hAll => ?_, _, rfl, ?_⟩
  · have hZero := (hAll _ _ _ rfl rfl rfl).2
    revert hZero
    decide +kernel
  · rw [StringAt]
    decide +kernel

end Opened

end Dandelion.System.Debug
