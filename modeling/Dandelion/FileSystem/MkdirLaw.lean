import Dandelion.FileSystem.MakeDirectory
import Dandelion.FileSystem.SteadyRuns

/-! # When `dandelion_mkdir` makes a directory

The call splits the path at its last slash, so that a path with a slash at its
end names a directory in itself. Paths that name no new entry are accepted when
the search for an entry of that name finds none.
-/

namespace Dandelion.FileSystem

open Foundation.Runs Foundation.Triples

/-- The last component of the path can be made: it is a name that is free in a directory. -/
def Makeable (m : Memory) (L : Ptr → List Ptr) (name : List UInt8) : Prop :=
  ∃ dirs last, components (pathOf name) = dirs ++ [last] ∧ last ≠ [dot] ∧ last ≠ [dot, dot] ∧
    isDirectory m (walk m L fsRoot dirs) = true ∧ lookupIn m last (L (walk m L fsRoot dirs)) = 0

/-- One node has been added to the tree, an empty directory that the path leads to. -/
def MakesDirectory (P : Platform) (s s' : State) (L : Ptr → List Ptr) (name : List UInt8) : Prop :=
  ∃ L' d n a b f, Listing P s'.memory L' ∧ L d = a ++ b ∧ L' = Function.update L d (a ++ n :: b) ∧
    s.memory.files n = none ∧
      (∀ q, q ≠ n → (s'.memory.files q).map DFile.face = (s.memory.files q).map DFile.face) ∧
    s'.memory.files n = some f ∧ f.type = .directory ∧ L' n = [] ∧ f.hardLinks = 1 ∧
      f.openDescriptors = 0 ∧
    resolve s'.memory L' name = n

/-- The call makes the directory if it can be made, and otherwise fails and changes nothing. -/
def MkdirLaw (P : Platform) (s : State) (L : Ptr → List Ptr) (name : List UInt8)
    (mode : Nat) : Prop :=
  ∃ r s', dandelionMkdir P name mode s = .ok (r, s') ∧
    (Makeable s.memory L name ∧ r = 0 ∧ MakesDirectory P s s' L name ∨
      ¬ Makeable s.memory L name ∧ r < 0 ∧ s'.memory.files = s.memory.files)

/-- The block for the next node has zeroes where the counts of a node are. -/
def FreshCounts (P : Platform) (s : State) : Prop :=
  ∀ g, P.answer s.memory s.requests sizeofFile 8 = some g → wordAt g.bytes 96 2 = 0 ∧
    wordAt g.bytes 98 2 = 0

structure Mkdirable (P : Platform) (s : State) (L : Ptr → List Ptr) (name : List UInt8) : Prop where
  short : (pathOf name).length < fsPathLength
  nonempty : pathOf name ≠ []
  fresh : Makeable s.memory L name → FreshCounts P s
  up : (pathOf name).getLast? ≠ some slash →
    ∀ dirs, components (pathOf name) = dirs ++ [[dot, dot]] → walk s.memory L fsRoot dirs ≠ fsRoot
  slashes : (pathOf name).getLast? = some slash → ¬ Makeable s.memory L name ∧
    (isDirectory s.memory (resolve s.memory L name) = true →
      ∃ file, getFile (pathOf name) = some file ∧
        lookupIn s.memory file (L (resolve s.memory L name)) ≠ 0)

variable {P : Platform} {s s' : State} {L L' : Ptr → List Ptr} {d : Ptr} {name : List UInt8}
  {c file last : Path} {dirs : List Path} {mode : Nat}

section Law

theorem wordAt_lt (bytes : Nat → UInt8) (offset count : Nat) :
    wordAt bytes offset count < 256 ^ count := by
  induction count generalizing offset with
  | zero => exact Nat.one_pos
  | succ count ih =>
    have hByte := (bytes offset).toNat_lt
    have hRest := ih (offset + 1)
    rw [wordAt, Nat.pow_succ]
    omega

theorem makeable_iff (h : components (pathOf name) = dirs ++ [last]) : Makeable s.memory L name ↔
    last ≠ [dot] ∧ last ≠ [dot, dot] ∧ isDirectory s.memory (walk s.memory L fsRoot dirs) = true ∧
      lookupIn s.memory last (L (walk s.memory L fsRoot dirs)) = 0 := by
  constructor
  · rintro ⟨dirs', last', hSplit, hRest⟩
    obtain ⟨rfl, hLast⟩ := List.append_inj' (h.symm.trans hSplit) rfl
    obtain rfl := (List.cons.inj hLast).1
    exact hRest
  · exact fun hRest => ⟨dirs, last, h, hRest⟩

theorem not_makeable (hListing : Listing P s.memory L)
    (hd : isDirectory s.memory (resolve s.memory L name) = true) :
    ¬ Makeable s.memory L name := by
  rintro ⟨dirs, last, hSplit, hDot, hDots, hDir, hNone⟩
  obtain ⟨e, he, -⟩ := isDirectory_iff.mp hDir
  rw [resolve, hSplit, walk_append (hListing.ne_zero he), walk, if_pos hDir, stepTo, if_neg hDot,
    if_neg hDots, hNone, if_pos rfl, isDirectory, hListing.null] at hd
  cases hd

theorem makes_iff {g : Grant} {a b : List Ptr} (hListing : Listing P s.memory L)
    (hg : P.answer s.memory s.requests sizeofFile 8 = some g)
    (hSplit : components (pathOf name) = dirs ++ [last]) (hLength : last.length ≤ fsNameLength)
    (hMake : last ≠ [dot] ∧ last ≠ [dot, dot] ∧
      isDirectory s.memory (walk s.memory L fsRoot dirs) = true ∧
      lookupIn s.memory last (L (walk s.memory L fsRoot dirs)) = 0)
    (hGrown : Grown P s L (walk s.memory L fsRoot dirs) g.ptr a b
      { linked (walk s.memory L fsRoot dirs) g.ptr a b g.ptr
        ((DFile.ofBytes g.bytes).nameDirectory last) with mode := mode }
      s' L') : MakesDirectory P s s' L name ↔ FreshCounts P s := by
  obtain ⟨hDot, hDots, hDir, hNone⟩ := hMake
  have hResolve : resolve s'.memory L' name = g.ptr := by
    rw [resolve, hSplit]
    exact hGrown.walk_new hListing hDir hDot hDots (trim_nameDirectory g.bytes hLength) hNone rfl
  have hLow := wordAt_lt g.bytes 96 2
  constructor
  · rintro ⟨L'', d', n', a', b', f', hListing', -, -, -, -, hNode, -, -, hLinks, hOpen,
      hResolve'⟩ g' hg'
    obtain rfl := Option.mem_unique hg hg'
    obtain rfl := hGrown.listing.unique hListing'
    obtain rfl := hResolve'.symm.trans hResolve
    obtain rfl := Option.mem_unique hNode hGrown.node
    have hCount : (wordAt g.bytes 96 2 + 1) % 2 ^ 16 = 1 := (if_pos rfl).symm.trans hLinks
    exact ⟨by omega, hOpen⟩
  · intro hFresh
    obtain ⟨hLinks, hOpen⟩ := hFresh g hg
    refine ⟨L', _, g.ptr, a, b, _, hGrown.listing, hGrown.split, hGrown.lists, hGrown.fresh,
      fun q hq => hGrown.face_eq hDir hq, hGrown.node, rfl, ?_, ?_, hOpen, hResolve⟩
    · have hne : g.ptr ≠ walk s.memory L fsRoot dirs := by
        obtain ⟨e, he, -⟩ := isDirectory_iff.mp hDir
        exact (hGrown.old he).1.symm
      rw [hGrown.lists, Function.update_of_ne hne]
      exact hListing.empty _ fun f hf => by rw [hGrown.fresh] at hf; cases hf
    · refine (if_pos rfl).trans ?_
      change (wordAt g.bytes 96 2 + 1) % 2 ^ 16 = 1
      rw [hLinks]
      rfl

theorem not_mkdirLaw_of_zero (hRun : dandelionMkdir P name mode s = .ok (0, s'))
    (h : ¬ Makeable s.memory L name) :
    ¬ MkdirLaw P s L name mode := by
  rintro ⟨r, s'', hRun', hLaw⟩
  obtain ⟨rfl, -⟩ := ok_unique hRun hRun'
  rcases hLaw with ⟨hMake, -⟩ | ⟨-, hNegative, -⟩
  · exact h hMake
  · exact absurd hNegative (by decide)

theorem mkdirLaw_of_refused {r : Int} (hRun : dandelionMkdir P name mode s = .ok (r, s))
    (hr : r < 0) :
    MkdirLaw P s L name mode ↔ ¬ Makeable s.memory L name := by
  constructor
  · rintro ⟨r', s'', hRun', hLaw⟩ hMake
    obtain ⟨rfl, -⟩ := ok_unique hRun hRun'
    rcases hLaw with ⟨-, rfl, -⟩ | ⟨hNot, -⟩
    · exact absurd hr (by decide)
    · exact hNot hMake
  · exact fun h => ⟨r, s, hRun, Or.inr ⟨h, hr, rfl⟩⟩

theorem mkdirLaw_plain (hListing : Listing P s.memory L) (hGrants : P.Grants)
    (hShort : (pathOf name).length < fsPathLength) (h : EndsPlain (pathOf name) dirs last)
    (hLength : last.length ≤ fsNameLength) : MkdirLaw P s L name mode ↔ Mkdirable P s L name := by
  have hNonempty : pathOf name ≠ [] := by
    intro hEmpty
    have hFound := h.found
    rw [hEmpty] at hFound
    cases hFound
  have hIff := makeable_iff (s := s) (L := L) h.components
  set d := walk s.memory L fsRoot dirs with hd
  have hWalk : walk s.memory L fsRoot (components (getDirectories (pathOf name))) = d := by
    rw [h.directories]
  by_cases hMake : Makeable s.memory L name
  · -- the directory is made
    obtain ⟨hDot, hDots, hDir, hNone⟩ := hIff.mp hMake
    obtain ⟨g, hg⟩ := hGrants s.memory s.requests sizeofFile 8 (by decide)
    obtain ⟨s₁, s₂, L', a, b, hRun, hAdds, hLinks⟩ :=
      createFrom_new hListing hDir hDot hDots hLength hNone hg
    have hNode : s₂.memory.files g.ptr =
        some (linked d g.ptr a b g.ptr ((DFile.ofBytes g.bytes).nameDirectory last)) := by
      rw [hLinks.edits.files, hAdds.live, Option.map_some]
    obtain ⟨s₃, hCall, hEdits⟩ := mkdir_goes hListing hShort h.found hDir hWalk
      ((stepTo_name hDot hDots).trans hNone)
      (h.components_last.symm ▸ hRun) hAdds.ne_zero hNode mode
    have hGrown := (Grown.of_links hAdds hLinks).edit hEdits ⟨rfl, rfl, rfl, rfl, fun _ => rfl⟩
    have hMakes := makes_iff hListing hg h.components hLength ⟨hDot, hDots, hDir, hNone⟩ hGrown
    constructor
    · rintro ⟨r, s'', hRun', hLaw⟩
      obtain ⟨rfl, rfl⟩ := ok_unique hCall hRun'
      rcases hLaw with ⟨-, -, hGood⟩ | ⟨hNot, -⟩
      · refine ⟨hShort, hNonempty, fun _ => hMakes.mp hGood, fun _ dirs' hSplit => ?_,
          fun hEnd => absurd hEnd h.ends⟩
        obtain ⟨-, hLast⟩ := List.append_inj' (h.components.symm.trans hSplit) rfl
        exact absurd (List.cons.inj hLast).1 hDots
      · exact absurd hMake hNot
    · exact fun hGood => ⟨0, s₃, hCall, Or.inl ⟨hMake, rfl, hMakes.mpr (hGood.fresh hMake)⟩⟩
  · by_cases hRefused : isDirectory s.memory d = true → stepTo s.memory L d last ≠ 0
    · obtain ⟨r, hRun, hr⟩ := mkdir_refuses hListing hShort h.found (hWalk.symm ▸ hRefused) mode
      refine ⟨fun _ => ?_, fun _ => (mkdirLaw_of_refused hRun hr).mpr hMake⟩
      refine ⟨hShort, hNonempty, fun h => absurd h hMake, fun _ dirs' hSplit hRoot => ?_,
        fun hEnd => absurd hEnd h.ends⟩
      obtain ⟨rfl, hLast⟩ := List.append_inj' (h.components.symm.trans hSplit) rfl
      obtain rfl := (List.cons.inj hLast).1
      -- the root has no parent
      have hdRoot : d = fsRoot := hd.trans hRoot
      refine hRefused (by rw [hdRoot]; exact hListing.isDirectory_root) ?_
      obtain ⟨f, hf, -, hParent⟩ := hListing.root
      rw [hdRoot, stepTo, if_neg (by decide), if_pos rfl, parentOf_of hf, hParent]
    · obtain ⟨hDir, hNone⟩ := not_forall.mp hRefused
      rw [not_not] at hNone
      have hRooted : Rooted L d := by
        obtain ⟨e, he, -⟩ := isDirectory_iff.mp hDir
        exact Rooted.walk hListing .root (hListing.ne_zero he)
      obtain ⟨n, s', e, hRun, hn, he⟩ := createFrom_last hListing hRooted hDir hGrants (some last)
        fun c hc => by obtain rfl := Option.some.inj hc; exact hLength
      obtain ⟨s'', hCall, -⟩ :=
        mkdir_goes hListing hShort h.found hDir hWalk hNone (h.components_last.symm ▸ hRun)
          hn he mode
      refine ⟨fun hLaw => absurd hLaw (not_mkdirLaw_of_zero hCall hMake), fun hGood => ?_⟩
      -- only going up from the root finds nothing without being makeable
      have hLast : last = [dot, dot] := by
        by_contra hDots
        by_cases hDot : last = [dot]
        · rw [stepTo, if_pos hDot] at hNone
          obtain ⟨e, he, -⟩ := isDirectory_iff.mp hDir
          exact hListing.ne_zero he hNone
        · exact hMake (hIff.mpr ⟨hDot, hDots, hDir, (stepTo_name hDot hDots).symm.trans hNone⟩)
      subst hLast
      rw [stepTo, if_neg (by decide), if_pos rfl] at hNone
      rcases hRooted.parent hListing with ⟨hRoot, -⟩ | ⟨hMem, -⟩
      · exact absurd hRoot (hGood.up h.ends dirs h.components)
      · rw [hNone] at hMem
        obtain ⟨e, he, -⟩ := hListing.directory hMem
        exact absurd rfl (hListing.ne_zero he)

theorem mkdirLaw_slash (hListing : Listing P s.memory L) (hGrants : P.Grants)
    (hShort : (pathOf name).length < fsPathLength) (h : EndsSlash (pathOf name) file)
    (hLength : ∀ c ∈ (components (pathOf name)).getLast?, c.length ≤ fsNameLength) :
    MkdirLaw P s L name mode ↔ Mkdirable P s L name := by
  have hNonempty : pathOf name ≠ [] := by
    intro hEmpty
    have hEnds := h.ends
    rw [hEmpty] at hEnds
    cases hEnds
  have hWalk : walk s.memory L fsRoot (components (getDirectories (pathOf name))) =
      resolve s.memory L name := by
    rw [h.directories, resolve]
  have hStep : stepTo s.memory L (resolve s.memory L name) file =
      lookupIn s.memory file (L (resolve s.memory L name)) :=
    stepTo_name h.proper.1 h.proper.2
  by_cases hRefused : isDirectory s.memory (resolve s.memory L name) = true →
      lookupIn s.memory file (L (resolve s.memory L name)) ≠ 0
  · obtain ⟨r, hRun, hr⟩ :=
      mkdir_refuses hListing hShort h.found (by rw [hWalk, hStep]; exact hRefused) mode
    rw [mkdirLaw_of_refused hRun hr]
    refine ⟨fun hMake => ?_, fun hGood => (hGood.slashes h.ends).1⟩
    exact ⟨hShort, hNonempty, fun h => absurd h hMake, fun hEnd => absurd h.ends hEnd,
      fun _ => ⟨hMake, fun hDir => ⟨file, h.found, hRefused hDir⟩⟩⟩
  · obtain ⟨hDir, hNone⟩ := not_forall.mp hRefused
    rw [not_not] at hNone
    have hRooted : Rooted L (resolve s.memory L name) := by
      obtain ⟨e, he, -⟩ := isDirectory_iff.mp hDir
      exact Rooted.walk hListing .root (hListing.ne_zero he)
    obtain ⟨n, s', e, hRun, hn, he⟩ := createFrom_last hListing hRooted hDir hGrants _ hLength
    rw [← h.last] at hRun
    obtain ⟨s'', hCall, -⟩ :=
      mkdir_goes hListing hShort h.found hDir hWalk (hStep.trans hNone) hRun hn he mode
    refine ⟨fun hLaw => absurd hLaw (not_mkdirLaw_of_zero hCall (not_makeable hListing hDir)),
      fun hGood => ?_⟩
    obtain ⟨file', hFound, hSome⟩ := (hGood.slashes h.ends).2 hDir
    obtain rfl := Option.mem_unique h.found hFound
    exact absurd hNone hSome

theorem mkdirLaw_iff (hListing : Listing P s.memory L) (hGrants : P.Grants)
    (hLength : ∀ c ∈ (components (pathOf name)).getLast?, c.length < fsNameLength) (mode : Nat) :
    MkdirLaw P s L name mode ↔ Mkdirable P s L name := by
  by_cases hShort : (pathOf name).length < fsPathLength
  · by_cases hEmpty : pathOf name = []
    · have hFails : dandelionMkdir P name mode s = .error .bounds := by
        rw [dandelionMkdir, bind_ok (pathFromString_ok hShort), hEmpty]
        rfl
      refine ⟨?_, fun hGood => absurd hEmpty hGood.nonempty⟩
      rintro ⟨r, s', hRun, -⟩
      rw [hFails] at hRun
      cases hRun
    · rcases ends_cases hEmpty hShort with ⟨dirs, last, h⟩ | ⟨file, h⟩
      · refine mkdirLaw_plain hListing hGrants hShort h (Nat.le_of_lt (hLength last ?_))
        rw [h.components, List.getLast?_append]
        rfl
      · exact mkdirLaw_slash hListing hGrants hShort h fun c hc => Nat.le_of_lt (hLength c hc)
  · refine ⟨?_, fun hGood => absurd hGood.short hShort⟩
    rintro ⟨r, s', hRun, -⟩
    have hFails : pathFromString name s = .error (.exit eNAMETOOLONG) := by
      have hLong : (name.takeWhile (· ≠ 0)).length ≥ fsPathLength := Nat.le_of_not_lt hShort
      rw [pathFromString, if_pos hLong]
      rfl
    rw [dandelionMkdir, bind_error hFails] at hRun
    cases hRun

/-- The states that runs reach have a tree, and in every state that has one the law
holds for a path exactly if the path is one of those that the code splits rightly
and the block for the new node has counts of zero. -/
theorem mkdir_law_iff (hGrants : P.Grants) :
    (∀ x, P.Linkable → Reachable (Started P) (Proceeds P) x → ∃ L, Listing P x.state.memory L) ∧
      ∀ s L, Listing P s.memory L → ∀ name mode,
        (∀ c ∈ (components (pathOf name)).getLast?, c.length < fsNameLength) →
          (MkdirLaw P s L name mode ↔ Mkdirable P s L name) := by
  refine ⟨fun x hP hx => ?_, fun s L hListing name mode hLength =>
    mkdirLaw_iff hListing hGrants hLength mode⟩
  obtain ⟨L, hSteady⟩ := steady_of_reachable hP hx
  exact ⟨L, hSteady.listing⟩

/-- `/a` can be made after `fs_initialize`. -/
theorem mkdir_law_new : ∃ x L, Reachable (Started (.bump 0)) (Proceeds (.bump 0)) x ∧
    Listing (.bump 0) x.state.memory L ∧ MkdirLaw (.bump 0) x.state L [slash, 97] sIRWXU := by
  obtain ⟨x, hx, -⟩ := exists_of_bareRun (P := .bump 0) [] (fun _ => true) (by decide +kernel)
  obtain ⟨hTree, hIff⟩ := mkdir_law_iff (grants_bump 0)
  obtain ⟨L, hListing⟩ := hTree x linkable_bump (proceeds_of_completes hx)
  refine ⟨x, L, proceeds_of_completes hx, hListing,
    (hIff x.state L hListing _ _ (by decide)).mpr ?_⟩
  refine ⟨by decide, by decide, fun _ g hg => ?_, fun _ dirs hSplit => ?_,
    fun hEnd => absurd hEnd (by decide)⟩
  · simp [wordAt, zeroed_bump _ _ g hg]
  · have hOne : components (pathOf [slash, 97]) = [] ++ [[97]] := by decide
    obtain ⟨-, hLast⟩ := List.append_inj' (hOne.symm.trans hSplit) rfl
    exact absurd hLast (by decide)

/-- `/..` is accepted, and so is `/`; both change the mode of the root. -/
theorem mkdir_law_fails : ∃ x L, Reachable (Started (.bump 0)) (Proceeds (.bump 0)) x ∧
    Listing (.bump 0) x.state.memory L ∧ ¬ MkdirLaw (.bump 0) x.state L [slash, dot, dot] 0 ∧
    ¬ MkdirLaw (.bump 0) x.state L [slash] 0 := by
  obtain ⟨x, hx, hTest⟩ := exists_of_bareRun (P := .bump 0) []
    (fun x => [[slash, dot, dot], [slash]].all fun name =>
      passes (dandelionMkdir (.bump 0) name 0 x.state) fun r =>
      r.1 == 0 && (r.2.memory.files fsRoot).any fun f => f.mode == 0) (by decide +kernel)
  obtain ⟨L, hSteady⟩ := steady_of_reachable linkable_bump (proceeds_of_completes hx)
  have hZero : ∀ name ∈ [[slash, dot, dot], [slash]],
      ∃ s', dandelionMkdir (.bump 0) name 0 x.state = .ok (0, s') := by
    intro name hName
    obtain ⟨r, hRun, hBoth⟩ := exists_of_passes (List.all_eq_true.mp hTest name hName)
    rw [Bool.and_eq_true, beq_iff_eq] at hBoth
    exact ⟨r.2, by rw [hRun, ← hBoth.1]⟩
  refine ⟨x, L, proceeds_of_completes hx, hSteady.listing, ?_, ?_⟩
  · obtain ⟨s', hRun⟩ := hZero _ List.mem_cons_self
    refine not_mkdirLaw_of_zero hRun fun hMake => ?_
    have hOne : components (pathOf [slash, dot, dot]) = [] ++ [[dot, dot]] := by decide
    exact ((makeable_iff hOne).mp hMake).2.1 rfl
  · obtain ⟨s', hRun⟩ := hZero [slash] (by simp)
    refine not_mkdirLaw_of_zero hRun ?_
    rintro ⟨dirs, last, hSplit, -⟩
    have hNone : components (pathOf [slash]) = [] := by decide
    exact absurd (hNone.symm.trans hSplit) (by simp)

end Law

end Dandelion.FileSystem
