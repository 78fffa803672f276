import Dandelion.FileSystem.MkdirLaw
import Dandelion.FileSystem.OpenNew
import Dandelion.FileSystem.WalkerLaw

/-! # Files that a creating open makes visible

A new file is found under the path that it was opened with, if the path ends with the
name, the way to it can be looked up, the name is free and its block has a terminator
behind it. The access mode is checked against the permissions of the new file.
-/

namespace Dandelion.FileSystem

open Foundation.Triples Foundation.Runs

/-- A path that leads nowhere yet, by directories as far as they are there. -/
structure NewPath (m : Memory) (L : Ptr → List Ptr) (name : List UInt8) : Prop where
  short : (pathOf name).length < fsPathLength
  nonempty : components (pathOf name) ≠ []
  missing : resolve m L name = 0
  lengths : ∀ c ∈ components (pathOf name), c.length < fsNameLength
  directories : ∀ front rest, components (pathOf name) = front ++ rest → walk m L fsRoot front ≠ 0 →
    isDirectory m (walk m L fsRoot front) = true

/-- The call returns a descriptor of an empty file, and the path leads to that file. -/
def OpensVisibly (P : Platform) (s : State) (name : List UInt8) (flags mode : Nat) : Prop :=
  ∃ fd s' f, dandelionOpen P name flags mode s = .ok (fd, s') ∧ 0 ≤ fd ∧
    s'.memory.files (s'.openFiles fd.toNat).file = some f ∧ f.type = .file ∧ f.link = 0 ∧
    findFile P name s' = .ok ((s'.openFiles fd.toNat).file, s')

/-- What the platform hands out for a node holds these bytes. -/
def Platform.Filling (P : Platform) (fill : Nat → Nat → UInt8) : Prop :=
  ∀ m n g, P.answer m n sizeofFile 8 = some g → g.bytes = fill n

/-- The way ends in a directory, a lookup takes the same way, no entry of that directory has the
name, and the way has not made one. -/
structure LeadsTo (m : Memory) (L : Ptr → List Ptr) (dirs : List Path) (last : Path) (x : Spot) :
    Prop where
  ends : destination m L .root dirs = .place x
  directory : x.isDirectory m = true
  straight : strays m L .root dirs = false
  free : x.below = [] → lookupIn m last (L x.node) = 0
  other : x.child last ∉ newPlaces m L .root dirs

/-- The path ends with a name for which there is room, the block for the file has a terminator
behind the name, and the access mode is permitted. -/
structure Creatable (fill : Nat → Nat → UInt8) (s : State) (L : Ptr → List Ptr) (name : List UInt8)
    (flags mode : Nat) : Prop where
  ends : ∃ dirs last x, EndsPlain (pathOf name) dirs last ∧ last ≠ [dot] ∧ last ≠ [dot, dot] ∧
    LeadsTo s.memory L dirs last x ∧
    fill (s.requests + (newPlaces s.memory L .root dirs).card) last.length = 0
  permitted : hasBit mode sIWUSR = true ∨ hasBit (flags &&& oACCMODE) oWRONLY = false

variable {P : Platform} {s s' s₂ : State} {m : Memory} {L L' L₂ : Ptr → List Ptr} {d : Ptr}
  {a b : List Ptr} {f : DFile} {g : Grant} {name : List UInt8} {file last : Path} {flags mode : Nat}
  {x : Spot} {V : Finset Spot} {fill : Nat → Nat → UInt8}

section Ways

theorem NewPath.path_ne_nil (h : NewPath m L name) : pathOf name ≠ [] := by
  intro hEmpty
  refine h.nonempty ?_
  rw [hEmpty]
  rfl

/-- A name is free at the end of the way after the walk, if it was before and was not made. -/
theorem Walked.free_iff (h : Walked P s L V s₂ L₂) (hListing : Listing P s.memory L)
    (hStands : Stands s s₂ L₂ d x) : lookupIn s₂.memory last (L₂ d) = 0 ↔
      (x.below = [] → lookupIn s.memory last (L x.node) = 0) ∧ x.child last ∉ V := by
  by_cases hNone : lookupIn s.memory last (L d) = 0
  · rw [h.mem_child hListing hStands hNone, not_not, and_iff_right]
    intro hBelow
    cases hStands with
    | here _ => exact hNone
    | under _ _ _ _ => cases hBelow
  · have hFinds := h.grows.finds d last hNone
    cases hStands with
    | here _ => exact iff_of_false (hFinds ▸ hNone) fun hFree => hNone (hFree.1 rfl)
    | under _ hFresh _ _ => exact absurd (lookupIn_new hListing hFresh) hNone

/-- Where the walk has made the directories on the way, a lookup takes the same way and the name
is free, exactly if the tree said so before. -/
theorem Walked.leadsTo_iff {dirs : List Path}
    (h : Walked P s L (newPlaces s.memory L .root dirs) s₂ L₂) (hListing : Listing P s.memory L)
    (hStands : Stands s s₂ L₂ d x) (hDir : x.isDirectory s.memory = true)
    (hEnd : destination s.memory L .root dirs = .place x) : LeadsTo s.memory L dirs last x ↔
      walk s₂.memory L₂ fsRoot dirs = d ∧ lookupIn s₂.memory last (L₂ d) = 0 := by
  obtain ⟨q, hq, hWalk⟩ := h.walk_eq hListing .root (.root hListing) hEnd (Finset.Subset.refl _)
  obtain rfl := hStands.unique hq
  obtain ⟨e, he⟩ := hq.live h.grows
  have hne := h.grows.listing.ne_zero he
  rw [h.free_iff hListing hq, hWalk]
  constructor
  · rintro ⟨-, -, hStraight, hFree, hOther⟩
    exact ⟨by rw [hStraight]; rfl, hFree, hOther⟩
  · rintro ⟨hSame, hFree, hOther⟩
    refine ⟨hEnd, hDir, Bool.eq_false_iff.mpr fun hStrays => hne ?_, hFree, hOther⟩
    rw [← hSame, hStrays]
    rfl

end Ways

section Law

theorem not_opensVisibly {x : M Int} (hOpen : dandelionOpen P name flags mode s = x s)
    (h : Ensures x s fun r _ => r < 0) :
    ¬ OpensVisibly P s name flags mode := by
  rintro ⟨fd, s', f, hRun, hfd, -⟩
  exact absurd (h.result (hOpen.symm.trans hRun)) (Int.not_lt.mpr hfd)

theorem dandelionOpen_new (hListing : Listing P s.memory L) (h : NewPath s.memory L name)
    (hCreate : hasBit flags oCREAT = true) (mode : Nat) :
    dandelionOpen P name flags mode s = createAndOpen P name flags mode s := by
  rw [dandelionOpen, bind_ok (findFile_ok hListing h.short), h.missing, if_neg fun h => h.2.2 rfl,
    if_pos rfl, if_neg (not_not.mpr hCreate)]

theorem NewFile.opensVisibly_iff {i : Nat} (h : NewFile P s₂ L₂ d file g a b f s' L')
    (hShort : (pathOf name).length < fsPathLength)
    (hRun : dandelionOpen P name flags mode s = .ok ((i : Int), s'))
    (hEntry : (s'.openFiles i).file = g.ptr) :
    OpensVisibly P s name flags mode ↔
      walk s'.memory L' fsRoot (components (pathOf name)) = g.ptr := by
  have hFind := findFile_ok h.grown.listing hShort
  constructor
  · rintro ⟨fd, s'', f', hRun', -, -, -, -, hFound⟩
    obtain ⟨rfl, rfl⟩ := ok_unique hRun hRun'
    rw [Int.toNat_natCast, hEntry] at hFound
    exact (ok_unique hFind hFound).1
  · intro hWalk
    refine ⟨i, s', f, hRun, Int.natCast_nonneg i, ?_, h.type, h.link, ?_⟩
    · rw [Int.toNat_natCast, hEntry]
      exact h.grown.node
    · rw [Int.toNat_natCast, hEntry, hFind, resolve, hWalk]

/-- Once the way is made, the file is found behind it if there is room for its name. -/
theorem NewPath.opensVisibly_place (h : NewPath s.memory L name) (hListing : Listing P s.memory L)
    (hGrants : P.Grants) (hFilling : P.Filling fill) (hCreate : hasBit flags oCREAT = true)
    (hFree : ∃ i < fsMaxFiles, (s.openFiles i).file = 0)
    (hEnd : destination s.memory L .root (wayTo name) = .place x)
    (hDir : x.isDirectory s.memory = true)
    (hMode : hasBit mode sIWUSR = true ∨ hasBit (flags &&& oACCMODE) oWRONLY = false) :
    OpensVisibly P s name flags mode ↔ Creatable fill s L name flags mode := by
  have hOpen := dandelionOpen_new hListing h hCreate mode
  obtain ⟨d, s₂, L₂, hRun, hWalked, -, hStands⟩ := createDirectories_ends hListing hGrants hEnd
  have hListing₂ := hWalked.grows.listing
  have hd : isDirectory s₂.memory d = true := (hStands.isDirectory_eq hWalked.grows).trans hDir
  obtain ⟨g, hg⟩ := hGrants s₂.memory s₂.requests sizeofFile 8 (by decide)
  have hOpens : OpensNew s₂ flags mode := ⟨hWalked.grows.table.symm ▸ hFree, hMode⟩
  rcases ends_cases h.path_ne_nil h.short with ⟨dirs, last, hEnds⟩ | ⟨file, hEnds⟩
  · have hMem : last ∈ components (pathOf name) := by
      rw [hEnds.components]
      exact List.mem_append_right _ List.mem_cons_self
    have hZero := (components_clean (zero_not_mem_pathOf name) last hMem).1
    obtain ⟨i, s', L', a, b, f, hCall, hEntry, hNew⟩ :=
      createAndOpen_opens h.short hEnds.found (h.lengths last hMem) hRun hListing₂ hd hg hOpens
    rw [wayTo, hEnds.directories] at hEnd hWalked
    rw [hNew.opensVisibly_iff h.short (hOpen.trans hCall) hEntry, hEnds.components,
      hNew.walk_iff hListing₂ hd hZero (h.lengths last hMem), hFilling _ _ g hg, hWalked.requests]
    constructor
    · rintro ⟨hDot, hDots, hWay, hNone, hByte⟩
      have hLeads := (hWalked.leadsTo_iff hListing hStands hDir hEnd).mpr ⟨hWay, hNone⟩
      exact ⟨⟨dirs, last, x, hEnds, hDot, hDots, hLeads, hByte⟩, hMode⟩
    · rintro ⟨⟨dirs', last', y, hEnds', hDot, hDots, hLeads, hByte⟩, -⟩
      obtain rfl := Option.mem_unique hEnds.found hEnds'.found
      obtain rfl := hEnds.directories.symm.trans hEnds'.directories
      obtain rfl := Destination.place.inj (hEnd.symm.trans hLeads.ends)
      obtain ⟨hWay, hNone⟩ := (hWalked.leadsTo_iff hListing hStands hDir hEnd).mp hLeads
      exact ⟨hDot, hDots, hWay, hNone, hByte⟩
  · -- no name ends the path
    refine iff_of_false (fun hVisible => ?_) fun hCreatable => ?_
    · by_cases hLength : file.length < fsNameLength
      · obtain ⟨i, s', L', a, b, f, hCall, hEntry, hNew⟩ :=
          createAndOpen_opens h.short hEnds.found hLength hRun hListing₂ hd hg hOpens
        refine hNew.walk_slash hListing₂
          (fun hZero => zero_not_mem_pathOf name (getFile_mem hEnds.found hZero)) hLength
          (hEnds.slash_mem h.nonempty) (components_clean (zero_not_mem_pathOf name)) ?_
        exact (hNew.opensVisibly_iff h.short (hOpen.trans hCall) hEntry).mp hVisible
      · have hRefused : dandelionOpen P name flags mode s = .ok (-(eINVAL : Int), s) := by
          rw [hOpen, createAndOpen, bind_ok (pathFromString_ok h.short), hEnds.found]
          dsimp only
          rw [if_pos (Nat.not_lt.mp hLength)]
          rfl
        exact not_opensVisibly rfl (.of_ok hRefused (by decide)) hVisible
    · obtain ⟨⟨dirs, last, y, hPlain, -⟩, -⟩ := hCreatable
      exact hPlain.ends hEnds.ends

theorem Creatable.destination_eq (h : Creatable fill s L name flags mode) :
    ∃ x, destination s.memory L .root (wayTo name) = .place x ∧ x.isDirectory s.memory = true := by
  obtain ⟨dirs, last, x, hEnds, -, -, hLeads, -⟩ := h.ends
  refine ⟨x, ?_, hLeads.directory⟩
  rw [wayTo, hEnds.directories, hLeads.ends]

/-- In every state that is reached a new path is opened visibly exactly if it is creatable. A way
that leads below a file with content must not take the chunk for a node. -/
theorem opens_visibly_iff {x : Session} (hP : P.Linkable) (hGrants : P.Grants)
    (hFilling : P.Filling fill) (hx : Reachable (Started P) (Proceeds P) x) :
    ∃ L, Listing P x.state.memory L ∧ ∀ name flags mode, NewPath x.state.memory L name →
      hasBit flags oCREAT = true → (∃ i < fsMaxFiles, (x.state.openFiles i).file = 0) →
      (destination x.state.memory L .root (wayTo name) = .astray → Leaves x.state.memory) →
      (OpensVisibly P x.state name flags mode ↔ Creatable fill x.state L name flags mode) := by
  obtain ⟨L, hSteady⟩ := steady_of_reachable hP hx
  have hListing := hSteady.listing
  refine ⟨L, hListing, fun name flags mode hPath hCreate hFree hLeaves => ?_⟩
  by_cases hGood : (destination x.state.memory L .root (wayTo name)).isDirectory x.state.memory ∧
      (hasBit mode sIWUSR = true ∨ hasBit (flags &&& oACCMODE) oWRONLY = false)
  · obtain ⟨hDir, hMode⟩ := hGood
    cases hEnd : destination x.state.memory L .root (wayTo name) with
    | place y =>
      rw [hEnd] at hDir
      exact hPath.opensVisibly_place hListing hGrants hFilling hCreate hFree hEnd hDir hMode
    | cut => rw [hEnd] at hDir; cases hDir
    | wall => rw [hEnd] at hDir; cases hDir
    | astray => rw [hEnd] at hDir; cases hDir
  · refine iff_of_false (not_opensVisibly (dandelionOpen_new hListing hPath hCreate mode) ?_) ?_
    · exact createAndOpen_refused hListing hPath.short hLeaves hGood
    · intro hCreatable
      obtain ⟨y, hEnd, hDir⟩ := hCreatable.destination_eq
      exact hGood ⟨by rw [hEnd]; exact hDir, hCreatable.permitted⟩

/-- `a` is opened after `fs_initialize`. -/
theorem opens_visibly_new : ∃ x, Reachable (Started (.bump 0)) (Proceeds (.bump 0)) x ∧
    OpensVisibly (.bump 0) x.state [97] (oWRONLY ||| oCREAT) sIRWXU := by
  obtain ⟨x, hx, hTest⟩ := exists_of_bareRun (P := .bump 0) []
    (fun x => (x.state.openFiles 3).file == 0 &&
      passes (findFileInDir (.bump 0) fsRoot [97] x.state) fun a => a.1 == 0)
    (by decide +kernel)
  rw [Bool.and_eq_true, beq_iff_eq] at hTest
  obtain ⟨hFree, hNone⟩ := hTest
  have hFilling : (Platform.bump 0).Filling fun _ _ => 0 := fun m n g hg =>
    funext (zeroed_bump m n g hg)
  obtain ⟨L, hListing, hLaw⟩ :=
    opens_visibly_iff linkable_bump (grants_bump 0) hFilling (proceeds_of_completes hx)
  obtain ⟨f, hf, hType, -⟩ := hListing.root
  have hRoot : isDirectory x.state.memory fsRoot = true := hListing.isDirectory_root
  have hStep := findFileInDir_step hListing hf hType [97]
  obtain ⟨r, hRun, hZero⟩ := exists_of_passes hNone
  have hMissing : stepTo x.state.memory L fsRoot [97] = 0 :=
    (ok_unique hStep hRun).1.trans (beq_iff_eq.mp hZero)
  have hOne : components (pathOf [97]) = [[97]] := by decide
  refine ⟨x, proceeds_of_completes hx,
    (hLaw _ _ _ ?_ (by decide) ⟨3, ?_, hFree⟩ fun hAstray => by cases hAstray).mpr ?_⟩
  · have hStuck : ∀ rest, walk x.state.memory L fsRoot ([97] :: rest) = 0 :=
      fun rest => walk_stuck fun _ => hMissing
    refine ⟨by decide, by decide, ?_, by decide, fun front rest hSplit hne => ?_⟩
    · rw [resolve, hOne, hStuck]
    · rw [hOne] at hSplit
      cases front with
      | nil => exact hRoot
      | cons c front =>
        obtain ⟨rfl, -⟩ := List.cons.inj hSplit
        exact absurd (hStuck front) hne
  · unfold fsMaxFiles
    decide
  · refine ⟨⟨[], [97], .root, ⟨hOne, by decide, by decide, by decide, by decide⟩, by decide,
      by decide, ⟨rfl, hRoot, rfl, fun _ => ?_, Finset.notMem_empty _⟩, rfl⟩, by decide⟩
    rwa [stepTo_name (by decide) (by decide)] at hMissing

/-- A new file that may not be written is not opened for writing. In a block that was used before,
the name of a new file goes on with what was there. -/
theorem opens_visibly_fails :
    (∃ x, Reachable (Started (.bump 0)) (Proceeds (.bump 0)) x ∧
      ¬ OpensVisibly (.bump 0) x.state [97] (oWRONLY ||| oCREAT) 0) ∧
    ∃ x, Reachable (Started (.bump 97)) (Proceeds (.bump 97)) x ∧
      ¬ OpensVisibly (.bump 97) x.state [97] (oWRONLY ||| oCREAT) sIRWXU := by
  constructor
  · obtain ⟨x, hx, hTest⟩ := exists_of_bareRun (P := .bump 0) []
      (fun x => passes (dandelionOpen (.bump 0) [97] (oWRONLY ||| oCREAT) 0 x.state)
        fun a => decide (a.1 < 0))
      (by decide +kernel)
    refine ⟨x, proceeds_of_completes hx, not_opensVisibly rfl ?_⟩
    obtain ⟨a, hRun, hNeg⟩ := exists_of_passes hTest
    exact .of_ok hRun (of_decide_eq_true hNeg)
  · obtain ⟨x, hx, hTest⟩ := exists_of_bareRun (P := .bump 97) []
      (fun x => passes (dandelionOpen (.bump 97) [97] (oWRONLY ||| oCREAT) sIRWXU x.state) fun a =>
        a.1 == 3 && (a.2.openFiles 3).file != 0 && passes (findFile (.bump 97) [97] a.2)
          fun b => b.1 == 0)
      (by decide +kernel)
    refine ⟨x, proceeds_of_completes hx, ?_⟩
    obtain ⟨a, hRun, hBoth⟩ := exists_of_passes hTest
    rw [Bool.and_eq_true, Bool.and_eq_true, beq_iff_eq, bne_iff_ne] at hBoth
    obtain ⟨⟨hThree, hEntry⟩, hFound⟩ := hBoth
    obtain ⟨b, hFind, hZero⟩ := exists_of_passes hFound
    rintro ⟨fd, s', f, hRun', -, -, -, -, hFind'⟩
    obtain ⟨rfl, rfl⟩ := ok_unique hRun hRun'
    rw [hThree] at hFind'
    refine hEntry ((ok_unique hFind hFind').1.symm.trans (beq_iff_eq.mp hZero))

end Law

end Dandelion.FileSystem
