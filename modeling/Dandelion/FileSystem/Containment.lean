import Dandelion.FileSystem.Stages

/-! # Items stay inside their set

The walk for an item never goes up, so that all it adds lies below the directory
of the set. The identifiers are arbitrary bytes, and so are the blocks that
`dandelion_alloc` returns.
-/

namespace Dandelion.FileSystem

open Foundation.Triples

structure Inside (D : Ptr) (s : State) (L : Ptr → List Ptr) (s' : State) (L' : Ptr → List Ptr) :
    Prop where
  kept : ∀ p f, s.memory.files p = some f → ∃ f', s'.memory.files p = some f' ∧ f'.type = f.type
  old : ∀ c q, q ∈ L c → q ∈ L' c
  new : ∀ c q, q ∈ L' c → q ∈ L c ∨ s.memory.files q = none ∧ Below L' D c
  same : ∀ c, L' c = L c ∨ Below L' D c

/-- The lists of the tree, and those of the directories that were there before, can be read off
memory. -/
def Readable (s s' : State) (L' : Ptr → List Ptr) : Prop :=
  ∀ d f, Rooted L' d ∨ (s.memory.files d).isSome → s'.memory.files d = some f →
    f.type = .directory →
    Entries s'.memory d (L' d)

variable {P : Platform} {s s' s'' : State} {L L' L'' : Ptr → List Ptr} {D d n p q r : Ptr}
  {a b : List Ptr} {f : DFile}

section Relation

theorem Below.mono (hOld : ∀ c q, q ∈ L c → q ∈ L' c) (h : Below L d p) : Below L' d p :=
  Relation.ReflTransGen.mono (fun c q hq => hOld c q hq) _ _ h

theorem Inside.refl (D : Ptr) (s : State) (L : Ptr → List Ptr) : Inside D s L s L :=
  ⟨fun _ f hf => ⟨f, hf, rfl⟩, fun _ _ h => h, fun _ _ h => Or.inl h, fun _ => Or.inl rfl⟩

theorem Inside.trans (h : Inside D s L s' L') (h' : Inside D s' L' s'' L'') :
    Inside D s L s'' L'' where
  kept p f hf := by
    obtain ⟨f', hf', hType⟩ := h.kept p f hf
    obtain ⟨f'', hf'', hType'⟩ := h'.kept p f' hf'
    exact ⟨f'', hf'', hType'.trans hType⟩
  old c q hq := h'.old c q (h.old c q hq)
  new c q hq := by
    rcases h'.new c q hq with hMid | ⟨hNone, hBelow⟩
    · exact (h.new c q hMid).imp_right fun hNew => ⟨hNew.1, hNew.2.mono h'.old⟩
    · refine Or.inr ⟨?_, hBelow⟩
      cases hf : s.memory.files q with
      | none => rfl
      | some f =>
        obtain ⟨f', hf', _⟩ := h.kept q f hf
        rw [hNone] at hf'
        cases hf'
  same c := by
    rcases h'.same c with hEq | hBelow
    · exact (h.same c).imp (fun hSame => hEq.trans hSame) fun hBelow => hBelow.mono h'.old
    · exact Or.inr hBelow

theorem Inside.of_kept (h : ∀ p f, s.memory.files p = some f →
    ∃ f', s'.memory.files p = some f' ∧ f'.type = f.type) :
    Inside D s L s' L := ⟨h, fun _ _ h => h, fun _ _ h => Or.inl h, fun _ => Or.inl rfl⟩

theorem Inside.of_files (h : s'.memory.files = s.memory.files) : Inside D s L s' L :=
  .of_kept fun _ f hf => ⟨f, by rw [h, hf], rfl⟩

theorem Inside.of_update (hVacant : s.memory.files n = none)
    (h : s'.memory.files = Function.update s.memory.files n (some f)) : Inside D s L s' L := by
  refine .of_kept fun p e he => ⟨e, ?_, rfl⟩
  have hne : p ≠ n := by
    rintro rfl
    rw [hVacant] at he
    cases he
  rw [h, Function.update_of_ne hne, he]

theorem Inside.links {s₁ : State} (h : Inside D s L s₁ L) (hNone : s.memory.files n = none)
    (hLinks : Links P s₁ L d n a b s' L') (hd : Below L D d) : Inside D s L s' L' := by
  have hOld : ∀ c q, q ∈ L c → q ∈ L' c := fun c q hq => hLinks.mem_iff.mpr (Or.inl hq)
  refine ⟨fun p f hf => ?_, hOld, fun c q hq => ?_, fun c => ?_⟩
  · obtain ⟨f', hf', hType⟩ := h.kept p f hf
    exact ⟨_, hLinks.edits.file hf', hType⟩
  · rcases hLinks.mem_iff.mp hq with hq | ⟨rfl, rfl⟩
    · exact Or.inl hq
    · exact Or.inr ⟨hNone, hd.mono hOld⟩
  · by_cases hc : c = d
    · exact Or.inr (hc ▸ hd.mono hOld)
    · exact Or.inl (by rw [hLinks.lists, Function.update_of_ne hc])

end Relation

section Items

theorem Creates.inside {names : List Path} (h : Creates P true s L d names s' L' r)
    (hd : Below L D d) :
    Inside D s L s' L' ∧ (r ≠ 0 → Below L' D r) := by
  induction h with
  | done => exact ⟨.refl _ _ _, fun _ => hd⟩
  | stay _ ih => exact ih hd
  | up hUp _ _ => cases hUp
  | enter _ _ _ hFound _ ih => exact ih (hd.tail (lookupIn_mem hFound).1)
  | make _ _ _ _ _ _ hAdds hLinks _ ih =>
    have hStep := (Inside.of_update hAdds.vacant.2.1 hAdds.files).links hAdds.vacant.2.1 hLinks hd
    obtain ⟨hRest, hr⟩ := ih ((hd.mono hStep.old).tail (hLinks.mem_iff.mpr (Or.inr ⟨rfl, rfl⟩)))
    exact ⟨hStep.trans hRest, hr⟩
  | refused hSame => exact ⟨.of_files hSame.files, fun h => absurd rfl h⟩

theorem Readable.of_listing (h : Listing P s'.memory L') : Readable s s' L' := fun d f _ hf hDir =>
  h.entries d f hf hDir

theorem Readable.of_leak {s₁ : State} (h : Leaks s₁ s') (hListing : Listing P s₁.memory L')
    (hKept : ∀ p f, s.memory.files p = some f →
      ∃ f', s₁.memory.files p = some f' ∧ f'.type = f.type) :
    Readable s s' L' := by
  intro d f hd hf hDir
  rcases h.files with hSame | ⟨n, e, hVacant, hUpdate⟩
  · exact (hListing.of_files hSame).entries d f hf hDir
  · have hLive : ∃ g, s₁.memory.files d = some g := by
      rcases hd with hRooted | hOld
      · exact hRooted.live hListing
      · obtain ⟨g, hg⟩ := Option.isSome_iff_exists.mp hOld
        obtain ⟨g', hg', _⟩ := hKept d g hg
        exact ⟨g', hg'⟩
    have hOther : ∀ q g, s₁.memory.files q = some g → s'.memory.files q = some g := fun q g hg => by
      rw [hUpdate, Function.update_of_ne (hVacant.ne_file hg).symm, hg]
    obtain ⟨g, hg⟩ := hLive
    obtain rfl := Option.mem_unique (hOther d g hg) hf
    refine (hListing.entries d g hg hDir).frame (fun e he => ⟨e, hOther d e he, rfl, rfl⟩)
      fun q hq => ?_
    obtain ⟨e, he, _⟩ := hListing.live hq
    rw [nextNode_of he, nextNode_of (hOther q e he)]

theorem Inside.of_leak (h : Leaks s s') : Inside D s L s' L := by
  rcases h.files with hSame | ⟨n, f, hVacant, hUpdate⟩
  · exact .of_files hSame
  · exact .of_update hVacant.2.1 hUpdate

theorem Inside.of_opens {index : Nat} (h : OpensAt s s' index p) : Inside D s L s' L := by
  obtain ⟨s₁, hEdit, hMemory⟩ := h.edits
  refine .of_kept fun q f hf => ⟨_, by rw [hMemory]; exact hEdit.file hf, ?_⟩
  by_cases hq : q = p <;> simp [editAt, hq]

theorem ImportsItem.inside {isStdio : Bool} {item : Item} {e : Int}
    (h : ImportsItem P D isStdio item s L e s' L') (hListing : Listing P s.memory L)
    (hLeaves : Leaves s.memory) (hRooted : Rooted L D) :
    Inside D s L s' L' ∧ Readable s s' L' ∧
      (e = 0 → Listing P s'.memory L' ∧ Leaves s'.memory ∧ Rooted L' D) := by
  cases h with
  | skipped _ => exact ⟨.refl _ _ _, .of_listing hListing, fun _ => ⟨hListing, hLeaves, hRooted⟩⟩
  | blocked hCreates =>
    refine ⟨(hCreates.inside .refl).1, .of_listing (hCreates.forest hListing hLeaves hRooted).1,
      fun h => ?_⟩
    exact absurd h (by decide)
  | refused hCreates hLeak =>
    have hInside := (hCreates.inside .refl).1
    have hListing₁ := (hCreates.forest hListing hLeaves hRooted).1
    refine ⟨hInside.trans (.of_leak hLeak), .of_leak hLeak hListing₁ hInside.kept, fun h => ?_⟩
    exact absurd h (by decide)
  | misplaced hCreates hAdds =>
    have hInside := (hCreates.inside .refl).1
    have hListing₁ := (hCreates.forest hListing hLeaves hRooted).1
    refine ⟨hInside.trans (.of_update hAdds.vacant.2.1 hAdds.files),
      .of_listing (hAdds.listing hListing₁), fun h => ?_⟩
    exact absurd h (by decide)
  | placed hFile hCreates hr hDir hLength hAnswer hAdds hLinks hOpens hOutfits =>
    rename_i s₁ s₂ s₃ s₄ L₁ file r link g a b
    obtain ⟨hInside, hBelow⟩ := hCreates.inside (Relation.ReflTransGen.refl (a := D))
    obtain ⟨hListing₁, hLeaves₁, _⟩ := hCreates.forest hListing hLeaves hRooted
    have hStep :=
      (Inside.of_update hAdds.vacant.2.1 hAdds.files).links hAdds.vacant.2.1 hLinks (hBelow hr)
    obtain ⟨e, he, hType⟩ := isDirectory_iff.mp hDir
    have hLeaves₃ := hLinks.leaves (hAdds.old he) hType (hAdds.leaves hListing₁ hLeaves₁)
    have hOpened : Inside D s₃ L' s₄ L' ∧ Listing P s₄.memory L' ∧ Leaves s₄.memory := by
      split at hOpens
      · exact ⟨.of_opens hOpens, hOpens.listing hLinks.listing, hOpens.leaves hLeaves₃⟩
      · obtain rfl := hOpens
        exact ⟨.refl _ _ _, hLinks.listing, hLeaves₃⟩
    obtain ⟨hInside₄, hListing₄, hLeaves₄⟩ := hOpened
    have hAll := ((hInside.trans hStep).trans hInside₄).trans (.of_files hOutfits.files)
    have hListing' := hListing₄.of_files hOutfits.files
    exact ⟨hAll, .of_listing hListing', fun _ =>
      ⟨hListing', hOutfits.leaves hLeaves₄, Below.mono hAll.old hRooted⟩⟩

end Items

section Initialize

/-- A tree that `fs_initialize` can go on with. -/
structure Grounded (P : Platform) (s : State) (L : Ptr → List Ptr) : Prop where
  listing : Listing P s.memory L
  leaves : Leaves s.memory
  stdio : Rooted L stdioFolder
  folder : isDirectory s.memory stdioFolder

/-- The steps by which `fs_initialize` builds the tree, with the items that are still to come. -/
structure BuildRules (P : Platform) (J : List Item → State → (Ptr → List Ptr) → Prop) : Prop where
  skip : ∀ {front rest s L}, J (front ++ rest) s L → J rest s L
  creates : ∀ {items s s' L L' d r names}, J items s L → Creates P true s L d names s' L' r →
    J items s' L'
  item : ∀ {isStdio item items s s' L L' D}, J (item :: items) s L →
    ImportsItem P D isStdio item s L 0 s' L' → J items s' L'
  stream : ∀ {items s s₁ s₂ s' L L' fd n name link mode bytes a b}, J items s L →
    AddsFile s s₁ n (fileNode name link mode bytes) 0 0 → OpensAt s₁ s₂ fd n →
    Links P s₂ L stdioFolder n a b s' L' → J items s' L'
  outfits : ∀ {items s s' L}, J items s L → Outfits s s' → J items s' L

theorem Furnished.grounded {S : List (List Path)} (h : Furnished P S s L) : Grounded P s L :=
  ⟨h.listing, h.leaves, h.stdio.rooted, h.folder⟩

theorem Inside.directory (h : Inside D s L s' L') (hd : isDirectory s.memory d) :
    isDirectory s'.memory d := by
  obtain ⟨f, hf, hType⟩ := isDirectory_iff.mp hd
  obtain ⟨f', hf', hSame⟩ := h.kept d f hf
  exact isDirectory_iff.mpr ⟨f', hf', hSame.trans hType⟩

theorem Inside.grounded (h : Inside D s L s' L') (hGrounded : Grounded P s L)
    (hListing : Listing P s'.memory L') (hLeaves : Leaves s'.memory) : Grounded P s' L' :=
  ⟨hListing, hLeaves, Below.mono h.old hGrounded.stdio, h.directory hGrounded.folder⟩

theorem Grounded.creates {names : List Path} (h : Grounded P s L)
    (hCreates : Creates P true s L fsRoot names s' L' r) :
    Grounded P s' L' ∧ (r ≠ 0 → Rooted L' r) := by
  obtain ⟨hListing, hLeaves, hRooted⟩ := hCreates.forest h.listing h.leaves .root
  obtain ⟨hInside, -⟩ := hCreates.inside (Relation.ReflTransGen.refl (a := fsRoot))
  exact ⟨hInside.grounded h hListing hLeaves, hRooted⟩

theorem Grounded.createStdio (fd : Nat) {flags mode : Nat} {name : Path} (h : Grounded P s L)
    (hTrunc : hasBit flags oTRUNC = false) :
    Ensures (createStdio P fd name flags mode) s fun r s' => r = 0 → ∃ L', Grounded P s' L' ∧
      ∃ s₁ s₂ g link a b, name.length ≤ fsNameLength ∧
        P.answer s.memory s.requests sizeofFile 8 = some g ∧
        AddsFile s s₁ g.ptr (fileNode name link mode g.bytes) 0 0 ∧ OpensAt s₁ s₂ fd g.ptr ∧
        Links P s₂ L stdioFolder g.ptr a b s' L' := by
  rw [FileSystem.createStdio]
  refine (createFile_adds name 0 0 mode).bind fun n s₁ h₁ => ?_
  rcases h₁ with ⟨hn, hLength, g, link, hg, rfl, hAdds⟩ | ⟨rfl, _, _⟩
  · refine .ite (fun h => absurd h hn) fun _ =>
      (openExistingFile_opens fd hTrunc).bind fun error s₂ h₂ => ?_
    obtain ⟨rfl, hOpens⟩ := h₂
    refine .ite (fun h => absurd rfl h) fun _ => ?_
    have hListing₂ := hOpens.listing (hAdds.listing h.listing)
    obtain ⟨s₃, hEdit, hMemory⟩ := hOpens.edits
    obtain ⟨e, he, hType⟩ := isDirectory_iff.mp (hOpens.directory (hAdds.directory h.folder))
    obtain ⟨s₄, L₄, a, b, hRun, hLinks⟩ := hListing₂.link he hType
      (by rw [hMemory]; exact hEdit.file hAdds.live) (hAdds.ne_root h.listing)
      (h.listing.unlisted_of_none hAdds.vacant.2.1)
    refine .of_ok hRun fun _ =>
      ⟨L₄, ⟨hLinks.listing, ?_, ?_, ?_⟩, _, _, g, _, _, _, hLength, hg, hAdds, hOpens, hLinks⟩
    · exact hLinks.leaves he hType (hOpens.leaves (hAdds.leaves h.listing h.leaves))
    · exact Below.mono (fun c q hq => hLinks.mem_iff.mpr (Or.inl hq)) h.stdio
    · exact isDirectory_iff.mpr ⟨_, hLinks.edits.file he, hType⟩
  · exact .ite (fun _ => .pure fun h => absurd h (by decide)) fun h => absurd rfl h

namespace BuildRules

variable {J : List Item → State → (Ptr → List Ptr) → Prop} (h : BuildRules P J) {items : List Item}

include h

theorem createStdio (fd : Nat) {flags mode : Nat} {name : Path} (hJ : J items s L)
    (hs : Grounded P s L) (hTrunc : hasBit flags oTRUNC = false) :
    Ensures (createStdio P fd name flags mode) s fun r s' => r = 0 →
      ∃ L', Grounded P s' L' ∧ J items s' L' := by
  refine (hs.createStdio fd hTrunc).imp fun r s' hs' hr => ?_
  obtain ⟨L', hs', s₁, s₂, g, link, a, b, -, -, hAdds, hOpens, hLinks⟩ := hs' hr
  exact ⟨L', hs', h.stream hJ hAdds hOpens hLinks⟩

theorem createDirectories {path : Path} (hJ : J items s L) (hs : Grounded P s L) :
    Ensures (createDirectories P fsRoot path true) s fun r s' =>
      ∃ L', (Grounded P s' L' ∧ (r ≠ 0 → Rooted L' r)) ∧ J items s' L' := by
  refine (createDirectories_creates hs.listing hs.leaves .root).imp fun r s' hs' => ?_
  obtain ⟨L', hCreates⟩ := hs'
  exact ⟨L', hs.creates hCreates, h.creates hJ hCreates⟩

theorem importItems {isStdio : Bool} {rest : List Item} {x : Arguments} (hJ : J (items ++ rest) s L)
    (hs : Grounded P s L) (hRooted : Rooted L D) :
    Ensures (importItems P D isStdio items x) s fun r s' => r.1 = 0 →
      ∃ L', Grounded P s' L' ∧ J rest s' L' := by
  induction items generalizing s L x with
  | nil => exact .pure fun _ => ⟨L, hs, hJ⟩
  | cons item items ih =>
    rw [FileSystem.importItems]
    refine (importItem_imports hs.listing hs.leaves hRooted).bind fun r s₁ h₁ => ?_
    obtain ⟨L₁, hImports⟩ := h₁
    refine .ite (fun hError => .pure fun hZero => absurd hZero hError) fun hZero => ?_
    rw [not_not.mp hZero] at hImports
    obtain ⟨hInside, -, hGood⟩ := hImports.inside hs.listing hs.leaves hRooted
    obtain ⟨hListing₁, hLeaves₁, hRooted₁⟩ := hGood rfl
    exact ih (h.item hJ hImports) (hInside.grounded hs hListing₁ hLeaves₁) hRooted₁

theorem importSets {sets : List InputSet} {x : Arguments}
    (hJ : J (sets.flatMap fun set => set.items) s L) (hs : Grounded P s L) :
    Ensures (importSets P sets x) s fun r s' => r.1 = 0 → ∃ L', Grounded P s' L' ∧ J [] s' L' := by
  induction sets generalizing s L x with
  | nil => exact .pure fun _ => ⟨L, hs, hJ⟩
  | cons set rest ih =>
    rw [List.flatMap_cons] at hJ
    rw [FileSystem.importSets]
    refine .ite (fun _ => ih (h.skip hJ) hs) fun _ =>
      (h.createDirectories hJ hs).bind fun D s₁ h₁ => ?_
    obtain ⟨L₁, ⟨hs₁, hRooted⟩, hJ₁⟩ := h₁
    refine .ite (fun _ => .pure fun h => absurd h (show ¬ (-1 : Int) = 0 by decide)) fun hD => ?_
    refine (h.importItems hJ₁ hs₁ (hRooted hD)).bind fun r s₂ h₂ => ?_
    refine .ite (fun hError => .pure fun hZero => absurd hZero hError) fun hZero => ?_
    obtain ⟨L₂, hs₂, hJ₂⟩ := h₂ (not_not.mp hZero)
    exact ih hJ₂ hs₂

theorem createOutputSets {outputs : List Path} (hJ : J items s L) (hs : Grounded P s L) :
    Ensures (createOutputSets P outputs) s fun _ s' => ∃ L', Grounded P s' L' ∧ J items s' L' := by
  induction outputs generalizing s L with
  | nil => exact .pure ⟨L, hs, hJ⟩
  | cons ident rest ih =>
    rw [FileSystem.createOutputSets]
    refine .ite (fun _ => ih hJ hs) fun _ => (h.createDirectories hJ hs).bind fun D s₁ h₁ => ?_
    obtain ⟨L₁, ⟨hs₁, -⟩, hJ₁⟩ := h₁
    exact .ite (fun _ => .pure ⟨L₁, hs₁, hJ₁⟩) fun _ => ih hJ₁ hs₁

theorem fsInitialize {sets : List InputSet} {outputs : List Path}
    (hStatics : linkStatics P s = .ok (0, s')) (hJ : J (sets.flatMap fun set => set.items) s' L)
    (hs : Grounded P s' L) :
    Ensures (fsInitialize P sets outputs) s fun r s' => r.1 = 0 → ∃ L', J [] s' L' := by
  rw [FileSystem.fsInitialize]
  refine .after hStatics (.ite (fun h => absurd rfl h) fun _ => ?_)
  refine (h.createStdio 2 hJ hs (by decide)).bind fun e s₂ h₂ => ?_
  refine .ite (fun hError => .pure fun hZero => absurd hZero hError) fun he => ?_
  obtain ⟨L₂, hs₂, hJ₂⟩ := h₂ (not_not.mp he)
  refine (h.createStdio 1 hJ₂ hs₂ (by decide)).bind fun e s₃ h₃ => ?_
  refine .ite (fun hError => .pure fun hZero => absurd hZero hError) fun he => ?_
  obtain ⟨L₃, hs₃, hJ₃⟩ := h₃ (not_not.mp he)
  refine (h.importSets hJ₃ hs₃).bind fun r s₄ h₄ => ?_
  refine .ite (fun hError => .pure fun hZero => absurd hZero hError) fun hr => ?_
  obtain ⟨L₄, hs₄, hJ₄⟩ := h₄ (not_not.mp hr)
  refine (h.createOutputSets hJ₄ hs₄).bind fun e s₅ h₅ => ?_
  obtain ⟨L₅, hs₅, hJ₅⟩ := h₅
  refine .ite (fun hError => .pure fun hZero => absurd hZero hError) fun _ => ?_
  refine finishInitialize_keeps (A := fun s => ∃ L, J [] s L) ⟨L₅, hJ₅⟩ (fun _ => ?_) ?_
  · refine (h.createStdio 0 hJ₅ hs₅ (by decide)).imp fun error s₆ h₆ hZero => ?_
    obtain ⟨L₆, -, hJ₆⟩ := h₆ hZero
    exact ⟨L₆, hJ₆⟩
  · rintro s s' ⟨L, hJ⟩ hOutfits
    exact ⟨L, h.outfits hJ hOutfits⟩

end BuildRules

end Initialize

end Dandelion.FileSystem
