import Dandelion.FileSystem.Import
import Dandelion.FileSystem.Names

/-! # Stages of the initialisation

While `fs_initialize` builds the tree, all nodes are at positions that follow
from the inputs read so far. An item that is placed at a new position keeps the
names distinct.
-/

namespace Dandelion.FileSystem

open Foundation.Triples

/-- Names are distinct, and all nodes are at the root or at the given positions. -/
structure Stage (P : Platform) (S : List (List Path)) (s : State) (L : Ptr → List Ptr) : Prop where
  listing : Listing P s.memory L
  leaves : Leaves s.memory
  named : Named s.memory L
  within : ∀ ρ q, At s.memory L ρ q → ρ ∈ [] :: S

/-- A stage with the folder of the standard streams. -/
structure Furnished (P : Platform) (S : List (List Path)) (s : State) (L : Ptr → List Ptr) : Prop
    extends Stage P S s L where
  stdio : At s.memory L [stdioName] stdioFolder
  folder : isDirectory s.memory stdioFolder

variable {P : Platform} {s s' : State} {L L' : Ptr → List Ptr} {d n p r : Ptr} {a b : List Ptr}
  {f : DFile} {S : List (List Path)} {π : List Path}

section Steps

theorem Stage.links (h : Stage P S s L) (hLinks : Links P s L d n a b s' L')
    (hd : At s.memory L π d) (hDir : isDirectory s.memory d) (hEmpty : L n = []) (hne : n ≠ d)
    (hProper : ProperName (entryName s.memory n)) (hFresh : π ++ [entryName s.memory n] ∉ S) :
    Stage P ((π ++ [entryName s.memory n]) :: S) s' L' := by
  obtain ⟨e, he, hType⟩ := isDirectory_iff.mp hDir
  refine ⟨hLinks.listing, hLinks.leaves he hType h.leaves,
    hLinks.named h.named (fun q hq hName => ?_) hProper, fun ρ q hAt => ?_⟩
  · have hTaken := h.within _ q (.child hd hq)
    rw [hName] at hTaken
    exact hFresh ((List.mem_cons.mp hTaken).resolve_left (by simp))
  · rcases hLinks.at_inv h.listing hd hEmpty hne hAt with hOld | ⟨rfl, _⟩
    · have hWithin := h.within ρ q hOld
      simp only [List.mem_cons] at hWithin ⊢
      tauto
    · simp

theorem Furnished.links (h : Furnished P S s L) (hLinks : Links P s L d n a b s' L')
    (hd : At s.memory L π d) (hDir : isDirectory s.memory d) (hEmpty : L n = []) (hne : n ≠ d)
    (hProper : ProperName (entryName s.memory n)) (hFresh : π ++ [entryName s.memory n] ∉ S) :
    Furnished P ((π ++ [entryName s.memory n]) :: S) s' L' := by
  refine ⟨h.toStage.links hLinks hd hDir hEmpty hne hProper hFresh, hLinks.at_old h.stdio, ?_⟩
  rw [hLinks.edits.isDirectory_eq fun _ _ => rfl]
  exact h.folder

theorem Creates.directory {names : List Path} (h : Creates P true s L d names s' L' r)
    (hp : isDirectory s.memory p) : isDirectory s'.memory p := by
  induction h with
  | done => exact hp
  | stay _ ih => exact ih hp
  | up _ _ ih => exact ih hp
  | enter _ _ _ _ _ ih => exact ih hp
  | make _ _ _ _ _ _ hAdds hLinks _ ih =>
    refine ih ?_
    rw [hLinks.edits.isDirectory_eq fun _ _ => rfl]
    exact hAdds.directory hp
  | refused hSame =>
    rw [isDirectory, hSame.files]
    exact hp

theorem Furnished.creates {names : List Path} (h : Furnished P S s L)
    (hCreates : Creates P true s L d names s' L' r) (hd : At s.memory L π d)
    (hNames : ∀ c ∈ names, 0 ∉ c ∧ slash ∉ c) :
    Furnished P (visits π names ++ S) s' L' ∧ (∀ ρ q, At s.memory L ρ q → At s'.memory L' ρ q) ∧
      (r ≠ 0 → At s'.memory L' (clean π names) r) := by
  obtain ⟨_, hr, hOld, hNew⟩ := hCreates.positions h.listing hd fun c hc => (hNames c hc).1
  obtain ⟨hListing, hLeaves, _⟩ := hCreates.forest h.listing h.leaves hd.rooted
  refine ⟨⟨⟨hListing, hLeaves, hCreates.named h.listing h.named hNames, fun ρ q hAt => ?_⟩,
    hOld _ _ h.stdio, hCreates.directory h.folder⟩, hOld, hr⟩
  have hCases := hNew ρ q hAt
  have hWithin := h.within ρ q
  simp only [List.mem_cons, List.mem_append] at hWithin ⊢
  tauto

/-- What keeps the lists and the names on them keeps the stage. -/
theorem Furnished.congr (h : Furnished P S s L) (hListing : Listing P s'.memory L)
    (hLeaves : Leaves s'.memory)
    (hName : ∀ d, ∀ q ∈ L d, entryName s'.memory q = entryName s.memory q)
    (hFolder : isDirectory s'.memory stdioFolder) : Furnished P S s' L :=
  ⟨⟨hListing, hLeaves, h.named.congr hName,
    fun ρ q hAt => h.within ρ q (hAt.congr fun d q hq => (hName d q hq).symm)⟩,
      h.stdio.congr hName, hFolder⟩

theorem OpensAt.entryName_eq {index : Nat} (h : OpensAt s s' index p) (q : Ptr) :
    entryName s'.memory q = entryName s.memory q := by
  obtain ⟨s₁, hEdit, hMemory⟩ := h.edits
  rw [hMemory, entryName, entryName, hEdit.nameOf_eq]
  intro q f
  by_cases hq : q = p <;> simp [editAt, hq]

theorem OpensAt.directory {index : Nat} (h : OpensAt s s' index p) (hd : isDirectory s.memory d) :
    isDirectory s'.memory d := by
  obtain ⟨s₁, hEdit, hMemory⟩ := h.edits
  rw [hMemory, hEdit.isDirectory_eq]
  · exact hd
  · intro q f
    by_cases hq : q = p <;> simp [editAt, hq]

theorem Furnished.opens {index : Nat} (h : Furnished P S s L) (hOpens : OpensAt s s' index p) :
    Furnished P S s' L :=
  h.congr (hOpens.listing h.listing) (hOpens.leaves h.leaves) (fun _ q _ => hOpens.entryName_eq q)
    (hOpens.directory h.folder)

theorem Outfits.entryName_eq (h : Outfits s s') (q : Ptr) :
    entryName s'.memory q = entryName s.memory q := by
  rw [entryName, entryName, nameOf, nameOf, h.files]

theorem Furnished.outfits (h : Furnished P S s L) (hOutfits : Outfits s s') :
    Furnished P S s' L := by
  refine h.congr (h.listing.of_files hOutfits.files) (hOutfits.leaves h.leaves)
    (fun _ q _ => hOutfits.entryName_eq q) ?_
  rw [isDirectory, hOutfits.files]
  exact h.folder

theorem AddsFile.entryName_eq {content length : Nat} {q : Ptr}
    (h : AddsFile s s' n f content length) (hListing : Listing P s.memory L) (hq : q ∈ L d) :
    entryName s'.memory q = entryName s.memory q := by
  obtain ⟨e, he, _⟩ := hListing.live hq
  rw [entryName_of he, entryName_of (h.old he)]

theorem AddsFile.directory {content length : Nat} (h : AddsFile s s' n f content length)
    (hd : isDirectory s.memory d) : isDirectory s'.memory d := by
  obtain ⟨e, he, hType⟩ := isDirectory_iff.mp hd
  exact isDirectory_iff.mpr ⟨e, h.old he, hType⟩

theorem Furnished.addsFile {content length : Nat} (h : Furnished P S s L)
    (hAdds : AddsFile s s' n f content length) : Furnished P S s' L :=
  h.congr (hAdds.listing h.listing) (hAdds.leaves h.listing h.leaves)
    (fun _ _ hq => hAdds.entryName_eq h.listing hq) (hAdds.directory h.folder)

end Steps

section Statics

theorem Boots.stage {sets : List InputSet} (h : Boots sets s) : Stage P [] s fun _ => [] := by
  have hStatic : ∀ p f, s.memory.files p = some f → f.next = 0 ∧ f.parent = 0 ∧
      (f.type = .directory → f.link = 0) ∧ (f.type ≠ .directory → f.link = urandomDevice) := by
    intro p f hf
    rw [h.files] at hf
    rcases staticFiles_cases hf with ⟨rfl, rfl⟩ | ⟨rfl, rfl⟩ | ⟨rfl, rfl⟩ | ⟨rfl, rfl⟩ <;> decide
  have hZero : s.memory.files 0 = none := by rw [h.files]; rfl
  refine ⟨⟨hZero, ?_, fun d f hf hDir => ?_, fun _ _ => rfl,
    fun _ _ _ hp => absurd hp List.not_mem_nil, fun _ => List.Pairwise.nil⟩, fun p f hf hType => ?_,
    ⟨fun _ => List.Pairwise.nil, fun _ _ hp => absurd hp List.not_mem_nil⟩, fun ρ q hAt => ?_⟩
  · exact ⟨staticNode [slash] .directory 0 0, by rw [h.files]; rfl, rfl, rfl⟩
  · refine ⟨?_, f, hf, hDir, (hStatic d f hf).2.2.1 hDir⟩
    rintro rfl
    rw [hZero] at hf
    cases hf
  · rw [(hStatic p f hf).2.2.2 hType]
    exact ⟨by rw [h.files]; rfl, Or.inl (by decide)⟩
  · rcases hAt.inv with ⟨rfl, _⟩ | ⟨_, _, _, _, hMem⟩
    · exact List.mem_cons_self
    · exact absurd hMem List.not_mem_nil

theorem Stage.place (h : Stage P S s L) (name : Path) (hd : At s.memory L π d)
    (hDir : isDirectory s.memory d) (hf : s.memory.files n = some f)
    (hName : trim f.name fsNameLength = name) (hEmpty : L n = []) (hne : n ≠ d) (hRoot : n ≠ fsRoot)
    (hUnlisted : ∀ c, n ∉ L c) (hProper : ProperName name) (hFresh : π ++ [name] ∉ S) :
    ∃ s' L' a b, linkFileToFolder P d n s = .ok (0, s') ∧ Links P s L d n a b s' L' ∧
      Stage P ((π ++ [name]) :: S) s' L' ∧ At s'.memory L' (π ++ [name]) n := by
  obtain ⟨e, he, hType⟩ := isDirectory_iff.mp hDir
  obtain ⟨s', L', a, b, hRun, hLinks⟩ := h.listing.link he hType hf hRoot hUnlisted
  have hEntry : entryName s.memory n = name := (entryName_of hf).trans hName
  subst hEntry
  exact ⟨s', L', a, b, hRun, hLinks, h.links hLinks hd hDir hEmpty hne hProper hFresh,
    hLinks.at_new hd⟩

/-- The device folder, the device and the folder of the standard streams are linked. -/
theorem linkStatics_stage {sets : List InputSet} (h : Boots sets s) :
    ∃ s' L', linkStatics P s = .ok (0, s') ∧ s'.openFiles = s.openFiles ∧
      Furnished P [[stdioName], [devName, urandomName], [devName]] s' L' ∧
      (∀ p f, s'.memory.files p = some f → p ≠ fsRoot → f.hardLinks = 2 ∧ f.openDescriptors = 0) ∧
      (∀ p f, s'.memory.files p = some f → f.type ≠ .file) ∧
      (∀ p, s.memory.files p = none → s'.memory.files p = none) ∧
        s'.memory.chunks = s.memory.chunks ∧
      s'.memory.blocks = s.memory.blocks := by
  have hDev : s.memory.files deviceFolder = some (staticNode devName .directory 0 0) := by
    rw [h.files]
    rfl
  have hUrandom : s.memory.files urandomFile =
      some (staticNode urandomName .device urandomDevice sIRUSR) := by
    rw [h.files]; rfl
  have hStdio : s.memory.files stdioFolder = some (staticNode stdioName .directory 0 0) := by
    rw [h.files]
    rfl
  obtain ⟨s₁, L₁, a₁, b₁, hRun₁, hLinks₁, hStage₁, hAtDev⟩ := (h.stage (P := P)).place devName .root
    (isDirectory_iff.mpr ⟨_, by rw [h.files]; rfl, rfl⟩) hDev (by decide) rfl (by decide)
    (by decide) (fun _ => List.not_mem_nil) (by decide) (by simp)
  have hMem₁ : ∀ c q, q ∈ L₁ c ↔ c = fsRoot ∧ q = deviceFolder := fun c q => by
    rw [hLinks₁.mem_iff]
    simp
  obtain ⟨s₂, L₂, a₂, b₂, hRun₂, hLinks₂, hStage₂, -⟩ := hStage₁.place urandomName hAtDev
    (isDirectory_iff.mpr ⟨_, hLinks₁.edits.file hDev, rfl⟩) (hLinks₁.edits.file hUrandom)
    (show trim urandomName fsNameLength = urandomName by decide)
    (List.eq_nil_iff_forall_not_mem.mpr fun q hq => absurd ((hMem₁ _ q).mp hq).1 (by decide))
      (by decide) (by decide)
    (fun c hc => absurd ((hMem₁ c _).mp hc).2 (by decide)) (by decide) (by decide)
  have hMem₂ : ∀ c q, q ∈ L₂ c ↔ c = fsRoot ∧ q = deviceFolder ∨ c = deviceFolder ∧
      q = urandomFile := fun c q => by
    rw [hLinks₂.mem_iff, hMem₁]
  have hStdio₂ := hLinks₂.edits.file (hLinks₁.edits.file hStdio)
  obtain ⟨e, he, hRootDir, _⟩ := hStage₂.listing.root
  have hNotIn : ∀ c, stdioFolder ∉ L₂ c := by
    intro c hc
    rcases (hMem₂ c _).mp hc with ⟨_, hEq⟩ | ⟨_, hEq⟩ <;> exact absurd hEq (by decide)
  obtain ⟨s₃, L₃, a₃, b₃, hRun₃, hLinks₃, hStage₃, hAtStdio⟩ := hStage₂.place stdioName .root
    (isDirectory_iff.mpr ⟨e, he, hRootDir⟩) hStdio₂
    (show trim stdioName fsNameLength = stdioName by decide)
      (List.eq_nil_iff_forall_not_mem.mpr fun q hq => by
      rcases (hMem₂ _ q).mp hq with ⟨hEq, _⟩ | ⟨hEq, _⟩ <;> exact absurd hEq (by decide))
        (by decide) (by decide)
    hNotIn (by decide) (by decide)
  have hFiles :=
    fun p => (hLinks₃.edits.files p).trans (by rw [hLinks₂.edits.files, hLinks₁.edits.files])
  have hStatics : ∀ p f, s₃.memory.files p = some f →
      (p ≠ fsRoot → f.hardLinks = 2 ∧ f.openDescriptors = 0) ∧ f.type ≠ .file := by
    intro p f hf
    rw [hFiles, h.files] at hf
    simp only [Option.map_eq_some_iff] at hf
    obtain ⟨_, ⟨_, ⟨f₀, hf₀, rfl⟩, rfl⟩, rfl⟩ := hf
    rcases staticFiles_cases hf₀ with ⟨rfl, rfl⟩ | ⟨rfl, rfl⟩ | ⟨rfl, rfl⟩ | ⟨rfl, rfl⟩
    · exact ⟨fun hne => absurd rfl hne, show FileType.directory ≠ .file by decide⟩
    · exact ⟨fun _ => ⟨rfl, rfl⟩, show FileType.directory ≠ .file by decide⟩
    · exact ⟨fun _ => ⟨rfl, rfl⟩, show FileType.directory ≠ .file by decide⟩
    · exact ⟨fun _ => ⟨rfl, rfl⟩, show FileType.device ≠ .file by decide⟩
  refine ⟨s₃, L₃, ?_, ?_, ⟨hStage₃, hAtStdio, ?_⟩, fun p f hf => (hStatics p f hf).1,
    fun p f hf => (hStatics p f hf).2, fun p hp => ?_, ?_, ?_⟩
  · rw [linkStatics, bind_ok hRun₁, if_neg (by decide), bind_ok hRun₂, if_neg (by decide), hRun₃]
  · rw [hLinks₃.edits.openFiles, hLinks₂.edits.openFiles, hLinks₁.edits.openFiles]
  · exact isDirectory_iff.mpr ⟨_, hLinks₃.edits.file hStdio₂, rfl⟩
  · rw [hFiles, hp]
    rfl
  · rw [hLinks₃.edits.chunks, hLinks₂.edits.chunks, hLinks₁.edits.chunks]
  · rw [hLinks₃.edits.blocks, hLinks₂.edits.blocks, hLinks₁.edits.blocks]

end Statics

end Dandelion.FileSystem
