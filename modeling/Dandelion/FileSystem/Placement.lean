import Dandelion.FileSystem.Stages
import Dandelion.FileSystem.Steady

/-! # Where the inputs are placed

The positions that the inputs ask for are computed from the identifiers alone.
If each item asks for one that is not taken, importing the sets keeps the names
of the tree distinct.
-/

namespace Dandelion.FileSystem

section Plan

instance decidableTaken (place : List Path) (taken : List (List Path)) :
    Decidable (place ∈ taken) := inferInstance

/-- The positions after an item is imported below a position, if it lands on a new one. -/
def planItem (π : List Path) (S : List (List Path)) (item : Item) : Option (List (List Path)) :=
  match getFile item.ident with
  | none => some S
  | some file =>
    let dirs := components (getDirectories item.ident)
    let place := clean π dirs ++ [file]
    if 0 ∉ item.ident ∧ ProperName file ∧
      place ∉ visits π dirs ++ S then some (place :: (visits π dirs ++ S)) else none

def planItems (π : List Path) : List (List Path) → List Item → Option (List (List Path))
  | S, [] => some S
  | S, item :: rest => (planItem π S item).bind fun S' => planItems π S' rest

def planSets : List (List Path) → List InputSet → Option (List (List Path))
  | S, [] => some S
  | S, set :: rest =>
    if set.ident.length = 0 then planSets S rest
    else if 0 ∈ set.ident then none
    else
      (planItems (clean [] (components set.ident)) (visits [] (components set.ident) ++ S)
        set.items).bind fun S' =>
        planSets S' rest

def staticPositions : List (List Path) :=
  [[stdioName, stdoutName], [stdioName, stderrName], [stdioName], [devName, urandomName], [devName]]

/-- The set `stdio` has an item that becomes the standard input. -/
def providesStdin (sets : List InputSet) : Bool :=
  sets.any fun set => set.ident = stdioName ∧ set.items.any fun item =>
    getFile item.ident = some stdinName

/-- No two inputs want the same place, and the standard input is not put in place
without being provided as such. -/
def PlacedApart (sets : List InputSet) (outputs : List Path) : Prop :=
  ∃ S, planSets staticPositions sets = some S ∧ (∀ ident ∈ outputs, 0 ∉ ident) ∧
    (providesStdin sets = true ∨
      [stdioName, stdinName] ∉ S ∧
        ∀ ident ∈ outputs, [stdioName, stdinName] ∉ visits [] (components ident))

end Plan

variable {P : Platform} {s s' : State} {L : Ptr → List Ptr} {items : List Item}
  {S : List (List Path)} {π : List Path} {d p : Ptr}

section Items

theorem sameName_iff {name other : List UInt8} (h : 0 ∉ name) (h' : 0 ∉ other) :
    sameName P name other = true ↔ name = other := by
  rw [sameName, decide_eq_true_iff, namecmp_eq_zero_iff, trim_of_nonzero h, trim_of_nonzero h']

theorem OpensAt.file {index : Nat} (h : OpensAt s s' index p) : (s'.openFiles index).file = p := by
  obtain ⟨o, ho, hTable⟩ := h.openFiles
  rw [hTable, Function.update_self, ho]

theorem planItem_stage {item : Item} {S' : List (List Path)} {isStdio : Bool} {r : Int}
    {L' : Ptr → List Ptr} (h : Furnished P S s L) (hZeroed : P.Zeroed) (hd : At s.memory L π d)
    (hPlan : planItem π S item = some S') (hImports : ImportsItem P d isStdio item s L r s' L')
    (hr : r = 0) :
    Furnished P S' s' L' ∧ (At s'.memory L' π d) ∧
      ((s.openFiles 0).file ≠ 0 ∨ isStdio = true ∧ getFile item.ident = some stdinName →
        (s'.openFiles 0).file ≠ 0) := by
  cases hImports with
  | skipped hNone =>
    rw [planItem, hNone] at hPlan
    obtain rfl := Option.some.inj hPlan
    refine ⟨h, hd, fun hOpen => hOpen.resolve_right fun hAnd => ?_⟩
    rw [hNone] at hAnd
    cases hAnd.2
  | blocked _ => cases hr
  | refused _ _ => cases hr
  | misplaced _ _ => cases hr
  | placed hFile hCreates hne hDir hLength hg hAdds hLinks hOpens hOutfits =>
    rename_i s₁ s₂ s₃ s₄ L₁ file r link g a b
    rw [planItem, hFile] at hPlan
    simp only at hPlan
    split at hPlan
    case isFalse => cases hPlan
    case isTrue hCond =>
      obtain ⟨hZero, hProper, hFresh⟩ := hCond
      obtain rfl := Option.some.inj hPlan
      have hDirs := components_clean (zero_not_mem_getDirectories hZero)
      have hFileZero : 0 ∉ file := fun hMem => hZero (getFile_mem hFile hMem)
      obtain ⟨h₁, hOld, hAt⟩ := h.creates hCreates hd hDirs
      have h₂ := h₁.addsFile hAdds
      have hName : entryName s₂.memory g.ptr = file := by
        rw [entryName_of hAdds.live, trim_fileNode _ _ (hZeroed _ _ _ hg) hLength,
          trim_of_nonzero hFileZero]
      have hNames : ∀ c, ∀ q ∈ L₁ c, entryName s₂.memory q = entryName s₁.memory q := fun _ _ hq =>
        hAdds.entryName_eq h₁.listing hq
      obtain ⟨e, he, _⟩ := isDirectory_iff.mp hDir
      have h₃ := h₂.links hLinks ((hAt hne).congr hNames) (hAdds.directory hDir)
        (h₁.listing.empty _ fun f hf => by rw [hAdds.vacant.2.1] at hf; cases hf)
        (hAdds.vacant.ne_file he) (hName ▸ hProper) (hName ▸ hFresh)
      rw [hName] at h₃
      have hd₃ : At s₃.memory L' π d := hLinks.at_old ((hOld π d hd).congr hNames)
      have hTable₃ : s₃.openFiles = s.openFiles :=
        hLinks.edits.openFiles.trans (hAdds.openFiles.trans hCreates.openFiles)
      -- the stage is the same once the standard input is open
      have h₄ : Furnished P ((clean π (components (getDirectories item.ident)) ++ [file]) ::
          (visits π (components (getDirectories item.ident)) ++ S)) s₄ L' ∧ At s₄.memory L' π d ∧
          ((s.openFiles 0).file ≠ 0 ∨ isStdio = true ∧ getFile item.ident = some stdinName →
            (s₄.openFiles 0).file ≠ 0) := by
        split at hOpens
        · refine ⟨h₃.opens hOpens, hd₃.congr fun _ q _ => hOpens.entryName_eq q, fun _ => ?_⟩
          rw [hOpens.file]
          exact hAdds.vacant.ne_zero
        · rename_i hNot
          obtain rfl := hOpens
          refine ⟨h₃, hd₃, fun hOpen => ?_⟩
          rw [hTable₃]
          refine hOpen.resolve_right fun hAnd => hNot ⟨hAnd.1, ?_⟩
          obtain rfl := Option.mem_unique hFile hAnd.2
          exact (sameName_iff (by decide) (by decide)).mpr rfl
      refine ⟨h₄.1.outfits hOutfits, h₄.2.1.congr fun _ q _ => hOutfits.entryName_eq q,
        fun hOpen => ?_⟩
      rw [hOutfits.openFiles]
      exact h₄.2.2 hOpen

theorem planItems_stage {isStdio : Bool} {S' : List (List Path)} {x : Arguments}
    (h : Furnished P S s L) (hZeroed : P.Zeroed) (hd : At s.memory L π d)
    (hPlan : planItems π S items = some S') :
    Ensures (importItems P d isStdio items x) s fun r s' => r.1 = 0 → ∃ L', Furnished P S' s' L' ∧
      ((s.openFiles 0).file ≠ 0 ∨ isStdio = true ∧
        (∃ item ∈ items, getFile item.ident = some stdinName) →
        (s'.openFiles 0).file ≠ 0) := by
  induction items generalizing s L S x with
  | nil =>
    rw [planItems] at hPlan
    obtain rfl := Option.some.inj hPlan
    refine .pure fun _ => ⟨L, h, fun hOpen => hOpen.resolve_right ?_⟩
    rintro ⟨_, item, hMem, _⟩
    exact absurd hMem List.not_mem_nil
  | cons item items ih =>
    rw [planItems] at hPlan
    obtain ⟨S₁, hPlan₁, hPlan₂⟩ := Option.bind_eq_some_iff.mp hPlan
    rw [importItems]
    refine (importItem_imports h.listing h.leaves hd.rooted).bind fun r s₁ h₁ => ?_
    obtain ⟨L₁, hImports⟩ := h₁
    refine .ite (fun hError => .pure fun hZero => absurd hZero hError) fun hZero => ?_
    obtain ⟨hStage, hd₁, hOpen₁⟩ := planItem_stage h hZeroed hd hPlan₁ hImports (not_not.mp hZero)
    refine (ih hStage hd₁ hPlan₂).imp fun r s' hs' hr => ?_
    obtain ⟨L', hStage', hOpen'⟩ := hs' hr
    refine ⟨L', hStage', fun hOpen => hOpen' ?_⟩
    rcases hOpen with hOpen | ⟨hStdio, other, hMem, hFile⟩
    · exact Or.inl (hOpen₁ (Or.inl hOpen))
    · rcases List.mem_cons.mp hMem with rfl | hMem
      · exact Or.inl (hOpen₁ (Or.inr ⟨hStdio, hFile⟩))
      · exact Or.inr ⟨hStdio, other, hMem, hFile⟩

theorem planSets_stage {S' : List (List Path)} {x : Arguments} {sets : List InputSet}
    (h : Furnished P S s L) (hZeroed : P.Zeroed) (hPlan : planSets S sets = some S') :
    Ensures (importSets P sets x) s fun r s' => r.1 = 0 → ∃ L', Furnished P S' s' L' ∧
      ((s.openFiles 0).file ≠ 0 ∨ providesStdin sets = true → (s'.openFiles 0).file ≠ 0) := by
  induction sets generalizing s L S x with
  | nil =>
    rw [planSets] at hPlan
    obtain rfl := Option.some.inj hPlan
    exact .pure fun _ => ⟨L, h, fun hOpen => hOpen.resolve_right (by decide)⟩
  | cons set sets ih =>
    rw [importSets]
    rw [planSets] at hPlan
    have hProvides : providesStdin (set :: sets) = true → (set.ident = stdioName ∧
        ∃ item ∈ set.items, getFile item.ident = some stdinName) ∨ providesStdin sets = true := by
      simp [providesStdin]
    refine .ite (fun hEmpty => ?_) fun hEmpty => ?_
    · rw [if_pos hEmpty] at hPlan
      refine (ih h hPlan).imp fun r s' hs' hr => ?_
      obtain ⟨L', hStage, hOpen'⟩ := hs' hr
      refine ⟨L', hStage, fun hOpen =>
        hOpen' (hOpen.imp_right fun hp => (hProvides hp).resolve_left fun hAnd => ?_)⟩
      rw [hAnd.1] at hEmpty
      exact absurd hEmpty (by decide)
    · rw [if_neg hEmpty] at hPlan
      split at hPlan
      · cases hPlan
      rename_i hZero
      obtain ⟨S₁, hPlan₁, hPlan₂⟩ := Option.bind_eq_some_iff.mp hPlan
      refine (createDirectories_creates h.listing h.leaves .root).bind fun r s₁ h₁ => ?_
      obtain ⟨L₁, hCreates⟩ := h₁
      refine .ite (fun _ => .pure fun hr => absurd hr (show ¬ (-1 : Int) = 0 by decide))
        fun hr => ?_
      obtain ⟨hStage₁, -, hAt⟩ := h.creates hCreates .root (components_clean hZero)
      refine (planItems_stage hStage₁ hZeroed (hAt hr) hPlan₁).bind fun r s₂ h₂ => ?_
      refine .ite (fun hError => .pure fun hZero => absurd hZero hError) fun hNoError => ?_
      obtain ⟨L₂, hStage₂, hOpen₂⟩ := h₂ (not_not.mp hNoError)
      refine (ih hStage₂ hPlan₂).imp fun r s' hs' hr => ?_
      obtain ⟨L', hStage, hOpen'⟩ := hs' hr
      refine ⟨L', hStage, fun hOpen => hOpen' ?_⟩
      rw [hCreates.openFiles] at hOpen₂
      rcases hOpen with hOpen | hOpen
      · exact Or.inl (hOpen₂ (Or.inl hOpen))
      · rcases hProvides hOpen with ⟨hIdent, hItem⟩ | hLater
        · refine Or.inl (hOpen₂ (Or.inr ⟨?_, hItem⟩))
          exact (sameName_iff hZero (by decide)).mpr hIdent
        · exact Or.inr hLater

end Items

end Dandelion.FileSystem
