import Dandelion.FileSystem.WriteCall
import Dandelion.FileSystem.Import

/-! # The output streams

Without input sets, `fs_initialize` leaves only empty files. The two output
streams are open, each for a file of its own, and so is every file that is
created afterwards.
-/

namespace Dandelion.FileSystem

open Foundation.Triples

/-- All regular files are empty, and these descriptors are open for some of them. -/
structure Blank (fds : List Nat) (s : State) : Prop where
  empty : ∀ p f, s.memory.files p = some f → f.type = .file → f.link = 0
  opened : ∀ i ∈ fds, ∃ f, WritableAt s i (s.openFiles i) f
  apart : ∀ i ∈ fds, ∀ j ∈ fds, i ≠ j → (s.openFiles i).file ≠ (s.openFiles j).file

variable {P : Platform} {s s' : State} {fds : List Nat} {i fd : Nat} {p : Ptr} {f : DFile}
  {name : Path} {flags mode : Nat} {α : Type}

section Tables

theorem WritableAt.keep (h : WritableAt s i (s.openFiles i) f)
    (hTable : s'.openFiles i = s.openFiles i) (hKeeps : Keeps s.memory s'.memory) :
    ∃ f', WritableAt s' i (s'.openFiles i) f' ∧ f'.link = f.link := by
  obtain ⟨f', hf', hType, hLink⟩ := hKeeps.old _ f h.node
  rw [hTable]
  exact ⟨f', ⟨h.range, hTable, h.opened, hf', hType.trans h.regular, h.access⟩, hLink h.regular⟩

theorem OpensEmpty.writable (h : OpensEmpty s s' fd p flags)
    (hAppend : hasBit flags oAPPEND = false) :
    ∃ f, WritableAt s' fd (s'.openFiles fd) f ∧ f.link = 0 ∧ (s'.openFiles fd).file = p := by
  obtain ⟨f, hf, hType⟩ := h.regular
  have hEntry : s'.openFiles fd = ⟨p, 0, 0, (flags &&& oACCMODE) ||| (flags &&& oAPPEND)⟩ := by
    rw [h.openFiles]
    exact Function.update_self _ _ _
  rw [hEntry]
  refine ⟨f, ⟨h.result, hEntry, h.ne_zero, hf, hType, ?_⟩,
    (h.keeps.new p f hf h.fresh).2 hType, rfl⟩
  have hZero : flags &&& oAPPEND = 0 := by simpa [hasBit] using hAppend
  show hasBit ((flags &&& oACCMODE) ||| (flags &&& oAPPEND)) oAPPEND = false
  rw [hZero, Nat.or_zero, hasBit, Nat.and_assoc, show oACCMODE &&& oAPPEND = 0 by decide,
    Nat.and_zero]
  rfl

theorem OpensEmpty.other (h : OpensEmpty s s' fd p flags) (hi : WritableAt s i (s.openFiles i) f) :
    i ≠ fd ∧ s'.openFiles i = s.openFiles i ∧ (s.openFiles i).file ≠ p := by
  have hne : i ≠ fd := by
    rintro rfl
    exact hi.opened h.vacant
  refine ⟨hne, by rw [h.openFiles]; exact Function.update_of_ne hne _ _, ?_⟩
  rintro rfl
  have hNode := hi.node
  rw [h.fresh] at hNode
  cases hNode

end Tables

section Start

theorem Blank.keeps {x : α} (h : Blank fds s) (hKeeps : KeepsAll s x s') : Blank fds s' where
  empty p f' hf' hType := by
    cases hf : s.memory.files p with
    | none => exact (hKeeps.1.new p f' hf' hf).2 hType
    | some f =>
      obtain ⟨g, hg, hType', hLink⟩ := hKeeps.1.old p f hf
      obtain rfl := Option.mem_unique hf' hg
      have hFile := hType'.symm.trans hType
      rw [hLink hFile, h.empty p f hf hFile]
  opened i hi := by
    obtain ⟨f, hf⟩ := h.opened i hi
    obtain ⟨f', hf', -⟩ := hf.keep (by rw [hKeeps.2]) hKeeps.1
    exact ⟨f', hf'⟩
  apart := by
    rw [hKeeps.2]
    exact h.apart

theorem Blank.opens (h : Blank fds s) (hOpens : OpensEmpty s s' fd p flags)
    (hAppend : hasBit flags oAPPEND = false) :
    Blank (fd :: fds) s' := by
  obtain ⟨f, hNew, -, hFile⟩ := hOpens.writable hAppend
  have hMemory : Blank [] { s with memory := s'.memory } :=
    (Blank.mk h.empty (by simp) (by simp) : Blank [] s).keeps (x := ()) ⟨hOpens.keeps, rfl⟩
  have hOther : ∀ j ∈ fds, s'.openFiles j = s.openFiles j ∧ (s.openFiles j).file ≠ p := by
    intro j hj
    obtain ⟨e, he⟩ := h.opened j hj
    exact (hOpens.other he).2
  refine ⟨hMemory.empty, fun i hi => ?_, fun i hi j hj hne => ?_⟩
  · rcases List.mem_cons.mp hi with rfl | hOld
    · exact ⟨f, hNew⟩
    · obtain ⟨e, he⟩ := h.opened i hOld
      obtain ⟨e', he', -⟩ := he.keep (hOther i hOld).1 hOpens.keeps
      exact ⟨e', he'⟩
  · rcases List.mem_cons.mp hi with rfl | hi'
    · rcases List.mem_cons.mp hj with rfl | hj'
      · exact absurd rfl hne
      · rw [hFile, (hOther j hj').1]
        exact (hOther j hj').2.symm
    · rcases List.mem_cons.mp hj with rfl | hj'
      · rw [hFile, (hOther i hi').1]
        exact (hOther i hi').2
      · rw [(hOther i hi').1, (hOther j hj').1]
        exact h.apart i hi' j hj' hne

theorem Blank.outfits (h : Blank fds s) (hOutfits : Outfits s s') : Blank fds s' where
  empty := by
    rw [hOutfits.files]
    exact h.empty
  opened i hi := by
    obtain ⟨f, hf⟩ := h.opened i hi
    rw [hOutfits.openFiles]
    exact ⟨f, hf.range, by rw [hOutfits.openFiles]; rfl, hf.opened, by rw [hOutfits.files, hf.node],
      hf.regular, hf.access⟩
  apart := by
    rw [hOutfits.openFiles]
    exact h.apart

theorem createStdio_opens (hfd : fd < fsMaxFiles) (hVacant : (s.openFiles fd).file = 0)
    (hTrunc : hasBit flags oTRUNC = false) (hName : name.length ≤ fsNameLength) :
    Ensures (createStdio P fd name flags mode) s fun error s' => error = 0 →
      ∃ p, OpensEmpty s s' fd p flags := by
  rw [createStdio]
  cases hAnswer : P.answer s.memory s.requests sizeofFile 8 with
  | none =>
    refine .after (createFile_none hAnswer)
      (.ite (fun _ => .pure fun h => ?_) fun hne => absurd rfl hne)
    exact absurd h (by decide)
  | some g =>
    obtain ⟨s₁, hCreate, hAdds⟩ := createFile_empty 0 mode hAnswer hName
    refine .after hCreate (.ite (fun hZero => absurd hZero hAdds.vacant.ne_zero) fun _ => ?_)
    have hKeeps : KeepsAll s () s₁ := hAdds.keeps (fun _ => rfl) ()
    have hNode : s₁.memory.files g.ptr = some (fileNode name 0 mode g.bytes) := by
      rw [hAdds.files, Function.update_self]
    have hOpen : Ensures (openExistingFile fd g.ptr flags false) s₁ fun _ s₂ =>
        Keeps s₁.memory s₂.memory ∧
        s₂.openFiles = Function.update s₁.openFiles fd
          ⟨g.ptr, 0, 0, (flags &&& oACCMODE) ||| (flags &&& oAPPEND)⟩ := by
      rw [openExistingFile]
      refine .after (getFileAt_ok hAdds.vacant.ne_zero hNode) ?_
      refine .ite (fun h => absurd h.1 (by decide)) fun _ =>
        .ite (fun h => absurd h.1 (by decide)) fun _ => ?_
      exact .ite (fun h => absurd h.1 (by simp [hTrunc])) fun _ => ensures_finishOpen hfd hNode
    refine hOpen.bind fun error s₂ h₂ => .ite (fun hne => .pure fun h => absurd h hne) fun _ => ?_
    refine (ensures_linkFileToFolder stdioFolder g.ptr).imp fun _ s₃ h₃ _ => ⟨g.ptr, ?_⟩
    have hTotal := h₂.1.trans h₃.1
    obtain ⟨f, hf, hType, -⟩ := hTotal.old g.ptr _ hNode
    refine ⟨hKeeps.1.trans hTotal, ⟨Int.natCast_nonneg _, Int.ofNat_lt.mpr hfd⟩, hVacant,
      hAdds.vacant.2.1, hAdds.vacant.ne_zero, ⟨f, hf, hType⟩, ?_⟩
    rw [h₃.2, h₂.2, hKeeps.2]
    rfl

theorem ensures_createOutputSets (outputs : List Path) :
    Ensures (createOutputSets P outputs) s (KeepsAll s) := by
  induction outputs generalizing s with
  | nil => exact .pure ⟨Keeps.refl _, rfl⟩
  | cons ident rest ih =>
    rw [createOutputSets]
    refine .ite (fun _ => ih) fun _ => (ensures_createDirectories fsRoot ident true).bind
      fun d s₁ h₁ => ?_
    refine .ite (fun _ => .pure h₁) fun _ => ih.imp fun _ s₂ h₂ => ?_
    exact ⟨h₁.1.trans h₂.1, h₂.2.trans h₁.2⟩

theorem ensures_linkStatics : Ensures (linkStatics P) s (KeepsAll s) := by
  rw [linkStatics]
  refine (ensures_linkFileToFolder fsRoot deviceFolder).bind fun _ s₁ h₁ =>
    .ite (fun _ => .pure h₁) fun _ => ?_
  refine (ensures_linkFileToFolder deviceFolder urandomFile).bind fun _ s₂ h₂ => ?_
  have h₁₂ : KeepsAll s () s₂ := ⟨h₁.1.trans h₂.1, h₂.2.trans h₁.2⟩
  refine .ite (fun _ => .pure h₁₂) fun _ =>
    (ensures_linkFileToFolder fsRoot stdioFolder).imp fun _ s₃ h₃ => ?_
  exact ⟨h₁₂.1.trans h₃.1, h₃.2.trans h₁₂.2⟩

theorem Boots.blank (h : Boots [] s) : Blank [] s := by
  refine ⟨fun p f hf hType => ?_, by simp, by simp⟩
  rw [h.files] at hf
  rcases staticFiles_cases hf with ⟨-, rfl⟩ | ⟨-, rfl⟩ | ⟨-, rfl⟩ | ⟨-, rfl⟩ <;> cases hType

theorem fsInitialize_blank {outputs : List Path} (h : Boots [] s) :
    Ensures (fsInitialize P [] outputs) s fun r s' => r.1 = 0 → Blank [1, 2] s' := by
  have hOne : 1 < fsMaxFiles := by unfold fsMaxFiles; decide
  have hTwo : 2 < fsMaxFiles := by unfold fsMaxFiles; decide
  have hVacant : ∀ i, (s.openFiles i).file = 0 := fun i => by rw [h.openFiles]
  rw [fsInitialize]
  refine ensures_linkStatics.bind fun error s₁ h₁ =>
    .ite (fun hne => .pure fun h => absurd h hne) fun _ => ?_
  have hErr : Ensures (createStdio P 2 stderrName oWRONLY sIWUSR) s₁ _ :=
    createStdio_opens hTwo (by rw [h₁.2, hVacant]) (by decide) (by decide)
  refine hErr.bind fun error s₂ h₂ => .ite (fun hne => .pure fun h => absurd h hne) fun hZero => ?_
  obtain ⟨p, hOpens⟩ := h₂ (not_not.mp hZero)
  have hBlank₂ := (h.blank.keeps h₁).opens hOpens (by decide)
  have hOut : Ensures (createStdio P 1 stdoutName oWRONLY sIWUSR) s₂ _ :=
    createStdio_opens hOne (by rw [hOpens.openFiles, h₁.2]; exact hVacant 1) (by decide) (by decide)
  refine hOut.bind fun error s₃ h₃ => .ite (fun hne => .pure fun h => absurd h hne) fun hZero => ?_
  obtain ⟨q, hOpens'⟩ := h₃ (not_not.mp hZero)
  have hBlank₃ := hBlank₂.opens hOpens' (by decide)
  refine .after (pure_ok _) (.ite (fun hne => absurd rfl hne) fun _ => ?_)
  refine (ensures_createOutputSets outputs).bind fun error s₄ h₄ =>
    .ite (fun hne => .pure fun h => absurd h hne) fun _ => ?_
  refine finishInitialize_keeps (A := Blank [1, 2]) (hBlank₃.keeps h₄) (fun hClosed => ?_)
    fun h hOutfits => h.outfits hOutfits
  have hIn : Ensures (createStdio P 0 stdinName oRDONLY sIRUSR) s₄ _ :=
    createStdio_opens (show 0 < fsMaxFiles by omega) hClosed (by decide) (by decide)
  refine hIn.imp fun error s₅ h₅ hZero => ?_
  obtain ⟨e, hOpens''⟩ := h₅ hZero
  have hBlank₅ := (hBlank₃.keeps h₄).opens hOpens'' (by decide)
  exact ⟨hBlank₅.empty, fun i hi => hBlank₅.opened i (List.mem_cons_of_mem _ hi),
    fun i hi j hj => hBlank₅.apart i (List.mem_cons_of_mem _ hi) j (List.mem_cons_of_mem _ hj)⟩

end Start

end Dandelion.FileSystem
