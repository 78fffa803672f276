import Dandelion.FileSystem.Tables

/-! # Access modes

What a descriptor was opened for is kept in its table entry until it is closed.
The calls that change content test it with different masks, and the mask for
reading only is zero.
-/

namespace Dandelion.FileSystem

abbrev Modes := Nat → Nat

def Access (modes : Modes) (s : State) : Prop :=
  ∀ i, (s.openFiles i).file ≠ 0 → (s.openFiles i).openFlags &&& oACCMODE = modes i

/-- Descriptors only move in their files. -/
def Refers (s s' : State) : Prop := ∀ i, (s.openFiles i).Moves (s'.openFiles i)

def Unmoved {α : Type} (x : M α) : Prop := ∀ s, Ensures x s fun _ s' => Refers s s'

variable {P : Platform} {s s' s'' : State} {modes : Modes} {p : Ptr} {flags : Nat} {α : Type}

section Table

theorem OpenFile.Moves.file {o o' : OpenFile} (h : o.Moves o') : o'.file = o.file :=
  congrArg Prod.fst h.refers

theorem OpenFile.Moves.openFlags {o o' : OpenFile} (h : o.Moves o') : o'.openFlags = o.openFlags :=
  congrArg Prod.snd h.refers

theorem Refers.refl (s : State) : Refers s s := fun _ => .of_eq rfl

theorem Refers.trans (h : Refers s s') (h' : Refers s' s'') : Refers s s'' :=
  fun i => (h i).trans (h' i)

theorem Refers.of_eq (h : s'.openFiles = s.openFiles) : Refers s s' := fun i => .of_eq (by rw [h])

theorem Access.refers (h : Access modes s) (hRefers : Refers s s') : Access modes s' := by
  intro i hi
  rw [(hRefers i).openFlags]
  exact h i ((hRefers i).file ▸ hi)

theorem KeepsTable.unmoved {x : M α} (h : KeepsTable x) : Unmoved x := fun s =>
  (h s).imp fun _ _ h => .of_eq h

theorem Reworking.unmoved {x : M α} {sized : Prop} (h : Reworking sized x) : Unmoved x := fun s =>
  (h s).imp fun _ _ h => h.2

end Table

section Opening

/-- The entry `index` is emptied, and the other descriptors only move in their files. -/
structure Closes (s s' : State) (index : Nat) : Prop where
  closed : (s'.openFiles index).file = 0
  others : ∀ i, i ≠ index → (s'.openFiles i).refers = (s.openFiles i).refers
  anchored : ∀ i, (s.openFiles i).Anchored → (s'.openFiles i).Anchored

/-- The entry `index` stands at the start of a file and keeps the flags. -/
structure OpensAs (s s' : State) (index flags : Nat) : Prop where
  range : index < fsMaxFiles
  filled : (s'.openFiles index).file ≠ 0
  others : ∀ i, i ≠ index → (s.openFiles i).Moves (s'.openFiles i)
  start : (s'.openFiles index).Anchored
  flags : (s'.openFiles index).openFlags = flags &&& oACCMODE ||| flags &&& oAPPEND

def OpensWith (s : State) (flags : Nat) (r : Int) (s' : State) : Prop :=
  r < 0 ∧ Refers s s' ∨ 0 ≤ r ∧ OpensAs s s' r.toNat flags

theorem access_bits (flags : Nat) :
    (flags &&& oACCMODE ||| flags &&& oAPPEND) &&& oACCMODE = flags &&& oACCMODE := by
  rw [Nat.and_or_distrib_right, Nat.and_assoc, Nat.and_assoc,
    show oACCMODE &&& oACCMODE = oACCMODE by decide, show oAPPEND &&& oACCMODE = 0 by decide,
    Nat.and_zero, Nat.or_zero]

theorem openExistingFile_table (index : Nat) (p : Ptr) (flags : Nat) (checks : Bool) :
    Ensures (openExistingFile index p flags checks) s fun r s' =>
      r < 0 ∧ Refers s s' ∨ r = 0 ∧ OpensAs s s' index flags := by
  have hFinish : ∀ {s₁ : State}, Refers s s₁ →
      Ensures (finishOpen index p (flags &&& oACCMODE ||| flags &&& oAPPEND)) s₁ fun r s' =>
        r < 0 ∧ Refers s s' ∨ r = 0 ∧ OpensAs s s' index flags := by
    intro s₁ h₁
    rw [finishOpen]
    refine ensures_file fun f hp _ => ?_
    refine ((keepsTable_modifyFile p _).unmoved s₁).bind fun _ s₃ h₃ => ?_
    by_cases hRange : 0 ≤ (index : Int) ∧ (index : Int) < fsMaxFiles
    · refine .after (setOpenFile_ok hRange _)
        (.pure (Or.inr ⟨rfl, Int.ofNat_lt.mp hRange.2, ?_, fun i hi => ?_, ?_, ?_⟩))
      · change (Function.update s₃.openFiles index _ index).file ≠ 0
        rwa [Function.update_self]
      · change (s.openFiles i).Moves (Function.update s₃.openFiles index _ i)
        rw [Function.update_of_ne hi]
        exact (h₁.trans h₃) i
      · change (Function.update s₃.openFiles index _ index).Anchored
        rw [Function.update_self]
        exact fun _ => rfl
      · change (Function.update s₃.openFiles index _ index).openFlags = _
        rw [Function.update_self]
    · exact .after_error (if_neg hRange) trivial
  rw [openExistingFile]
  refine (readsOnly_getFileAt p).seq fun f => ?_
  refine .ite (fun _ => .pure (Or.inl ⟨by decide, .refl _⟩)) fun _ => ?_
  refine .ite (fun _ => .pure (Or.inl ⟨by decide, .refl _⟩)) fun _ =>
    .ite (fun _ => ?_) fun _ => hFinish (.refl _)
  refine ((keepsTable_freeFileChunks f.link).unmoved s).bind fun _ s₂ h₂ => ?_
  exact ((keepsTable_modifyFile p _).unmoved s₂).bind fun _ s₃ h₃ => hFinish (h₂.trans h₃)

theorem openDescriptor_table (p : Ptr) (flags : Nat) :
    Ensures (openDescriptor p flags) s fun r s' => OpensWith s flags r s' := by
  rw [openDescriptor]
  obtain ⟨free, hFree, _⟩ := lowestFree_ok (s := s)
  refine .after hFree ?_
  cases free with
  | none => exact .pure (Or.inl ⟨by decide, .refl _⟩)
  | some i =>
    refine (openExistingFile_table i p flags true).bind fun error s₁ h₁ => ?_
    rcases h₁ with ⟨hNeg, hRefers⟩ | ⟨rfl, hOpens⟩
    · exact .ite (fun _ => .pure (Or.inl ⟨hNeg, hRefers⟩)) fun hNot => absurd hNeg hNot
    · exact .ite (fun hLt => absurd hLt (by decide)) fun _ =>
        .pure (Or.inr ⟨Int.natCast_nonneg i, hOpens⟩)

theorem OpensWith.after {r : Int} (h : OpensWith s' flags r s'') (hRefers : Refers s s') :
    OpensWith s flags r s'' := by
  rcases h with ⟨hNeg, hLast⟩ | ⟨hPos, h⟩
  · exact Or.inl ⟨hNeg, hRefers.trans hLast⟩
  · exact Or.inr ⟨hPos, h.range, h.filled, fun i hi => (hRefers i).trans (h.others i hi),
      h.start, h.flags⟩

theorem dandelionOpen_table (name : List UInt8) (flags mode : Nat) :
    Ensures (dandelionOpen P name flags mode) s fun r s' => OpensWith s flags r s' := by
  have hFail : ∀ {n : Nat} {s₁ : State}, 0 < n → Refers s s₁ →
      Ensures (pure (-(n : Int)) : M Int) s₁ fun r s' =>
      OpensWith s flags r s' := fun hn h => .pure (Or.inl ⟨by omega, h⟩)
  rw [dandelionOpen]
  refine (readsOnly_findFile name).seq fun current => ?_
  refine .ite (fun _ => hFail (by decide) (.refl _)) fun _ => .ite (fun _ => ?_) fun _ =>
    openDescriptor_table current flags
  refine .ite (fun _ => hFail (by decide) (.refl _)) fun _ => ?_
  rw [createAndOpen]
  refine (readsOnly_pathFromString name).seq fun path => ?_
  cases getFile path with
  | none => trivial
  | some fileName =>
    refine .ite (fun _ => hFail (by decide) (.refl _)) fun _ => ?_
    refine ((keepsTable_createDirectories fsRoot _ false).unmoved s).bind fun parent s₃ h₃ => ?_
    refine .ite (fun _ => hFail (by decide) h₃) fun _ =>
      ((keepsTable_createFile fileName 0 0 0).unmoved s₃).bind fun node s₄ h₄ => ?_
    refine .ite (fun _ => hFail (by decide) (h₃.trans h₄)) fun _ =>
      ((keepsTable_modifyFile node _).unmoved s₄).bind fun _ s₅ h₅ => ?_
    refine ((keepsTable_linkFileToFolder parent node).unmoved s₅).bind fun error s₆ h₆ => ?_
    have hAll := ((h₃.trans h₄).trans h₅).trans h₆
    refine .ite (fun _ => hFail (by decide) hAll) fun _ => ?_
    exact (openDescriptor_table node flags).imp fun _ _ h => h.after hAll

end Opening

end Dandelion.FileSystem
