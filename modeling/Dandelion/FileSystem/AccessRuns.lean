import Dandelion.FileSystem.Access

/-! # What descriptors were opened for

Along every run the table tells what each descriptor was opened for.
-/

namespace Dandelion.FileSystem

open Foundation.Runs Foundation.Triples

/-- `fs_initialize` opens the standard input for reading and the other two for writing. -/
def startModes : Modes
  | 0 => oRDONLY
  | _ => oWRONLY

def Modes.after (P : Platform) (modes : Modes) (s : State) : Request → Modes
  | .call (.openFile name flags mode) =>
    match dandelionOpen P name flags mode s with
    | .ok r => if r.1 < 0 then modes else Function.update modes r.1.toNat (flags &&& oACCMODE)
    | .error _ => modes
  | _ => modes

structure Recorded where
  session : Session
  modes : Modes

def RecordStarts (P : Platform) (x : Recorded) : Prop := Started P x.session ∧ x.modes = startModes

def RecordPerforms (P : Platform) (x : Recorded) (q : Request) (y : Recorded) : Prop :=
  Performs P x.session q y.session ∧ y.modes = x.modes.after P x.session.state q

variable {P : Platform} {s s' : State} {modes : Modes} {α : Type}

section Start

theorem Unmoved.access {x : M α} (h : Unmoved x) : Preserves (Access modes) x := fun s hAccess =>
  (h s).imp fun _ _ hRefers => hAccess.refers hRefers

theorem OpensAs.access {index flags : Nat} (h : OpensAs s s' index flags)
    (hAccess : Access modes s) :
    Access (Function.update modes index (flags &&& oACCMODE)) s' := by
  intro i hi
  by_cases hIndex : i = index
  · rw [hIndex, h.flags, access_bits, Function.update_self]
  · rw [(h.others i hIndex).openFlags, Function.update_of_ne hIndex]
    exact hAccess i ((h.others i hIndex).file ▸ hi)

theorem access_openExistingFile (index : Nat) (p : Ptr) {flags : Nat} (checks : Bool)
    (hMode : flags &&& oACCMODE = modes index) :
    Preserves (Access modes) (openExistingFile index p flags checks) := by
  intro s h
  refine (openExistingFile_table index p flags checks).imp fun r s' hs' => ?_
  rcases hs' with ⟨_, hRefers⟩ | ⟨_, hOpens⟩
  · exact h.refers hRefers
  · have hSame := hOpens.access h
    rwa [hMode, Function.update_eq_self] at hSame

theorem access_of_started {x : Session} (h : Started P x) : Access startModes x.state := by
  obtain ⟨_, sets, outputs, s, a, hBoots, hInit⟩ := h
  have hOpen : ∀ entry ∈ standard, ∀ p,
      Preserves (Access startModes) (openExistingFile entry.1 p entry.2 false) :=
    fun entry hEntry p => access_openExistingFile entry.1 p false (by revert entry; decide)
  have hRules : StartRules P (Access startModes) :=
    .of_table (fun s s' h hs => hs.refers (.of_eq h)) hOpen
  refine (hRules.fsInitialize sets outputs s fun i hi => ?_).result hInit
  rw [hBoots.openFiles] at hi
  exact absurd rfl hi

end Start

section Runs

theorem dandelionClose_table (fd : Int) :
    Ensures (dandelionClose fd) s fun r s' =>
      0 ≤ fd ∧ (r = 0 ∧ Closes s s' fd.toNat ∨ r ≠ 0 ∧ s' = s) := by
  rw [dandelionClose]
  refine (ensures_getOpenFile fd).bind fun o s₁ ho => ?_
  obtain ⟨rfl, hRange, _⟩ := ho
  refine .ite (fun _ => .pure ⟨hRange.1, Or.inr ⟨by decide, rfl⟩⟩) fun _ =>
    ((keepsTable_modifyFile _ _).unmoved s₁).bind fun _ s₂ h₂ => ?_
  refine ((KeepsTable.unmoved (tableReleases.releases.free _)) s₂).bind fun _ s₃ h₃ => ?_
  refine .after (getOpenFile_ok hRange)
    (.after (setOpenFile_ok hRange _) (.pure ⟨hRange.1, Or.inl ⟨rfl, ?_, ?_, ?_⟩⟩))
  · change (Function.update s₃.openFiles fd.toNat { s₃.openFiles fd.toNat with file := 0 }
      fd.toNat).file = 0
    rw [Function.update_self]
  · intro i hi
    change (Function.update s₃.openFiles fd.toNat { s₃.openFiles fd.toNat with file := 0 }
      i).refers = _
    rw [Function.update_of_ne hi]
    exact ((h₂.trans h₃) i).refers
  · intro i hAnchored
    have h := ((h₂.trans h₃) i).anchored hAnchored
    change (Function.update s₃.openFiles fd.toNat { s₃.openFiles fd.toNat with file := 0 }
      i).Anchored
    by_cases hi : i = fd.toNat
    · rw [hi, Function.update_self]
      exact hi ▸ h
    · rwa [Function.update_of_ne hi]

theorem access_dandelionClose (fd : Int) : Preserves (Access modes) (dandelionClose fd) := by
  intro s h
  refine (dandelionClose_table fd).imp fun r s' hs' => ?_
  obtain ⟨-, ⟨-, hCloses⟩ | ⟨-, rfl⟩⟩ := hs'
  · intro i hi
    have hne : i ≠ fd.toNat := by
      rintro rfl
      exact hi hCloses.closed
    have hFile : (s'.openFiles i).file = (s.openFiles i).file :=
      congrArg Prod.fst (hCloses.others i hne)
    have hFlags : (s'.openFiles i).openFlags = (s.openFiles i).openFlags :=
      congrArg Prod.snd (hCloses.others i hne)
    rw [hFlags]
    exact h i (hFile ▸ hi)
  · exact h

theorem refers_of_completes {x y : Session} {c : Call}
    (hOpen : ∀ name flags mode, c ≠ .openFile name flags mode) (hClose : ∀ fd, c ≠ .close fd)
    (hStep : Completes P x c y) : Refers x.state y.state := by
  have hDone : ∀ {α : Type} {k : M α} {sized : Prop}, Reworking sized k →
      (do let _ ← k; pure x.dirs : M (List Ptr)) x.state = .ok (y.dirs, y.state) →
        Refers x.state y.state := by
    intro α k sized hk hRun
    have hAll : Ensures (do let _ ← k; pure x.dirs : M (List Ptr)) x.state fun _ s' =>
        Refers x.state s' := (hk.unmoved x.state).bind fun a _ h => .pure h
    exact hAll.result hRun
  cases c with
  | openFile name flags mode => exact absurd rfl (hOpen name flags mode)
  | close fd => exact absurd rfl (hClose fd)
  | read fd len offset options => exact hDone (dandelionRead_reworks fd len offset options) hStep
  | write fd bytes offset options =>
    exact hDone (dandelionWrite_reworks fd bytes offset options) hStep
  | lseek fd offset whence => exact hDone (dandelionLseek_reworks fd offset whence) hStep
  | truncate name length => exact hDone (dandelionTruncate_reworks name length) hStep
  | ftruncate fd length => exact hDone (dandelionFtruncate_reworks fd length) hStep
  | _ =>
    exact (KeepsTable.unmoved (tableRules.perform tableReleases.releases x.dirs rfl) x.state).result
      hStep

theorem OpensWith.access {flags : Nat} {r : Int} (h : OpensWith s flags r s')
    (hAccess : Access modes s) :
    Access (if r < 0 then modes else Function.update modes r.toNat (flags &&& oACCMODE)) s' := by
  rcases h with ⟨hNeg, hRefers⟩ | ⟨hPos, hOpens⟩
  · rw [if_pos hNeg]
    exact hAccess.refers hRefers
  · rw [if_neg (Int.not_lt.mpr hPos)]
    exact hOpens.access hAccess

theorem Access.perform {x y : Session} {c : Call} (h : Access modes x.state)
    (hStep : Completes P x c y) :
    Access (modes.after P x.state (.call c)) y.state := by
  cases c with
  | openFile name flags mode =>
    have hAll : Ensures (Call.perform P x.dirs (.openFile name flags mode)) x.state fun _ s' =>
        Access (modes.after P x.state (.call (.openFile name flags mode))) s' := by
      refine ((dandelionOpen_table name flags mode).and (Meets.self _ _)).bind
        fun r s₁ h₁ => .pure ?_
      obtain ⟨hOpens, hRun⟩ := h₁
      rw [Modes.after, hRun]
      exact hOpens.access h
    exact hAll.result hStep
  | close fd =>
    have hAll : Preserves (Access modes) (Call.perform P x.dirs (.close fd)) :=
      (access_dandelionClose fd).bind fun _ => .pure _
    exact (hAll x.state h).result hStep
  | _ =>
    exact h.refers (refers_of_completes (fun _ _ _ h => by cases h) (fun _ h => by cases h) hStep)

theorem access_of_reachable {x : Recorded} (h : Reachable (RecordStarts P) (RecordPerforms P) x) :
    Access x.modes x.session.state := by
  refine h.invariant (fun x => Access x.modes x.session.state) (fun x hStart => ?_)
    fun x q y hAccess hStep => ?_
  · rw [hStart.2]
    exact access_of_started hStart.1
  · obtain ⟨hRun, hModes⟩ := hStep
    rw [hModes]
    cases q with
    | call c => exact hAccess.perform hRun
    | link old new =>
      obtain ⟨_, r, hLink⟩ := hRun
      exact ((KeepsTable.unmoved (tableRules.dandelionLink old new)).access x.session.state
        hAccess).result hLink

/-- Every run can be recorded. -/
theorem exists_recorded {x : Session} (h : Reachable (Started P) (Performs P) x) :
    ∃ modes, Reachable (RecordStarts P) (RecordPerforms P) ⟨x, modes⟩ := by
  induction h with
  | init hStart => exact ⟨startModes, .init ⟨hStart, rfl⟩⟩
  | @step x y q _ hStep ih =>
    obtain ⟨modes, hRecord⟩ := ih
    exact ⟨modes.after P x.state q, .step hRecord ⟨hStep, rfl⟩⟩

end Runs

end Dandelion.FileSystem
