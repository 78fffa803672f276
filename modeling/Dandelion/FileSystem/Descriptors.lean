import Dandelion.FileSystem.AccessRuns
import Dandelion.FileSystem.HardLinks

/-! # Descriptors that are not open

A program knows which descriptors are open from the results of its calls. The
table agrees with that along every run. A descriptor that is not open is refused,
unless it is no index of the table at all: no call tests for that.
-/

namespace Dandelion.FileSystem

open Foundation.Runs Foundation.Triples

inductive DescriptorCall where
  | close
  | read (len : Nat) (offset : Int) (options : Nat)
  | write (bytes : List UInt8) (offset : Int) (options : Nat)
  | lseek (offset : Int) (whence : Nat)
  | fstat
  | ftruncate (length : Int)

/-- The call returns `-EBADF`, and neither memory nor what its arguments point to changes. -/
def Rejects (P : Platform) (s : State) (fd : Int) : DescriptorCall → Prop
  | .close => dandelionClose fd s = .ok (-(eBADF : Int), s)
  | .read len offset options =>
    dandelionRead P fd len offset options s = .ok ((-(eBADF : Int), fun _ => none), s)
  | .write bytes offset options =>
    dandelionWrite P fd bytes offset options s = .ok (-(eBADF : Int), s)
  | .lseek offset whence => dandelionLseek P fd offset whence s = .ok (-(eBADF : Int), s)
  | .fstat => dandelionFstat fd s = .ok ((-(eBADF : Int), none), s)
  | .ftruncate length => dandelionFtruncate P fd length s = .ok (-(eBADF : Int), s)

/-- The descriptors that are open after a request, by the results of opening and closing. -/
def openedAfter (P : Platform) (opened : List Int) (s : State) : Request → List Int
  | .call (.openFile name flags mode) =>
    match dandelionOpen P name flags mode s with
    | .ok r => if r.1 < 0 then opened else r.1 :: opened
    | .error _ => opened
  | .call (.close fd) =>
    match dandelionClose fd s with
    | .ok r => if r.1 = 0 then opened.filter (· ≠ fd) else opened
    | .error _ => opened
  | _ => opened

structure Tracked where
  session : Session
  opened : List Int

def TrackStarts (P : Platform) (x : Tracked) : Prop := Started P x.session ∧ x.opened = [0, 1, 2]

def TrackPerforms (P : Platform) (x : Tracked) (q : Request) (y : Tracked) : Prop :=
  Performs P x.session q y.session ∧ y.opened = openedAfter P x.opened x.session.state q

/-- The table has files for the open descriptors and for no others. -/
def Tracks (opened : List Int) (s : State) : Prop :=
  ∀ fd, fd ∈ opened ↔ 0 ≤ fd ∧ fd < fsMaxFiles ∧ (s.openFiles fd.toNat).file ≠ 0

variable {P : Platform} {s s' : State} {opened : List Int} {fd : Int}

section Start

def Filled (l : List Nat) (s : State) : Prop := ∀ i ∈ l, (s.openFiles i).file ≠ 0

theorem Filled.refers {l : List Nat} (h : Filled l s) (hRefers : Refers s s') : Filled l s' :=
  fun i hi => by
  rw [(hRefers i).file]
  exact h i hi

theorem OpensAs.fills {l : List Nat} {index flags : Nat} (h : OpensAs s s' index flags)
    (hl : Filled l s) :
    Filled (index :: l) s' := by
  intro i hi
  by_cases hIndex : i = index
  · exact hIndex ▸ h.filled
  · rw [(h.others i hIndex).file]
    exact hl i ((List.mem_cons.mp hi).resolve_left hIndex)

theorem filled_openExistingFile {l : List Nat} (index : Nat) (p : Ptr) (flags : Nat) :
    Preserves (Filled l) (openExistingFile index p flags false) := by
  intro s h
  refine (openExistingFile_table index p flags false).imp fun r s' hs' => ?_
  rcases hs' with ⟨-, hRefers⟩ | ⟨-, hOpens⟩
  · exact h.refers hRefers
  · exact (List.forall_mem_cons.mp (hOpens.fills h)).2

theorem createStdio_fills {l : List Nat} (index : Nat) (name : Path) (flags mode : Nat)
    (h : Filled l s) :
    Ensures (createStdio P index name flags mode) s fun r s' => r = 0 → Filled (index :: l) s' := by
  rw [createStdio]
  refine ((keepsTable_createFile name 0 0 mode).unmoved s).bind fun file s₁ h₁ => ?_
  refine .ite (fun _ => .pure fun h => absurd h (by decide)) fun _ => ?_
  refine (openExistingFile_table index file flags false).bind fun error s₂ h₂ =>
    .ite (fun hne => .pure fun h => absurd h hne) fun hZero => ?_
  rcases h₂ with ⟨hNeg, -⟩ | ⟨-, hOpens⟩
  · exact absurd hNeg (by rw [not_not.mp hZero]; decide)
  · exact ((keepsTable_linkFileToFolder stdioFolder file).unmoved s₂).imp
      fun r s₃ h₃ _ => (hOpens.fills (h.refers h₁)).refers h₃

theorem fsInitialize_fills (sets : List InputSet) (outputs : List Path) :
    Ensures (fsInitialize P sets outputs) s fun r s' => r.1 = 0 → Filled [0, 1, 2] s' := by
  have hKept : ∀ {l : List Nat} {s₁ s₂ : State}, s₂.openFiles = s₁.openFiles → Filled l s₁ →
      Filled l s₂ :=
    fun hSame h => h.refers (.of_eq hSame)
  have hRules :
      ∀ {l : List Nat}, StartRules P (Filled l) := .of_table (fun _ _ hSame h => hKept hSame h)
    fun entry _ p => filled_openExistingFile entry.1 p entry.2
  rw [fsInitialize]
  refine .after_any fun error s₁ => .ite (fun hne => .pure fun h => absurd h hne) fun _ => ?_
  refine (createStdio_fills 2 stderrName oWRONLY sIWUSR (l := []) fun i hi => (by cases hi)).bind
    fun error s₂ h₂ => ?_
  refine .ite (fun hne => .pure fun h => absurd h hne) fun hZero => ?_
  refine (createStdio_fills 1 stdoutName oWRONLY sIWUSR (h₂ (not_not.mp hZero))).bind
    fun error s₃ h₃ => ?_
  refine .ite (fun hne => .pure fun h => absurd h hne) fun hZero => ?_
  refine (hRules.importSets sets _ s₃ (h₃ (not_not.mp hZero))).bind
    fun r s₄ h₄ => .ite (fun hne => .pure fun h => absurd h hne) fun _ => ?_
  refine (hRules.createOutputSets outputs s₄ h₄).bind fun error s₅ h₅ => ?_
  refine .ite (fun hne => .pure fun h => absurd h hne) fun _ => ?_
  rw [finishInitialize]
  have hRest : ∀ {error : Int} {s₆ : State}, (error = 0 → Filled [0, 1, 2] s₆) →
      Ensures (if error ≠ 0 then pure (error, r.2) else do
        let argv ← emptyArray P r.2.argv
        let environ ← emptyArray P r.2.environ
        pure (0, { r.2 with argv := argv, environ := environ }) : M (Int × Arguments)) s₆
        fun r s' => r.1 = 0 → Filled [0, 1, 2] s' := by
    intro error s₆ h₆
    refine .ite (fun hne => .pure fun h => absurd h hne) fun hZero => ?_
    refine ((equips_emptyArray r.2.argv).keepsTable s₆).bind fun argv s₇ h₇ => ?_
    refine ((equips_emptyArray r.2.environ).keepsTable s₇).bind fun environ s₈ h₈ =>
      .pure fun _ => ?_
    exact hKept h₈ (hKept h₇ (h₆ (not_not.mp hZero)))
  refine ensures_open fun _ => ?_
  refine .ite (fun _ => ?_) fun hne => (Meets.pure fun _ => ?_).bind fun _ _ h => hRest h
  · exact (createStdio_fills 0 stdinName oRDONLY sIRUSR h₅).bind fun _ _ h => hRest h
  · exact List.forall_mem_cons.mpr ⟨hne, h₅⟩

theorem started_unfilled {x : Session} (h : Started P x) {i : Nat}
    (hi : (x.state.openFiles i).file ≠ 0) : i ≤ 2 := by
  obtain ⟨_, sets, outputs, s, a, hBoots, hInit⟩ := h
  have hOpen : ∀ entry ∈ standard, ∀ p,
      Preserves (fun s : State => ∀ i, (s.openFiles i).file ≠ 0 → i ≤ 2)
      (openExistingFile entry.1 p entry.2 false) := by
    intro entry hEntry p s h
    have hLe : entry.1 ≤ 2 := (show ∀ entry ∈ standard, entry.1 ≤ 2 by decide) entry hEntry
    refine (openExistingFile_table entry.1 p entry.2 false).imp fun r s' hs' i hi => ?_
    rcases hs' with ⟨-, hRefers⟩ | ⟨-, hOpens⟩
    · rw [(hRefers i).file] at hi
      exact h i hi
    · by_cases hIndex : i = entry.1
      · rwa [hIndex]
      · exact h i ((hOpens.others i hIndex).file ▸ hi)
  have hRules : StartRules P fun s => ∀ i, (s.openFiles i).file ≠ 0 → i ≤ 2 :=
    .of_table (fun s s' hSame h i hi => h i (hSame ▸ hi)) hOpen
  refine (hRules.fsInitialize sets outputs s fun i hi => ?_).result hInit i hi
  rw [hBoots.openFiles] at hi
  exact absurd rfl hi

theorem tracks_of_started {x : Session} (h : Started P x) : Tracks [0, 1, 2] x.state := by
  intro fd
  have hFilled : Filled [0, 1, 2] x.state := by
    obtain ⟨_, sets, outputs, s, a, hBoots, hInit⟩ := h
    exact (fsInitialize_fills sets outputs).result hInit rfl
  have hMax : (2 : Int) < fsMaxFiles := by unfold fsMaxFiles; decide
  constructor
  · intro hfd
    have hMem : fd = 0 ∨ fd = 1 ∨ fd = 2 := by simpa using hfd
    refine ⟨by omega, by omega, hFilled fd.toNat ?_⟩
    rcases hMem with rfl | rfl | rfl <;> decide
  · rintro ⟨hPos, -, hFile⟩
    have hLe := started_unfilled h hFile
    have hMem : fd = 0 ∨ fd = 1 ∨ fd = 2 := by omega
    simpa using hMem

end Start

section Runs

theorem Tracks.refers (h : Tracks opened s) (hRefers : Refers s s') : Tracks opened s' :=
  fun fd => by
  rw [(hRefers fd.toNat).file]
  exact h fd

theorem toNat_ne {fd fd' : Int} (hfd : 0 ≤ fd) (hfd' : 0 ≤ fd') (hne : fd ≠ fd') :
    fd.toNat ≠ fd'.toNat := by
  omega

theorem Tracks.open {r : Int} {flags : Nat} (h : Tracks opened s)
    (hOpens : OpensWith s flags r s') :
    Tracks (if r < 0 then opened else r :: opened) s' := by
  rcases hOpens with ⟨hNeg, hRefers⟩ | ⟨hPos, hOpens⟩
  · rw [if_pos hNeg]
    exact h.refers hRefers
  · rw [if_neg (Int.not_lt.mpr hPos)]
    have hLt := hOpens.range
    intro fd
    by_cases hfd : fd = r
    · rw [hfd]
      exact ⟨fun _ => ⟨hPos, by omega, hOpens.filled⟩, fun _ => List.mem_cons_self⟩
    · have hMem : fd ∈ r :: opened ↔ fd ∈ opened := by simp [hfd]
      rw [hMem, h fd]
      refine and_congr_right fun hZero => and_congr_right fun _ => ?_
      rw [(hOpens.others _ (toNat_ne hZero hPos hfd)).file]

theorem Tracks.close {r : Int} (h : Tracks opened s) (hRange : 0 ≤ fd)
    (hClose : r = 0 ∧ Closes s s' fd.toNat ∨ r ≠ 0 ∧ s' = s) :
    Tracks (if r = 0 then opened.filter (· ≠ fd) else opened) s' := by
  rcases hClose with ⟨hZero, hCloses⟩ | ⟨hne, rfl⟩
  · have hOthers : ∀ q : Int, 0 ≤ q → q ≠ fd →
        (s'.openFiles q.toNat).file = (s.openFiles q.toNat).file := fun q hPos hq =>
      congrArg Prod.fst (hCloses.others _ (toNat_ne hPos hRange hq))
    rw [if_pos hZero]
    intro q
    rw [List.mem_filter, decide_eq_true_eq]
    by_cases hq : q = fd
    · subst hq
      exact ⟨fun hMem => absurd rfl hMem.2, fun hFile => absurd hCloses.closed hFile.2.2⟩
    · rw [h q]
      constructor
      · rintro ⟨⟨hPos, hLt, hFile⟩, -⟩
        exact ⟨hPos, hLt, (hOthers q hPos hq).symm ▸ hFile⟩
      · rintro ⟨hPos, hLt, hFile⟩
        exact ⟨⟨hPos, hLt, hOthers q hPos hq ▸ hFile⟩, hq⟩
  · rw [if_neg hne]
    exact h

theorem Tracks.perform {x y : Session} {c : Call} (h : Tracks opened x.state)
    (hStep : Completes P x c y) :
    Tracks (openedAfter P opened x.state (.call c)) y.state := by
  cases c with
  | openFile name flags mode =>
    have hAll : Ensures (Call.perform P x.dirs (.openFile name flags mode)) x.state fun _ s' =>
        Tracks (openedAfter P opened x.state (.call (.openFile name flags mode))) s' := by
      refine ((dandelionOpen_table name flags mode).and (Meets.self _ _)).bind
        fun r s₁ h₁ => .pure ?_
      obtain ⟨hOpens, hRun⟩ := h₁
      rw [openedAfter, hRun]
      exact h.open hOpens
    exact hAll.result hStep
  | close fd =>
    have hAll : Ensures (Call.perform P x.dirs (.close fd)) x.state fun _ s' =>
        Tracks (openedAfter P opened x.state (.call (.close fd))) s' := by
      refine ((dandelionClose_table fd).and (Meets.self _ _)).bind fun r s₁ h₁ => .pure ?_
      obtain ⟨⟨hPos, hClose⟩, hRun⟩ := h₁
      rw [openedAfter, hRun]
      exact h.close hPos hClose
    exact hAll.result hStep
  | _ =>
    exact h.refers (refers_of_completes (fun _ _ _ h => by cases h) (fun _ h => by cases h) hStep)

theorem tracks_of_reachable {x : Tracked} (h : Reachable (TrackStarts P) (TrackPerforms P) x) :
    Tracks x.opened x.session.state := by
  refine h.invariant (fun x => Tracks x.opened x.session.state) (fun x hStart => ?_)
    fun x q y hTracks hStep => ?_
  · rw [hStart.2]
    exact tracks_of_started hStart.1
  · obtain ⟨hRun, hOpened⟩ := hStep
    rw [hOpened]
    cases q with
    | call c => exact hTracks.perform hRun
    | link old new =>
      obtain ⟨_, r, hLink⟩ := hRun
      exact hTracks.refers
        (((KeepsTable.unmoved (tableRules.dandelionLink old new)) x.session.state).result hLink)

end Runs

section Law

theorem getOpenFile_outside (h : ¬ (0 ≤ fd ∧ fd < fsMaxFiles)) :
    getOpenFile fd s = .error .bounds := if_neg h

theorem rejects_of_closed (hRange : 0 ≤ fd ∧ fd < fsMaxFiles)
    (hFile : (s.openFiles fd.toNat).file = 0) (call : DescriptorCall) : Rejects P s fd call := by
  have hGet := getOpenFile_ok (s := s) hRange
  cases call with
  | close => rw [Rejects, dandelionClose, bind_ok hGet, if_pos hFile]; rfl
  | read len offset options => rw [Rejects, dandelionRead, bind_ok hGet, if_pos (Or.inl hFile)]; rfl
  | write bytes offset options =>
    rw [Rejects, dandelionWrite, bind_ok hGet, if_pos (Or.inl hFile)]; rfl
  | lseek offset whence => rw [Rejects, dandelionLseek, bind_ok hGet, if_pos hFile]; rfl
  | fstat => rw [Rejects, dandelionFstat, bind_ok hGet, if_pos hFile]; rfl
  | ftruncate length => rw [Rejects, dandelionFtruncate, bind_ok hGet, if_pos hFile]; rfl

theorem not_rejects_outside (hRange : ¬ (0 ≤ fd ∧ fd < fsMaxFiles)) (call : DescriptorCall) :
    ¬ Rejects P s fd call := by
  have hGet := getOpenFile_outside (s := s) hRange
  cases call with
  | close => rw [Rejects, dandelionClose, bind_error hGet]; exact fun h => by cases h
  | read len offset options =>
    rw [Rejects, dandelionRead, bind_error hGet]; exact fun h => by cases h
  | write bytes offset options =>
    rw [Rejects, dandelionWrite, bind_error hGet]; exact fun h => by cases h
  | lseek offset whence => rw [Rejects, dandelionLseek, bind_error hGet]; exact fun h => by cases h
  | fstat => rw [Rejects, dandelionFstat, bind_error hGet]; exact fun h => by cases h
  | ftruncate length => rw [Rejects, dandelionFtruncate, bind_error hGet]; exact fun h => by cases h

/-- Along every run a call with a descriptor that is not open is refused exactly if the
number is an index of the table. -/
theorem rejects_iff {x : Tracked} (hx : Reachable (TrackStarts P) (TrackPerforms P) x)
    (hfd : fd ∉ x.opened) (call : DescriptorCall) : Rejects P x.session.state fd call ↔
    0 ≤ fd ∧ fd < fsMaxFiles := by
  constructor
  · intro hRejects
    by_contra hRange
    exact not_rejects_outside hRange call hRejects
  · intro hRange
    refine rejects_of_closed hRange ?_ call
    by_contra hFile
    exact hfd ((tracks_of_reachable hx fd).mpr ⟨hRange.1, hRange.2, hFile⟩)

theorem exists_tracked {x : Session} (h : Reachable (Started P) (Completes P) x) :
    ∃ opened, Reachable (TrackStarts P) (TrackPerforms P) ⟨x, opened⟩ := by
  induction h with
  | init hStart => exact ⟨[0, 1, 2], .init ⟨hStart, rfl⟩⟩
  | @step x y c _ hStep ih =>
    obtain ⟨opened, hTracked⟩ := ih
    exact ⟨openedAfter P opened x.state (.call c), .step (i := .call c) hTracked ⟨hStep, rfl⟩⟩

/-- The standard input, once it is closed. -/
theorem rejects_closed_input :
    ∃ x : Tracked, Reachable (TrackStarts (.bump 0)) (TrackPerforms (.bump 0)) x ∧
    0 ∉ x.opened ∧ ∀ call, Rejects (.bump 0) x.session.state 0 call := by
  obtain ⟨x, hx, hTest⟩ := exists_of_bareRun (P := .bump 0) [.close 0]
    (fun x => (x.state.openFiles 0).file == 0)
    (by decide +kernel)
  obtain ⟨opened, hTracked⟩ := exists_tracked hx
  have hClosed : (0 : Int) ∉ opened :=
    fun hMem => ((tracks_of_reachable hTracked 0).mp hMem).2.2 (beq_iff_eq.mp hTest)
  refine ⟨⟨x, opened⟩, hTracked, hClosed, fun call =>
    (rejects_iff hTracked hClosed call).mpr ⟨le_rfl, ?_⟩⟩
  unfold fsMaxFiles
  decide

/-- The number before the first descriptor is in front of the table. -/
theorem rejects_fails :
    ∃ x : Tracked, Reachable (TrackStarts (.bump 0)) (TrackPerforms (.bump 0)) x ∧
    -1 ∉ x.opened ∧ ∀ call, ¬ Rejects (.bump 0) x.session.state (-1) call := by
  obtain ⟨x, hx, -⟩ := exists_of_bareRun (P := .bump 0) [] (fun _ => true) (by decide +kernel)
  obtain ⟨opened, hTracked⟩ := exists_tracked hx
  have hOut : ¬ (0 ≤ (-1 : Int) ∧ (-1 : Int) < fsMaxFiles) := fun h => absurd h.1 (by decide)
  refine ⟨⟨x, opened⟩, hTracked, fun hMem => ?_, not_rejects_outside hOut⟩
  exact absurd ((tracks_of_reachable hTracked (-1)).mp hMem).1 (by decide)

end Law

end Dandelion.FileSystem
