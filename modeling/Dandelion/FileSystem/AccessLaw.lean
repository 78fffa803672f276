import Dandelion.FileSystem.Acceptance
import Dandelion.FileSystem.AccessRuns
import Dandelion.FileSystem.KeptContents

/-! # Descriptors that cannot modify

What the calls make of the access a descriptor was opened with: `dandelion_write`
refuses no descriptor and `dandelion_ftruncate` refuses those opened for reading
and writing. Whatever else changes a file is a seek beyond its end or an open with
`O_TRUNC`, and neither looks at the access.
-/

namespace Dandelion.FileSystem

open Foundation.Runs Foundation.Triples

inductive Alteration where
  | write (bytes : List UInt8) (offset : Int) (options : Nat)
  | ftruncate (length : Int)

def Alteration.perform (P : Platform) (fd : Int) : Alteration → M Int
  | .write bytes offset options => dandelionWrite P fd bytes offset options
  | .ftruncate length => dandelionFtruncate P fd length

def Alteration.isWrite : Alteration → Bool
  | .write _ _ _ => true
  | .ftruncate _ => false

/-- Strings of less than two to the thirty-one bytes, and no negative offset. -/
def Alteration.Sized : Alteration → Prop
  | .write bytes offset _ => bytes.length < 2 ^ 31 ∧ 0 ≤ offset ∧ offset < 2 ^ 63
  | .ftruncate length => length < 2 ^ 63

/-- The condition for the call to return. -/
def Alteration.Returns (P : Platform) (s : State) (f : DFile) (o : OpenFile) : Alteration → Prop
  | .write bytes _ options => WriteReturns P s f o options bytes.length
  | .ftruncate length => TruncateReturns s.memory f length

/-- The call is refused and nothing changes. -/
def Denies (P : Platform) (s : State) (fd : Nat) (a : Alteration) : Prop :=
  a.perform P fd s = .ok (-(eBADF : Int), s)

/-- The call returns and is not refused. -/
def Accepts (P : Platform) (s : State) (fd : Nat) (a : Alteration) : Prop :=
  ∃ r s', a.perform P fd s = .ok (r, s') ∧ r ≠ -(eBADF : Int)

/-- The descriptor is open and was not opened for reading alone. -/
def Recorded.Writable (x : Recorded) (fd : Int) : Prop :=
  (x.session.state.openFiles fd.toNat).file ≠ 0 ∧ x.modes fd.toNat ≠ oRDONLY

/-- What may change the content of files: calls on descriptors opened for writing, opens with
`O_TRUNC` and write access, and `dandelion_truncate`. -/
def Recorded.MayAlter (x : Recorded) : Request → Prop
  | .call (.write fd _ _ _) | .call (.lseek fd _ _) | .call (.ftruncate fd _) => x.Writable fd
  | .call (.openFile _ flags _) => hasBit flags oTRUNC = true ∧ flags &&& oACCMODE ≠ oRDONLY
  | .call (.truncate _ _) => True
  | _ => False

/-- The requests whose access is in order. -/
def Recorded.Guarded (x : Recorded) : Request → Prop
  | .call (.write fd _ _ _) | .call (.lseek fd _ _) =>
    (x.session.state.openFiles fd.toNat).file ≠ 0 → x.modes fd.toNat ≠ oRDONLY
  | .call (.openFile _ flags _) => hasBit flags oTRUNC = true → flags &&& oACCMODE ≠ oRDONLY
  | _ => True

variable {P : Platform} {s s' : State} {fd : Nat} {x : Recorded}

section Calls

theorem dandelionWrite_accepts (hOpen : (s.openFiles fd).file ≠ 0) (bytes : List UInt8)
    (offset : Int) (options : Nat) :
    Ensures (dandelionWrite P fd bytes offset options) s fun r _ => r ≠ -(eBADF : Int) := by
  have hLength : ∀ n : Nat, (n : Int) ≠ -(eBADF : Int) := fun n h => by
    have : (eBADF : Int) = 9 := rfl
    omega
  have hFrom : ∀ {s₁ : State} (p : Ptr) (k : Nat), Ensures (writeFrom P fd bytes options p k) s₁
      fun r _ =>
      r ≠ -(eBADF : Int) := by
    intro s₁ p k
    rw [writeFrom]
    refine .after_any fun current s₂ => .ite (fun _ => ?_) fun _ => .pure (hLength _)
    exact .after_any fun o s₃ => .after_any fun _ s₄ => .pure (hLength _)
  rw [dandelionWrite]
  refine ensures_open fun _ => ?_
  refine .ite (fun hBad => ?_) fun _ => .after_any fun f s₂ => ?_
  · rcases hBad with hZero | hBit
    · exact absurd hZero hOpen
    · rw [hasBit, show oRDONLY = 0 from rfl, Nat.and_zero] at hBit
      cases hBit
  · refine .ite (fun _ => .pure (by decide)) fun _ => .ite (fun _ => .pure (by decide)) fun _ =>
      .after_any fun start s₃ => ?_
    cases start with
    | none => exact .pure (by decide)
    | some start =>
      refine .ite (fun _ => ?_) fun _ => hFrom _ _
      exact .after_any fun fuel s₄ => .after_any fun last s₅ => .after_any fun c s₆ =>
        .after_any fun _ s₇ => hFrom _ _

theorem truncateNode_accepts {p : Ptr} {f : DFile} (hf : s.memory.files p = some f)
    (hType : f.type = .file) (length : Int) :
    Ensures (truncateNode P p length) s fun r _ => r ≠ -(eBADF : Int) := by
  have hFrom : ∀ (fuel remaining : Nat) (q : Ptr) {s₁ : State},
      Ensures (truncateFrom P fuel remaining q) s₁ fun r _ =>
      r ≠ -(eBADF : Int) := by
    intro fuel
    induction fuel with
    | zero => exact fun remaining q s₁ => trivial
    | succ fuel ih =>
      intro remaining q s₁
      rw [truncateFrom]
      refine .after_any fun c s₂ => .ite (fun _ => ?_) fun _ => .ite (fun _ => ?_) fun _ => ih _ _
      · exact .after_any fun _ s₃ => .after_any fun fuel s₄ =>
          .after_any fun _ s₅ => .pure (by decide)
      · exact .after_any fun newChunk s₃ => .after_any fun _ s₄ =>
          .after_any fun _ s₅ => .pure (by decide)
  rw [truncateNode]
  refine .ite (fun _ => .pure (by decide)) fun _ => ensures_file fun e _ he => ?_
  obtain rfl := Option.mem_unique hf he
  exact .ite (fun hne => absurd hType hne) fun _ => .after_any fun fuel s₂ => hFrom _ _ _

theorem dandelionFtruncate_refuses (hfd : fd < fsMaxFiles) (hOpen : (s.openFiles fd).file ≠ 0)
    (hBit : hasBit (s.openFiles fd).openFlags oWRONLY = false) (length : Int) :
    dandelionFtruncate P fd length s = .ok (-(eBADF : Int), s) := by
  have hRange : 0 ≤ (fd : Int) ∧ (fd : Int) < fsMaxFiles :=
    ⟨Int.natCast_nonneg fd, Int.ofNat_lt.mpr hfd⟩
  rw [dandelionFtruncate, bind_ok (getOpenFile_ok hRange), Int.toNat_natCast, if_neg hOpen,
    if_pos (by simp [hBit])]
  rfl

theorem hasBit_write {flags mode : Nat} (h : flags &&& oACCMODE = mode) :
    hasBit flags oWRONLY = hasBit mode oWRONLY := by
  rw [hasBit, hasBit, ← h, Nat.and_assoc, show oACCMODE &&& oWRONLY = oWRONLY by decide]

theorem dandelionWrite_closed {fd : Int} (hClosed : (s.openFiles fd.toNat).file = 0)
    (bytes : List UInt8) (offset : Int) (options : Nat) :
    Ensures (dandelionWrite P fd bytes offset options) s fun _ s' => s' = s := by
  refine ensures_open fun _ => ?_
  exact .ite (fun _ => .pure rfl) fun hOpen => absurd (Or.inl hClosed) hOpen

theorem dandelionLseek_closed {fd : Int} (hClosed : (s.openFiles fd.toNat).file = 0) (offset : Int)
    (whence : Nat) : Ensures (dandelionLseek P fd offset whence) s fun _ s' => s' = s := by
  refine ensures_open fun _ => ?_
  exact .ite (fun _ => .pure rfl) fun hOpen => absurd hClosed hOpen

/-- A truncation through a descriptor that is not open or not for writing changes nothing. -/
theorem dandelionFtruncate_unchanged {fd : Int} (length : Int)
    (hNot : (s.openFiles fd.toNat).file ≠ 0 →
      hasBit (s.openFiles fd.toNat).openFlags oWRONLY = false) :
    Ensures (dandelionFtruncate P fd length) s fun _ s' => s' = s := by
  refine ensures_open fun _ => ?_
  refine .ite (fun _ => .pure rfl) fun hOpen => .ite (fun _ => .pure rfl) fun hBit => ?_
  exact absurd (hNot hOpen) (by simpa using hBit)

end Calls

section Law

theorem denies_iff (hx : Reachable (RecordStarts P) (RecordPerforms P) x) (hfd : fd < fsMaxFiles)
    (hOpen : (x.session.state.openFiles fd).file ≠ 0) (hMode : x.modes fd = oRDONLY)
    (a : Alteration) :
    Denies P x.session.state fd a ↔ a.isWrite = false := by
  have hBit := hasBit_write (access_of_reachable hx fd hOpen)
  rw [hMode] at hBit
  cases a with
  | write bytes offset options =>
    have hAccepts := dandelionWrite_accepts (P := P) hOpen bytes offset options
    exact iff_of_false (fun h => hAccepts.result h rfl) Bool.noConfusion
  | ftruncate length => exact iff_of_true (dandelionFtruncate_refuses hfd hOpen hBit length) rfl

theorem accepts_iff {f : DFile} {c : List UInt8}
    (hx : Reachable (RecordStarts P) (RecordPerforms P) x) (hGrants : P.Grants)
    (hStays : Reachable (Started P) (Stays P) x.session) (hWords : x.session.state.memory.Words)
    (h : OpenOn x.session.state fd f) (hc : content x.session.state.memory f.link = some c)
    (hMode : x.modes fd = oWRONLY ∨ x.modes fd = oRDWR) {a : Alteration} (hSized : a.Sized) :
    Accepts P x.session.state fd a ↔
      (x.modes fd = oRDWR → a.isWrite = true) ∧
        a.Returns P x.session.state f (x.session.state.openFiles fd) := by
  have hBit := hasBit_write (access_of_reachable hx fd h.opened)
  have hSound := sound_of_stays hStays
  obtain ⟨l, hl, -, -⟩ := hSound.filed_of_content hWords hc
  cases a with
  | write bytes offset options =>
    obtain ⟨hLen, hOffset, hn⟩ := hSized
    obtain ⟨n, rfl⟩ := Int.eq_ofNat_of_zero_le hOffset
    have hAccepts := dandelionWrite_accepts (P := P) h.opened bytes n options
    have hReturns :=
      write_returns_iff options hGrants hSound hWords h hl (by exact_mod_cast hn) hLen
    refine Iff.trans ?_ (hReturns.trans (and_iff_right fun _ => rfl).symm)
    constructor
    · rintro ⟨r, s', hRun, -⟩
      exact ⟨r, s', hRun⟩
    · rintro ⟨r, s', hRun⟩
      exact ⟨r, s', hRun, hAccepts.result hRun⟩
  | ftruncate length =>
    rcases hMode with hMode | hMode
    · rw [hMode] at hBit
      have hRange : 0 ≤ (fd : Int) ∧ (fd : Int) < fsMaxFiles :=
        ⟨Int.natCast_nonneg fd, Int.ofNat_lt.mpr h.range⟩
      have hCall : dandelionFtruncate P fd length x.session.state =
          truncateNode P (x.session.state.openFiles fd).file length x.session.state := by
        rw [dandelionFtruncate, bind_ok (getOpenFile_ok hRange), Int.toNat_natCast, if_neg h.opened,
          if_neg (by rw [hBit]; decide)]
      have hAccepts := truncateNode_accepts (P := P) h.node h.regular length
      have hReturns :=
        truncate_returns_iff hGrants hSound.holding h.opened h.node h.regular hl hSized
      rw [hMode]
      refine Iff.trans ?_ (hReturns.trans (and_iff_right fun hEq => absurd hEq (by decide)).symm)
      rw [Accepts, Alteration.perform, hCall]
      constructor
      · rintro ⟨r, s', hRun, -⟩
        exact ⟨r, s', hRun⟩
      · rintro ⟨r, s', hRun⟩
        exact ⟨r, s', hRun, hAccepts.result hRun⟩
    · rw [hMode] at hBit ⊢
      refine iff_of_false ?_ fun hAll => Bool.noConfusion (hAll.1 rfl)
      rintro ⟨r, s', hRun, hne⟩
      have hRefused := dandelionFtruncate_refuses (P := P) h.range h.opened hBit length
      obtain rfl := (ok_unique hRefused hRun).1
      exact hne rfl

theorem altered_only {q : Request} {y : Session}
    (hx : Reachable (RecordStarts P) (RecordPerforms P) x) (hP : P.Linkable)
    (hProceeds : Reachable (Started P) (Proceeds P) x.session)
    (hSeparate : Separate x.session.state.memory) (hStep : Performs P x.session q y)
    (hGuarded : x.Guarded q) :
    x.MayAlter q ∨ KeepsContents x.session.state.memory y.state.memory := by
  obtain ⟨L, hSteady⟩ := steady_of_reachable hP hProceeds
  have hKeeps : (∀ c, q = .call c → c.onContent = false ∧ c.truncates = false) →
      KeepsContents x.session.state.memory y.state.memory := hSteady.keeps_contents hSeparate hStep
  have hUnchanged : ∀ {k : M Int}, Ensures k x.session.state (fun _ s' => s' = x.session.state) →
      (do let _ ← k; pure x.session.dirs : M (List Ptr)) x.session.state = .ok (y.dirs, y.state) →
        KeepsContents x.session.state.memory y.state.memory := by
    intro k hk hRun
    have hAll : Ensures (do let _ ← k; pure x.session.dirs : M (List Ptr)) x.session.state
        fun _ s' =>
        s' = x.session.state := hk.bind fun _ _ h => .pure h
    rw [hAll.result hRun]
    exact .refl _
  cases q with
  | link old new => exact Or.inr (hKeeps fun c hc => by cases hc)
  | call c =>
    cases c with
    | openFile name flags mode =>
      by_cases hTrunc : hasBit flags oTRUNC = true
      · exact Or.inl ⟨hTrunc, hGuarded hTrunc⟩
      · refine Or.inr (hKeeps fun c hc => ?_)
        obtain rfl := Request.call.inj hc
        exact ⟨rfl, Bool.eq_false_iff.mpr hTrunc⟩
    | write fd bytes offset options =>
      by_cases hOpen : (x.session.state.openFiles fd.toNat).file = 0
      · exact Or.inr (hUnchanged (dandelionWrite_closed hOpen bytes offset options) hStep)
      · exact Or.inl ⟨hOpen, hGuarded hOpen⟩
    | lseek fd offset whence =>
      by_cases hOpen : (x.session.state.openFiles fd.toNat).file = 0
      · exact Or.inr (hUnchanged (dandelionLseek_closed hOpen offset whence) hStep)
      · exact Or.inl ⟨hOpen, hGuarded hOpen⟩
    | ftruncate fd length =>
      by_cases hWritable : x.Writable fd
      · exact Or.inl hWritable
      · refine Or.inr (hUnchanged (dandelionFtruncate_unchanged length fun hOpen => ?_) hStep)
        have hMode : x.modes fd.toNat = oRDONLY := not_not.mp fun hne => hWritable ⟨hOpen, hne⟩
        rw [hasBit_write (access_of_reachable hx _ hOpen), hMode]
        rfl
    | truncate name length => exact Or.inl trivial
    | _ =>
      refine Or.inr (hKeeps fun c hc => ?_)
      obtain rfl := Request.call.inj hc
      exact ⟨rfl, rfl⟩

/-- In every state that a run reaches: truncation is refused to descriptors for reading and writing
is not; descriptors for writing are accepted where the call returns, but for truncation with those
for both; and where access is in order only what may alter a file does. -/
theorem guards_access_iff (hx : Reachable (RecordStarts P) (RecordPerforms P) x) :
    (∀ fd < fsMaxFiles, (x.session.state.openFiles fd).file ≠ 0 → x.modes fd = oRDONLY → ∀ a,
      (Denies P x.session.state fd a ↔ a.isWrite = false)) ∧
    (P.Grants → Reachable (Started P) (Stays P) x.session → x.session.state.memory.Words →
      ∀ fd f c, OpenOn x.session.state fd f → content x.session.state.memory f.link = some c →
        x.modes fd = oWRONLY ∨ x.modes fd = oRDWR → ∀ a : Alteration, a.Sized →
          (Accepts P x.session.state fd a ↔ (x.modes fd = oRDWR → a.isWrite = true) ∧
            a.Returns P x.session.state f (x.session.state.openFiles fd))) ∧
    (P.Linkable → Reachable (Started P) (Proceeds P) x.session → Separate x.session.state.memory →
      ∀ q y, Performs P x.session q y → x.Guarded q →
        x.MayAlter q ∨ KeepsContents x.session.state.memory y.state.memory) := by
  refine ⟨fun fd hfd hOpen hMode a => denies_iff hx hfd hOpen hMode a, ?_, ?_⟩
  · intro hGrants hStays hWords fd f c h hc hMode a hSized
    exact accepts_iff hx hGrants hStays hWords h hc hMode hSized
  · intro hP hProceeds hSeparate q y hStep hGuarded
    exact altered_only hx hP hProceeds hSeparate hStep hGuarded

def openWith (s : State) (fd mode : Nat) : Bool :=
  (s.openFiles fd).file != 0 && (s.openFiles fd).openFlags &&& oACCMODE == mode

theorem Recorded.mode_of_openWith {mode : Nat}
    (hx : Reachable (RecordStarts P) (RecordPerforms P) x)
    (h : openWith x.session.state fd mode = true) :
    (x.session.state.openFiles fd).file ≠ 0 ∧ x.modes fd = mode := by
  rw [openWith, Bool.and_eq_true, bne_iff_ne, beq_iff_eq] at h
  exact ⟨h.1, (access_of_reachable hx fd h.1).symm.trans h.2⟩

/-- A descriptor for writing to a file of one byte and one for reading of another that is empty. -/
theorem guards_access_write_only :
    ∃ x : Recorded, Reachable (RecordStarts (.bump 0)) (RecordPerforms (.bump 0)) x ∧
    x.modes 3 = oWRONLY ∧ x.modes 4 = oRDONLY ∧ Denies (.bump 0) x.session.state 4 (.ftruncate 0) ∧
    Accepts (.bump 0) x.session.state 3 (.write [2] 0 moveOffset) ∧
    Accepts (.bump 0) x.session.state 3 (.ftruncate 2) ∧
    ∃ y, Completes (.bump 0) x.session (.unlink [98]) y ∧
      KeepsContents x.session.state.memory y.state.memory := by
  obtain ⟨x, hAdvances, hTest⟩ := exists_of_boundedRun (P := .bump 0)
    [.openFile [97] (oWRONLY ||| oCREAT) sIRWXU, .write 3 [1] 0 moveOffset,
      .openFile [98] (oRDONLY ||| oCREAT) sIRWXU]
    (fun x => openWith x.state 3 oWRONLY && openWith x.state 4 oRDONLY && opened x.state 3 [1] &&
      x.state.memory.wordsBelow && x.state.memory.onlyAt (x.state.openFiles 3).file &&
      decide ((x.state.openFiles 3).openFlags = oWRONLY ∧ (x.state.openFiles 3).currentChunk ≠ 0) &&
      (x.state.memory.chunks (x.state.openFiles 3).currentChunk).isSome &&
      passes (Call.perform (.bump 0) x.dirs (.unlink [98]) x.state) fun _ => true)
        (by decide +kernel)
  simp only [Bool.and_eq_true, decide_eq_true_eq, Option.isSome_iff_ne_none] at hTest
  obtain ⟨⟨⟨⟨⟨⟨⟨hFirst, hSecond⟩, hOpened⟩, hWords⟩, hOnly⟩, hFlags, hChunk⟩, hLive⟩, hUnlink⟩ :=
    hTest
  have hStays := stays_of_advances hAdvances
  have hProceeds := hAdvances.mono fun _ _ _ h => h.2
  obtain ⟨modes, hx⟩ := exists_recorded (performs_of_proceeds hProceeds)
  obtain ⟨hOpen₃, hMode₃⟩ := Recorded.mode_of_openWith hx hFirst
  obtain ⟨hOpen₄, hMode₄⟩ := Recorded.mode_of_openWith hx hSecond
  obtain ⟨f, hf, hType, hc⟩ := opened_iff.mp hOpened
  have hOn : OpenOn x.state 3 f := ⟨by unfold fsMaxFiles; decide, hOpen₃, hf, hType⟩
  obtain ⟨⟨dirs, s⟩, hRun, -⟩ := exists_of_passes hUnlink
  obtain ⟨hDenies, hAccepts, hAlters⟩ := guards_access_iff hx
  have hAccepted :=
    hAccepts (grants_bump 0) hStays (words_of_below hWords) 3 f [1] hOn hc (Or.inl hMode₃)
  refine ⟨⟨x, modes⟩, hx, hMode₃, hMode₄, ?_, ?_, ?_, ⟨s, dirs⟩, hRun, ?_⟩
  · exact (hDenies 4 (by unfold fsMaxFiles; decide) hOpen₄ hMode₄ _).mpr rfl
  · refine (hAccepted (.write [2] 0 moveOffset) ⟨by decide, le_rfl, by decide⟩).mpr ⟨fun _ => rfl,
      Or.inr ⟨?_, ?_⟩⟩
    · intro hAppend
      rw [hFlags] at hAppend
      exact absurd hAppend (by decide)
    · intro _ _
      rw [if_neg hChunk]
      exact hLive
  · refine (hAccepted (.ftruncate 2) (show (2 : Int) < 2 ^ 63 by decide)).mpr ⟨fun hBoth => ?_, ?_⟩
    · exact absurd (hMode₃.symm.trans hBoth) (by decide)
    · obtain ⟨l, hl, hFlat⟩ := stored_of_content hc
      refine Or.inr ⟨l, pieces_eq_some.mpr hl, ?_, Or.inl ?_⟩
      · rintro rfl
        cases hFlat
      · rw [hFlat]
        decide
  · have hKept := hAlters linkable_bump hProceeds (separate_of_onlyAt hOnly) (.call (.unlink [98]))
      ⟨s, dirs⟩ hRun trivial
    exact hKept.resolve_left id

/-- A byte is written through a descriptor for reading and one for both cannot truncate; opening a
file for reading empties it, and a seek through a descriptor for reading makes it longer. -/
theorem guards_access_fails :
    (∃ x : Recorded, Reachable (RecordStarts (.bump 0)) (RecordPerforms (.bump 0)) x ∧
      x.modes 3 = oRDONLY ∧ x.modes 4 = oRDWR ∧
      ¬ Denies (.bump 0) x.session.state 3 (.write [1] 0 moveOffset) ∧
      ¬ Accepts (.bump 0) x.session.state 4 (.ftruncate 0)) ∧
    ∃ x : Recorded, Reachable (RecordStarts (.bump 0)) (RecordPerforms (.bump 0)) x ∧
      x.modes 3 = oRDONLY ∧
      (∃ y, Completes (.bump 0) x.session (.openFile [97] (oRDONLY ||| oTRUNC) sIRWXU) y ∧
        ¬ KeepsContents x.session.state.memory y.state.memory) ∧
      ∃ y, Completes (.bump 0) x.session (.lseek 3 2 seekSet) y ∧
        ¬ KeepsContents x.session.state.memory y.state.memory := by
  constructor
  · obtain ⟨x, hCompletes, hTest⟩ := exists_of_bareRun (P := .bump 0)
      [.openFile [97] (oRDONLY ||| oCREAT) sIRWXU, .openFile [98] (oRDWR ||| oCREAT) sIRWXU]
      (fun x => openWith x.state 3 oRDONLY && openWith x.state 4 oRDWR &&
        passes (dandelionWrite (.bump 0) 3 [1] 0 moveOffset x.state) (fun r => r.1 == 1) &&
        passes (dandelionFtruncate (.bump 0) 4 0 x.state) fun r => r.1 == -(eBADF : Int))
          (by decide +kernel)
    simp only [Bool.and_eq_true] at hTest
    obtain ⟨⟨⟨hFirst, hSecond⟩, hWrite⟩, hCut⟩ := hTest
    obtain ⟨modes, hx⟩ := exists_recorded (performs_of_proceeds (proceeds_of_completes hCompletes))
    refine ⟨⟨x, modes⟩, hx, (Recorded.mode_of_openWith hx hFirst).2,
      (Recorded.mode_of_openWith hx hSecond).2, fun hDenies => ?_, ?_⟩
    · have hRun : dandelionWrite (.bump 0) 3 [1] 0 moveOffset x.state =
          .ok (-(eBADF : Int), x.state) := hDenies
      rw [hRun] at hWrite
      exact absurd (show (-(eBADF : Int) == 1) = true from hWrite) (by decide)
    · rintro ⟨r, s', hRun, hne⟩
      obtain ⟨⟨e, s''⟩, hRun', hCode⟩ := exists_of_passes hCut
      obtain rfl : r = e := (ok_unique hRun hRun').1
      exact hne (beq_iff_eq.mp hCode)
  · obtain ⟨x, hCompletes, hTest⟩ := exists_of_bareRun (P := .bump 0)
      [.openFile [97] (oWRONLY ||| oCREAT) sIRWXU, .write 3 [1] 0 moveOffset, .close 3,
        .openFile [97] oRDONLY sIRWXU]
      (fun x => openWith x.state 3 oRDONLY && opened x.state 3 [1] &&
        passes (Call.perform (.bump 0) x.dirs (.openFile [97] (oRDONLY ||| oTRUNC) sIRWXU) x.state)
          (fun r => (r.2.openFiles 3).file == (x.state.openFiles 3).file && opened r.2 3 []) &&
        passes (Call.perform (.bump 0) x.dirs (.lseek 3 2 seekSet) x.state)
          fun r => (r.2.openFiles 3).file == (x.state.openFiles 3).file && opened r.2 3 [1, 0])
            (by decide +kernel)
    simp only [Bool.and_eq_true] at hTest
    obtain ⟨⟨⟨hFirst, hOpened⟩, hOpen⟩, hSeek⟩ := hTest
    obtain ⟨modes, hx⟩ := exists_recorded (performs_of_proceeds (proceeds_of_completes hCompletes))
    -- the content behind the descriptor is another one
    have hChanged : ∀ {r : List Ptr × State} {c : List UInt8}, c ≠ [1] →
        ((r.2.openFiles 3).file == (x.state.openFiles 3).file && opened r.2 3 c) = true →
        ¬ KeepsContents x.state.memory r.2.memory := by
      intro r c hne hAfter hKeeps
      rw [Bool.and_eq_true, beq_iff_eq] at hAfter
      obtain ⟨f, hf, hType, hc⟩ := opened_iff.mp hOpened
      obtain ⟨f', hf', -, hc'⟩ := opened_iff.mp hAfter.2
      rw [hAfter.1] at hf'
      exact hne (Option.mem_unique hc' (hKeeps _ f f' _ hf hf' hType hc))
    obtain ⟨⟨dirs, s⟩, hRun, hAfter⟩ := exists_of_passes hOpen
    obtain ⟨⟨dirs', s'⟩, hRun', hAfter'⟩ := exists_of_passes hSeek
    exact ⟨⟨x, modes⟩, hx, (Recorded.mode_of_openWith hx hFirst).2,
      ⟨⟨s, dirs⟩, hRun, hChanged (by decide) hAfter⟩, ⟨s', dirs'⟩, hRun',
      hChanged (by decide) hAfter'⟩

end Law

end Dandelion.FileSystem
