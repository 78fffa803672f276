import Dandelion.FileSystem.Placement
import Dandelion.FileSystem.Tidy

/-! # Names are unique

If no input lands on a position that is taken, `fs_initialize` leaves a tidy
tree, and calls on names keep it tidy as long as a file is created only where
lookups do not find one.
-/

namespace Dandelion.FileSystem

open Foundation.Runs Foundation.Triples

variable {P : Platform} {s : State} {L : Ptr → List Ptr} {S : List (List Path)} {d : Ptr}

section Initialize

theorem createStdio_stage (fd : Nat) {name : Path} {flags mode : Nat} (h : Furnished P S s L)
    (hZeroed : P.Zeroed) (hTrunc : hasBit flags oTRUNC = false) (hProper : ProperName name)
    (hZero : 0 ∉ name) (hFresh : [stdioName, name] ∉ S) :
    Ensures (createStdio P fd name flags mode) s fun r s' => r = 0 →
      ∃ L', Furnished P ([stdioName, name] :: S) s' L' ∧
      ∃ o, s'.openFiles = Function.update s.openFiles fd o := by
  refine (h.grounded.createStdio fd hTrunc).imp fun r s' hs' hr => ?_
  obtain ⟨L', -, s₁, s₂, g, link, a, b, hLength, hg, hAdds, hOpens, hLinks⟩ := hs' hr
  have h₂ := (h.addsFile hAdds).opens hOpens
  have hEntry : entryName s₂.memory g.ptr = name := by
    rw [hOpens.entryName_eq, entryName_of hAdds.live, trim_fileNode _ _ (hZeroed _ _ _ hg) hLength,
      trim_of_nonzero hZero]
  obtain ⟨e, he, _⟩ := isDirectory_iff.mp h.folder
  have hStage := h₂.links hLinks h₂.stdio h₂.folder
    (h.listing.empty _ fun f hf => by rw [hAdds.vacant.2.1] at hf; cases hf)
      (hAdds.vacant.ne_file he)
    (hEntry ▸ hProper) (by rw [hEntry]; exact hFresh)
  rw [hEntry] at hStage
  obtain ⟨o, _, hTable⟩ := hOpens.openFiles
  exact ⟨L', hStage, o, by rw [hLinks.edits.openFiles, hTable, hAdds.openFiles]⟩

theorem createOutputSets_stage {outputs : List Path} (h : Furnished P S s L)
    (hZero : ∀ ident ∈ outputs, 0 ∉ ident) :
    Ensures (createOutputSets P outputs) s fun r s' => r = 0 → ∃ L' S', Furnished P S' s' L' ∧
      s'.openFiles = s.openFiles ∧
        ∀ ρ ∈ S', ρ ∈ S ∨ ∃ ident ∈ outputs, ρ ∈ visits [] (components ident) := by
  induction outputs generalizing s L S with
  | nil => exact .pure fun _ => ⟨L, S, h, rfl, fun ρ hρ => Or.inl hρ⟩
  | cons ident outputs ih =>
    have hIdent : 0 ∉ ident := hZero ident List.mem_cons_self
    have hOthers : ∀ other ∈ outputs, 0 ∉ other :=
      fun other hMem => hZero other (List.mem_cons_of_mem _ hMem)
    rw [createOutputSets]
    refine .ite (fun _ => ?_) fun _ => ?_
    · refine (ih h hOthers).imp fun r s' hs' hr => ?_
      obtain ⟨L', S', hStage, hTable, hFrom⟩ := hs' hr
      refine ⟨L', S', hStage, hTable, fun ρ hρ => (hFrom ρ hρ).imp_right ?_⟩
      rintro ⟨other, hMem, hVisit⟩
      exact ⟨other, List.mem_cons_of_mem _ hMem, hVisit⟩
    · refine (createDirectories_creates h.listing h.leaves .root).bind fun r s₁ h₁ => ?_
      obtain ⟨L₁, hCreates⟩ := h₁
      refine .ite (fun _ => .pure fun h => absurd h (by decide)) fun _ => ?_
      obtain ⟨hStage₁, _⟩ := h.creates hCreates .root (components_clean hIdent)
      refine (ih hStage₁ hOthers).imp fun r s' hs' hr => ?_
      obtain ⟨L', S', hStage, hTable, hFrom⟩ := hs' hr
      refine ⟨L', S', hStage, hTable.trans hCreates.openFiles, fun ρ hρ => ?_⟩
      rcases hFrom ρ hρ with hOld | ⟨other, hMem, hVisit⟩
      · rcases List.mem_append.mp hOld with hVisit | hOld
        · exact Or.inr ⟨ident, List.mem_cons_self, hVisit⟩
        · exact Or.inl hOld
      · exact Or.inr ⟨other, List.mem_cons_of_mem _ hMem, hVisit⟩

theorem finishInitialize_stage {x : Arguments} (h : Furnished P S s L) (hZeroed : P.Zeroed)
    (hStdin : (s.openFiles 0).file = 0 → [stdioName, stdinName] ∉ S) :
    Ensures (finishInitialize P x) s fun r s' => r.1 = 0 → ∃ S L', Furnished P S s' L' := by
  refine finishInitialize_keeps (A := fun s => ∃ S L', Furnished P S s L') ⟨S, L, h⟩
    (fun hClosed => ?_) ?_
  · refine (createStdio_stage 0 h hZeroed (by decide) (by decide) (by decide) (hStdin hClosed)).imp
      fun error s₁ h₁ hZero => ?_
    obtain ⟨L₁, hStage, _⟩ := h₁ hZero
    exact ⟨_, L₁, hStage⟩
  · rintro s s' ⟨S, L, h⟩ hOutfits
    exact ⟨S, L, h.outfits hOutfits⟩

theorem fsInitialize_stage {sets : List InputSet} {outputs : List Path} (h : Boots sets s)
    (hZeroed : P.Zeroed) (hApart : PlacedApart sets outputs) :
    Ensures (fsInitialize P sets outputs) s fun r s' => r.1 = 0 → ∃ S L', Furnished P S s' L' := by
  obtain ⟨S, hPlan, hOutputs, hStdin⟩ := hApart
  obtain ⟨s₀, L₀, hStatics, hTable₀, hStage₀, _⟩ := linkStatics_stage (P := P) h
  rw [fsInitialize]
  refine .after hStatics (.ite (fun h => absurd rfl h) fun _ => ?_)
  refine (createStdio_stage 2 hStage₀ hZeroed (by decide) (by decide) (by decide) (by decide)).bind
    fun error s₁ h₁ => .ite (fun hError => .pure fun hZero => absurd hZero hError) fun hZero => ?_
  obtain ⟨L₁, hStage₁, o₁, hTable₁⟩ := h₁ (not_not.mp hZero)
  refine (createStdio_stage 1 hStage₁ hZeroed (by decide) (by decide) (by decide) (by decide)).bind
    fun error s₂ h₂ => .ite (fun hError => .pure fun hZero => absurd hZero hError) fun hZero => ?_
  obtain ⟨L₂, hStage₂, o₂, hTable₂⟩ := h₂ (not_not.mp hZero)
  refine (planSets_stage hStage₂ hZeroed hPlan).bind fun r s₃ h₃ =>
    .ite (fun hError => .pure fun hZero =>
    absurd hZero hError) fun hZero => ?_
  obtain ⟨L₃, hStage₃, hOpen⟩ := h₃ (not_not.mp hZero)
  refine (createOutputSets_stage hStage₃ hOutputs).bind fun error s₄ h₄ =>
    .ite (fun hError => .pure fun hZero =>
    absurd hZero hError) fun hZero => ?_
  obtain ⟨L₄, S₄, hStage₄, hTable₄, hFrom⟩ := h₄ (not_not.mp hZero)
  refine finishInitialize_stage hStage₄ hZeroed fun hClosed hTaken => ?_
  rw [hTable₄] at hClosed
  rcases hStdin with hProvided | ⟨hNot, hNotOutput⟩
  · exact hOpen (Or.inr hProvided) hClosed
  · rcases hFrom _ hTaken with hOld | ⟨ident, hMem, hVisit⟩
    · exact hNot hOld
    · exact hNotOutput ident hMem hVisit

theorem fsInitialize_tidy {sets : List InputSet} {outputs : List Path} (h : Boots sets s)
    (hZeroed : P.Zeroed) (hApart : PlacedApart sets outputs) :
    Ensures (fsInitialize P sets outputs) s fun r s' => r.1 = 0 → ∃ L', Tidy P s' L' := by
  refine ((fsInitialize_stage h hZeroed hApart).and (fsInitialize_sound h hZeroed.linkable)).imp
    fun r s' hs' hr => ?_
  obtain ⟨S, L', hStage⟩ := hs'.1 hr
  obtain ⟨L, hSteady, hStocked⟩ := hs'.2 hr
  obtain rfl := hSteady.listing.unique hStage.listing
  exact ⟨L, hSteady, hStage.leaves, hStage.named, hStocked.borrowed⟩

end Initialize

section Runs

def Call.onNames : Call → Bool
  | .openFile _ _ _ => true
  | .close _ => true
  | .unlink _ => true
  | .mkdir _ _ => true
  | .rmdir _ => true
  | _ => false

/-- No directory has two children of one name, and no child has a name that paths
give another meaning to. -/
def NamesUnique (m : Memory) : Prop :=
  ∀ d f, m.files d = some f → f.type = .directory → ∃ l, Entries m d l ∧
    l.Pairwise (fun p q => trim (nameOf m p) fsNameLength ≠ trim (nameOf m q) fsNameLength) ∧
    ∀ p ∈ l, ProperName (trim (nameOf m p) fsNameLength)

/-- `fs_initialize` returned without an error from inputs that are placed apart. -/
def StartedApart (P : Platform) (x : Session) : Prop :=
  ∃ sets outputs s r, Boots sets s ∧ PlacedApart sets outputs ∧
    fsInitialize P sets outputs s = .ok ((0, r), x.state)

/-- A call on names that completes; what it creates is absent under every spelling. -/
def CompletesClearly (P : Platform) (x : Session) (c : Call) (y : Session) : Prop :=
  Completes P x c y ∧ c.onNames ∧ ∀ name flags mode, c = .openFile name flags mode →
    Unambiguous P x.state name flags

theorem Tidy.perform {x y : Session} {c : Call} (h : Tidy P x.state L) (hZeroed : P.Zeroed)
    (hStep : CompletesClearly P x c y) : ∃ L', Tidy P y.state L' := by
  obtain ⟨hRun, hCall, hClear⟩ := hStep
  have hDone : ∀ {k : M Int}, Ensures k x.state (fun _ s' => ∃ L', Tidy P s' L') →
      (do let _ ← k; pure x.dirs : M (List Ptr)) x.state = .ok (y.dirs, y.state) →
        ∃ L', Tidy P y.state L' := by
    intro k hk hRun
    have hAll : Ensures (do let _ ← k; pure x.dirs : M (List Ptr)) x.state fun _ s' => ∃ L',
        Tidy P s' L' :=
      hk.bind fun _ _ h => .pure h
    exact hAll.result hRun
  cases c with
  | openFile name flags mode =>
    exact hDone (h.open hZeroed name flags mode (hClear name flags mode rfl)) hRun
  | close fd => exact hDone (tidyRules.close h fd) hRun
  | unlink name => exact hDone (tidyRules.unlink h name) hRun
  | mkdir name mode => exact hDone (h.mkdir hZeroed.linkable name mode) hRun
  | rmdir name => exact hDone (tidyRules.rmdir h name) hRun
  | _ => cases hCall

theorem Tidy.namesUnique (h : Tidy P s L) : NamesUnique s.memory := fun d f hf hDir =>
  ⟨L d, h.listing.entries d f hf hDir, h.named.distinct d, h.named.proper d⟩

/-- With zero-filled blocks, inputs that are placed apart and opens that create files
only where no spelling of their path finds one, names are unique in every state. -/
theorem names_unique (hZeroed : P.Zeroed) {x : Session}
    (h : Reachable (StartedApart P) (CompletesClearly P) x) :
    NamesUnique x.state.memory := by
  have hTidy : ∃ L, Tidy P x.state L := by
    refine Reachable.invariant (fun x => ∃ L, Tidy P x.state L) (fun x hx => ?_)
      (fun x c y hx hStep => ?_) h
    · obtain ⟨sets, outputs, s, r, hBoots, hApart, hInit⟩ := hx
      exact (fsInitialize_tidy hBoots hZeroed hApart).result hInit rfl
    · obtain ⟨L, hTidy⟩ := hx
      exact hTidy.perform hZeroed hStep
  obtain ⟨L, hTidy⟩ := hTidy
  exact hTidy.namesUnique

def clearly (P : Platform) (x : Session) : Call → Bool
  | .openFile name _ _ =>
    match getFile (pathOf name) with
    | none => false
    | some file =>
      let dirs := components (getDirectories (pathOf name))
      decide (ProperName file ∧ clean [] dirs ++ [file] ∉ visits [] dirs) &&
        match findFrom P fsRoot (clean [] dirs ++ [file]) x.state with
        | .ok r => r.1 = 0
        | .error _ => false
  | _ => true

theorem unambiguous_of_clearly {x : Session} {name : List UInt8} {flags mode : Nat}
    (h : clearly P x (.openFile name flags mode) = true) : Unambiguous P x.state name flags := by
  intro _ _
  rw [clearly] at h
  cases hFile : getFile (pathOf name) with
  | none =>
    rw [hFile] at h
    cases h
  | some file =>
    simp only [hFile, Bool.and_eq_true, decide_eq_true_eq] at h
    obtain ⟨⟨hProper, hPlace⟩, hAbsent⟩ := h
    refine ⟨file, rfl, hProper, hPlace, ?_⟩
    cases hFind : findFrom P fsRoot (clean [] (components (getDirectories (pathOf name))) ++ [file])
      x.state with
    | error e =>
      rw [hFind] at hAbsent
      cases hAbsent
    | ok r =>
      rw [hFind] at hAbsent
      have hSame : r.2 = x.state := (readsOnly_findFrom fsRoot _ x.state).result hFind
      have hZero : r.1 = 0 := of_decide_eq_true hAbsent
      rw [← hSame, ← hZero]

theorem placedApart_nil : PlacedApart [] [] :=
  ⟨staticPositions, rfl, fun _ h => absurd h List.not_mem_nil,
    Or.inr ⟨by decide, fun _ h => absurd h List.not_mem_nil⟩⟩

/-- Two files in a new directory, one of them removed again. -/
theorem names_unique_two_files :
    ∃ x, Reachable (StartedApart (.bump 0)) (CompletesClearly (.bump 0)) x ∧
    (x.state.openFiles 4).file ≠ 0 ∧ NamesUnique x.state.memory := by
  obtain ⟨x, hx, hTest⟩ := exists_of_bareRunIf (StartedApart (.bump 0)) (CompletesClearly (.bump 0))
    (fun x c => c.onNames && clearly (.bump 0) x c)
    [.mkdir [100] 0, .openFile [100, 47, 97] (oWRONLY ||| oCREAT) sIRWXU,
      .openFile [100, 47, 98] (oWRONLY ||| oCREAT) sIRWXU, .unlink [100, 47, 97]]
    (fun x => decide ((x.state.openFiles 4).file ≠ 0))
    (fun s a hInit => ⟨[], [], bareState, a, boots_bareState, placedApart_nil, hInit⟩)
    (fun x c y hRun hTest => by
      rw [Bool.and_eq_true] at hTest
      refine ⟨hRun, hTest.1, ?_⟩
      rintro name flags mode rfl
      exact unambiguous_of_clearly hTest.2)
    (by decide +kernel)
  exact ⟨x, hx, of_decide_eq_true hTest, names_unique zeroed_bump hx⟩

def namesIn (m : Memory) (d : Ptr) : List Path :=
  match m.files d with
  | none => []
  | some f => ((Foundation.Chains.follow (nextNode m) m.limit f.link).getD []).map (entryName m)

theorem NamesUnique.nodup {m : Memory} {f : DFile} (h : NamesUnique m) (hf : m.files d = some f)
    (hDir : f.type = .directory) : (namesIn m d).Nodup := by
  obtain ⟨l, ⟨_, e, he, _, hChain⟩, hDistinct, _⟩ := h d f hf hDir
  obtain rfl := Option.mem_unique hf he
  simp only [namesIn, hf, Foundation.Chains.Chain.follow_eq hChain (Chain.length_le_limit hChain),
    Option.getD_some]
  exact List.pairwise_map.mpr hDistinct

/-- The walk to create `m/../x` makes the directory `m` and comes back to where there
is a file `x` already, which the lookup did not find because `m` was missing. -/
theorem names_unique_fails :
    ∃ x, Reachable (Started (.bump 0)) (fun x c y => Completes (.bump 0) x c y ∧ c.onNames) x ∧
      ¬ NamesUnique x.state.memory := by
  obtain ⟨x, hx, hTest⟩ := exists_of_bareRunIf (Started (.bump 0))
    (fun x c y => Completes (.bump 0) x c y ∧ c.onNames) (fun _ c => c.onNames)
    [.openFile [120] (oWRONLY ||| oCREAT) sIRWXU,
      .openFile [109, 47, 46, 46, 47, 120] (oWRONLY ||| oCREAT) sIRWXU]
    (fun x => isDirectory x.state.memory fsRoot && decide (¬ (namesIn x.state.memory fsRoot).Nodup))
    (fun s a hInit => ⟨rfl, [], [], bareState, a, boots_bareState, hInit⟩)
      (fun x c y hRun hCall => ⟨hRun, hCall⟩)
    (by decide +kernel)
  rw [Bool.and_eq_true, isDirectory_iff] at hTest
  obtain ⟨⟨f, hf, hDir⟩, hDouble⟩ := hTest
  exact ⟨x, hx, fun h => of_decide_eq_true hDouble (h.nodup hf hDir)⟩

end Runs

end Dandelion.FileSystem
