import Dandelion.FileSystem.ExhaustionLaw

/-! # The law of appending

A descriptor opened for appending should write behind the last byte of the file. The
code looks for the end from the chunk of the descriptor, which may be null or belong
to no file any more, and then copies to that chunk anyway. So the law is the one of
the writes at the place of a descriptor, with all requests granted.
-/

namespace Dandelion.FileSystem

open Foundation.Runs Foundation.Triples

structure AppendableAt (s : State) (fd : Nat) (f : DFile) : Prop where
  range : fd < fsMaxFiles
  opened : (s.openFiles fd).file ≠ 0
  node : s.memory.files (s.openFiles fd).file = some f
  regular : f.type = .file
  access : hasBit (s.openFiles fd).openFlags oAPPEND = true

def AppendsTo (P : Platform) (s : State) (fd : Nat) (c bytes : List UInt8) (offset : Int) : Prop :=
  ∃ s' f, dandelionWrite P fd bytes offset moveOffset s = .ok ((bytes.length : Int), s') ∧
    s'.memory.files (s.openFiles fd).file = some f ∧ content s'.memory f.link = some (c ++ bytes)

variable {P : Platform} {s : State} {l : List Piece} {f : DFile} {k fd : Nat} {c bytes : List UInt8}
  {offset : Int}

section Law

theorem AppendableAt.openOn (h : AppendableAt s fd f) : OpenOn s fd f :=
  ⟨h.range, h.opened, h.node, h.regular⟩

theorem dandelionWrite_length (h : OpenOn s fd f) :
    Ensures (dandelionWrite P fd bytes offset moveOffset) s fun r _ =>
      r = (bytes.length : Int) := by
  refine .of_eq (dandelionWrite_start h) ?_
  have hStart : Ensures (writeStart P (s.openFiles fd) f bytes.length offset moveOffset) s
      fun place _ => ∃ start, place = some start :=
    .ite (fun _ => .after_any fun _ _ => .after_any fun _ _ => .pure ⟨_, rfl⟩)
      fun _ => .pure ⟨_, rfl⟩
  refine hStart.bind fun place s₁ hPlace => ?_
  obtain ⟨start, rfl⟩ := hPlace
  exact writePlace_length P fd _ bytes moveOffset start s₁

theorem appendsTo_iff (h : AppendableAt s fd f) (hc : content s.memory f.link = some c)
    (hne : bytes ≠ []) :
    AppendsTo P s fd c bytes offset ↔ Survives P s fd f bytes 0 moveOffset := by
  have hTarget : writeTarget s.memory f (s.openFiles fd) c 0 moveOffset = some c.length := by
    rw [writeTarget, if_neg (by decide), if_pos h.access]
  have hOverlay : overlay c c.length bytes = c ++ bytes := by simp [overlay, padded]
  have hRun : dandelionWrite P fd bytes offset moveOffset s =
      dandelionWrite P fd bytes (0 : Nat) moveOffset s := by
    rw [dandelionWrite_start h.openOn, dandelionWrite_start h.openOn]
    rfl
  rw [AppendsTo, Survives, hRun]
  constructor
  · rintro ⟨s', f', hWrite, hf', hContent⟩
    refine ⟨c, _, s', hc, hWrite, Or.inr ⟨bytes.length, le_rfl, rfl, f', hf', ?_⟩⟩
    rw [List.take_length, if_neg hne]
    exact ⟨c.length, hTarget, hOverlay ▸ hContent⟩
  · rintro ⟨c', r, s', hc', hWrite, hEither⟩
    obtain rfl := Option.mem_unique hc hc'
    obtain rfl := (dandelionWrite_length h.openOn).result hWrite
    rcases hEither with ⟨hNone, -⟩ | ⟨k, -, hk, f', hf', hReceived⟩
    · rw [eNOMEM] at hNone
      omega
    · obtain rfl : bytes.length = k := by exact_mod_cast hk
      rw [List.take_length, if_neg hne, hTarget] at hReceived
      obtain ⟨p, hp, hContent⟩ := hReceived
      obtain rfl := Option.some.inj hp
      exact ⟨s', f', hWrite, hf', hOverlay ▸ hContent⟩

/-- Nothing is refused. -/
theorem copyEnds_none {e : FileChunk} : CopyEnds (fun _ => false) s e k ↔ Copies s.memory e k :=
  and_iff_left fun _ => ⟨rfl, rfl⟩

theorem survivesOn_append_iff (h : AppendableAt s fd f) (hPieces : pieces s.memory f.link = some l)
    (hk : 0 < k) :
    SurvivesOn P (fun _ => false) s f (s.openFiles fd) moveOffset l k ↔
      CanAppend P s f (s.openFiles fd) k := by
  have hAdmitted : Admitted (fun _ => false) s.requests := ⟨rfl, rfl⟩
  simp only [SurvivesOn, Nat.ne_of_gt hk, if_false, h.access, if_true, refusing_none, CopiesWell,
    copyEnds_none, hAdmitted, true_and]
  by_cases hEmpty : l = []
  · rw [if_pos hEmpty]
    refine and_iff_right_of_imp fun hCan => ?_
    obtain ⟨-, l', hl', hLaw⟩ := hCan
    obtain rfl := Option.mem_unique hPieces hl'
    rw [if_pos hEmpty] at hLaw
    exact hLaw.1
  · simp only [if_neg hEmpty, CanAppend, hPieces, Option.some.injEq, exists_eq_left']
    constructor
    · rintro ⟨a, x, t, hl, hx, hCopies, hChunk, hRest⟩
      rw [if_neg hChunk] at hx
      exact ⟨hChunk, a, x, t, hl, hx, hRest, hCopies⟩
    · rintro ⟨hChunk, a, x, t, hl, hx, hRest, hCopies⟩
      exact ⟨a, x, t, hl, by rwa [if_neg hChunk], hCopies, hChunk, hRest⟩

/-- Appending does what it should exactly where the descriptor's chunk is the last one of the
file that holds anything, and the copy ends. -/
theorem append_iff {y : Session} (hGrants : P.Grants) (hy : Reachable (Started P) (Stays P) y)
    (hWords : y.state.memory.Words) (h : AppendableAt y.state fd f)
    (hc : content y.state.memory f.link = some c) (hk : 0 < k) (hLen : k < 2 ^ 63) (offset : Int) :
    (∀ bytes, bytes.length = k → AppendsTo P y.state fd c bytes offset) ↔
      CanAppend P y.state f (y.state.openFiles fd) k := by
  have hSound := sound_of_stays hy
  obtain ⟨l, hl, hPieces, rfl⟩ := hSound.filed_of_content hWords hc
  have hLaw := survives_descriptor_iff (fun _ => false) (n := 0) hGrants hSound hWords h.openOn hl
    (show hasBit moveOffset useOffset = false by decide) hLen
  rw [refusing_none, survivesOn_append_iff h hPieces hk] at hLaw
  rw [← hLaw]
  refine forall_congr' fun bytes => forall_congr' fun hBytes => appendsTo_iff h hc ?_
  rintro rfl
  exact absurd hBytes (Nat.ne_of_lt hk)

def appendable (s : State) (fd : Nat) (c : List UInt8) : Bool :=
  decide (fd < fsMaxFiles) && decide ((s.openFiles fd).file ≠ 0) && opened s fd c &&
    hasBit (s.openFiles fd).openFlags oAPPEND

theorem appendableAt_of_appendable (h : appendable s fd c = true) :
    ∃ f, AppendableAt s fd f ∧ content s.memory f.link = some c := by
  simp only [appendable, Bool.and_eq_true, decide_eq_true_eq] at h
  obtain ⟨⟨⟨hRange, hOpen⟩, hOpened⟩, hAccess⟩ := h
  obtain ⟨f, hf, hType, hc⟩ := opened_iff.mp hOpened
  exact ⟨f, ⟨hRange, hOpen, hf, hType, hAccess⟩, hc⟩

theorem append_iff_one_chunk : ∃ x f, Reachable (Started (.bump 0)) (Stays (.bump 0)) x ∧
    AppendableAt x.state 4 f ∧
    ∀ bytes, bytes.length = 1 → AppendsTo (.bump 0) x.state 4 [1, 2] bytes 0 := by
  obtain ⟨x, hx, hTest⟩ := exists_of_boundedRun (P := .bump 0)
    [.openFile [97] (oWRONLY ||| oCREAT) sIRWXU, .write 3 [1, 2] 0 moveOffset,
      .openFile [97] (oWRONLY ||| oAPPEND) 0]
    (fun x => appendable x.state 4 [1, 2] && x.state.memory.wordsBelow &&
      (x.state.memory.files (x.state.openFiles 4).file).any fun f : DFile =>
        (pieces x.state.memory f.link).any fun l : List Piece =>
          decide (l.map Piece.ptr = [(x.state.openFiles 4).currentChunk])) (by decide +kernel)
  simp only [Bool.and_eq_true, Option.any_eq_true, decide_eq_true_eq] at hTest
  obtain ⟨⟨hAppendable, hWords⟩, f, hf, l, hl, hPtr⟩ := hTest
  obtain ⟨f', hAt, hc⟩ := appendableAt_of_appendable hAppendable
  obtain rfl : f = f' := Option.mem_unique hf hAt.node
  have hStays := stays_of_advances hx
  have hBelow := words_of_below hWords
  refine ⟨x, f, hStays, hAt,
    (append_iff (grants_bump 0) hStays hBelow hAt hc (by decide) (by decide) 0).mpr ?_⟩
  obtain ⟨z, rfl, hz⟩ := List.map_eq_singleton_iff.mp hPtr
  have hStored := pieces_eq_some.mp hl
  refine ⟨hz ▸ hStored.1 ▸ hStored.2.1, [z], hl, ?_⟩
  rw [if_neg (by simp)]
  obtain ⟨b, hHolds⟩ :=
    ((sound_of_stays hStays).filed hBelow hStored).holds z List.mem_cons_self
  exact ⟨[], z, [], rfl, hz, rfl, hHolds.copies (by decide)⟩

theorem AppendsTo.leaves (h : AppendsTo P s fd c bytes offset) :
    leaves fd (s.openFiles fd).file (dandelionWrite P fd bytes offset moveOffset) s =
      some (c ++ bytes) := by
  obtain ⟨s', f, hRun, hf, hContent⟩ := h
  simp only [FileSystem.leaves, hRun, hf, if_true, Option.bind_some, hContent]

/-- The first append to an empty file follows the null pointer, and what another descriptor
appended as a chunk of its own stays behind what is appended later. -/
theorem append_fails :
    (∃ x f, Reachable (Started (.bump 0)) (Stays (.bump 0)) x ∧ AppendableAt x.state 3 f ∧
      content x.state.memory f.link = some [] ∧ ¬ AppendsTo (.bump 0) x.state 3 [] [5] 0) ∧
    ∃ x f, Reachable (Started (.bump 0)) (Stays (.bump 0)) x ∧ AppendableAt x.state 4 f ∧
      content x.state.memory f.link = some [1, 0, 0] ∧ ¬ AppendsTo (.bump 0) x.state 4 [1, 0, 0]
      [5] 0 := by
  constructor
  · obtain ⟨x, hx, hTest⟩ := exists_of_boundedRun
      (P := .bump 0) [.openFile [97] (oWRONLY ||| oAPPEND ||| oCREAT) sIRWXU]
      (fun x => appendable x.state 3 [] && decide (leaves 3 (x.state.openFiles 3).file
        (dandelionWrite (.bump 0) 3 [5] 0 moveOffset) x.state = none)) (by decide +kernel)
    rw [Bool.and_eq_true, decide_eq_true_eq] at hTest
    obtain ⟨f, hAt, hc⟩ := appendableAt_of_appendable hTest.1
    refine ⟨x, f, stays_of_advances hx, hAt, hc, fun hLaw => ?_⟩
    exact absurd (hLaw.leaves.symm.trans hTest.2) (by decide)
  · obtain ⟨x, hx, hTest⟩ := exists_of_boundedRun (P := .bump 0)
      [.openFile [97] (oWRONLY ||| oCREAT) sIRWXU, .write 3 [1] 0 moveOffset,
        .openFile [97] (oWRONLY ||| oAPPEND) 0, .lseek 3 2 seekEnd]
      (fun x => appendable x.state 4 [1, 0, 0] && decide (leaves 4 (x.state.openFiles 4).file
        (dandelionWrite (.bump 0) 4 [5] 0 moveOffset) x.state = some [1, 5, 0, 0]))
          (by decide +kernel)
    rw [Bool.and_eq_true, decide_eq_true_eq] at hTest
    obtain ⟨f, hAt, hc⟩ := appendableAt_of_appendable hTest.1
    refine ⟨x, f, stays_of_advances hx, hAt, hc, fun hLaw => ?_⟩
    exact absurd (hLaw.leaves.symm.trans hTest.2) (by decide)

end Law

end Dandelion.FileSystem
