import Dandelion.FileSystem.SoundRuns

/-! # Bounds of chunks along runs

Whatever is called, every chunk is used within its capacity and its block is large
enough for that, as long as every write starts in a chunk that admits its first
copy. A write that does not is stopped by the checks of the copy loop.
-/

namespace Dandelion.FileSystem

open Foundation.Runs Foundation.Triples

def ChunkBounds (m : Memory) : Prop :=
  ∀ p c, m.chunks p = some c → ∃ b, m.blocks c.data = some b ∧ c.used ≤ c.capacity ∧
    c.capacity ≤ b.size

/-- A call that completes, and keeps inside if it is a write; links of any kind. -/
def Stays (P : Platform) (x : Session) : Request → Session → Prop
  | .call c, y => c.Inside x.state ∧ Completes P x c y
  | .link old new, y => y.dirs = x.dirs ∧ ∃ r, dandelionLink P old new x.state = .ok (r, y.state)

/-- A write on a regular file comes to its copy loop, in this state and at this chunk. -/
structure CopyStarts (P : Platform) (s : State) (fd : Int) (bytes : List UInt8) (offset : Int)
    (options : Nat) (s₁ : State)
    (p : Ptr) (c : FileChunk) : Prop where
  node : ∃ f i, s.memory.files (s.openFiles fd.toNat).file = some f ∧ f.type = .file ∧
    writeStart P (s.openFiles fd.toNat) f bytes.length offset options s = .ok (some (p, i), s₁)
  writes : ¬ hasBit (s.openFiles fd.toNat).openFlags oRDONLY
  nonzero : p ≠ 0
  chunk : s₁.memory.chunks p = some c

variable {P : Platform} {s s₁ : State} {x y : Session} {fd : Int} {bytes : List UInt8}
  {offset : Int} {options : Nat} {p : Ptr} {c : FileChunk}

section Runs

theorem Sound.chunkBounds {m : Memory} (h : Sound m) : ChunkBounds m := by
  intro p c hc
  obtain ⟨b, hb⟩ := h.holding.data p c hc
  obtain ⟨-, hUsed, hSize⟩ := h.fits p c hc
  exact ⟨b, hb, hUsed, hSize b hb⟩

theorem Stays.performs {q : Request} (h : Stays P x q y) : Performs P x q y := by
  cases q with
  | call c => exact h.2
  | link old new => exact h

theorem sound_of_stays (h : Reachable (Started P) (Stays P) x) : Sound x.state.memory := by
  refine h.invariant (fun x => Sound x.state.memory) (fun _ => sound_of_started)
    fun x q y hSound hStep => ?_
  cases q with
  | call c => exact sound_call hSound hStep.1 hStep.2
  | link old new =>
    obtain ⟨-, r, hRun⟩ := hStep
    exact ((handlingRules.dandelionLink old new x.state).result hRun hSound).1

end Runs

section Copies

theorem CopyStarts.startsInside_iff (h : CopyStarts P s fd bytes offset options s₁ p c) :
    StartsInside s fd bytes.length offset options ↔ Admits bytes.length c.used c.capacity := by
  obtain ⟨f, i, hf, hType, hRun⟩ := h.node
  have hRoom :=
    (writeStart_found (P := P) _ f bytes.length).result hRun (p, i) c rfl h.nonzero h.chunk
  constructor
  · intro hStarts
    exact hStarts f hf hType h.writes _ _ hRoom
  · intro hAdmits f' hf' _ _ used capacity hRoom'
    obtain rfl := Option.mem_unique hf hf'
    cases hRoom.symm.trans hRoom'
    exact hAdmits

theorem CopyStarts.sound (h : CopyStarts P s fd bytes offset options s₁ p c)
    (hSound : Sound s.memory) (hStarts : StartsInside s fd bytes.length offset options) :
    Sound s₁.memory := by
  obtain ⟨f, i, hf, hType, hRun⟩ := h.node
  refine (hSound.writeStart bytes.length hf hType fun used capacity hRoom => ?_).result hRun
  exact (hStarts f hf hType h.writes used capacity hRoom).1

theorem map_some_ne_none {α : Type} {k : M α} : (some <$> k) s ≠ .ok (none, s₁) := by
  intro hRun
  have hSome : Ensures (some <$> k) s fun r _ => r ≠ none := by
    rw [map_eq_pure_bind]
    exact (Meets.any k s).bind fun a s' _ => .pure (Option.some_ne_none a)
  exact hSome.result hRun rfl

/-- The condition is exact: where it fails, the chunk is used beyond its capacity or the first copy
ends beyond it. -/
theorem CopyStarts.inside_iff (h : CopyStarts P s fd bytes offset options s₁ p c)
    (hSound : Sound s.memory) (hLen : bytes.length < 2 ^ 64) :
    StartsInside s fd bytes.length offset options ↔
      c.used ≤ c.capacity ∧ ∀ s', writeLoopChecked P bytes.length bytes p s₁ ≠ .ok (none, s') := by
  constructor
  · intro hStarts
    have hAdmits := h.startsInside_iff.mp hStarts
    refine ⟨hAdmits.1, fun s' => ?_⟩
    rw [(writeLoop_agrees bytes.length (h.sound hSound hStarts) hLen fun _ e he => ?_).1]
    · exact map_some_ne_none
    · obtain rfl := Option.mem_unique h.chunk he
      exact hAdmits
  · rintro ⟨hUsed, hCopies⟩
    refine h.startsInside_iff.mpr (by_contra fun hNot => ?_)
    exact hCopies s₁ (writeLoopChecked_none h.nonzero h.chunk hUsed hNot)

/-- Runs of any calls whose writes start inside. The bounds hold in every state, a write that starts
inside copies inside, and one that comes to its copy loop and does not start inside breaks the
bounds. -/
theorem chunk_bounds (h : Reachable (Started P) (Stays P) x) : ChunkBounds x.state.memory ∧
    ∀ fd bytes offset options, bytes.length < 2 ^ 64 →
      (StartsInside x.state fd bytes.length offset options →
        CopiesInside P x.state fd bytes offset options) ∧
      ∀ s₁ p c, CopyStarts P x.state fd bytes offset options s₁ p c →
        (StartsInside x.state fd bytes.length offset options ↔
          c.used ≤ c.capacity ∧ ∀ s', writeLoopChecked P bytes.length bytes p s₁ ≠
            .ok (none, s')) := by
  have hSound := sound_of_stays h
  refine ⟨hSound.chunkBounds, fun fd bytes offset options hLen =>
    ⟨fun hStarts => ?_, fun s₁ p c hCopy => ?_⟩⟩
  · exact (dandelionWrite_agrees hSound hLen hStarts).1
  · exact hCopy.inside_iff hSound hLen

theorem stays_of_advances (h : Reachable (Started P) (Advances P) x) :
    Reachable (Started P) (Stays P) x := by
  induction h with
  | init hs => exact .init hs
  | @step x y q _ hNext ih =>
    obtain ⟨hBounded, hStep⟩ := hNext
    cases q with
    | call c =>
      exact .step (i := .call c) ih ⟨Call.Bounded.inside hBounded (sound_of_stays ih), hStep⟩
    | link old new =>
      obtain ⟨hDirs, r, hRun, -⟩ := hStep
      exact .step (i := .link old new) ih ⟨hDirs, r, hRun⟩

/-- A byte is written after two others. -/
theorem chunk_bounds_short : ∃ x, Reachable (Started (.bump 0)) (Stays (.bump 0)) x ∧
    opened x.state 3 [1, 2] = true ∧ ChunkBounds x.state.memory ∧
      CopiesInside (.bump 0) x.state 3 [3] 0 moveOffset := by
  obtain ⟨x, hx, hTest⟩ := exists_of_boundedRun (P := .bump 0)
    [.openFile [97] (oWRONLY ||| oCREAT) sIRWXU, .write 3 [1, 2] 0 moveOffset]
      (fun x => opened x.state 3 [1, 2])
    (by decide +kernel)
  have hStays := stays_of_advances hx
  obtain ⟨hBounds, hCopies⟩ := chunk_bounds hStays
  refine ⟨x, hStays, hTest, hBounds, (hCopies 3 [3] 0 moveOffset (by decide)).1 ?_⟩
  exact (sound_of_stays hStays).startsInside 3 moveOffset (by decide) (by decide)

theorem CopyStarts.not_copiesInside (h : CopyStarts P s fd bytes offset options s₁ p c)
    (hRange : 0 ≤ fd ∧ fd < fsMaxFiles) (hOpen : (s.openFiles fd.toNat).file ≠ 0)
    (hAppend : ¬ hasBit (s.openFiles fd.toNat).openFlags oAPPEND) (hUsed : c.used ≤ c.capacity)
    (hNot : ¬ Admits bytes.length c.used c.capacity) :
    ¬ CopiesInside P s fd bytes offset options := by
  obtain ⟨f, i, hf, hType, hRun⟩ := h.node
  have hStop : dandelionWriteChecked P fd bytes offset options s = .ok (none, s₁) := by
    rw [dandelionWriteChecked, bind_ok (getOpenFile_ok hRange),
      if_neg (not_or.mpr ⟨hOpen, h.writes⟩), bind_ok (getFileAt_ok hOpen hf),
      if_neg (by rw [hType]; decide), if_neg (not_not.mpr hType), bind_ok hRun, writePlaceChecked,
      if_neg fun hBoth => hAppend hBoth.1, writeFromChecked,
      bind_ok (writeLoopChecked_none h.nonzero h.chunk hUsed hNot)]
    rfl
  rw [CopiesInside, hStop]
  exact fun hEq => map_some_ne_none hEq.symm

/-- One byte at offset two to the thirty-one makes a chunk of that capacity and a page more. A write
of one byte more than its room is then copied into it as a whole. -/
theorem chunk_bounds_fails : ∃ x, Reachable (Started (.bump 0)) (Stays (.bump 0)) x ∧
    ∃ bytes : List UInt8, bytes.length = 2 ^ 31 + 4096 ∧
      ¬ CopiesInside (.bump 0) x.state 3 bytes 0 moveOffset := by
  obtain ⟨x, hx, hTest⟩ := exists_of_boundedRun (P := .bump 0)
    [.openFile [97] (oWRONLY ||| oCREAT) sIRWXU, .write 3 [1] (2 ^ 31) useOffset]
    (fun x => decide ((x.state.openFiles 3).file ≠ 0 ∧ (x.state.openFiles 3).currentChunk = 0 ∧
        (x.state.openFiles 3).openFlags = oWRONLY) &&
      (x.state.memory.files (x.state.openFiles 3).file).any fun f : DFile =>
        decide (f.type = .file ∧ f.link ≠ 0) &&
        (x.state.memory.chunks f.link).any fun c : FileChunk =>
          decide (c.used = 1 ∧ c.capacity = 2 ^ 31 + 4096))
    (by decide +kernel)
  simp only [Bool.and_eq_true, Option.any_eq_true, decide_eq_true_eq] at hTest
  obtain ⟨⟨hOpen, hCurrent, hFlags⟩, f, hf, ⟨hType, hLink⟩, c, hc, hUsed, hCapacity⟩ := hTest
  refine ⟨x, stays_of_advances hx, List.replicate (2 ^ 31 + 4096) 0, List.length_replicate, ?_⟩
  have hStarts : CopyStarts (.bump 0) x.state 3 (List.replicate (2 ^ 31 + 4096) 0) 0 moveOffset
      x.state f.link c := by
    refine ⟨⟨f, 0, hf, hType, ?_⟩, ?_, hLink, hc⟩
    · rw [writeStart, if_neg hLink, if_neg (by decide)]
      exact congrArg (fun p => Except.ok (some (p, 0), x.state)) (if_pos hCurrent)
    · show ¬ hasBit (x.state.openFiles 3).openFlags oRDONLY
      rw [hFlags]
      decide
  refine hStarts.not_copiesInside (by unfold fsMaxFiles; decide) hOpen ?_ (by omega) ?_
  · show ¬ hasBit (x.state.openFiles 3).openFlags oAPPEND
    rw [hFlags]
    decide
  · rw [List.length_replicate, hUsed, hCapacity]
    unfold Admits
    decide

end Copies

end Dandelion.FileSystem
