import Dandelion.FileSystem.SeekPlaces
import Dandelion.FileSystem.SoundRuns
import Dandelion.FileSystem.WriteLaw

/-! # The law of seeking

A seek should go to a position of the file and fill up with zeros what is not there.
The code counts in `int`, leaves what a new block holds, and follows the null pointer
where it is asked to seek from the end of an empty file.
-/

namespace Dandelion.FileSystem

open Foundation.Runs Foundation.Triples

/-- Where a seek starts from, in a file of some size with the descriptor at `p`. -/
def seekBase (whence p size : Nat) : Nat :=
  if whence = seekSet then 0 else if whence = seekCur then p else size

def Overruns (l : List Piece) (o : OpenFile) : Prop :=
  ∃ x ∈ l, x.ptr = o.currentChunk ∧ x.chunk.used < o.offset

/-- Where `dandelion_lseek` seeks as it should, for a descriptor at `p`. -/
def CanSeek (P : Platform) (s : State) (f : DFile) (o : OpenFile) (p : Nat) (offset : Int)
    (whence : Nat) : Prop :=
  ∃ l, pieces s.memory f.link = some l ∧ (whence = seekEnd → l ≠ []) ∧
    Seekable P s l (whence = seekCur ∧ Overruns l o) (seekBase whence p (flat l).length) offset

variable {P : Platform} {s : State} {l : List Piece} {f : DFile} {fd : Nat} {c : List UInt8}
  {offset : Int}

section Whence

theorem dandelionLseek_from (hfd : fd < fsMaxFiles) (hne : (s.openFiles fd).file ≠ 0)
    (hf : s.memory.files (s.openFiles fd).file = some f) (hType : f.type = .file) (offset : Int)
    (whence : Nat) :
    dandelionLseek P fd offset whence s = (
      if whence = seekSet then seekFrom P fd (s.openFiles fd) f offset f.link 0 0
      else if whence = seekCur then do
        let fuel ← steps
        let current := if (s.openFiles fd).currentChunk = 0 then f.link
          else (s.openFiles fd).currentChunk
        let (chunkOffset, total) ← seekCurrent current (s.openFiles fd).offset fuel 0 f.link
        seekFrom P fd (s.openFiles fd) f offset current chunkOffset total
      else if whence = seekEnd then do
        let fuel ← steps
        let (current, total) ← seekLast fuel 0 f.link
        let c ← getChunkAt current
        seekFrom P fd (s.openFiles fd) f offset current c.used total
      else pure (-(eINVAL : Int))) s := by
  rw [dandelionLseek, bind_ok (getOpenFile_ok ⟨by omega, by omega⟩), Int.toNat_natCast, if_neg hne,
    bind_ok (getFileAt_ok hne hf), if_neg (not_not.mpr hType)]

variable (hGrants : P.Grants) (hfd : fd < fsMaxFiles) (hne : (s.openFiles fd).file ≠ 0)
  (hf : s.memory.files (s.openFiles fd).file = some f) (hType : f.type = .file)
  (hl : Filed s.memory f.link l) (hOffset : offset < 2 ^ 63)

include hGrants hfd hne hf hType hl hOffset

theorem seekSet_iff :
    SeeksTo s fd (flat l) ((0 : Nat) + offset) (dandelionLseek P fd offset seekSet) ↔
    Seekable P s l False 0 offset := by
  have hFrom := dandelionLseek_from (P := P) hfd hne hf hType offset seekSet
  rw [if_pos rfl] at hFrom
  rw [seeksTo_congr hFrom]
  cases l with
  | nil =>
    have hLink : f.link = 0 := hl.stored
    rw [hLink]
    exact seekFrom_empty_iff hGrants hfd hne hf hLink hOffset not_false
  | cons x t =>
    have hLink : f.link = x.ptr := hl.stored.1
    rw [hLink]
    exact seekFrom_iff (a := []) hGrants hfd hl hf hOffset rfl
      ⟨False.elim, fun h => absurd h (Nat.not_lt_zero _)⟩

theorem seekCur_iff {p : Nat} (hAnchored : (s.openFiles fd).Anchored)
    (hp : position s.memory f (s.openFiles fd) = some p) :
    SeeksTo s fd (flat l) (p + offset) (dandelionLseek P fd offset seekCur) ↔
      Seekable P s l (Overruns l (s.openFiles fd)) p offset := by
  have hFrom := dandelionLseek_from (P := P) hfd hne hf hType offset seekCur
  rw [if_neg (by decide), if_pos rfl, bind_ok steps_ok] at hFrom
  rw [seeksTo_congr hFrom]
  by_cases hStart : (s.openFiles fd).currentChunk = 0
  · -- without a chunk the descriptor is at the start
    obtain rfl : 0 = p := by
      rw [position, pieces_eq_some.mpr hl.stored, Option.bind_some, if_pos hStart] at hp
      exact Option.some.inj hp
    have hNone : ¬ Overruns l (s.openFiles fd) := by
      rintro ⟨z, hz, hPtr, -⟩
      exact hl.stored.chain.ne_zero (List.mem_map.mpr ⟨z, hz, rfl⟩) (hPtr.trans hStart)
    have hZero : (s.openFiles fd).offset = 0 := hAnchored hStart
    rw [if_pos hStart, hZero] at *
    cases l with
    | nil =>
      have hLink : f.link = 0 := hl.stored
      have hWalk : seekCurrent f.link 0 (s.memory.limit + 1) 0 f.link s = .ok ((0, 0), s) := by
        rw [seekCurrent, if_pos hLink]
        rfl
      rw [seeksTo_congr (bind_ok hWalk), hLink]
      exact seekFrom_empty_iff hGrants hfd hne hf hLink hOffset hNone
    | cons x t =>
      have hLink : f.link = x.ptr := hl.stored.1
      have hWalk := seekCurrent_first (a := []) hl.stored (by simp) (Nat.succ_pos s.memory.limit) 0
      rw [hLink] at hWalk ⊢
      rw [seeksTo_congr (bind_ok hWalk)]
      exact seekFrom_iff (a := []) hGrants hfd hl hf hOffset rfl ⟨fun h => absurd h hNone,
        fun h => absurd h (Nat.not_lt_zero _)⟩
  · obtain ⟨a, z, t, rfl, hz, rfl⟩ := position_split hl.stored hp hStart
    have hFuel : a.length < s.memory.limit + 1 := by
      have hLength := hl.stored.length_le
      rw [List.length_append] at hLength
      omega
    have hWalk := seekCurrent_first hl.stored (fun y hy => hl.ptr_ne y (List.mem_append_left _ hy))
      hFuel (s.openFiles fd).offset
    rw [if_neg hStart, ← hz, seeksTo_congr (bind_ok hWalk)]
    refine seekFrom_iff hGrants hfd hl hf hOffset rfl ⟨?_, fun h => ⟨z, by simp, hz, h⟩⟩
    rintro ⟨y, hy, hPtr, hBehind⟩
    have hChunk := hl.stored.chunk_eq hy
    rw [hPtr, ← hz, hl.stored.chunk_eq (by simp)] at hChunk
    rwa [Option.some.inj hChunk]

theorem seekEnd_iff :
    SeeksTo s fd (flat l) ((flat l).length + offset) (dandelionLseek P fd offset seekEnd) ↔
    l ≠ [] ∧ Seekable P s l False (flat l).length offset := by
  have hFrom := dandelionLseek_from (P := P) hfd hne hf hType offset seekEnd
  rw [if_neg (by decide), if_neg (by decide), if_pos rfl, bind_ok steps_ok] at hFrom
  rw [seeksTo_congr hFrom]
  rcases List.eq_nil_or_concat l with rfl | ⟨a, x, rfl⟩
  · -- the null pointer is followed
    have hWalk : seekLast (s.memory.limit + 1) 0 f.link s = .error .null := by
      rw [show f.link = 0 from hl.stored, seekLast]
      rfl
    refine ⟨fun h => ?_, fun h => absurd rfl h.1⟩
    rw [SeeksTo, bind_error hWalk] at h
    split at h
    · cases h
    · obtain ⟨_, _, hRun, _⟩ := h
      cases hRun
  · rw [List.concat_eq_append] at *
    obtain ⟨block, hx⟩ := hl.holds x (by simp)
    have hFuel : a.length < s.memory.limit + 1 := by
      have hLength := hl.stored.length_le
      rw [List.length_append] at hLength
      omega
    have hBytes := hl.stored.bytes_length (x := x) (by simp)
    have hLength : (flat (a ++ [x])).length = (flat a).length + x.chunk.used := by
      rw [flat_append, List.length_append, flat_cons, flat_nil, List.append_nil, hBytes]
    rw [seeksTo_congr (bind_ok (seekLast_first hl.stored hFuel)),
      seeksTo_congr (bind_ok (getChunkAt_ok hx.ne_zero hx.chunk)),
      seekFrom_iff hGrants hfd hl hf hOffset hLength
        ⟨False.elim, fun h => absurd h (Nat.lt_irrefl _)⟩]
    exact ⟨fun h => ⟨by simp, h⟩, fun h => h.2⟩

end Whence

section Law

/-- A seek does what it should exactly where the sums fit into `int`, the walk can start
and the gap is zero. -/
theorem seek_iff {x : Session} {p whence : Nat} (hGrants : P.Grants)
    (hx : Reachable (Started P) (Stays P) x) (hWords : x.state.memory.Words) (hfd : fd < fsMaxFiles)
    (hne : (x.state.openFiles fd).file ≠ 0)
    (hf : x.state.memory.files (x.state.openFiles fd).file = some f) (hType : f.type = .file)
    (hc : content x.state.memory f.link = some c)
    (hp : position x.state.memory f (x.state.openFiles fd) = some p) (hOffset : offset < 2 ^ 63)
    (hWhence : whence ∈ [seekSet, seekCur, seekEnd]) :
    SeeksTo x.state fd c (seekBase whence p c.length + offset) (dandelionLseek P fd offset whence) ↔
      CanSeek P x.state f (x.state.openFiles fd) p offset whence := by
  obtain ⟨l, hl, hPieces, rfl⟩ := (sound_of_stays hx).filed_of_content hWords hc
  have hAnchored := anchored_of_reachable (hx.mono fun _ _ _ => Stays.performs) fd
  have hCan : CanSeek P x.state f (x.state.openFiles fd) p offset whence ↔
      (whence = seekEnd → l ≠ []) ∧
      Seekable P x.state l (whence = seekCur ∧ Overruns l (x.state.openFiles fd))
        (seekBase whence p (flat l).length)
        offset := by
    constructor
    · rintro ⟨k, hk, h⟩
      rw [hPieces] at hk
      rwa [← Option.some.inj hk] at h
    · exact fun h => ⟨l, hPieces, h⟩
  rw [hCan]
  simp only [List.mem_cons, List.not_mem_nil, or_false] at hWhence
  rcases hWhence with rfl | rfl | rfl
  · rw [show seekBase seekSet p (flat l).length = 0 from rfl,
      seekSet_iff hGrants hfd hne hf hType hl hOffset]
    simp only [show seekSet ≠ seekEnd by decide, show seekSet ≠ seekCur by decide, false_implies,
      true_and, false_and]
  · rw [show seekBase seekCur p (flat l).length = p from rfl,
      seekCur_iff hGrants hfd hne hf hType hl hOffset hAnchored hp]
    simp only [show seekCur ≠ seekEnd by decide, false_implies, true_and]
  · rw [show seekBase seekEnd p (flat l).length = (flat l).length from rfl,
      seekEnd_iff hGrants hfd hne hf hType hl hOffset]
    simp only [show seekEnd ≠ seekCur by decide, true_implies, false_and]

theorem zeroGap_bump (s : State) (size : Nat) : ZeroGap (.bump 0) s size := by
  intro g hg i _
  simp only [Platform.bump] at hg
  split at hg
  · cases hg
  · rw [← Option.some.inj hg]

theorem seek_iff_behind_end : ∃ x, Reachable (Started (.bump 0)) (Stays (.bump 0)) x ∧
    opened x.state 3 [1, 2] = true ∧
    SeeksTo x.state 3 [1, 2] 5 (dandelionLseek (.bump 0) 3 3 seekEnd) := by
  obtain ⟨x, hx, hTest⟩ := exists_of_boundedRun (P := .bump 0)
    [.openFile [97] (oWRONLY ||| oCREAT) sIRWXU, .write 3 [1, 2] 0 moveOffset]
    (fun x => opened x.state 3 [1, 2] && x.state.memory.wordsBelow &&
      decide ((x.state.openFiles 3).file ≠ 0) &&
      (x.state.memory.files (x.state.openFiles 3).file).any fun f : DFile =>
        (position x.state.memory f (x.state.openFiles 3)).isSome) (by decide +kernel)
  simp only [Bool.and_eq_true, Option.any_eq_true, Option.isSome_iff_exists,
    decide_eq_true_eq] at hTest
  obtain ⟨⟨⟨hOpened, hWords⟩, hne⟩, f, hf, p, hp⟩ := hTest
  obtain ⟨f', hf', hType, hc⟩ := opened_iff.mp hOpened
  obtain rfl : f = f' := Option.mem_unique hf hf'
  have hLaw : SeeksTo x.state 3 [1, 2] 5 (dandelionLseek (.bump 0) 3 3 seekEnd) ↔
      CanSeek (.bump 0) x.state f (x.state.openFiles 3) p 3 seekEnd :=
    seek_iff (grants_bump 0) (stays_of_advances hx) (words_of_below hWords)
      (by unfold fsMaxFiles; decide) hne hf hType hc hp
      (show (3 : Int) < 2 ^ 63 by decide) (show seekEnd ∈ [seekSet, seekCur, seekEnd] by decide)
  obtain ⟨l, hl, hFlat⟩ := Option.map_eq_some_iff.mp hc
  refine ⟨x, stays_of_advances hx, hOpened, hLaw.mpr ⟨l, hl, fun _ => ?_, ?_⟩⟩
  · rintro rfl
    cases hFlat
  · rw [Seekable, if_neg (by decide), hFlat]
    exact ⟨Nat.lt_of_le_of_lt (Nat.min_le_right _ _) (by decide),
      fun _ => ⟨fun h => absurd h.1 (by decide), zeroGap_bump _ _⟩⟩

theorem SeeksTo.leaves {t : Int} {call : M Int} (h : SeeksTo s fd c t call) (ht : ¬ t < 0) :
    leaves fd (s.openFiles fd).file call s = some (c ++ List.replicate (t.toNat - c.length) 0) := by
  rw [SeeksTo, if_neg ht] at h
  obtain ⟨s', f, hRun, hf, hContent, -⟩ := h
  simp only [FileSystem.leaves, hRun, hf, if_true, Option.bind_some, hContent]

/-- There is no seeking from the end of an empty file, and a gap shows what was in memory. -/
theorem seek_fails :
    (∃ x, Reachable (Started (.bump 0)) (Stays (.bump 0)) x ∧ opened x.state 3 [] = true ∧
      ¬ SeeksTo x.state 3 [] 0 (dandelionLseek (.bump 0) 3 0 seekEnd)) ∧
    ∃ x, Reachable (Started (.bump 7)) (Stays (.bump 7)) x ∧ opened x.state 3 [] = true ∧
      ¬ SeeksTo x.state 3 [] 2 (dandelionLseek (.bump 7) 3 2 seekSet) := by
  constructor
  · obtain ⟨x, hx, hTest⟩ := exists_of_boundedRun
      (P := .bump 0) [.openFile [97] (oWRONLY ||| oCREAT) sIRWXU]
      (fun x => opened x.state 3 [] &&
        decide (leaves 3 (x.state.openFiles 3).file (dandelionLseek (.bump 0) 3 0 seekEnd) x.state =
          none)) (by decide +kernel)
    rw [Bool.and_eq_true, decide_eq_true_eq] at hTest
    refine ⟨x, stays_of_advances hx, hTest.1, fun hLaw => ?_⟩
    have hNone := hTest.2
    rw [hLaw.leaves (by decide)] at hNone
    cases hNone
  · obtain ⟨x, hx, hTest⟩ := exists_of_boundedRun
      (P := .bump 7) [.openFile [97] (oWRONLY ||| oCREAT) sIRWXU]
      (fun x => opened x.state 3 [] &&
        decide (leaves 3 (x.state.openFiles 3).file (dandelionLseek (.bump 7) 3 2 seekSet) x.state =
          some [7, 7]))
      (by decide +kernel)
    rw [Bool.and_eq_true, decide_eq_true_eq] at hTest
    refine ⟨x, stays_of_advances hx, hTest.1, fun hLaw => ?_⟩
    have hSome := hTest.2
    rw [hLaw.leaves (by decide)] at hSome
    exact absurd hSome (by decide)

end Law

end Dandelion.FileSystem
