import Dandelion.FileSystem.ExhaustionOffset

/-! # The law of exhausted memory

The writes at the place of a descriptor, and both kinds together in every state
that can be reached.
-/

namespace Dandelion.FileSystem

open Foundation.Words Foundation.Runs Foundation.Triples

variable {P : Platform} {refused : Nat → Bool} {s s₁ : State} {c : List UInt8}
  {fd n options k : Nat} {f : DFile} {a l t : List Piece} {x : Piece}

section Descriptor

theorem leadsToEnd_of_same (hSame : Same s s₁) (o : OpenFile) : LeadsToEnd s₁.memory o ↔
    LeadsToEnd s.memory o := by
  have hNext : nextChunk s₁.memory = nextChunk s.memory := by
    funext q
    rw [nextChunk, nextChunk, hSame.chunks]
  rw [LeadsToEnd, LeadsToEnd, hNext]

theorem survivesOn_nil_iff (h : OpenOn s fd f) (hl : Filed s.memory f.link l)
    (hUse : hasBit options useOffset = false) :
    Survives (P.refusing refused) s fd f [] n options ↔
      (Jumps (s.openFiles fd) options → LeadsToEnd s.memory (s.openFiles fd)) := by
  by_cases hLink : f.link = 0
  · have hNone : chunkSize 0 = 0 ∨ ¬ Admitted refused s.requests := Or.inl (by decide)
    have hLength : (if hasBit options useOffset then toSize ((n : Int) + (0 : Nat)) else 0) = 0 :=
      if_neg (by simp [hUse])
    obtain ⟨s₁, hStart, hSame⟩ := writeStart_refused (P := P) h hLink hLength hNone
    rw [survives_nil_iff h hl.stored.content_eq hStart (by rw [hSame.files, h.node]),
      leadsToEnd_of_same hSame]
    refine and_iff_left ?_
    obtain rfl := (hLink ▸ hl).unique Filed.nil
    exact Stored.content_eq (show Stored s₁.memory f.link [] from hLink)
  · rw [survives_nil_iff h hl.stored.content_eq (writeStart_move 0 n hLink hUse) h.node]
    exact and_iff_left hl.stored.content_eq

/-- In an empty file the way may also end at the chunk that is new. -/
theorem leadsToEnd_new_iff {s₀ : State} {ptr data size : Nat} {fill : Nat → UInt8}
    (hLink : f.link = 0) (hAlloc : allocateFileChunk P k s = .ok (ptr, s₀))
    (hNew : NewChunk s.memory s₀.memory ptr data size fill)
    (hChunks : s₁.memory.chunks = s₀.memory.chunks) (hTakes : Takes (chunkSize k % 2 ^ 32) k)
    (o : OpenFile) :
    LeadsToEnd s₁.memory o ↔ CanAppend P s f o k := by
  have hStored : Stored s.memory f.link [] := hLink
  have hNext : nextChunk s₁.memory = nextChunk s₀.memory := by
    funext q
    rw [nextChunk, nextChunk, hChunks]
  rw [LeadsToEnd, hNext]
  refine and_congr_right fun _ => (exists_chain_new_iff hAlloc hNew).trans ?_
  constructor
  · intro hSegment
    refine ⟨[], pieces_eq_some.mpr hStored, ?_⟩
    rw [if_pos rfl]
    exact ⟨hTakes, hSegment⟩
  · rintro ⟨j, hj, hSegment⟩
    rw [if_pos (hStored.unique (pieces_eq_some.mp hj)).symm] at hSegment
    exact hSegment.2

theorem survivesOn_empty_iff (hGrants : P.Grants) (h : OpenOn s fd f) (hLink : f.link = 0)
    (hUse : hasBit options useOffset = false) (hk : 0 < k) (hLen : k < 2 ^ 63) :
    (∀ bytes, bytes.length = k → Survives (P.refusing refused) s fd f bytes n options) ↔
      SurvivesOn P refused s f (s.openFiles fd) options [] k := by
  have hStored : Stored s.memory f.link [] := hLink
  have hLength : (if hasBit options useOffset then toSize ((n : Int) + k) else k) = k :=
    if_neg (by simp [hUse])
  rw [SurvivesOn, if_neg (Nat.ne_of_gt hk), if_pos rfl]
  by_cases hAdmitted : Admitted refused s.requests
  · obtain ⟨g, ptr, s₀, hAlloc, -, hNew, hStart⟩ := writeStart_new (s := s) options n
      (refusing_pair hGrants hAdmitted) h.opened
      h.node hLink hLength (chunkSize_pos hk (by omega))
    set s₁ : State :=
      { s₀ with memory := s₀.memory.setFile (s.openFiles fd).file { f with link := ptr } }
    obtain ⟨hFiled, -⟩ :=
      first_filed s₁.memory hNew (Nat.zero_le _) (chunkSize_lt _) hNew.chunks rfl
    obtain ⟨b, hHolds⟩ := hFiled.holds _ (List.mem_singleton_self _)
    set x : Piece := .fresh ptr g.ptr (chunkSize k) []
    have hCopy : CopyEnds refused s₁ x.chunk k ↔ Takes (chunkSize k % 2 ^ 32) k := by
      have hIff := copyEnds_iff refused (d := 0) (k := k) (e := x.chunk) hHolds rfl
        (by simp only [x, Piece.fresh, Nat.zero_add]) (by omega)
      rwa [Nat.sub_zero, Nat.zero_add] at hIff
    have hBehind : if Takes x.chunk.room k then flat [] = [] else (flat []).length ≤ k := by
      split
      · rfl
      · exact Nat.zero_le _
    have hContent : content s.memory f.link = some (flat ([] ++ x :: [])) := hStored.content_eq
    have hHere : Filed s₁.memory ptr ([] ++ x :: []) := hFiled
    have hEnds (hTakes : Takes (chunkSize k % 2 ^ 32) k) : LeadsToEnd s₁.memory (s.openFiles fd) ↔
        CanAppend (P.refusing refused) s f (s.openFiles fd) k :=
      leadsToEnd_new_iff hLink hAlloc hNew rfl hTakes _
    rw [survives_between_iff hGrants h hContent hk (by omega) hStart (Function.update_self _ _ _)
      hHere, and_iff_right hAdmitted, and_iff_left hBehind, hCopy, and_left_comm, writeTarget,
      if_neg (by simp [hUse])]
    refine and_congr_right fun hTakes => ?_
    by_cases hAppend : hasBit (s.openFiles fd).openFlags oAPPEND = true
    · rw [if_pos hAppend, if_pos hAppend, ← hEnds hTakes]
      constructor
      · exact fun hAll => hAll.1 ⟨hAppend, by simp [hUse]⟩
      · exact fun hEnd => ⟨fun _ => hEnd, rfl⟩
    · rw [if_neg hAppend, if_neg hAppend, and_iff_right fun hJumps => absurd hJumps.1 hAppend,
        position, pieces_eq_some.mpr hStored, Option.bind_some]
      constructor
      · intro hPosition
        by_contra hChunk
        rw [if_neg hChunk] at hPosition
        cases hPosition
      · exact fun hChunk => if_pos hChunk
  · obtain ⟨s₁, hStart, -⟩ := writeStart_refused (P := P) h hLink hLength (Or.inr hAdmitted)
    simp only [hAdmitted, false_and, iff_false]
    refine not_forall_length ?_
    rintro bytes rfl
    exact not_survives_null h (List.ne_nil_of_length_pos hk) hStart

theorem survivesOn_chunk_iff (hGrants : P.Grants) (h : OpenOn s fd f)
    (hl : Filed s.memory f.link (a ++ x :: t))
    (hx : x.ptr = if (s.openFiles fd).currentChunk = 0 then f.link
      else (s.openFiles fd).currentChunk)
    (hUse : hasBit options useOffset = false) (hk : 0 < k) (hLen : k < 2 ^ 63) :
    (∀ bytes, bytes.length = k → Survives (P.refusing refused) s fd f bytes n options) ↔
      CopiesWell refused s (s.openFiles fd) x t k := by
  have hLink : f.link ≠ 0 := by
    intro hZero
    rw [hZero] at hl
    have hNil := congrArg List.length (hl.unique Filed.nil)
    simp at hNil
  have hStart :=
    writeStart_move (P := P.refusing refused) (s := s) (o := s.openFiles fd) k n hLink hUse
  rw [← hx] at hStart
  have hBytes := hl.stored.bytes_length (x := x) (by simp)
  rw [survives_between_iff hGrants h hl.stored.content_eq hk (by omega) hStart h.node hl,
    CopiesWell, and_left_comm, writeTarget, if_neg (by simp [hUse]), hBytes]
  refine and_congr_right fun _ => ?_
  by_cases hAppend : hasBit (s.openFiles fd).openFlags oAPPEND = true
  · have hJumps : Jumps (s.openFiles fd) options := ⟨hAppend, by simp [hUse]⟩
    rw [if_pos hAppend, if_pos hAppend, Option.some.injEq]
    have hSum : (flat (a ++ x :: t)).length = (flat a).length + x.chunk.used + (flat t).length := by
      simp only [flat_append, flat_cons, List.length_append, hBytes]
      omega
    constructor
    · rintro ⟨hEnds, hLength, -⟩
      exact ⟨(hEnds hJumps).1, List.eq_nil_of_length_eq_zero (by omega)⟩
    · rintro ⟨hChunk, hRest⟩
      rw [if_neg hChunk] at hx
      have hEnd := hl.stored.suffix.chain
      rw [hx] at hEnd
      refine ⟨fun _ => ⟨hChunk, _, hEnd⟩, by rw [hSum, hRest]; rfl, ?_⟩
      split
      · exact hRest
      · rw [hRest]
        exact Nat.zero_le _
  · rw [if_neg hAppend, if_neg hAppend, and_iff_right fun hJumps => absurd hJumps.1 hAppend]
    refine and_congr_left fun _ => ?_
    by_cases hChunk : (s.openFiles fd).currentChunk = 0
    · rw [if_pos hChunk] at hx
      -- the copy starts at the first chunk
      obtain rfl : a = [] := by
        have hSuffix := hl.stored.suffix
        rw [hx] at hSuffix
        exact List.append_left_eq_self.mp (hl.stored.unique hSuffix)
      rw [position, pieces_eq_some.mpr hl.stored, Option.bind_some, if_pos hChunk, if_pos hChunk,
        Option.some.injEq, flat_nil, List.length_nil, Nat.zero_add, eq_comm]
    · rw [if_neg hChunk] at hx
      rw [position_at hl.stored hx.symm, if_neg hChunk, Option.some.injEq,
        Nat.add_left_cancel_iff, eq_comm]

theorem survives_descriptor_iff (refused : Nat → Bool) (hGrants : P.Grants)
    (hSound : Sound s.memory) (hWords : s.memory.Words) (h : OpenOn s fd f)
    (hl : Filed s.memory f.link l) (hUse : hasBit options useOffset = false) (hLen : k < 2 ^ 63) :
    (∀ bytes, bytes.length = k → Survives (P.refusing refused) s fd f bytes n options) ↔
      SurvivesOn P refused s f (s.openFiles fd) options l k := by
  rcases Nat.eq_zero_or_pos k with rfl | hk
  · rw [forall_nil, survivesOn_nil_iff h hl hUse, SurvivesOn, if_pos rfl]
  by_cases hEmpty : l = []
  · subst hEmpty
    exact survivesOn_empty_iff hGrants h hl.stored hUse hk hLen
  rw [SurvivesOn, if_neg (Nat.ne_of_gt hk), if_neg hEmpty]
  set start :=
    if (s.openFiles fd).currentChunk = 0 then f.link else (s.openFiles fd).currentChunk with hBegin
  by_cases hIn : ∃ x ∈ l, x.ptr = start
  · obtain ⟨x, hx, hPtr⟩ := hIn
    obtain ⟨a, t, rfl⟩ := List.append_of_mem hx
    rw [survivesOn_chunk_iff hGrants h hl hPtr hUse hk hLen]
    constructor
    · exact fun hWell => ⟨a, x, t, rfl, hPtr, hWell⟩
    · rintro ⟨a', x', t', hSplit, hPtr', hWell⟩
      have hSuffix : Stored s.memory x'.ptr (x' :: t') := (hSplit ▸ hl.stored).suffix
      rw [hPtr', ← hPtr] at hSuffix
      have hSame := hSuffix.unique hl.stored.suffix
      rw [List.cons.injEq] at hSame
      rwa [← hSame.1, ← hSame.2]
  · have hChunk : (s.openFiles fd).currentChunk ≠ 0 := by
      intro hZero
      obtain ⟨x, t, rfl⟩ := List.exists_cons_of_ne_nil hEmpty
      refine hIn ⟨x, List.mem_cons_self, ?_⟩
      rw [hBegin, if_pos hZero]
      exact hl.stored.1.symm
    rw [hBegin, if_neg hChunk] at hIn ⊢
    have hOut : ∀ x ∈ l, x.ptr ≠ (s.openFiles fd).currentChunk := fun x hx hPtr => hIn ⟨x, hx, hPtr⟩
    constructor
    · intro hAll
      refine absurd hAll (not_forall_length ?_)
      rintro bytes rfl
      exact not_survives_elsewhere hGrants hSound hWords h hl hEmpty hUse hChunk hOut
        (List.ne_nil_of_length_pos hk)
        (by omega)
    · rintro ⟨a, x, t, rfl, hPtr, -⟩
      exact absurd hPtr (hOut x (by simp))

end Descriptor

section Law

/-- In every state that can be reached, a write of a given length survives a pattern of refusals,
whatever the bytes are, exactly under the condition on the chunks. -/
theorem exhaustion_iff {Q : Platform} {y : Session} (hy : Reachable (Started Q) (Stays Q) y)
    (hWords : y.state.memory.Words) (hGrants : P.Grants) (refused : Nat → Bool)
    (h : OpenOn y.state fd f) (hn : n < 2 ^ 63) (hLen : k < 2 ^ 62) (options : Nat) :
    (∀ bytes, bytes.length = k → Survives (P.refusing refused) y.state fd f bytes n options) ↔
      CanSurvive P refused y.state f (y.state.openFiles fd) n options k := by
  have hSound := sound_of_stays hy
  cases hPieces : pieces y.state.memory f.link with
  | none =>
    have hNone : content y.state.memory f.link = none := by rw [content, hPieces, Option.map_none]
    constructor
    · intro hAll
      obtain ⟨c, -, -, hc, -⟩ := hAll (List.replicate k 0) List.length_replicate
      rw [hNone] at hc
      cases hc
    · rintro ⟨l, hl, -⟩
      rw [hPieces] at hl
      cases hl
  | some l =>
    have hl := hSound.filed hWords (pieces_eq_some.mp hPieces)
    simp only [CanSurvive, hPieces, Option.some.injEq, exists_eq_left']
    by_cases hUse : hasBit options useOffset = true
    · rw [if_pos hUse]
      exact survives_offset_iff hGrants h hl hUse hn hLen
    · rw [if_neg hUse]
      exact survives_descriptor_iff refused hGrants hSound hWords h hl (Bool.eq_false_iff.mpr hUse)
        (by omega)

theorem openOn_of_opened (hRange : fd < fsMaxFiles) (hOpen : (s.openFiles fd).file ≠ 0)
    (h : opened s fd c = true) :
    ∃ f, OpenOn s fd f ∧ content s.memory f.link = some c := by
  obtain ⟨f, hf, hType, hc⟩ := opened_iff.mp h
  exact ⟨f, ⟨hRange, hOpen, hf, hType⟩, hc⟩

/-- With no memory at all a write far behind the end is answered as it should be. -/
theorem exhaustion_iff_behind : ∃ x f, Reachable (Started (.bump 0)) (Stays (.bump 0)) x ∧
    OpenOn x.state 3 f ∧
    content x.state.memory f.link = some [1, 2] ∧
    ∀ bytes, bytes.length = 1 →
      Survives ((Platform.bump 0).refusing fun _ => true) x.state 3 f bytes 100000 useOffset := by
  obtain ⟨x, hx, hTest⟩ := exists_of_boundedRun (P := .bump 0)
    [.openFile [97] (oWRONLY ||| oCREAT) sIRWXU, .write 3 [1, 2] 0 moveOffset]
    (fun x => opened x.state 3 [1, 2] && x.state.memory.wordsBelow &&
      decide ((x.state.openFiles 3).file ≠ 0) &&
      (x.state.memory.files (x.state.openFiles 3).file).any fun f : DFile =>
        (pieces x.state.memory f.link).any fun l : List Piece =>
          decide (l ≠ []) && (landing l 100000).isNone)
    (by decide +kernel)
  simp only [Bool.and_eq_true, Option.any_eq_true, decide_eq_true_eq,
    Option.isNone_iff_eq_none] at hTest
  obtain ⟨⟨⟨hOpened, hWords⟩, hOpen⟩, f, hf, l, hl, hne, hLand⟩ := hTest
  obtain ⟨f', hAt, hc⟩ := openOn_of_opened (by unfold fsMaxFiles; decide) hOpen hOpened
  obtain rfl : f = f' := Option.mem_unique hf hAt.node
  have hStays := stays_of_advances hx
  refine ⟨x, f, hStays, hAt, hc,
    (exhaustion_iff hStays (words_of_below hWords) (grants_bump 0) _ hAt (by decide)
    (by decide) useOffset).mpr ⟨l, hl, ?_⟩⟩
  rw [if_pos (by decide)]
  simp only [SurvivesAt, hLand, if_neg hne]
  exact fun hAdmitted => Bool.noConfusion hAdmitted.1

/-- The first byte of a file goes to the null pointer when there is no chunk for it. -/
theorem exhaustion_fails : ∃ x f, Reachable (Started (.bump 0)) (Stays (.bump 0)) x ∧
    OpenOn x.state 3 f ∧
    hasBit (x.state.openFiles 3).openFlags oWRONLY = true ∧
    ¬ Survives ((Platform.bump 0).refusing fun _ => true) x.state 3 f [5] 0 moveOffset := by
  obtain ⟨x, hx, hTest⟩ := exists_of_boundedRun
    (P := .bump 0) [.openFile [97] (oWRONLY ||| oCREAT) sIRWXU]
    (fun x => opened x.state 3 [] && decide ((x.state.openFiles 3).file ≠ 0) &&
      hasBit (x.state.openFiles 3).openFlags oWRONLY &&
      faults (dandelionWrite ((Platform.bump 0).refusing fun _ => true) 3 [5] 0 moveOffset x.state)
        fun e => decide (e = .null)) (by decide +kernel)
  simp only [Bool.and_eq_true, decide_eq_true_eq] at hTest
  obtain ⟨⟨⟨hOpened, hOpen⟩, hAccess⟩, hFault⟩ := hTest
  obtain ⟨f, hAt, -⟩ := openOn_of_opened (by unfold fsMaxFiles; decide) hOpen hOpened
  refine ⟨x, f, stays_of_advances hx, hAt, hAccess, ?_⟩
  rintro ⟨c, r, s', -, hRun, -⟩
  have hRun' : dandelionWrite ((Platform.bump 0).refusing fun _ => true) 3 [5] 0 moveOffset
      x.state = .ok (r, s') := hRun
  rw [hRun'] at hFault
  cases hFault

end Law

end Dandelion.FileSystem
