import Dandelion.FileSystem.Exhaustion

/-! # Writes at an offset while memory runs out

A write survives the refusal of a chunk only where it needs none, or where the
chunk was to lie behind the end of the file; and what it writes must be right
in the first place. Here are the conditions for that and the writes with
`USE_OFFSET`.
-/

namespace Dandelion.FileSystem

open Foundation.Words Foundation.Triples

/-- The condition for a write of `k` bytes at the offset `n`. -/
def SurvivesAt (P : Platform) (refused : Nat → Bool) (s : State) (l : List Piece)
    (n k : Nat) : Prop :=
  match landing l n with
  | some (_, x, _, r) =>
    if k = 0 then r ≤ x.chunk.used
    else
      LandsWell (P.refusing refused) s l n k ∧
        CopyEnds refused s { x.chunk with used := max x.chunk.used r } k
  | none =>
    if l = [] then k = 0 ∨ Admitted refused s.requests ∧ n = 0 ∧ Takes (chunkSize k % 2 ^ 32) k
    else Admitted refused s.requests → if k = 0 then n = caps l
      else LandsWell (P.refusing refused) s l n k ∧
        Takes ((chunkSize (n - caps l + k) - (n - caps l)) % 2 ^ 32) k

/-- The condition for a copy of `k` bytes to the chunk of `x`, which the descriptor is at. -/
def CopiesWell (refused : Nat → Bool) (s : State) (o : OpenFile) (x : Piece) (t : List Piece)
    (k : Nat) : Prop :=
  CopyEnds refused s x.chunk k ∧
    if hasBit o.openFlags oAPPEND then o.currentChunk ≠ 0 ∧ flat t = []
    else x.chunk.used = (if o.currentChunk = 0 then 0 else o.offset) ∧
      if Takes x.chunk.room k then flat t = [] else (flat t).length ≤ k

/-- The condition for a write of `k` bytes where the descriptor is. -/
def SurvivesOn (P : Platform) (refused : Nat → Bool) (s : State) (f : DFile) (o : OpenFile)
    (options : Nat) (l : List Piece) (k : Nat) : Prop :=
  if k = 0 then Jumps o options → LeadsToEnd s.memory o
  else if l = [] then
    Admitted refused s.requests ∧ Takes (chunkSize k % 2 ^ 32) k ∧
      if hasBit o.openFlags oAPPEND then CanAppend (P.refusing refused) s f o k
        else o.currentChunk = 0
  else
    ∃ a x t, l = a ++ x :: t ∧ x.ptr = (if o.currentChunk = 0 then f.link else o.currentChunk) ∧
      CopiesWell refused s o x t k

/-- The chunks of the file are in order, and either condition holds. -/
def CanSurvive (P : Platform) (refused : Nat → Bool) (s : State) (f : DFile) (o : OpenFile)
    (n options k : Nat) : Prop :=
  ∃ l, pieces s.memory f.link = some l ∧
    if hasBit options useOffset then SurvivesAt P refused s l n k
      else SurvivesOn P refused s f o options l k

variable {P : Platform} {refused : Nat → Bool} {s s₁ : State} {bytes : List UInt8}
  {fd n options k p : Nat} {f : DFile} {a l t : List Piece} {x : Piece} {link : Ptr}

theorem forall_nil {α : Type} {p : List α → Prop} : (∀ bytes : List α, bytes.length = 0 → p bytes) ↔
    p [] := by
  constructor
  · exact fun h => h [] rfl
  · intro h bytes hBytes
    rwa [List.eq_nil_of_length_eq_zero hBytes]

theorem not_forall_length {q : List UInt8 → Prop}
    (h : ∀ bytes : List UInt8, bytes.length = k → ¬ q bytes) :
    ¬ ∀ bytes, bytes.length = k → q bytes := fun hAll =>
  h (List.replicate k 0) List.length_replicate (hAll _ List.length_replicate)

section Refused

theorem writeStart_refused {size : Nat} (h : OpenOn s fd f) (hLink : f.link = 0)
    (hSize : (if hasBit options useOffset then toSize ((n : Int) + k) else k) = size)
    (hRefused : chunkSize size = 0 ∨ ¬ Admitted refused s.requests) :
    ∃ s₁, writeStart (P.refusing refused) (s.openFiles fd) f k n options s = .ok (some (0, 0), s₁) ∧
      Same s s₁ := by
  obtain ⟨s₀, hAlloc, hSame⟩ := allocateFileChunk_refused (P := P) hRefused
  have hNode : s₀.memory.files (s.openFiles fd).file = some f := by rw [hSame.files, h.node]
  refine ⟨_, by rw [writeStart, if_pos hLink, hSize, bind_ok hAlloc,
    bind_ok (modifyFile_ok h.opened hNode)]; rfl, ?_⟩
  refine ⟨?_, hSame.chunks, hSame.blocks, hSame.openFiles⟩
  have hNull : { f with link := 0 } = f := by rw [← hLink]
  show Function.update s₀.memory.files (s.openFiles fd).file _ = _
  rw [hNull, hSame.files, ← h.node, Function.update_eq_self]

theorem writeStart_noticed (o : OpenFile) (hl : Filed s.memory f.link l) (hne : l ≠ [])
    (hUse : hasBit options useOffset = true) (hLand : landing l n = none) (hn : n < 2 ^ 63)
    (hLen : k < 2 ^ 62) (hRefused : n - caps l + k = 0 ∨ ¬ Admitted refused s.requests) :
    ∃ s₁, writeStart (P.refusing refused) o f k n options s = .ok (none, s₁) ∧ Same s s₁ := by
  have hLink : f.link ≠ 0 := by
    obtain ⟨y, l', rfl⟩ := List.exists_cons_of_ne_nil hne
    exact hl.stored.2.1
  obtain ⟨a, x, -, hSeek⟩ := writeSeek_beyond (P := P.refusing refused) k hl hLand hne
    (Nat.lt_succ_of_le hl.stored.length_le) hn
  have hSum : add64 (n - caps l) k = n - caps l + k := add64_of_lt (by omega)
  have hZero : chunkSize (n - caps l + k) = 0 ∨ ¬ Admitted refused s.requests := by
    refine hRefused.imp_left fun hNone => ?_
    rw [hNone]
    decide
  obtain ⟨s₁, hAlloc, hSame⟩ := allocateFileChunk_refused (P := P) hZero
  refine ⟨s₁, ?_, hSame⟩
  rw [writeStart, if_neg hLink, if_pos hUse, bind_ok steps_ok, hSeek, hSum, bind_ok hAlloc,
    if_pos rfl]
  rfl

end Refused

section Offset

theorem not_jumps (hUse : hasBit options useOffset = true) (o : OpenFile) : ¬ Jumps o options :=
  fun h => h.2 hUse

/-- A chunk that was allocated for the bytes needs no other, or the copy never ends. -/
theorem copyEnds_iff (refused : Nat → Bool) {d : Nat} {ptr : Ptr} {e : FileChunk} {b : Block}
    (h : Holds s.memory ptr e b) (hUsed : e.used = d) (hCapacity : e.capacity = chunkSize (d + k))
    (hLen : d + k + 2 ^ 12 ≤ 2 ^ 64) :
    CopyEnds refused s e k ↔ Takes ((chunkSize (d + k) - d) % 2 ^ 32) k := by
  have hRoom : e.room = (chunkSize (d + k) - d) % 2 ^ 32 := by rw [FileChunk.room, hCapacity, hUsed]
  rw [CopyEnds, h.copies_iff hUsed hCapacity hLen, hRoom]
  exact and_iff_left_of_imp fun hTakes hNot => absurd hTakes hNot

theorem copyEnds_congr {e : FileChunk} (hRequests : s₁.requests = s.requests)
    (hBlocks : s₁.memory.blocks = s.memory.blocks) :
    CopyEnds refused s₁ e k ↔ CopyEnds refused s e k := by
  rw [CopyEnds, CopyEnds, Copies, Copies, hRequests, hBlocks]

theorem survivesAt_iff (hGrants : P.Grants) (h : OpenOn s fd f) (hl : Filed s.memory f.link l)
    (hUse : hasBit options useOffset = true) (hn : n < 2 ^ 63) (hk : 0 < k) (hLen : k < 2 ^ 62)
    (hAdmitted : landing l n = none → Admitted refused s.requests) :
    (∀ bytes, bytes.length = k → Survives (P.refusing refused) s fd f bytes n options) ↔
      SurvivesAt P refused s l n k := by
  obtain ⟨a, x, t, r, s₁, hStart, hStarts, hRequests, hReady⟩ :=
    writeStart_use (fun hLand => refusing_pair hGrants (hAdmitted hLand)) h.opened h.node hUse hl
      hn hLen fun _ => Nat.add_pos_right _ hk
  obtain ⟨link, hFiles, hFiled⟩ := hReady.files
  have hLands :=
    landsWell_iff (fun hLand => refusing_pair hGrants (hAdmitted hLand)) hl hk hLen hn
  obtain ⟨hFront, hBehind⟩ := hStarts.front_eq
  have hLaw : (∀ bytes, bytes.length = k → Survives (P.refusing refused) s fd f bytes n options) ↔
      CopyEnds refused s₁ x.chunk k ∧ LandsWell (P.refusing refused) s l n k := by
    rw [survives_all_iff hGrants h hl.stored.content_eq hk (by omega) hStart
      (by rw [hFiles, Function.update_self]) hFiled, hLands, writeTarget, if_pos hUse, keptBehind,
      hFront, hBehind]
    constructor
    · rintro ⟨-, hEnds, p, hp, hBoth⟩
      obtain rfl := Option.some.inj hp
      exact ⟨hEnds, hBoth⟩
    · rintro ⟨hEnds, hBoth⟩
      exact ⟨fun hJumps => absurd hJumps (not_jumps hUse _), hEnds, n, rfl, hBoth⟩
  rw [hLaw]
  obtain ⟨b, hHolds⟩ := hFiled.holds x (by simp)
  cases hStarts with
  | empty n ptr data =>
    have hNone : landing [] n = none := rfl
    simp only [SurvivesAt, LandsWell, hNone, if_true, Nat.ne_of_gt hk, false_or, hAdmitted hNone,
      true_and]
    rw [and_comm]
    refine and_congr_right ?_
    rintro rfl
    have hIff := copyEnds_iff refused (d := 0) (k := k) hHolds rfl
      (by rw [Piece.fresh]) (by omega)
    rw [Nat.sub_zero, Nat.zero_add] at hIff
    rwa [Nat.zero_add]
  | @inside l a t x n r hLand =>
    obtain ⟨rfl, -, hInside⟩ := landing_eq hLand
    obtain ⟨b, hx⟩ := hl.holds x (by simp)
    obtain ⟨hRequests, hBlocks⟩ := hRequests (by rw [hLand]; exact Option.some_ne_none _)
    have hUsed : x.chunk.used + (gap s.memory x r).length = max x.chunk.used r := by
      rw [(hx.gap_eq (r := r) (by omega)).2]
      omega
    have hChunk : (x.append (gap s.memory x r)).chunk =
        { x.chunk with used := max x.chunk.used r } := by
      rw [Piece.append, hUsed]
    rw [hChunk, copyEnds_congr hRequests hBlocks, and_comm]
    simp only [SurvivesAt, hLand, Nat.ne_of_gt hk, if_false]
  | @behind a x n g ptr hLand hAnswer =>
    have hne : a ++ [x] ≠ [] := by simp
    simp only [SurvivesAt, hLand, hne, Nat.ne_of_gt hk, if_false, hAdmitted hLand, true_imp_iff]
    have hIff := copyEnds_iff refused (d := n - caps (a ++ [x])) (k := k) hHolds
      (by simp [Piece.fresh]) (by rw [Piece.fresh]) (by omega)
    exact And.comm.trans (and_congr_right fun _ => hIff)

theorem survivesAt_nil_iff (hGrants : P.Grants) (h : OpenOn s fd f) (hl : Filed s.memory f.link l)
    (hUse : hasBit options useOffset = true) (hn : n < 2 ^ 63)
    (hAdmitted : landing l n = none → Admitted refused s.requests)
    (hSome : landing l n = none → 0 < n - caps l) :
    Survives (P.refusing refused) s fd f [] n options ↔ SurvivesAt P refused s l n 0 := by
  obtain ⟨a, x, t, r, s₁, hStart, hStarts, -, hReady⟩ :=
    writeStart_use (fun hLand => refusing_pair hGrants (hAdmitted hLand)) h.opened h.node hUse hl hn
      (show 0 < 2 ^ 62 by decide) hSome
  obtain ⟨link, hFiles, hFiled⟩ := hReady.files
  rw [survives_nil_iff h hl.stored.content_eq hStart (by rw [hFiles, Function.update_self]),
    hFiled.stored.content_eq, Option.some.injEq]
  have hEnds : Jumps (s.openFiles fd) options → LeadsToEnd s₁.memory (s.openFiles fd) :=
    fun hJumps =>
    absurd hJumps (not_jumps hUse _)
  cases hStarts with
  | empty n ptr data =>
    have hNone : landing [] n = none := rfl
    simp only [SurvivesAt, hNone, if_true, true_or, iff_true]
    exact ⟨hEnds, by simp [Piece.fresh]⟩
  | @inside l a t x n r hLand =>
    obtain ⟨rfl, -, hInside⟩ := landing_eq hLand
    obtain ⟨b, hx⟩ := hl.holds x (by simp)
    have hGap := (hx.gap_eq (r := r) (by omega)).2
    simp only [SurvivesAt, hLand, if_true, flat_append, flat_cons, Piece.append, List.append_assoc,
      List.append_cancel_left_eq, List.append_left_eq_self]
    rw [and_iff_right hEnds, ← List.length_eq_zero_iff, hGap]
    omega
  | @behind a x n g ptr hLand hAnswer =>
    have hPos := hSome hLand
    simp only [SurvivesAt, hLand, if_true, hAdmitted hLand, true_imp_iff]
    rw [if_neg (by simp), and_iff_right hEnds]
    constructor
    · intro hFlat
      have hLength := congrArg List.length hFlat
      simp only [flat_append, flat_cons, flat_nil, List.length_append, Piece.fresh, Piece.linked,
        List.length_map, List.length_range, List.length_nil] at hLength
      omega
    · intro hn
      omega

theorem survivesAt_refused_iff (h : OpenOn s fd f) (hl : Filed s.memory f.link l)
    (hUse : hasBit options useOffset = true) (hn : n < 2 ^ 63) (hLen : k < 2 ^ 62)
    (hLand : landing l n = none) (hRefused : n - caps l + k = 0 ∨ ¬ Admitted refused s.requests) :
    (∀ bytes, bytes.length = k → Survives (P.refusing refused) s fd f bytes n options) ↔
      SurvivesAt P refused s l n k := by
  have hCaps := landing_none hLand
  by_cases hEmpty : l = []
  · subst hEmpty
    have hSum : toSize ((n : Int) + k) = n + k := by
      have hCast : (n : Int) + k = ((n + k : Nat) : Int) := by push_cast; rfl
      rw [hCast, toSize_natCast (by omega)]
    have hZero : chunkSize (n + k) = 0 ∨ ¬ Admitted refused s.requests := by
      refine hRefused.imp_left fun hNone => ?_
      have hSize : n + k = 0 := hNone
      rw [hSize]
      decide
    obtain ⟨s₁, hStart, hSame⟩ :=
      writeStart_refused (P := P) h hl.stored (by rw [if_pos hUse, hSum]) hZero
    simp only [SurvivesAt, hLand, if_true]
    rcases Nat.eq_zero_or_pos k with rfl | hk
    · rw [forall_nil, survives_nil_iff h hl.stored.content_eq hStart (by rw [hSame.files, h.node])]
      simp only [true_or, iff_true]
      refine ⟨fun hJumps => absurd hJumps (not_jumps hUse _), ?_⟩
      have hNull : Stored s₁.memory f.link [] := hl.stored
      exact hNull.content_eq
    · have hNot : ¬ Admitted refused s.requests := hRefused.resolve_left (by omega)
      simp only [Nat.ne_of_gt hk, hNot, false_or, false_and, iff_false]
      refine not_forall_length ?_
      rintro bytes rfl
      exact not_survives_null h (List.ne_nil_of_length_pos hk) hStart
  · obtain ⟨s₁, hStart, hSame⟩ :=
      writeStart_noticed (P := P) (s.openFiles fd) hl hEmpty hUse hLand hn hLen hRefused
    simp only [SurvivesAt, hLand, if_neg hEmpty]
    constructor
    · intro _ hAdmitted
      have hNone := hRefused.resolve_right (not_not.mpr hAdmitted)
      rw [if_pos (by omega)]
      omega
    · rintro - bytes rfl
      exact survives_noticed h hl.stored hSame hStart

theorem survives_offset_iff (hGrants : P.Grants) (h : OpenOn s fd f) (hl : Filed s.memory f.link l)
    (hUse : hasBit options useOffset = true) (hn : n < 2 ^ 63) (hLen : k < 2 ^ 62) :
    (∀ bytes, bytes.length = k → Survives (P.refusing refused) s fd f bytes n options) ↔
      SurvivesAt P refused s l n k := by
  by_cases hRefused : landing l n = none ∧ (n - caps l + k = 0 ∨ ¬ Admitted refused s.requests)
  · exact survivesAt_refused_iff h hl hUse hn hLen hRefused.1 hRefused.2
  · have hAdmitted : landing l n = none → Admitted refused s.requests := by
      intro hLand
      by_contra hNot
      exact hRefused ⟨hLand, Or.inr hNot⟩
    rcases Nat.eq_zero_or_pos k with rfl | hk
    · rw [forall_nil]
      refine survivesAt_nil_iff hGrants h hl hUse hn hAdmitted fun hLand => ?_
      by_contra hNone
      exact hRefused ⟨hLand, Or.inl (by omega)⟩
    · exact survivesAt_iff hGrants h hl hUse hn hk hLen hAdmitted

end Offset

end Dandelion.FileSystem
