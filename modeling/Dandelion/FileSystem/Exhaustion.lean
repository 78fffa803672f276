import Dandelion.FileSystem.Refusals

/-! # What a write leaves when requests are refused

A call that has found its start returns the length of the string or does not
return at all. The lemmas say, for each way of finding the start, what is left
in the file then.
-/

namespace Dandelion.FileSystem

open Foundation.Triples

def writeTarget (m : Memory) (f : DFile) (o : OpenFile) (c : List UInt8) (n options : Nat) :
    Option Nat :=
  if hasBit options useOffset then some n else if hasBit o.openFlags oAPPEND then some c.length
    else position m f o

/-- In the file, of the content `c` before, nothing is new but `part`, which is at its target. -/
def Received (m : Memory) (file : Ptr) (c : List UInt8) (target : Option Nat)
    (part : List UInt8) : Prop :=
  ∃ f, m.files file = some f ∧
    if part = [] then content m f.link = some c else ∃ p, target = some p ∧
      content m f.link = some (overlay c p part)

/-- The file's chunks and its descriptor are as they were. -/
def Untouched (s s' : State) (fd : Nat) (f : DFile) : Prop :=
  s'.memory.files (s.openFiles fd).file = some f ∧
    pieces s'.memory f.link = pieces s.memory f.link ∧
    content s'.memory f.link = content s.memory f.link ∧ s'.openFiles fd = s.openFiles fd

/-- A write returns, either `-ENOMEM` with nothing changed or the number of bytes that were put
in the file. -/
def Survives (P : Platform) (s : State) (fd : Nat) (f : DFile) (bytes : List UInt8)
    (n options : Nat) : Prop :=
  ∃ c r s', content s.memory f.link = some c ∧ dandelionWrite P fd bytes n options s = .ok (r, s') ∧
    (r = -(eNOMEM : Int) ∧ Untouched s s' fd f ∨
      ∃ k ≤ bytes.length, r = (k : Int) ∧ Received s'.memory (s.openFiles fd).file c
        (writeTarget s.memory f (s.openFiles fd) c n options) (bytes.take k))

variable {P : Platform} {refused : Nat → Bool} {s s₁ : State} {bytes c : List UInt8}
  {fd n options k i p : Nat} {f : DFile} {a l t : List Piece} {x : Piece} {link : Ptr}
  {start : Ptr × Nat}

section Outcomes

theorem writePlace_length (P : Platform) (fd : Int) (o : OpenFile) (bytes : List UInt8)
    (options : Nat) (start : Ptr × Nat) (s : State) :
    Ensures (writePlace P fd o bytes options (some start)) s fun r _ =>
      r = (bytes.length : Int) := by
  have hFrom : ∀ s₁, Ensures (writeFrom P fd bytes options start.1 start.2) s₁ fun r _ =>
      r = (bytes.length : Int) := by
    intro s₁
    rw [writeFrom]
    refine .after_any fun _ _ => .ite (fun _ => ?_) fun _ => .pure rfl
    exact .after_any fun _ _ => .after_any fun _ _ => .pure rfl
  rw [writePlace]
  refine .ite (fun _ => ?_) fun _ => hFrom s
  exact .after_any fun _ _ => .after_any fun _ _ => .after_any fun _ _ =>
    .after_any fun _ s₁ => hFrom s₁

theorem survives_started (h : OpenOn s fd f) (hc : content s.memory f.link = some c)
    (hStart : writeStart P (s.openFiles fd) f bytes.length n options s = .ok (some start, s₁)) :
    Survives P s fd f bytes n options ↔
      ∃ r s', writePlace P fd (s.openFiles fd) bytes options (some start) s₁ = .ok (r, s') ∧
        Received s'.memory (s.openFiles fd).file c
          (writeTarget s.memory f (s.openFiles fd) c n options) bytes := by
  have hRun : dandelionWrite P fd bytes n options s =
      writePlace P fd (s.openFiles fd) bytes options (some start) s₁ := by
    rw [dandelionWrite_start h, bind_ok hStart]
  rw [Survives, hRun]
  constructor
  · rintro ⟨c', r, s', hc', hPlace, hEither⟩
    obtain rfl := Option.mem_unique hc hc'
    obtain rfl : r = (bytes.length : Int) :=
      (writePlace_length P fd _ bytes options start s₁).result hPlace
    rcases hEither with ⟨hNone, -⟩ | ⟨k, -, hk, hReceived⟩
    · rw [eNOMEM] at hNone
      omega
    · obtain rfl : bytes.length = k := by exact_mod_cast hk
      rw [List.take_length] at hReceived
      exact ⟨_, s', hPlace, hReceived⟩
  · rintro ⟨r, s', hPlace, hReceived⟩
    have hLength := (writePlace_length P fd _ bytes options start s₁).result hPlace
    refine ⟨c, r, s', hc, hPlace, Or.inr ⟨bytes.length, le_rfl, hLength, ?_⟩⟩
    rwa [List.take_length]

theorem survives_noticed (h : OpenOn s fd f) (hl : Stored s.memory f.link l) (hSame : Same s s₁)
    (hStart : writeStart P (s.openFiles fd) f bytes.length n options s = .ok (none, s₁)) :
    Survives P s fd f bytes n options := by
  have hStored : Stored s₁.memory f.link l := by
    refine hl.congr (fun x hx => ?_) fun x _ => ?_
    · rw [hSame.chunks, hl.chunk_eq hx]
    · exact load_congr (congrFun hSame.blocks _)
  refine ⟨flat l, -(eNOMEM : Int), s₁, hl.content_eq, ?_, Or.inl ⟨rfl, ?_, ?_, ?_, ?_⟩⟩
  · rw [dandelionWrite_start h, bind_ok hStart]
    rfl
  · rw [hSame.files, h.node]
  · rw [pieces_eq_some.mpr hStored, pieces_eq_some.mpr hl]
  · rw [hStored.content_eq, hl.content_eq]
  · rw [hSame.openFiles]

/-- A write that has found its start returns if the walk to the end does and so does the copy. -/
theorem writePlace_copy_iff (o : OpenFile) (options i : Nat) {Q : Memory → Prop}
    (admits after : Prop) (hfd : fd < fsMaxFiles)
    (hCopies : ∀ s₂ : State, s₂.memory = s₁.memory → s₂.requests = s₁.requests → admits →
      ∃ last s', writeLoop P bytes.length bytes p s₂ = .ok (last, s') ∧ (Q s'.memory ↔ after))
    (hFails : ∀ s₂ : State, s₂.memory = s₁.memory → s₂.requests = s₁.requests → ¬ admits →
      Ensures (writeLoop P bytes.length bytes p) s₂ fun _ _ => False) :
    (∃ r s', writePlace P fd o bytes options (some (p, i)) s₁ = .ok (r, s') ∧ Q s'.memory) ↔
      (Jumps o options → LeadsToEnd s₁.memory o) ∧ admits ∧ after := by
  by_cases hEnds : Jumps o options → LeadsToEnd s₁.memory o
  · obtain ⟨s₂, hMemory, hRequests, hCopy⟩ := writePlace_copies P bytes (p, i) hfd hEnds
    rw [hCopy]
    by_cases hAdmits : admits
    · obtain ⟨last, s', hLoop, hAfter⟩ := hCopies s₂ hMemory hRequests hAdmits
      obtain ⟨s'', hFrom, hMemory'⟩ := writeFrom_memory options i hfd hLoop
      rw [← hAfter, ← hMemory']
      constructor
      · rintro ⟨r, s₃, hRun, hReceived⟩
        obtain rfl : s'' = s₃ := (ok_unique hFrom hRun).2
        exact ⟨hEnds, hAdmits, hReceived⟩
      · rintro ⟨-, -, hReceived⟩
        exact ⟨_, s'', hFrom, hReceived⟩
    · constructor
      · rintro ⟨r, s₃, hRun, -⟩
        exact ((writeFrom_fails (hFails s₂ hMemory hRequests hAdmits)).result hRun).elim
      · exact fun hAll => absurd hAll.2.1 hAdmits
  · obtain ⟨hJumps, hNot⟩ := Classical.not_imp.mp hEnds
    obtain ⟨e, hError⟩ := writePlace_fails P fd bytes (p, i) hJumps hNot
    constructor
    · rintro ⟨r, s₃, hRun, -⟩
      rw [hError] at hRun
      cases hRun
    · exact fun hAll => absurd hAll.1 hEnds

theorem survives_copy_iff (admits after : Prop) (h : OpenOn s fd f)
    (hc : content s.memory f.link = some c)
    (hStart : writeStart P (s.openFiles fd) f bytes.length n options s = .ok (some (p, i), s₁))
    (hCopies : ∀ s₂ : State, s₂.memory = s₁.memory → s₂.requests = s₁.requests → admits →
      ∃ last s', writeLoop P bytes.length bytes p s₂ = .ok (last, s') ∧
        (Received s'.memory (s.openFiles fd).file c
        (writeTarget s.memory f (s.openFiles fd) c n options) bytes ↔ after))
    (hFails : ∀ s₂ : State, s₂.memory = s₁.memory → s₂.requests = s₁.requests → ¬ admits →
      Ensures (writeLoop P bytes.length bytes p) s₂ fun _ _ => False) :
    Survives P s fd f bytes n options ↔
      (Jumps (s.openFiles fd) options → LeadsToEnd s₁.memory (s.openFiles fd)) ∧ admits ∧ after :=
  (survives_started h hc hStart).trans
    (writePlace_copy_iff _ options i (Q := (Received · _ _ _ _)) admits after h.range
      hCopies hFails)

theorem not_survives_null (h : OpenOn s fd f) (hne : bytes ≠ [])
    (hStart : writeStart P (s.openFiles fd) f bytes.length n options s = .ok (some (0, i), s₁)) :
    ¬ Survives P s fd f bytes n options := by
  intro hSurvives
  obtain ⟨c, -, -, hc, -⟩ := id hSurvives
  have hIff := survives_copy_iff False True h hc hStart (fun _ _ _ hFalse => hFalse.elim)
    fun s₂ _ _ _ => .of_error (writeLoop_null hne) trivial
  exact (hIff.mp hSurvives).2.1

theorem survives_nil_iff {file : DFile} (h : OpenOn s fd f) (hc : content s.memory f.link = some c)
    (hStart : writeStart P (s.openFiles fd) f 0 n options s = .ok (some start, s₁))
    (hNode : s₁.memory.files (s.openFiles fd).file = some file) :
    Survives P s fd f [] n options ↔
      (Jumps (s.openFiles fd) options → LeadsToEnd s₁.memory (s.openFiles fd)) ∧
      content s₁.memory file.link = some c := by
  have hIff := survives_copy_iff True (content s₁.memory file.link = some c) h hc
    (show writeStart P _ f ([] : List UInt8).length _ _ s = _ from hStart)
    (fun s₂ hMemory _ _ => ⟨start.1, s₂, writeLoop_nil, ?_⟩) fun _ _ _ hNot => absurd trivial hNot
  · rwa [true_and] at hIff
  rw [hMemory]
  constructor
  · rintro ⟨f', hf', hContent⟩
    obtain rfl := Option.mem_unique hNode hf'
    exact hContent
  · exact fun hContent => ⟨file, hNode, hContent⟩

end Outcomes

section Copies

def keptBehind (x : Piece) (t : List Piece) (k : Nat) : List UInt8 :=
  if Takes x.chunk.room k then flat t else []

/-- A copy of so many bytes to the chunk ends, with the requests that are not refused. -/
def CopyEnds (refused : Nat → Bool) (s : State) (c : FileChunk) (k : Nat) : Prop :=
  Copies s.memory c k ∧ (¬ Takes c.room k → Admitted refused s.requests)

theorem writeLoop_stops {p : Ptr} {e : FileChunk} {b : Block} (h : Holds s.memory p e b)
    (hLen : bytes.length < 2 ^ 63) (hNot : ¬ CopyEnds refused s e bytes.length) :
    Ensures (writeLoop (P.refusing refused) bytes.length bytes p) s fun _ _ => False := by
  by_cases hCopies : Copies s.memory e bytes.length
  · obtain ⟨hMore, hRefused⟩ := Classical.not_imp.mp fun hAdmits => hNot ⟨hCopies, hAdmits⟩
    exact .of_error (writeLoop_refused h hLen hMore hRefused) trivial
  · exact writeLoop_fails h hLen hCopies

theorem survives_piece_iff (hGrants : P.Grants) (h : OpenOn s fd f)
    (hc : content s.memory f.link = some c) (hne : bytes ≠ []) (hLen : bytes.length < 2 ^ 63)
    (hStart : writeStart (P.refusing refused) (s.openFiles fd) f bytes.length n options s =
      .ok (some (x.ptr, i), s₁))
    (hNode : s₁.memory.files (s.openFiles fd).file = some { f with link := link })
    (hl : Filed s₁.memory link (a ++ x :: t)) :
    Survives (P.refusing refused) s fd f bytes n options ↔
      (Jumps (s.openFiles fd) options → LeadsToEnd s₁.memory (s.openFiles fd)) ∧
        CopyEnds refused s₁ x.chunk bytes.length ∧
        ∃ p, writeTarget s.memory f (s.openFiles fd) c n options = some p ∧
          flat a ++ x.bytes ++ bytes ++ keptBehind x t bytes.length = overlay c p bytes := by
  refine survives_copy_iff _ _ h hc hStart (fun s₂ hMemory hRequests hAdmits => ?_)
    fun s₂ hMemory hRequests hNot => ?_
  · obtain ⟨hCopies, hAdmitted⟩ := hAdmits
    rw [← hMemory] at hl hNode hCopies
    rw [← hRequests] at hAdmitted
    obtain ⟨l', z, s', hAppends, hLoop, -, hFiles, hStored, -⟩ :=
      writeLoop_list (fun hMore => refusing_pair hGrants (hAdmitted hMore)) hl hne hLen hCopies
    have hContent := hStored.content_eq
    rw [hAppends.flat_eq] at hContent
    refine ⟨z.ptr, s', hLoop, ?_⟩
    constructor
    · rintro ⟨f', hf', hReceived⟩
      rw [hFiles, hNode, Option.some.injEq] at hf'
      rw [if_neg hne, ← hf'] at hReceived
      obtain ⟨p, hp, hEq⟩ := hReceived
      exact ⟨p, hp, Option.mem_unique hContent hEq⟩
    · rintro ⟨p, hp, hEq⟩
      refine ⟨_, hFiles ▸ hNode, ?_⟩
      rw [if_neg hne]
      exact ⟨p, hp, hContent.trans (congrArg some hEq)⟩
  · rw [CopyEnds, ← hMemory, ← hRequests] at hNot
    rw [← hMemory] at hl
    obtain ⟨b, hx⟩ := hl.holds x (by simp)
    exact writeLoop_stops hx hLen hNot

theorem survives_all_iff (hGrants : P.Grants) (h : OpenOn s fd f)
    (hc : content s.memory f.link = some c) (hk : 0 < k) (hLen : k < 2 ^ 63)
    (hStart : writeStart (P.refusing refused) (s.openFiles fd) f k n options s =
      .ok (some (x.ptr, i), s₁))
    (hNode : s₁.memory.files (s.openFiles fd).file = some { f with link := link })
    (hl : Filed s₁.memory link (a ++ x :: t)) :
    (∀ bytes, bytes.length = k → Survives (P.refusing refused) s fd f bytes n options) ↔
      (Jumps (s.openFiles fd) options → LeadsToEnd s₁.memory (s.openFiles fd)) ∧
        CopyEnds refused s₁ x.chunk k ∧
        ∃ p, writeTarget s.memory f (s.openFiles fd) c n options = some p ∧
          flat a ++ x.bytes = padded c p ∧ keptBehind x t k = c.drop (p + k) := by
  have hEach : ∀ bytes : List UInt8, bytes.length = k →
      (Survives (P.refusing refused) s fd f bytes n options ↔
      (Jumps (s.openFiles fd) options → LeadsToEnd s₁.memory (s.openFiles fd)) ∧
        CopyEnds refused s₁ x.chunk k ∧
        ∃ p, writeTarget s.memory f (s.openFiles fd) c n options = some p ∧
          flat a ++ x.bytes ++ bytes ++ keptBehind x t k = overlay c p bytes) := by
    rintro bytes rfl
    exact survives_piece_iff hGrants h hc (List.ne_nil_of_length_pos hk) hLen hStart hNode hl
  constructor
  · intro hAll
    obtain ⟨hEnds, hAdmits, p, hp, -⟩ :=
      (hEach _ List.length_replicate).mp (hAll (List.replicate k 0) List.length_replicate)
    refine ⟨hEnds, hAdmits, p, hp, (overlay_iff hk).mp fun bytes hBytes => ?_⟩
    obtain ⟨-, -, p', hp', hEq⟩ := (hEach bytes hBytes).mp (hAll bytes hBytes)
    rwa [Option.mem_unique hp hp']
  · rintro ⟨hEnds, hAdmits, p, hp, hBoth⟩ bytes hBytes
    exact (hEach bytes hBytes).mpr ⟨hEnds, hAdmits, p, hp, (overlay_iff hk).mpr hBoth bytes hBytes⟩

theorem between_iff (a : List Piece) (x : Piece) (t : List Piece) (hk : 0 < k) :
    (flat a ++ x.bytes = padded (flat (a ++ x :: t)) p ∧
      keptBehind x t k = (flat (a ++ x :: t)).drop (p + k)) ↔
      p = (flat a).length + x.bytes.length ∧ if Takes x.chunk.room k then flat t = []
        else (flat t).length ≤ k := by
  have hFlat : flat (a ++ x :: t) = (flat a ++ x.bytes) ++ flat t := by simp
  have hFront : flat a ++ x.bytes = padded (flat a ++ x.bytes ++ flat t) p ↔
      p = (flat a ++ x.bytes).length := by
    constructor
    · intro hEq
      have hLength := congrArg List.length hEq
      rw [padded_length] at hLength
      exact hLength.symm
    · rintro rfl
      have hPad := padded_append (flat a ++ x.bytes) (flat t) 0
      rw [Nat.add_zero] at hPad
      rw [hPad]
      simp [padded]
  rw [hFlat, hFront, List.length_append]
  refine and_congr_right fun hp => ?_
  rw [hp, ← List.length_append, ← List.drop_drop, List.drop_left, keptBehind]
  split
  · constructor
    · intro hEq
      have hLength := congrArg List.length hEq
      rw [List.length_drop] at hLength
      exact List.eq_nil_of_length_eq_zero (by omega)
    · intro hNil
      rw [hNil, List.drop_nil]
  · rw [eq_comm, List.drop_eq_nil_iff]

theorem survives_between_iff (hGrants : P.Grants) (h : OpenOn s fd f)
    (hc : content s.memory f.link = some (flat (a ++ x :: t))) (hk : 0 < k) (hLen : k < 2 ^ 63)
    (hStart : writeStart (P.refusing refused) (s.openFiles fd) f k n options s =
      .ok (some (x.ptr, i), s₁))
    (hNode : s₁.memory.files (s.openFiles fd).file = some { f with link := link })
    (hl : Filed s₁.memory link (a ++ x :: t)) :
    (∀ bytes, bytes.length = k → Survives (P.refusing refused) s fd f bytes n options) ↔
      (Jumps (s.openFiles fd) options → LeadsToEnd s₁.memory (s.openFiles fd)) ∧
        CopyEnds refused s₁ x.chunk k ∧
        writeTarget s.memory f (s.openFiles fd) (flat (a ++ x :: t)) n options =
          some ((flat a).length + x.bytes.length) ∧
        if Takes x.chunk.room k then flat t = [] else (flat t).length ≤ k := by
  rw [survives_all_iff hGrants h hc hk hLen hStart hNode hl]
  refine and_congr_right fun _ => and_congr_right fun _ => ?_
  constructor
  · rintro ⟨p, hp, hBoth⟩
    obtain ⟨rfl, hRest⟩ := (between_iff a x t hk).mp hBoth
    exact ⟨hp, hRest⟩
  · rintro ⟨hp, hRest⟩
    exact ⟨_, hp, (between_iff a x t hk).mpr ⟨rfl, hRest⟩⟩

theorem not_survives_elsewhere (hGrants : P.Grants) (hSound : Sound s.memory)
    (hWords : s.memory.Words) (h : OpenOn s fd f) (hl : Filed s.memory f.link l) (hEmpty : l ≠ [])
    (hUse : hasBit options useOffset = false)
    (hChunk : (s.openFiles fd).currentChunk ≠ 0)
    (hOut : ∀ y ∈ l, y.ptr ≠ (s.openFiles fd).currentChunk) (hne : bytes ≠ [])
    (hLen : bytes.length < 2 ^ 63) : ¬ Survives (P.refusing refused) s fd f bytes n options := by
  have hLink : f.link ≠ 0 := by
    intro hZero
    rw [hZero] at hl
    exact hEmpty (hl.unique Filed.nil)
  have hStart := writeStart_move (P := P.refusing refused) (s := s)
    (o := s.openFiles fd) bytes.length n hLink hUse
  rw [if_neg hChunk] at hStart
  intro hSurvives
  obtain ⟨r, s', hPlace, f', hf', hReceived⟩ :=
    (survives_started h hl.stored.content_eq hStart).mp hSurvives
  rw [if_neg hne] at hReceived
  obtain ⟨p, hp, hContent⟩ := hReceived
  rw [writeTarget, if_neg (by simp [hUse])] at hp
  split at hp
  · rename_i hAppend
    have hJumps : Jumps (s.openFiles fd) options := ⟨hAppend, by simp [hUse]⟩
    have hEnds : LeadsToEnd s.memory (s.openFiles fd) := by
      by_contra hNot
      obtain ⟨e, hError⟩ :=
        writePlace_fails (P.refusing refused) fd bytes ((s.openFiles fd).currentChunk,
          0) hJumps hNot
      rw [hError] at hPlace
      cases hPlace
    obtain ⟨s₂, hMemory, hRequests, hCopy⟩ :=
      writePlace_copies (P.refusing refused) bytes ((s.openFiles fd).currentChunk, 0) h.range
        fun _ => hEnds
    rw [hCopy] at hPlace
    obtain ⟨-, cs, hEnd⟩ := hEnds
    obtain ⟨r, rest, -, hNext, -⟩ := hEnd.head hChunk
    obtain ⟨e, he, -⟩ := Option.map_eq_some_iff.mp hNext
    obtain ⟨b, hHolds⟩ := hSound.holds hWords hChunk he
    rw [← hMemory] at hHolds
    have hEnd : CopyEnds refused s₂ e bytes.length := by
      by_contra hNot
      exact (writeFrom_fails (writeLoop_stops hHolds hLen hNot)).result hPlace
    obtain ⟨last, s₃, hLoop, hFiles, hOnly⟩ := writeLoop_only
      (x := ⟨(s.openFiles fd).currentChunk, e, []⟩)
      (fun hMore => refusing_pair hGrants (hEnd.2 hMore)) hHolds hne hLen hEnd.1
    obtain ⟨s'', hFrom, hMemory'⟩ := writeFrom_memory options 0 h.range hLoop
    obtain rfl : s'' = s' := (ok_unique hFrom hPlace).2
    have hNode : s''.memory.files (s.openFiles fd).file = some f := by
      rw [hMemory', hFiles, hMemory, h.node]
    obtain rfl := Option.mem_unique hNode hf'
    have hFiled : Filed s₂.memory f.link l := hMemory ▸ hl
    have hKept := hOnly.frame hFiled hOut fun z hz hEq => hOut z hz ?_
    · rw [hMemory', hKept.stored.content_eq, Option.some.injEq] at hContent
      have hLength := congrArg List.length hContent
      obtain rfl := Option.some.inj hp
      simp only [overlay, List.length_append, padded_length] at hLength
      have hPos := List.length_pos_iff.mpr hne
      omega
    · exact hSound.holding.own _ _ _ _ (hl.stored.chunk_eq hz) he hEq
  · obtain ⟨a, x, t, rfl, hx, -⟩ := position_split hl.stored hp hChunk
    exact hOut x (by simp) hx

end Copies

end Dandelion.FileSystem
