import Dandelion.FileSystem.WriteLaw

/-! # How writes end

From two to the thirty-one bytes on, the copy loop may leave the chunk or allocate
without end. Requests to the allocator are refused by their number, and a new chunk
takes two of them. Without one the copy loop goes on all the same and reads through a
null pointer; only a chunk for an offset behind the end of the file is missed in time.
-/

namespace Dandelion.FileSystem

open Foundation.Chains Foundation.Triples Foundation.Words

/-- The same platform, where some requests are refused. -/
def Platform.refusing (P : Platform) (refused : Nat → Bool) : Platform where
  signedChar := P.signedChar
  entropy := P.entropy
  answer m count size alignment := if refused count then none else P.answer m count size alignment
  vacant m count size alignment g h := by
    split at h
    · cases h
    · exact P.vacant m count size alignment g h
  empty m count alignment := by rw [P.empty, ite_self]

def Admitted (refused : Nat → Bool) (number : Nat) : Prop :=
  refused number = false ∧ refused (number + 1) = false

instance (refused : Nat → Bool) (number : Nat) : Decidable (Admitted refused number) :=
  inferInstanceAs (Decidable (_ ∧ _))

structure OpenOn (s : State) (fd : Nat) (f : DFile) : Prop where
  range : fd < fsMaxFiles
  opened : (s.openFiles fd).file ≠ 0
  node : s.memory.files (s.openFiles fd).file = some f
  regular : f.type = .file

def Jumps (o : OpenFile) (options : Nat) : Prop :=
  hasBit o.openFlags oAPPEND = true ∧ ¬ hasBit options useOffset = true

instance (o : OpenFile) (options : Nat) : Decidable (Jumps o options) :=
  inferInstanceAs (Decidable (_ ∧ _))

/-- From the chunk of the descriptor the end can be found, it is the end of the file, and the copy
ends. In an empty file it is enough that the walk ends, at the latest at the chunk that is new. -/
def CanAppend (P : Platform) (s : State) (f : DFile) (o : OpenFile) (k : Nat) : Prop :=
  o.currentChunk ≠ 0 ∧ ∃ l, pieces s.memory f.link = some l ∧
    if l = [] then Takes (chunkSize k % 2 ^ 32) k ∧
      ∃ n cs, (n = 0 ∨ ∃ s₁, allocateFileChunk P k s = .ok (n, s₁)) ∧
        Segment (nextChunk s.memory) o.currentChunk cs n
    else ∃ a x t, l = a ++ x :: t ∧ x.ptr = o.currentChunk ∧ flat t = [] ∧
      Copies s.memory x.chunk k

variable {P : Platform} {refused : Nat → Bool} {s s₁ : State} {m : Memory} {p : Ptr} {c : FileChunk}
  {b : Block} {bytes : List UInt8} {d fd k n fuel room options : Nat} {f : DFile} {offset : Int}
  {start : Ptr × Nat}

section Copying

/-- If the chunk that was allocated for a string does not take it, the one for the rest takes
nothing. -/
theorem not_takes_rest (hRoom : (chunkSize (d + k) - d) % 2 ^ 32 = room)
    (hLen : d + k + 2 ^ 12 ≤ 2 ^ 64) (h : ¬ Takes room k) :
    ¬ Takes (chunkSize (k - room) % 2 ^ 32) (k - room) ∧
      (chunkSize (d + k) - (d + room)) % 2 ^ 32 = 0 := by
  have hExact : ∀ n, n + 2 ^ 12 ≤ 2 ^ 64 → chunkSize n = (n + 4095) / 4096 * 4096 := by
    intro n hn
    simp only [chunkSize, fsChunkSize, add64, sub64, mul64]
    omega
  rw [hExact _ hLen] at hRoom ⊢
  rw [hExact _ (by omega)]
  unfold Takes at h ⊢
  omega

/-- A string that no new chunk takes is never copied. -/
theorem writeLoop_endless (fuel : Nat) (hLen : bytes.length < 2 ^ 63)
    (hNot : ¬ Takes (chunkSize bytes.length % 2 ^ 32) bytes.length)
    (hFull : ∀ c, s.memory.chunks p = some c → toInt32 (sub64 c.capacity c.used) = 0) :
    Ensures (writeLoop P fuel bytes p) s fun _ _ => False := by
  have hne : bytes ≠ [] := by
    rintro rfl
    exact hNot (Or.inl (Nat.zero_le _))
  have hLt := chunkSize_lt bytes.length
  induction fuel generalizing s p bytes with
  | zero =>
    rw [writeLoop, if_neg hne]
    trivial
  | succ fuel ih =>
    rw [writeLoop, if_neg hne]
    refine (ensures_getChunkAt p).bind fun c s₁ hRead => ?_
    have hc := hRead.2.2
    have hSame := hRead.1
    subst hSame
    rw [if_pos (hFull c hc)]
    refine (ensures_allocateFileChunk bytes.length).bind fun n s₂ hNew => ?_
    rcases hNew with ⟨rfl, -⟩ | ⟨hn, data, fill, hNew⟩
    · exact .after_any fun _ _ => .after_error getChunkAt_null trivial
    refine Meets.bind (ensures_modifyChunk p _) fun _ s₃ h₃ => ?_
    obtain ⟨e, he, rfl⟩ := h₃
    refine (ensures_getChunkAt n).bind fun e' s₄ hRead => ?_
    obtain ⟨hSame, -, hChunk⟩ := hRead
    subst hSame
    have he' := hChunk
    rw [setChunk_chunks, Function.update_of_ne (hNew.fresh.ptr.ne_chunk hc), hNew.chunks,
      Function.update_self, Option.some.injEq] at he'
    subst he'
    -- the rest is as long as a multiple of two to the thirty-two, and the chunk is full
    obtain ⟨hRest, hRoom⟩ := not_takes_rest (d := 0) (k := bytes.length)
      (by rw [Nat.zero_add, Nat.sub_zero]) (by omega) hNot
    have hCount : min bytes.length (toSize (toInt32 (chunkSize bytes.length))) =
        chunkSize bytes.length % 2 ^ 32 := by
      unfold Takes at hNot
      unfold toSize toInt32
      omega
    rw [hCount]
    refine (ensures_writePart_chunk hChunk bytes _).bind fun _ s₅ h₅ =>
      ih ?_ ?_ ?_ (fun hNil => hNot (Or.inl (List.drop_eq_nil_iff.mp hNil))) (chunkSize_lt _)
    · rw [List.length_drop]
      omega
    · rwa [List.length_drop]
    · intro c hc
      rw [h₅, Option.some.injEq] at hc
      subst hc
      rw [Nat.zero_add, Nat.zero_add] at hRoom
      simp only [add64, sub64, toInt32]
      omega

/-- Where the copy does not end inside, the loop does not return. -/
theorem writeLoop_fails (h : Holds s.memory p c b) (hLen : bytes.length < 2 ^ 63)
    (hNot : ¬ Copies s.memory c bytes.length) :
    Ensures (writeLoop P bytes.length bytes p) s fun _ _ => False := by
  have hne : bytes ≠ [] := by
    rintro rfl
    exact hNot (h.copies (by decide))
  obtain ⟨n, hn⟩ := Nat.exists_eq_add_one.mpr (List.length_pos_iff.mpr hne)
  rw [Copies] at hNot
  split at hNot
  · rename_i hTakes
    have hRoom : c.room ≠ 0 := by
      unfold Takes at hTakes
      omega
    have hOver : ¬ c.used + bytes.length ≤ b.size := fun hLe => hNot ⟨b, h.block, hLe⟩
    have hStore : storeBytes c.data c.used bytes s = .error .bounds := by
      rw [storeBytes, if_neg hne, bind_ok (getBlockAt_ok h.data_ne h.block), if_neg hOver]
      rfl
    refine .of_error (e := .bounds) ?_ trivial
    rw [hn, writeLoop, if_neg hne, bind_ok (getChunkAt_ok h.ne_zero h.chunk),
      if_neg (mt (toInt32_room h).mp hRoom), toWrite_eq h hLen, if_pos hTakes, writePart]
    refine bind_error ?_
    rw [bind_ok (getChunkAt_ok h.ne_zero h.chunk), List.take_length, bind_error hStore]
  · rename_i hMore
    rcases Nat.eq_zero_or_pos c.room with hRoom | hRoom
    · rw [hRoom, Nat.sub_zero] at hNot
      refine writeLoop_endless _ hLen hNot fun e he => ?_
      obtain rfl := Option.mem_unique h.chunk he
      exact (toInt32_room h).mpr hRoom
    · rw [← List.length_drop] at hNot
      have hLess : c.room < bytes.length := by
        unfold Takes at hMore
        omega
      obtain ⟨hFull, hNone⟩ := h.filled (Nat.le_of_lt hLess)
      rw [hn]
      refine .of_eq (writeLoop_fills h hRoom hLen hMore)
        (writeLoop_endless _ (by rw [List.length_drop]; omega) hNot fun e he => ?_)
      obtain rfl := Option.mem_unique hFull.chunk he
      exact (toInt32_room hFull).mpr hNone

/-- A chunk that was allocated for the string takes it, or no chunk does. -/
theorem Holds.copies_iff {e : FileChunk} (h : Holds m p e b)
    (hUsed : e.used = d) (hCapacity : e.capacity = chunkSize (d + k))
    (hLen : d + k + 2 ^ 12 ≤ 2 ^ 64) :
    Copies m e k ↔ Takes ((chunkSize (d + k) - d) % 2 ^ 32) k := by
  have hRoom : e.room = (chunkSize (d + k) - d) % 2 ^ 32 := by rw [FileChunk.room, hCapacity, hUsed]
  rw [Copies, hRoom, hUsed]
  split
  · rename_i hTakes
    refine iff_of_true ⟨b, h.block, Nat.le_trans ?_ h.size⟩ hTakes
    simp only [hCapacity, chunkSize, fsChunkSize, add64, sub64, mul64]
    omega
  · rename_i hNot
    exact iff_of_false (not_takes_rest rfl hLen hNot).1 hNot

end Copying

section Ends

theorem chain_length_le {cs : List Ptr} (h : Chain (nextChunk m) p cs) : cs.length ≤ m.limit := by
  refine Chain.length_le h fun q hq => ?_
  by_contra hLe
  obtain ⟨r, hr⟩ := h.defined hq
  rw [nextChunk, (m.bounded q (Nat.le_of_not_lt hLe)).2.1] at hr
  cases hr

theorem lastChunk_ok {cs : List Ptr} (h : Chain (nextChunk s.memory) p cs) (hp : p ≠ 0)
    (hFuel : cs.length ≤ fuel) :
    ∃ last e, lastChunk fuel p s = .ok (last, s) ∧ last ≠ 0 ∧ s.memory.chunks last = some e := by
  induction cs generalizing p fuel with
  | nil => exact absurd h hp
  | cons q cs ih =>
    obtain ⟨fuel, rfl⟩ :=
      Nat.exists_eq_succ_of_ne_zero (Nat.ne_of_gt (Nat.lt_of_lt_of_le (Nat.succ_pos _) hFuel))
    obtain ⟨rfl, -, r, hNext, hRest⟩ := h
    obtain ⟨e, he, rfl⟩ := Option.map_eq_some_iff.mp hNext
    by_cases hEnd : e.next = 0
    · refine ⟨p, e, ?_, hp, he⟩
      rw [lastChunk, bind_ok (getChunkAt_ok hp he), if_neg (not_not.mpr hEnd)]
      rfl
    · obtain ⟨last, e', hRun, hLast⟩ := ih hRest hEnd (Nat.le_of_succ_le_succ hFuel)
      refine ⟨last, e', ?_, hLast⟩
      rw [lastChunk, bind_ok (getChunkAt_ok hp he), if_pos hEnd, hRun]

theorem chain_of_lastChunk (fuel : Nat) (p : Ptr) :
    Ensures (lastChunk fuel p) s fun _ _ => p ≠ 0 ∧ ∃ cs, Chain (nextChunk s.memory) p cs := by
  induction fuel generalizing p with
  | zero => trivial
  | succ fuel ih =>
    rw [lastChunk]
    refine ensures_chunk fun e hp he => ?_
    have hNext : nextChunk s.memory p = some e.next := by rw [nextChunk, he, Option.map_some]
    refine .ite (fun _ => ?_) fun hEnd => .pure ⟨hp, [p], rfl, hp, e.next, hNext, not_not.mp hEnd⟩
    refine (ih e.next).imp fun _ _ h => ?_
    obtain ⟨-, cs, hcs⟩ := h
    exact ⟨hp, p :: cs, rfl, hp, e.next, hNext, hcs⟩

theorem nextChunk_of_new {m' : Memory} {ptr data size : Nat} {fill : Nat → UInt8}
    (h : NewChunk m m' ptr data size fill) :
    nextChunk m' = Function.update (nextChunk m) ptr (some 0) := by
  funext q
  by_cases hq : q = ptr
  · rw [hq, nextChunk, h.chunks, Function.update_self, Function.update_self]
    rfl
  · rw [nextChunk, h.chunks, Function.update_of_ne hq, Function.update_of_ne hq]
    rfl

theorem exists_chain_new_iff {s₀ : State} {ptr data size : Nat} {fill : Nat → UInt8}
    (hAlloc : allocateFileChunk P k s = .ok (ptr, s₀))
    (hNew : NewChunk s.memory s₀.memory ptr data size fill) :
    (∃ cs, Chain (nextChunk s₀.memory) p cs) ↔
      ∃ n cs, (n = 0 ∨ ∃ s₁, allocateFileChunk P k s = .ok (n, s₁)) ∧
        Segment (nextChunk s.memory) p cs n := by
  have hVacant : nextChunk s.memory ptr = none := by
    rw [nextChunk, hNew.ptr_vacant.2.2.1, Option.map_none]
  rw [nextChunk_of_new hNew, exists_chain_update_iff hNew.ptr_vacant.ne_zero hVacant]
  constructor
  · rintro ⟨cs, hSegment | hSegment⟩
    · exact ⟨0, cs, Or.inl rfl, hSegment⟩
    · exact ⟨ptr, cs, Or.inr ⟨s₀, hAlloc⟩, hSegment⟩
  · rintro ⟨n, cs, rfl | ⟨s', hAlloc'⟩, hSegment⟩
    · exact ⟨cs, Or.inl hSegment⟩
    · obtain rfl : ptr = n := (ok_unique hAlloc hAlloc').1
      exact ⟨cs, Or.inr hSegment⟩

end Ends

section Allocation

theorem refusing_none (P : Platform) : P.refusing (fun _ => false) = P := by
  cases P
  simp only [Platform.refusing, Bool.false_eq_true, if_false]

theorem refusing_pair (hGrants : P.Grants) (h : Admitted refused n) :
    (P.refusing refused).GrantsPair n := by
  intro m count size alignment hCount hSize
  obtain ⟨g, hg⟩ := hGrants m count size alignment hSize
  refine ⟨g, (if_neg ?_).trans hg⟩
  rcases hCount with rfl | rfl
  · simp [h.1]
  · simp [h.2]

theorem allocateFileChunk_refused (h : chunkSize n = 0 ∨ ¬ Admitted refused s.requests) :
    ∃ s', allocateFileChunk (P.refusing refused) n s = .ok (0, s') ∧ Same s s' := by
  rw [allocateFileChunk]
  cases hg : (P.refusing refused).answer s.memory s.requests (chunkSize n) 16 with
  | none =>
    have hBuffer : allocBlock (P.refusing refused) (chunkSize n) 16 s =
        .ok (0, { s with requests := s.requests + 1 }) := by
      simp only [allocBlock, dandelionAlloc, hg]
    rw [bind_ok hBuffer, if_pos rfl]
    exact ⟨_, rfl, rfl, rfl, rfl, rfl⟩
  | some g =>
    have hData := (P.refusing refused).vacant _ _ _ _ _ hg
    have hSecond : refused (s.requests + 1) = true := by
      have hSize : chunkSize n ≠ 0 := by
        intro hZero
        rw [hZero, (P.refusing refused).empty] at hg
        cases hg
      have hFirst : refused s.requests = false := by
        by_contra hRefused
        rw [Bool.not_eq_false] at hRefused
        have hNone : (P.refusing refused).answer s.memory s.requests (chunkSize n) 16 = none :=
          if_pos hRefused
        rw [hNone] at hg
        cases hg
      have hNot := h.resolve_left hSize
      by_contra hAdmitted
      exact hNot ⟨hFirst, Bool.eq_false_iff.mpr hAdmitted⟩
    set s₁ : State := { s with
      memory := s.memory.setBlock g.ptr ⟨chunkSize n, g.bytes, false⟩,
      requests := s.requests + 1 } with hs₁
    have hBuffer : allocBlock (P.refusing refused) (chunkSize n) 16 s = .ok (g.ptr, s₁) := by
      rw [allocBlock, dandelionAlloc_ok hg, chunkSize_words]
    have hNone : (P.refusing refused).answer s₁.memory s₁.requests sizeofChunk 8 = none :=
      if_pos hSecond
    have hAlloc : allocChunk (P.refusing refused) s₁ =
        .ok (0, { s₁ with requests := s₁.requests + 1 }) := by
      simp only [allocChunk, dandelionAlloc, hNone]
    have hAllocated : s₁.memory.allocated g.ptr = true := by
      simp [Memory.allocated, hs₁]
    rw [bind_ok hBuffer, if_neg hData.ne_zero, bind_ok hAlloc, if_pos rfl]
    refine ⟨_, bind_ok (if_pos hAllocated), ?_, ?_, ?_, rfl⟩
    · exact Function.update_eq_self_iff.mpr hData.2.1.symm
    · exact Function.update_eq_self_iff.mpr hData.2.2.1.symm
    · change Function.update (Function.update s.memory.blocks g.ptr _) g.ptr none = _
      rw [Function.update_idem, Function.update_eq_self_iff]
      exact hData.2.2.2.symm

end Allocation

section Loop

theorem writeLoop_null (hne : bytes ≠ []) : writeLoop P bytes.length bytes 0 s = .error .null := by
  obtain ⟨k, hk⟩ := Nat.exists_eq_add_one.mpr (List.length_pos_iff.mpr hne)
  rw [hk, writeLoop, if_neg hne, bind_error getChunkAt_null]

theorem writeLoop_full (fuel : Nat) (h : Holds s.memory p c b) (hRoom : c.room = 0)
    (hne : bytes ≠ []) (hRefused : ¬ Admitted refused s.requests) :
    writeLoop (P.refusing refused) (fuel + 1) bytes p s = .error .null := by
  obtain ⟨s₁, hAlloc, hSame⟩ :=
    allocateFileChunk_refused (P := P) (n := bytes.length) (Or.inr hRefused)
  have hChunk : s₁.memory.chunks p = some c := by rw [hSame.chunks, h.chunk]
  rw [writeLoop, if_neg hne, bind_ok (getChunkAt_ok h.ne_zero h.chunk),
    if_pos ((toInt32_room h).mpr hRoom), bind_ok hAlloc, bind_ok (modifyChunk_ok h.ne_zero hChunk),
    bind_error getChunkAt_null]

theorem writeLoop_refused (h : Holds s.memory p c b) (hLen : bytes.length < 2 ^ 63)
    (hNot : ¬ Takes c.room bytes.length) (hRefused : ¬ Admitted refused s.requests) :
    writeLoop (P.refusing refused) bytes.length bytes p s = .error .null := by
  have hMore : c.room < bytes.length := by
    unfold Takes at hNot
    omega
  have hne : bytes ≠ [] := List.ne_nil_of_length_pos (Nat.zero_lt_of_lt hMore)
  obtain ⟨n, hn⟩ := Nat.exists_eq_add_one.mpr (Nat.zero_lt_of_lt hMore)
  rcases Nat.eq_zero_or_pos c.room with hRoom | hRoom
  · rw [hn]
    exact writeLoop_full n h hRoom hne hRefused
  · obtain ⟨k, rfl⟩ := Nat.exists_eq_add_one.mpr (show 0 < n by omega)
    rw [hn, writeLoop_fills h hRoom hLen hNot]
    obtain ⟨hFull, hNone⟩ := h.filled (Nat.le_of_lt hMore)
    refine writeLoop_full k hFull hNone ?_ hRefused
    rw [Ne, List.drop_eq_nil_iff]
    omega

theorem writeFrom_memory {last : Ptr} {s' : State} (options i : Nat) (hfd : fd < fsMaxFiles)
    (hLoop : writeLoop P bytes.length bytes p s = .ok (last, s')) :
    ∃ s'', writeFrom P fd bytes options p i s = .ok ((bytes.length : Int), s'') ∧
      s''.memory = s'.memory := by
  have hRange : (0 : Int) ≤ fd ∧ (fd : Int) < fsMaxFiles :=
    ⟨Int.natCast_nonneg fd, by exact_mod_cast hfd⟩
  rw [writeFrom, bind_ok hLoop]
  split
  · rw [bind_ok (getOpenFile_ok hRange), bind_ok (setOpenFile_ok hRange _)]
    exact ⟨_, rfl, rfl⟩
  · exact ⟨_, rfl, rfl⟩

theorem writeFrom_fails {i : Nat}
    (hLoop : Ensures (writeLoop P bytes.length bytes p) s fun _ _ => False) :
    Ensures (writeFrom P fd bytes options p i) s fun _ _ => False :=
  hLoop.bind fun _ _ hFalse => hFalse.elim

end Loop

section Call

theorem dandelionWrite_start (h : OpenOn s fd f) :
    dandelionWrite P fd bytes offset options s = (do
      let start ← writeStart P (s.openFiles fd) f bytes.length offset options
      writePlace P fd (s.openFiles fd) bytes options start : M Int) s := by
  have hRange : (0 : Int) ≤ fd ∧ (fd : Int) < fsMaxFiles :=
    ⟨Int.natCast_nonneg fd, by exact_mod_cast h.range⟩
  have hAccess : hasBit (s.openFiles fd).openFlags oRDONLY = false := by simp [hasBit, oRDONLY]
  rw [dandelionWrite, bind_ok (getOpenFile_ok hRange), Int.toNat_natCast,
    if_neg (by simp [h.opened, hAccess]), bind_ok (getFileAt_ok h.opened h.node),
    if_neg (by simp [h.regular]), if_neg (by simp [h.regular])]

/-- From the chunk of the descriptor there is a way to an end. -/
def LeadsToEnd (m : Memory) (o : OpenFile) : Prop :=
  o.currentChunk ≠ 0 ∧ ∃ cs, Chain (nextChunk m) o.currentChunk cs

theorem writePlace_copies {o : OpenFile} (P : Platform) (bytes : List UInt8) (start : Ptr × Nat)
    (hfd : fd < fsMaxFiles) (hJump : Jumps o options → LeadsToEnd s.memory o) :
    ∃ s₁ : State, s₁.memory = s.memory ∧ s₁.requests = s.requests ∧
      writePlace P fd o bytes options (some start) s =
        writeFrom P fd bytes options start.1 start.2 s₁ := by
  have hRange : (0 : Int) ≤ fd ∧ (fd : Int) < fsMaxFiles :=
    ⟨Int.natCast_nonneg fd, by exact_mod_cast hfd⟩
  by_cases hJumps : Jumps o options
  · obtain ⟨hChunk, cs, hEnd⟩ := hJump hJumps
    obtain ⟨q, e, hWalk, hq, he⟩ :=
      lastChunk_ok hEnd hChunk (Nat.le_succ_of_le (chain_length_le hEnd))
    refine ⟨{ s with openFiles :=
      Function.update s.openFiles fd { o with currentChunk := q, offset := e.used } }, rfl, rfl, ?_⟩
    rw [writePlace, if_pos ⟨hJumps.1, hJumps.2⟩, bind_ok steps_ok, bind_ok hWalk,
      bind_ok (getChunkAt_ok hq he), bind_ok (setOpenFile_ok hRange _), Int.toNat_natCast]
  · exact ⟨s, rfl, rfl, by rw [writePlace]; exact congrFun (if_neg hJumps) s⟩

theorem writePlace_fails {o : OpenFile} (P : Platform) (fd : Nat) (bytes : List UInt8)
    (start : Ptr × Nat) (hJumps : Jumps o options) (hNot : ¬ LeadsToEnd s.memory o) :
    ∃ e, writePlace P fd o bytes options (some start) s = .error e := by
  rw [writePlace, if_pos ⟨hJumps.1, hJumps.2⟩, bind_ok steps_ok]
  cases hLast : lastChunk (s.memory.limit + 1) o.currentChunk s with
  | error e => exact ⟨e, bind_error hLast⟩
  | ok last => exact absurd ((chain_of_lastChunk _ _).result hLast) hNot

end Call

end Dandelion.FileSystem
