import Dandelion.FileSystem.CopyBounds

/-! # Writes whose copies stay inside

If the chunk in which a write starts admits the first copy, the checks of the copy
loop change nothing and memory stays sound. Otherwise that chunk is used beyond its
capacity already, or the first copy is not made inside it.
-/

namespace Dandelion.FileSystem

open Foundation.Words Foundation.Triples

def Agrees {α : Type} (y : M (Option α)) (x : M α) (s : State) : Prop :=
  y s = (some <$> x) s ∧ Ensures x s fun _ s' => Sound s'.memory

variable {P : Platform} {s s' : State} {m : Memory} {n p : Ptr} {c k : FileChunk} {f : DFile}
  {o : OpenFile} {bytes : List UInt8} {offset : Int} {options : Nat} {α β : Type}

section Rules

theorem Agrees.pure (h : Sound s.memory) (a : α) : Agrees (pure (some a)) (pure a) s := ⟨rfl, h⟩

theorem Agrees.fail (e : Fault) : Agrees (fail e) (fail e : M α) s := ⟨rfl, trivial⟩

theorem Agrees.ite {b : Prop} [Decidable b] {x x' : M α} {y y' : M (Option α)}
    (hThen : b → Agrees y x s) (hElse : ¬ b → Agrees y' x' s) :
    Agrees (if b then y else y') (if b then x else x') s := by
  split
  · exact hThen ‹_›
  · exact hElse ‹_›

theorem Agrees.bind {z : M β} {x : β → M α} {y : β → M (Option α)} {post : β → State → Prop}
    (hz : Ensures z s post) (h : ∀ b s', post b s' → Agrees (y b) (x b) s') :
    Agrees (z >>= y) (z >>= x) s := by
  cases hRun : z s with
  | error e =>
    refine ⟨?_, .after_error hRun trivial⟩
    rw [map_bind, bind_error hRun, bind_error hRun]
  | ok r =>
    obtain ⟨hSame, hSound⟩ := h r.1 r.2 (hz.result hRun)
    refine ⟨?_, .after hRun hSound⟩
    rw [map_bind, bind_ok (show z s = .ok (r.1, r.2) from hRun),
      bind_ok (show z s = .ok (r.1, r.2) from hRun), hSame]

theorem Agrees.then {z : M β} {w : M (Option β)} {x : β → M α} {y : Option β → M (Option α)}
    (hz : Agrees w z s) (h : ∀ b s', Sound s'.memory → Agrees (y (some b)) (x b) s') :
    Agrees (w >>= y) (z >>= x) s := by
  have hFirst : (w >>= y) s = (z >>= fun b => y (some b)) s := by
    rw [show (w >>= y) s = ((some <$> z) >>= y) s from ?_, bind_map_left]
    change Except.bind (w s) _ = Except.bind ((some <$> z) s) _
    rw [hz.1]
  obtain ⟨hSame, hSound⟩ := Agrees.bind hz.2 h
  exact ⟨hFirst.trans hSame, hSound⟩

end Rules

section Loop

theorem ensures_writePart_chunk (hc : s.memory.chunks p = some c) (bytes : List UInt8)
    (count : Nat) :
    Ensures (writePart p bytes count) s fun _ s' =>
      s'.memory.chunks p = some { c with used := add64 c.used count } := by
  rw [writePart]
  refine ensures_chunk fun e _ he => ?_
  obtain rfl := Option.mem_unique hc he
  refine (storeBytes_chunks _ _ _).bind fun _ s₂ h₂ =>
    (ensures_modifyChunk p _).imp fun _ s₃ h₃ => ?_
  obtain ⟨e, he', rfl⟩ := h₃
  rw [h₂, hc] at he'
  obtain rfl := Option.some.inj he'
  rw [setChunk_chunks, Function.update_self]

theorem allocateFileChunk_pos (size : Nat) :
    Ensures (allocateFileChunk P size) s fun r _ => r ≠ 0 → chunkSize size ≠ 0 := by
  by_cases hZero : chunkSize size = 0
  · have hBuffer : allocBlock P (chunkSize size) 16 s =
        .ok (0, { s with requests := s.requests + 1 }) := by
      simp only [allocBlock, dandelionAlloc, hZero, P.empty]
    rw [allocateFileChunk]
    exact .after hBuffer (.ite (fun _ => .pure fun hne => absurd rfl hne) fun h => absurd rfl h)
  · exact (Meets.any _ s).imp fun _ _ _ _ => hZero

theorem writeLoop_agrees (fuel : Nat) (h : Sound s.memory) (hLen : bytes.length < 2 ^ 64)
    (hRoom : p ≠ 0 → ∀ c, s.memory.chunks p = some c → Admits bytes.length c.used c.capacity) :
    Agrees (writeLoopChecked P fuel bytes p) (writeLoop P fuel bytes p) s := by
  induction fuel generalizing s bytes p with
  | zero =>
    rw [writeLoopChecked, writeLoop]
    exact .ite (fun _ => .pure h p) fun _ => .fail _
  | succ fuel ih =>
    -- a round that copies into a chunk which admits that, and the rounds after it
    have hRound : ∀ {s : State} {q : Ptr} {e : FileChunk}, Sound s.memory →
        s.memory.chunks q = some e →
        Admits bytes.length e.used e.capacity →
          ∀ count, count = min bytes.length (toSize (toInt32 (sub64 e.capacity e.used))) →
        Agrees (if e.used + count ≤ e.capacity then do
            writePart q bytes count
            writeLoopChecked P fuel (bytes.drop count) q
          else Pure.pure none) (do
          writePart q bytes count
          writeLoop P fuel (bytes.drop count) q) s := by
      intro s q e hSound he hAdmits count hCount
      have hLe := hAdmits.copy_le
      have hNext := hAdmits.next
      rw [← hCount] at hLe hNext
      rw [if_pos hLe]
      have hPart := (hSound.reworks (reworks_writePart q bytes count fun _ e' he' => ?_)).and
        (ensures_writePart_chunk he bytes count)
      · refine .bind hPart fun _ s₁ h₁ => ih h₁.1 ?_ fun _ e' he' => ?_
        · rw [List.length_drop]
          omega
        · obtain rfl := Option.mem_unique h₁.2 he'
          rwa [List.length_drop]
      · obtain rfl := Option.mem_unique he he'
        exact hLe
    rw [writeLoopChecked, writeLoop]
    refine .ite (fun _ => .pure h p) fun hne => .bind (ensures_getChunkAt p) fun c s₁ hRead => ?_
    obtain ⟨rfl, hp, hc⟩ := hRead
    refine .ite (fun _ => ?_) fun _ => hRound h hc (hRoom hp c hc) _ rfl
    refine .bind ((ensures_allocateFileChunk _).and (allocateFileChunk_pos _)) fun n s₂ h₂ => ?_
    obtain ⟨⟨rfl, hSame⟩ | ⟨hn, data, fill, hNew⟩, hPos⟩ := h₂
    · refine .bind (Meets.any _ s₂) fun _ s₃ _ => ⟨?_, .after_error getChunkAt_null trivial⟩
      rw [map_bind, bind_error getChunkAt_null, bind_error getChunkAt_null]
    · refine .bind (h.append hNew hc ⟨Nat.zero_le _, Nat.le_refl _⟩) fun _ s₃ h₃ => ?_
      refine .bind (ensures_getChunkAt n) fun e s₄ hRead => ?_
      obtain ⟨rfl, -, he⟩ := hRead
      obtain rfl := Option.mem_unique h₃.2 he
      have hEnough := (chunkSize_cases hLen).resolve_left (hPos hn)
      refine hRound h₃.1 he (admits_new hEnough) _ ?_
      have hWhole : sub64 (chunkSize bytes.length) 0 = chunkSize bytes.length := by
        simp only [chunkSize, sub64, mul64]
        omega
      rw [hWhole]

end Loop

section Start

theorem seekRoom_succ {len fuel : Nat} (hc : m.chunks p = some c) :
    seekRoom m len (fuel + 1) offset p =
    if offset ≤ 0 then some (c.used, c.capacity)
    else if toSize offset < c.capacity then some (max c.used (toSize offset), c.capacity)
    else if c.next = 0 then some (toSize (offset - c.capacity),
      chunkSize (add64 (toSize (offset - c.capacity)) len))
    else seekRoom m len fuel (offset - c.capacity) c.next := by
  rw [seekRoom, hc, Option.bind_some]

def RoomFound (room : Option (Nat × Nat)) (r : Option (Ptr × Nat)) (s' : State) : Prop :=
  ∀ start c, r = some start → start.1 ≠ 0 → s'.memory.chunks start.1 = some c →
    room = some (c.used, c.capacity)

theorem roomFound_some {room : Option (Nat × Nat)} {i : Nat}
    (h : p ≠ 0 → ∀ c, s'.memory.chunks p = some c → room = some (c.used, c.capacity)) :
    RoomFound room (some (p, i)) s' := by
  intro start c hStart hne hc
  obtain rfl := Option.some.inj hStart
  exact h hne c hc

theorem writeSeek_found (len fuel : Nat) :
    Ensures (writeSeek P len fuel offset p) s
      (RoomFound (seekRoom s.memory len fuel offset p)) := by
  induction fuel generalizing offset p with
  | zero => trivial
  | succ fuel ih =>
    rw [writeSeek]
    refine .ite (fun hEnd => .pure (roomFound_some fun _ c hc => ?_)) fun hPos =>
      (ensures_getChunkAt p).bind fun c s₁ hRead => ?_
    · rw [seekRoom_succ hc, if_pos hEnd]
    obtain ⟨rfl, -, hc⟩ := hRead
    rw [seekRoom_succ hc, if_neg hPos]
    refine .ite (fun hInside => ?_) fun hBeyond => .ite (fun hLast => ?_) fun hNext => ?_
    · refine Meets.bind (ensures_modifyChunk p _) fun _ s₂ h₂ =>
        .pure (roomFound_some fun _ e he => ?_)
      obtain ⟨e', he', rfl⟩ := h₂
      obtain rfl := Option.mem_unique hc he'
      rw [setChunk_chunks, Function.update_self, Option.some.injEq] at he
      subst he
      rw [if_pos hInside]
      dsimp only
      split
      · rw [Nat.max_eq_right (by omega)]
      · rw [Nat.max_eq_left (by omega)]
    · refine (ensures_allocateFileChunk _).bind fun n s₂ h₂ => ?_
      rcases h₂ with ⟨rfl, -⟩ | ⟨hn, data, fill, hNew⟩
      · exact .ite (fun _ => .pure fun _ _ hNone => by cases hNone) fun h => absurd rfl h
      · refine .ite (fun h => absurd h hn) fun _ =>
          Meets.bind (ensures_modifyChunk p _) fun _ s₃ h₃ => ?_
        obtain ⟨e, -, rfl⟩ := h₃
        refine Meets.bind (ensures_modifyChunk n _) fun _ s₄ h₄ =>
          .pure (roomFound_some fun _ e he => ?_)
        obtain ⟨k, hk, rfl⟩ := h₄
        rw [setChunk_chunks, Function.update_of_ne (hNew.fresh.ptr.ne_chunk hc), hNew.chunks,
          Function.update_self, Option.some.injEq] at hk
        subst hk
        rw [setChunk_chunks, Function.update_self, Option.some.injEq] at he
        subst he
        rw [if_neg hBeyond, if_pos hLast]
    · rw [if_neg hBeyond, if_neg hNext]
      exact ih

theorem Sound.writeSeek (len fuel : Nat) (h : Sound s.memory)
    (hRoom : ∀ used capacity, seekRoom s.memory len fuel offset p = some (used, capacity) →
      used ≤ capacity) :
    Ensures (writeSeek P len fuel offset p) s fun _ s' => Sound s'.memory := by
  induction fuel generalizing offset p with
  | zero => trivial
  | succ fuel ih =>
    rw [FileSystem.writeSeek]
    refine .ite (fun _ => .pure h) fun hPos => ensures_chunk fun c _ hc => ?_
    rw [seekRoom_succ hc, if_neg hPos] at hRoom
    refine .ite (fun hInside => ?_) fun hBeyond => .ite (fun hLast => ?_) fun hNext => ?_
    · refine (h.reworks (reworks_used p fun _ e he hUsed => ?_)).bind fun _ s₂ h₂ => .pure h₂
      obtain rfl := Option.mem_unique hc he
      split
      · exact Nat.le_of_lt hInside
      · exact hUsed
    · rw [if_neg hBeyond, if_pos hLast] at hRoom
      refine (ensures_allocateFileChunk _).bind fun n s₂ h₂ => ?_
      rcases h₂ with ⟨rfl, hSame⟩ | ⟨hn, data, fill, hNew⟩
      · exact .ite (fun _ => .pure (hSame.reworks.sound trivial h)) fun h => absurd rfl h
      · refine .ite (fun h => absurd h hn) fun _ => ?_
        refine (h.append hNew hc ⟨Nat.zero_le _, Nat.le_refl _⟩).bind fun _ s₃ h₃ => ?_
        refine (h₃.1.reworks (reworks_used n fun _ e he _ => ?_)).bind fun _ s₄ h₄ => .pure h₄
        obtain rfl := Option.mem_unique h₃.2 he
        exact hRoom _ _ rfl
    · rw [if_neg hBeyond, if_neg hNext] at hRoom
      exact ih hRoom

theorem writeStart_found (o : OpenFile) (f : DFile) (len : Nat) :
    Ensures (writeStart P o f len offset options) s
      (RoomFound (startRoom s.memory o f len offset options)) := by
  rw [writeStart, startRoom]
  refine .ite (fun hEmpty => ?_) fun hFull => .ite (fun hOffset => ?_) fun hCurrent =>
    .pure (roomFound_some fun _ c hc => ?_)
  · rw [if_pos hEmpty]
    refine (ensures_allocateFileChunk _).bind fun n s₁ h₁ => ?_
    refine Meets.bind (ensures_modifyFile_edits o.file _) fun _ s₂ h₂ =>
      .pure (roomFound_some fun hne c hc => ?_)
    rw [h₂.2.2.chunks] at hc
    rcases h₁ with ⟨hNull, -⟩ | ⟨-, data, fill, hNew⟩
    · exact absurd hNull hne
    · rw [hNew.chunks, Function.update_self, Option.some.injEq] at hc
      rw [← hc]
  · rw [if_neg hFull, if_pos hOffset]
    exact .after steps_ok (writeSeek_found _ _)
  · rw [if_neg hFull, if_neg hCurrent, hc]
    rfl

theorem Sound.writeStart (len : Nat) (h : Sound s.memory) (hf : s.memory.files o.file = some f)
    (hType : f.type = .file) (hRoom : ∀ used capacity, startRoom s.memory o f len offset options =
      some (used, capacity) → used ≤ capacity) :
    Ensures (writeStart P o f len offset options) s fun _ s' => Sound s'.memory := by
  rw [FileSystem.writeStart]
  refine .ite (fun hEmpty => ?_) fun hFull =>
    .ite (fun hOffset => .after steps_ok (h.writeSeek _ _ ?_)) fun _ => .pure h
  · refine (ensures_allocateFileChunk _).bind fun n s₁ h₁ => ?_
    rcases h₁ with ⟨rfl, hSame⟩ | ⟨_, data, fill, hNew⟩
    · exact (h.reworks (hSame.stays hf hEmpty.symm)).bind fun _ s₂ h₂ => .pure h₂
    · refine (h.reworks (hNew.first hf hType hEmpty fun _ => ?_)).bind fun _ s₂ h₂ => .pure h₂
      exact ⟨Nat.zero_le _, Nat.le_refl _⟩
  · rwa [startRoom, if_neg hFull, if_pos hOffset] at hRoom

end Start

section Calls

theorem writeFrom_agrees (fd : Int) (options : Nat) (i : Nat) (h : Sound s.memory)
    (hLen : bytes.length < 2 ^ 64)
    (hRoom : p ≠ 0 → ∀ c, s.memory.chunks p = some c → Admits bytes.length c.used c.capacity) :
    Agrees (writeFromChecked P fd bytes options p i) (writeFrom P fd bytes options p i) s := by
  refine (writeLoop_agrees _ h hLen hRoom).then fun current s₁ h₁ =>
    .ite (fun _ => ?_) fun _ => .pure h₁ _
  refine .bind ((readsOnly_getOpenFile fd) s₁) fun o s₂ hs₂ => ?_
  subst hs₂
  exact .bind (h₁.table fd _) fun _ s₃ h₃ => .pure h₃ _

theorem dandelionWrite_agrees {fd : Int} (h : Sound s.memory) (hLen : bytes.length < 2 ^ 64)
    (hStarts : StartsInside s fd bytes.length offset options) :
    Agrees (dandelionWriteChecked P fd bytes offset options)
      (dandelionWrite P fd bytes offset options) s := by
  rw [dandelionWriteChecked, dandelionWrite]
  refine .bind (ensures_getOpenFile fd) fun o s₁ hOpen => ?_
  obtain ⟨rfl, hRange, rfl⟩ := hOpen
  refine .ite (fun _ => .pure h _) fun hOpen => .bind (ensures_getFileAt _) fun f s₂ hRead => ?_
  obtain ⟨rfl, -, hf⟩ := hRead
  refine .ite (fun _ => .pure h _) fun _ => .ite (fun _ => .pure h _) fun hType => ?_
  have hRoom := hStarts f hf (not_not.mp hType) (not_or.mp hOpen).2
  have hStart := (h.writeStart bytes.length hf (not_not.mp hType) fun used capacity hEq =>
    (hRoom used capacity hEq).1).and
    (writeStart_found (P := P) _ f bytes.length)
  refine .bind hStart fun start s₃ h₃ => ?_
  cases start with
  | none => exact .pure h₃.1 _
  | some start =>
    have hFirst : start.1 ≠ 0 → ∀ c, s₃.memory.chunks start.1 = some c →
        Admits bytes.length c.used c.capacity :=
      fun hne c hc => hRoom _ _ (h₃.2 start c rfl hne hc)
    rw [writePlaceChecked, writePlace]
    refine .ite (fun _ => .bind (readsOnly_steps s₃) fun fuel s₄ hs₄ => ?_) fun _ =>
      writeFrom_agrees _ _ _ h₃.1 hLen hFirst
    subst hs₄
    refine .bind ((readsOnly_lastChunk _ _) s₄) fun last s₅ hs₅ => ?_
    subst hs₅
    refine .bind ((readsOnly_getChunkAt last) s₅) fun c s₆ hs₆ => ?_
    subst hs₆
    have hTable : ∀ o, Ensures (setOpenFile fd o) s₆ fun _ s' => s'.memory = s₆.memory := fun o =>
      .of_ok (setOpenFile_ok hRange o) rfl
    refine .bind (hTable _) fun _ s₇ hs₇ => ?_
    rw [← hs₇] at h₃ hFirst
    exact writeFrom_agrees _ _ _ h₃.1 hLen hFirst

/-- In sound memory a walk finds a chunk that is used within its capacity, if no size wraps
around. -/
theorem seekRoom_le {len fuel used capacity : Nat} (h : Fits m) (hLen : len < 2 ^ 31)
    (hOffset : offset < 2 ^ 63) (hRoom : seekRoom m len fuel offset p = some (used, capacity)) :
    used ≤ capacity := by
  induction fuel generalizing offset p with
  | zero => cases hRoom
  | succ fuel ih =>
    obtain ⟨c, hc, hRest⟩ := Option.bind_eq_some_iff.mp hRoom
    have hUsed := (h p c hc).2.1
    split at hRest
    · cases hRest
      exact hUsed
    split at hRest
    · cases hRest
      omega
    · rename_i hPos hBeyond
      rw [toSize_of_small (by omega) (by omega)] at hBeyond
      split at hRest
      · cases hRest
        -- the gap and the new bytes were asked for
        rw [toSize_of_small (by omega) (by omega), add64_of_lt (by omega)]
        simp only [chunkSize, fsChunkSize, add64, sub64, mul64]
        omega
      · exact ih (by omega) hRest

theorem Sound.startsInside {len : Nat} (h : Sound s.memory) (fd : Int) (options : Nat)
    (hLen : len < 2 ^ 31) (hOffset : offset < 2 ^ 63) :
    StartsInside s fd len offset options := by
  intro f _ _ _ used capacity hRoom
  refine admits_of_small ?_ hLen
  rw [startRoom] at hRoom
  split at hRoom
  · cases hRoom
    exact Nat.zero_le _
  split at hRoom
  · exact seekRoom_le h.fits hLen hOffset hRoom
  · obtain ⟨c, hc, hEq⟩ := Option.map_eq_some_iff.mp hRoom
    cases hEq
    exact (h.fits _ c hc).2.1

theorem writeLoopChecked_none (hp : p ≠ 0) (hc : s.memory.chunks p = some c)
    (hLe : c.used ≤ c.capacity) (hRoom : ¬ Admits bytes.length c.used c.capacity) :
    writeLoopChecked P bytes.length bytes p s = .ok (none, s) := by
  obtain ⟨hNarrow, hOver⟩ := not_admits hLe hRoom
  have hne : bytes ≠ [] := by
    rintro rfl
    exact hRoom ⟨hLe, Or.inr (Or.inl (Nat.zero_le _))⟩
  obtain ⟨k, hk⟩ := Nat.exists_eq_succ_of_ne_zero (Nat.ne_of_gt (List.length_pos_iff.mpr hne))
  rw [hk, writeLoopChecked, if_neg hne, bind_ok (getChunkAt_ok hp hc), if_neg hNarrow,
    if_neg (Nat.not_le_of_lt hOver)]
  rfl

end Calls

end Dandelion.FileSystem
