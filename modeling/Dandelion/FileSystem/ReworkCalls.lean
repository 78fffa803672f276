import Dandelion.FileSystem.Rework

/-! # The calls on content as sequences of changes

Reading, writing, seeking and truncating, for arbitrary arguments and wherever
the descriptors point to.
-/

namespace Dandelion.FileSystem

open Foundation.Triples Foundation.Words

variable {P : Platform} {s s' : State} {sized : Prop} {p : Ptr} {fd : Int} {o : OpenFile} {β : Type}

section Reading

theorem readsOnly_readSeek (fuel offset : Nat) (p : Ptr) : ReadsOnly (readSeek fuel offset p) := by
  induction fuel generalizing offset p with
  | zero => exact .fail _
  | succ fuel ih =>
    refine .ite (.pure _) (.ite (.pure _) ((readsOnly_getChunkAt p).bind fun c => ?_))
    exact .ite (ih _ _) (.pure _)

theorem ensures_readLoop (need : Int) (fuel : Nat) (read : Int) (stores : Stores) (p : Ptr)
    (offset : Nat) :
    Ensures (readLoop need fuel read stores p offset) s fun r s' => s' = s ∧ r.2.2.1 ≠ 0 := by
  induction fuel generalizing read stores p offset with
  | zero => trivial
  | succ fuel ih =>
    rw [readLoop]
    refine ensures_chunk fun c hp _ => ?_
    refine .ite (fun _ => ?_) fun _ => ?_
    · exact ((readsOnly_loadBytes _ _ _) s).bind fun _ s₂ hs₂ => .pure ⟨hs₂, hp⟩
    · refine (readsOnly_loadBytes _ _ _).seq fun _ => ?_
      exact .ite (fun _ => ih _ _ _ _) fun _ => .pure ⟨rfl, hp⟩

theorem readsOnly_readLoop (need : Int) (fuel : Nat) (read : Int) (stores : Stores) (p : Ptr)
    (offset : Nat) :
    ReadsOnly (readLoop need fuel read stores p offset) := fun _ =>
  (ensures_readLoop need fuel read stores p offset).imp fun _ _ h => h.1

theorem readsOnly_lastChunk (fuel : Nat) (p : Ptr) : ReadsOnly (lastChunk fuel p) := by
  induction fuel generalizing p with
  | zero => exact .fail _
  | succ fuel ih => exact (readsOnly_getChunkAt p).bind fun c => .ite (ih _) (.pure _)

theorem readFrom_reworks (len options : Nat) (p : Ptr) (offset : Nat)
    (h : o.refers = (s.openFiles fd.toNat).refers) :
    Ensures (readFrom fd o len options p offset) s fun _ s' => Reworks sized s s' := by
  rw [readFrom]
  refine .after steps_ok ((ensures_readLoop _ _ _ _ _ _).bind fun r s₁ h₁ => ?_)
  obtain ⟨rfl, hr⟩ := h₁
  refine .ite (fun _ => ?_) fun _ => .pure (.refl _)
  refine reworks_bind (reworks_setOpenFile ⟨h, fun _ hZero => ?_⟩) fun _ s' _ => .pure (.refl _)
  exact absurd hZero hr

theorem dandelionRead_reworks (fd : Int) (len : Nat) (offset : Int) (options : Nat) :
    Reworking True (dandelionRead P fd len offset options) := by
  intro s
  rw [dandelionRead]
  refine ensures_open fun hRange => ?_
  refine .ite (fun _ => .pure (.refl _)) fun _ => ensures_file fun f _ _ => ?_
  refine .ite (fun _ => .pure (.refl _)) fun _ => .ite (fun _ => .pure (.refl _)) fun _ => ?_
  refine .ite (fun _ => .pure (.refl _)) fun _ => .ite (fun _ => ?_) fun _ =>
    .ite (fun _ => ?_) fun _ => ?_
  · refine .ite (fun _ => .pure (.refl _)) fun _ => .after steps_ok ?_
    refine (readsOnly_readSeek _ _ _).seq fun place => ?_
    cases place with
    | none => exact .pure (.refl _)
    | some place => exact readFrom_reworks len options place.1 place.2 rfl
  · refine .ite (fun _ => ?_) fun _ => ?_
    · refine reworks_bind (reworks_setOpenFile ⟨rfl, fun _ _ => rfl⟩) fun _ s' h => ?_
      exact readFrom_reworks len options _ _ (h.2 _).refers.symm
    · exact reworks_bind (reworks_setOpenFile ⟨rfl, fun _ _ => rfl⟩) fun _ s' _ => .pure (.refl _)
  · exact readFrom_reworks len options _ _ rfl

end Reading

section Writing

theorem storeBytes_chunks (p offset : Nat) (bytes : List UInt8) :
    Ensures (storeBytes p offset bytes) s fun _ s' => s'.memory.chunks = s.memory.chunks := by
  rw [storeBytes]
  refine .ite (fun _ => .pure rfl) fun _ =>
    (ensures_readAt Memory.blocks _).bind fun b s₁ hRead => ?_
  obtain ⟨rfl, _, _⟩ := hRead
  exact .ite (fun _ => rfl) fun _ => trivial

theorem reworks_writePart (p : Ptr) (bytes : List UInt8) (count : Nat)
    (h : sized → ∀ c, s.memory.chunks p = some c → c.used + count ≤ c.capacity) :
    Ensures (writePart p bytes count) s fun _ s' => Reworks sized s s' := by
  rw [writePart]
  refine (readsOnly_getChunkAt p).seq fun c => ?_
  have hStore : Reworking sized (storeBytes c.data c.used (bytes.take count)) :=
    reworking_storeBytes _ _ _
  refine ((hStore s).and (storeBytes_chunks _ _ _)).bind fun _ s₂ h₂ => ?_
  refine h₂.1.then (reworks_used p fun hSized e he _ => ?_)
  exact Nat.le_trans (Nat.mod_le _ _) (h hSized e (h₂.2 ▸ he))

theorem Provides.append {n : Ptr} {c k : FileChunk} {b : Block} (h : Provides s s' n k b)
    (hc : s.memory.chunks p = some c) (hFits : sized → k.FitsIn b) :
    Ensures (modifyChunk p fun c => { c with next := n }) s' fun _ s'' =>
      Reworks sized s s'' ∧ s''.memory.chunks n = some k := by
  refine (ensures_modifyChunk p _).imp fun _ s'' hs'' => ?_
  have hne := (h.fresh.ptr.ne_chunk hc).symm
  obtain ⟨c', hc', rfl⟩ := hs''
  rw [h.chunks, Function.update_of_ne hne, hc] at hc'
  obtain rfl := Option.some.inj hc'
  rw [setChunk_chunks, h.chunks]
  refine ⟨Rework.reworks (.append hc h.fresh hFits h.files ?_ h.blocks) h.openFiles, ?_⟩
  · rw [setChunk_chunks, h.chunks]
  · rw [Function.update_of_ne hne.symm, Function.update_self]

theorem getChunkAt_null : getChunkAt 0 s = .error .null := rfl

/-- A place without a chunk is at the start. -/
def Grounds (place : Option (Ptr × Nat)) : Prop :=
  ∀ start, place = some start → start.1 = 0 → start.2 = 0

theorem grounds_some {start : Ptr × Nat} (h : start.1 = 0 → start.2 = 0) :
    Grounds (some start) := by
  intro start' hEq
  exact Option.some.inj hEq ▸ h

theorem writeSeek_reworks (len fuel : Nat) (offset : Int) (p : Ptr) :
    Ensures (writeSeek P len fuel offset p) s fun r s' => Reworks False s s' ∧ Grounds r := by
  induction fuel generalizing offset p with
  | zero => trivial
  | succ fuel ih =>
    rw [writeSeek]
    refine .ite (fun _ => .pure ⟨.refl _, grounds_some fun _ => rfl⟩) fun _ => ?_
    refine ensures_chunk fun c hp hc => ?_
    refine .ite (fun _ => ?_) fun _ => .ite (fun _ => ?_) fun _ => ih _ _
    · refine (reworks_used p False.elim).bind fun _ s₂ h₂ =>
        .pure ⟨h₂, grounds_some fun hZero => ?_⟩
      exact absurd hZero hp
    · refine (ensures_allocateFileChunk _).bind fun n s₂ h₂ => ?_
      rcases h₂ with ⟨rfl, hSame⟩ | ⟨hn, data, fill, hNew⟩
      · exact .ite (fun _ => .pure ⟨hSame.reworks, fun _ h => by cases h⟩) fun h => absurd rfl h
      · refine .ite (fun h => absurd h hn) fun _ =>
          (hNew.append hc False.elim).bind fun _ s₃ h₃ => ?_
        refine (reworks_used n False.elim).bind fun _ s₄ h₄ =>
          .pure ⟨h₃.1.trans h₄, grounds_some fun hZero => ?_⟩
        exact absurd hZero hn

theorem writeLoop_reworks (fuel : Nat) (bytes : List UInt8) (p : Ptr) :
    Ensures (writeLoop P fuel bytes p) s fun r s' => Reworks False s s' ∧ (r = 0 → p = 0) := by
  induction fuel generalizing bytes p s with
  | zero =>
    rw [writeLoop]
    exact Meets.ite (fun _ => .pure ⟨.refl _, fun h => h⟩) fun _ => trivial
  | succ fuel ih =>
    by_cases hne : bytes = []
    · refine .of_ok (show writeLoop P (fuel + 1) bytes p s = .ok (p, s) from ?_)
        ⟨.refl s, fun h => h⟩
      rw [writeLoop, if_pos hne]
      rfl
    rcases getChunkAt_cases (s := s) p with ⟨e, he⟩ | ⟨c, hp, hc⟩
    · refine .of_error (e := e) ?_ trivial
      rw [writeLoop, if_neg hne, bind_error he]
    by_cases hRoom : toInt32 (Foundation.Words.sub64 c.capacity c.used) = 0
    · refine .of_eq (by rw [writeLoop, if_neg hne, bind_ok (getChunkAt_ok hp hc), if_pos hRoom]) ?_
      refine (ensures_allocateFileChunk _).bind fun n s₂ h₂ => ?_
      rcases h₂ with ⟨rfl, hSame⟩ | ⟨hn, data, fill, hNew⟩
      · -- the null pointer is followed right away
        exact .after_any fun _ s₃ => .after_error getChunkAt_null trivial
      · refine (hNew.append hc False.elim).bind fun _ s₃ h₃ => ?_
        refine (readsOnly_getChunkAt n).seq fun c => ?_
        refine (reworks_writePart n _ _ False.elim).bind fun _ s₅ h₅ =>
          (ih _ n).imp fun r s' h => ?_
        exact ⟨h₃.1.trans (h₅.trans h.1), fun hZero => absurd (h.2 hZero) hn⟩
    · refine .of_eq (by rw [writeLoop, if_neg hne, bind_ok (getChunkAt_ok hp hc), if_neg hRoom]) ?_
      refine (reworks_writePart p _ _ False.elim).bind fun _ s₂ h₂ => (ih _ p).imp fun r s' h => ?_
      exact ⟨h₂.trans h.1, h.2⟩

theorem writeFrom_reworks (bytes : List UInt8) (options : Nat) {offset : Nat}
    (h : p = 0 → offset = 0) :
    Reworking False (writeFrom P fd bytes options p offset) := by
  intro s
  refine (writeLoop_reworks _ _ _).bind fun current s₁ h₁ => .ite (fun _ => ?_) fun _ => .pure h₁.1
  refine ensures_open fun _ => ?_
  refine h₁.1.then (reworks_bind (reworks_setOpenFile ⟨rfl, fun _ hZero => ?_⟩) fun _ s₃ _ =>
    .pure (.refl _))
  exact h (h₁.2 hZero)

theorem writePlace_reworks (bytes : List UInt8) (options : Nat) {place : Option (Ptr × Nat)}
    (hPlace : Grounds place) (h : o.refers = (s.openFiles fd.toNat).refers) :
    Ensures (writePlace P fd o bytes options place) s fun _ s' => Reworks False s s' := by
  cases place with
  | none => exact .pure (.refl _)
  | some start =>
    have hFrom : Reworking False (writeFrom P fd bytes options start.1 start.2) :=
      writeFrom_reworks bytes options (hPlace start rfl)
    rw [writePlace]
    refine .ite (fun _ => .after steps_ok ?_) fun _ => hFrom s
    refine (readsOnly_lastChunk _ _).seq fun last => ?_
    refine ensures_chunk fun c hLast _ => ?_
    refine reworks_bind (reworks_setOpenFile ⟨h, fun _ hZero => ?_⟩) fun _ s' _ => hFrom s'
    exact absurd hZero hLast

theorem Provides.first {n : Ptr} {k : FileChunk} {b : Block} {f : DFile} (h : Provides s s' n k b)
    (hf : s.memory.files p = some f) (hType : f.type = .file) (hLink : f.link = 0)
    (hFits : sized → k.FitsIn b) :
    Ensures (modifyFile p fun f => { f with link := n }) s' fun _ s'' => Reworks sized s s'' := by
  rw [modifyFile]
  refine ensures_file fun f' _ hf' => ?_
  rw [h.files, hf] at hf'
  obtain rfl := Option.some.inj hf'
  refine Rework.reworks (.first hf hType hLink h.fresh hFits ?_ h.chunks h.blocks) h.openFiles
  change Function.update s'.memory.files p _ = _
  rw [h.files]

/-- Without memory an empty file stays empty. -/
theorem Same.stays {n : Ptr} {f : DFile} (h : Same s s') (hf : s.memory.files p = some f)
    (hn : n = f.link) :
    Ensures (modifyFile p fun f => { f with link := n }) s' fun _ s'' => Reworks sized s s'' := by
  refine (ensures_modifyFile_edits p _).imp fun _ s'' hs'' => ?_
  obtain ⟨_, _, hEdit⟩ := hs''
  refine Rework.reworks (.rest ?_ (hEdit.chunks.trans h.chunks) (hEdit.blocks.trans h.blocks))
    (hEdit.openFiles.trans h.openFiles)
  funext q
  rw [hEdit.files, h.files]
  by_cases hq : q = p
  · rw [hq, hf, Option.map_some, editAt, if_pos rfl, hn]
  · cases hq' : s.memory.files q with
    | none => rfl
    | some e => rw [Option.map_some, editAt, if_neg hq]

theorem writeStart_reworks {f : DFile} (len : Nat) (offset : Int) (options : Nat)
    (hf : s.memory.files o.file = some f) (hType : f.type = .file) :
    Ensures (writeStart P o f len offset options) s fun r s' => Reworks False s s' ∧ Grounds r := by
  rw [writeStart]
  refine .ite (fun hLink => ?_) fun _ =>
    .ite (fun _ => .after steps_ok (writeSeek_reworks _ _ _ _)) fun _ =>
    .pure ⟨.refl _, grounds_some fun _ => rfl⟩
  refine (ensures_allocateFileChunk _).bind fun n s₁ h₁ => ?_
  have hFirst : Ensures (modifyFile o.file fun f => { f with link := n }) s₁ fun _ s₂ =>
    Reworks False s s₂ := by
    rcases h₁ with ⟨rfl, hSame⟩ | ⟨_, data, fill, hNew⟩
    · exact hSame.stays hf hLink.symm
    · exact hNew.first hf hType hLink False.elim
  exact hFirst.bind fun _ s₂ h₂ => .pure ⟨h₂, grounds_some fun _ => rfl⟩

theorem dandelionWrite_reworks (fd : Int) (bytes : List UInt8) (offset : Int) (options : Nat) :
    Reworking False (dandelionWrite P fd bytes offset options) := by
  intro s
  rw [dandelionWrite]
  refine ensures_open fun _ => ?_
  refine .ite (fun _ => .pure (.refl _)) fun _ => ensures_file fun f _ hf => ?_
  refine .ite (fun _ => .pure (.refl _)) fun _ => .ite (fun _ => .pure (.refl _)) fun hType => ?_
  refine (writeStart_reworks _ _ _ hf (not_not.mp hType)).bind fun start s₃ h₃ => ?_
  exact h₃.1.then (writePlace_reworks _ _ h₃.2 (h₃.1.2 _).refers.symm)

end Writing

section Seeking

theorem ensures_seekCurrent (target : Ptr) (offset fuel : Nat) (total : Int) (p : Ptr) :
    Ensures (seekCurrent target offset fuel total p) s fun r s' => s' = s ∧ (p = 0 → r.1 = 0) := by
  induction fuel generalizing total p with
  | zero => trivial
  | succ fuel ih =>
    rw [seekCurrent]
    refine .ite (fun _ => .pure ⟨rfl, fun _ => rfl⟩) fun hp =>
      (readsOnly_getChunkAt p).seq fun c => ?_
    refine .ite (fun _ => ?_) fun _ => .pure ⟨rfl, fun hZero => absurd hZero hp⟩
    exact (ih _ _).imp fun _ _ h => ⟨h.1, fun hZero => absurd hZero hp⟩

theorem ensures_seekBack (fuel needed : Nat) (p : Ptr) :
    Ensures (seekBack fuel needed p) s fun r s' => s' = s ∧ r.1 ≠ 0 := by
  induction fuel generalizing needed p with
  | zero => trivial
  | succ fuel ih =>
    rw [seekBack]
    refine ensures_chunk fun c hp _ => ?_
    exact .ite (fun _ => ih _ _) fun _ => .pure ⟨rfl, hp⟩

theorem ensures_seekLast (fuel : Nat) (total : Int) (p : Ptr) :
    Ensures (seekLast fuel total p) s fun r s' => s' = s ∧ r.1 ≠ 0 := by
  induction fuel generalizing total p with
  | zero => trivial
  | succ fuel ih =>
    rw [seekLast]
    refine ensures_chunk fun c hp _ => ?_
    exact .ite (fun _ => .pure ⟨rfl, hp⟩) fun _ => ih _ _

theorem ensures_seekForward (fuel advance offset : Nat) (total : Int) (p : Ptr) (inside : Nat) :
    Ensures (seekForward fuel advance offset total p inside) s fun r s' =>
      s' = s ∧ r.1 ≠ 0 ∧ (∃ c, s.memory.chunks r.1 = some c) ∧ r.2.2.2.1 ≤ offset := by
  induction fuel generalizing advance offset total p inside with
  | zero => trivial
  | succ fuel ih =>
    rw [seekForward]
    refine ensures_chunk fun c hp hc => ?_
    refine .ite (fun _ => ?_) fun _ => .pure ⟨rfl, hp, ⟨c, hc⟩, Nat.le_refl _⟩
    refine (readsOnly_getChunkAt _).seq fun n => ?_
    exact (ih _ _ _ _ _).imp fun _ _ h =>
      ⟨h.1, h.2.1, h.2.2.1, Nat.le_trans h.2.2.2 (Nat.sub_le _ _)⟩

/-- Where a gap can be hung: behind a chunk, or in an empty file. -/
def Hook (m : Memory) (file p : Ptr) : Prop :=
  p ≠ 0 ∧ (∃ c, m.chunks p = some c) ∨ p = 0 ∧ ∃ f, m.files file = some f ∧ f.type = .file ∧
    f.link = 0

theorem Provides.attach {file n : Ptr} {k : FileChunk} {b : Block} (h : Provides s s' n k b)
    (hHook : Hook s.memory file p) (hFits : sized → k.FitsIn b) :
    Ensures (attachChunk file p n) s' fun _ s'' => Reworks sized s s'' := by
  rw [attachChunk]
  rcases hHook with ⟨hp, c, hc⟩ | ⟨hp, f, hf, hType, hLink⟩
  · refine .ite (fun h => absurd h hp) fun _ => ?_
    exact (h.append hc hFits).imp fun _ _ h => h.1
  · exact .ite (fun _ => h.first hf hType hLink hFits) fun hne => absurd hp hne

theorem seekFinish_reworks {inside offset : Nat} (total : Int) (hHook : Hook s.memory o.file p)
    (hStart : p = 0 → inside = 0) (hOffset : sized → offset < 2 ^ 63)
    (hTable : o.refers = (s.openFiles fd.toNat).refers) :
    Ensures (seekFinish P fd o p inside offset total) s fun _ s' => Reworks sized s s' := by
  rw [seekFinish]
  refine .ite (fun _ => ?_) fun _ => ?_
  · exact reworks_bind (reworks_setOpenFile ⟨hTable, fun _ hZero => hStart hZero⟩) fun _ s' _ =>
      .pure (.refl _)
  refine (ensures_allocateFileChunk _).bind fun n s₁ h₁ => ?_
  rcases h₁ with ⟨rfl, hSame⟩ | ⟨hn, data, fill, hNew⟩
  · exact .ite (fun _ => .pure hSame.reworks) fun h => absurd rfl h
  · refine .ite (fun h => absurd h hn) fun _ => (hNew.resize offset).bind fun _ s₂ h₂ => ?_
    refine reworks_bind (h₂.attach hHook fun hSized =>
      ⟨chunkSize_ge (hOffset hSized), Nat.le_refl _⟩) fun _ s₃ h₃ => ?_
    have hTable' := hTable.trans (h₃.2 fd.toNat).refers.symm
    exact reworks_bind (reworks_setOpenFile ⟨hTable', fun _ hZero => absurd hZero hn⟩) fun _ s₄ _ =>
      .pure (.refl _)

theorem seekFrom_reworks {f : DFile} {offset : Int} {inside : Nat} (total : Int)
    (hf : s.memory.files o.file = some f) (hType : f.type = .file)
    (hEmpty : p = 0 → f.link = 0 ∧ inside = 0) (hOffset : sized → offset < 2 ^ 63)
    (hTable : o.refers = (s.openFiles fd.toNat).refers) :
    Ensures (seekFrom P fd o f offset p inside total) s fun _ s' => Reworks sized s s' := by
  rw [seekFrom]
  refine .ite (fun _ => .ite (fun _ => .pure (.refl _)) fun _ => ?_) fun _ =>
    .ite (fun _ => ?_) fun hp => ?_
  · refine .after steps_ok ((ensures_seekBack _ _ _).bind fun r s₁ h₁ => ?_)
    obtain ⟨rfl, hr⟩ := h₁
    exact reworks_bind (reworks_setOpenFile ⟨hTable, fun _ hZero => absurd hZero hr⟩) fun _ s' _ =>
      .pure (.refl _)
  · refine (readsOnly_getChunkAt p).seq fun c => ?_
    refine .after steps_ok ((ensures_seekForward _ _ _ _ _ _).bind fun r s₂ h₂ => ?_)
    obtain ⟨rfl, hr, hc, hLeft⟩ := h₂
    refine seekFinish_reworks _ (Or.inl ⟨hr, hc⟩) (fun hZero => absurd hZero hr)
      (fun hSized => ?_) hTable
    have hBound := hOffset hSized
    exact Nat.lt_of_le_of_lt (Nat.le_trans (Nat.sub_le _ _) hLeft) (by omega)
  · obtain ⟨hLink, hInside⟩ := hEmpty (not_not.mp hp)
    refine seekFinish_reworks _ (Or.inr ⟨rfl, f, hf, hType, hLink⟩) (fun _ => hInside)
      (fun hSized => ?_) hTable
    have hBound := hOffset hSized
    omega

theorem dandelionLseek_reworks (fd : Int) (offset : Int) (whence : Nat) :
    Reworking (offset < 2 ^ 63) (dandelionLseek P fd offset whence) := by
  intro s
  rw [dandelionLseek]
  refine ensures_open fun _ => ?_
  refine .ite (fun _ => .pure (.refl _)) fun _ => ensures_file fun f _ hf => ?_
  refine .ite (fun _ => .pure (.refl _)) fun hType => ?_
  rw [not_not] at hType
  refine .ite (fun _ => seekFrom_reworks _ hf hType (fun h => ⟨h, rfl⟩) (fun h => h) rfl)
    fun _ => ?_
  refine .ite (fun _ => .after steps_ok ?_) fun _ =>
    .ite (fun _ => .after steps_ok ?_) fun _ => .pure (.refl _)
  · refine (ensures_seekCurrent _ _ _ _ _).bind fun r s₃ h₃ => ?_
    obtain ⟨rfl, hr⟩ := h₃
    refine seekFrom_reworks _ hf hType (fun h => ?_) (fun h => h) rfl
    split at h
    · exact ⟨h, hr h⟩
    · rename_i hCurrent
      exact absurd h hCurrent
  · refine (ensures_seekLast _ _ _).bind fun r s₃ h₃ => ?_
    obtain ⟨rfl, hr⟩ := h₃
    refine (readsOnly_getChunkAt _).seq fun c => ?_
    exact seekFrom_reworks _ hf hType (fun h => absurd h hr) (fun h => h) rfl

end Seeking

section Cutting

theorem ensures_dandelionFree (p : Ptr) :
    Ensures (dandelionFree p) s fun _ s' => s.memory.allocated p = true ∧
      s' = { s with memory := s.memory.drop p } := by
  by_cases h : s.memory.allocated p = true
  · exact .of_ok (if_pos h) ⟨h, rfl⟩
  · exact .of_error (if_neg h) trivial

theorem release_reworks {c : FileChunk} (hc : s.memory.chunks p = some c) {k : M β}
    (hk : Reworking sized k) :
    Ensures (do dandelionFree c.data; dandelionFree p; k) s fun _ s' => Reworks sized s s' := by
  refine (ensures_dandelionFree c.data).bind fun _ s₁ h₁ => ?_
  obtain ⟨_, rfl⟩ := h₁
  refine (ensures_dandelionFree p).bind fun _ s₂ h₂ => ?_
  obtain ⟨_, rfl⟩ := h₂
  refine (hk _).imp fun _ s' h => ?_
  have hStep : Rework sized s.memory ((s.memory.drop c.data).drop p) := .release hc rfl rfl rfl
  exact ⟨.head hStep h.1, h.2⟩

theorem freeChunksFrom_reworks (fuel : Nat) (p : Ptr) :
    Reworking sized (freeChunksFrom fuel p) := by
  induction fuel generalizing p with
  | zero => exact (ReadsOnly.fail _).reworking
  | succ fuel ih =>
    intro s
    rw [freeChunksFrom]
    refine .ite (fun _ => .pure (.refl _)) fun _ => ensures_chunk fun c _ hc => ?_
    exact release_reworks hc (ih _)

theorem freeFileChunks_reworks (p : Ptr) : Reworking True (freeFileChunks p) :=
  readsOnly_steps.reworking.bind fun fuel => freeChunksFrom_reworks fuel p

theorem freeCut_reworks (fuel : Nat) (p : Ptr) : Reworking sized (freeCut fuel p) :=
  freeCut_eq ▸ freeChunksFrom_reworks fuel p

theorem modifyChunk_null (g : FileChunk → FileChunk) : modifyChunk 0 g s = .error .null := rfl

theorem truncateFrom_reworks (fuel : Nat) {remaining : Nat} (p : Ptr)
    (h : sized → remaining < 2 ^ 63) :
    Reworking sized (truncateFrom P fuel remaining p) := by
  induction fuel generalizing remaining p with
  | zero => exact (ReadsOnly.fail _).reworking
  | succ fuel ih =>
    intro s
    rw [truncateFrom]
    refine ensures_chunk fun c _ hc => ?_
    have hRest : sized → remaining - c.used < 2 ^ 63 :=
      fun hSized => Nat.lt_of_le_of_lt (Nat.sub_le _ _) (h hSized)
    refine .ite (fun hCut => ?_) fun _ => .ite (fun _ => ?_) fun _ => ih _ hRest s
    · refine reworks_bind (reworks_used p fun _ e he hUsed => ?_) fun _ s₂ _ => .after steps_ok ?_
      · obtain rfl := Option.mem_unique hc he
        exact Nat.le_trans hCut hUsed
      · exact reworks_bind (freeCut_reworks _ _ s₂) fun _ s₃ _ => .pure (.refl _)
    · refine (ensures_allocateFileChunk _).bind fun n s₂ h₂ => ?_
      rcases h₂ with ⟨rfl, _⟩ | ⟨_, data, fill, hNew⟩
      · exact .after_any fun _ s₃ => .after_error (modifyChunk_null _) trivial
      · refine (hNew.append hc fun (_ : sized) => ⟨Nat.zero_le _, Nat.le_refl _⟩).bind
          fun _ s₃ h₃ => ?_
        refine (reworks_used n fun hSized e he _ => ?_).bind fun _ s₄ h₄ => .pure (h₃.1.trans h₄)
        obtain rfl := Option.mem_unique h₃.2 he
        exact chunkSize_ge (hRest hSized)

theorem truncateNode_reworks (file : Ptr) (length : Int) :
    Reworking (length < 2 ^ 63) (truncateNode P file length) := by
  refine .ite (.pure _) ((readsOnly_getFileAt file).reworking.bind fun f => .ite (.pure _) ?_)
  exact readsOnly_steps.reworking.bind fun fuel => truncateFrom_reworks _ _ fun h => by omega

theorem dandelionFtruncate_reworks (fd length : Int) :
    Reworking (length < 2 ^ 63) (dandelionFtruncate P fd length) := by
  refine (readsOnly_getOpenFile fd).reworking.bind fun o => ?_
  exact .ite (.pure _) (.ite (.pure _) (truncateNode_reworks _ _))

theorem dandelionTruncate_reworks (path : List UInt8) (length : Int) :
    Reworking (length < 2 ^ 63) (dandelionTruncate P path length) :=
  (readsOnly_findFile path).reworking.bind fun _ => .ite (.pure _) (truncateNode_reworks _ _)

end Cutting

end Dandelion.FileSystem
