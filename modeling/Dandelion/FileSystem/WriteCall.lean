import Dandelion.FileSystem.WriteStart

/-! # What a write does to the files

The pieces of the file after a completed `dandelion_write`, in both modes, and the
one piece of what was there before that has changed.
-/

namespace Dandelion.FileSystem

open Foundation.Triples

/-- A descriptor of a regular file that is not opened for appending. -/
structure WritableAt (s : State) (fd : Int) (o : OpenFile) (f : DFile) : Prop where
  range : 0 ≤ fd ∧ fd < fsMaxFiles
  entry : s.openFiles fd.toNat = o
  opened : o.file ≠ 0
  node : s.memory.files o.file = some f
  regular : f.type = .file
  access : hasBit o.openFlags oAPPEND = false

variable {P : Platform} {s : State} {fd : Int} {o : OpenFile} {f : DFile}
  {bytes : List UInt8} {n : Nat} {a l t : List Piece} {x z : Piece} {offset : Int}

section Copy

theorem dandelionWrite_from {options : Nat} {place : Ptr × Nat} {s₁ : State}
    (h : WritableAt s fd o f)
    (hStart : writeStart P o f bytes.length offset options s = .ok (some place, s₁)) :
    dandelionWrite P fd bytes offset options s =
      writeFrom P fd bytes options place.1 place.2 s₁ := by
  have hAccess : hasBit o.openFlags oRDONLY = false := by simp [hasBit, oRDONLY]
  rw [dandelionWrite, bind_ok (getOpenFile_ok h.range), h.entry,
    if_neg (by simp [h.opened, hAccess]), bind_ok (getFileAt_ok h.opened h.node),
    if_neg (by simp [h.regular]), if_neg (by simp [h.regular]), bind_ok hStart, writePlace,
    if_neg (by simp [h.access])]

theorem writeFrom_stays {current last : Ptr} {i : Nat} {s' : State}
    (hLoop : writeLoop P bytes.length bytes current s = .ok (last, s')) :
    writeFrom P fd bytes useOffset current i s = .ok ((bytes.length : Int), s') := by
  rw [writeFrom, bind_ok hLoop, if_neg (by decide)]
  rfl

theorem writeFrom_moves {current last : Ptr} {i : Nat} {s' : State}
    (hRange : 0 ≤ fd ∧ fd < fsMaxFiles)
    (hLoop : writeLoop P bytes.length bytes current s = .ok (last, s')) :
    writeFrom P fd bytes moveOffset current i s = .ok ((bytes.length : Int), { s' with
      openFiles := Function.update s'.openFiles fd.toNat
        { s'.openFiles fd.toNat with currentChunk := last, offset := i } }) := by
  rw [writeFrom, bind_ok hLoop, if_pos (by decide), bind_ok (getOpenFile_ok hRange),
    bind_ok (setOpenFile_ok hRange _)]
  rfl

theorem Appends.flat_eq {l' : List Piece} (h : Appends a x t bytes l' z) :
    flat l' = flat a ++ x.bytes ++ bytes ++
      (if Takes x.chunk.room bytes.length then flat t else []) := by
  cases h with
  | fits hTakes =>
    rw [if_pos hTakes]
    simp [Piece.append]
  | spills ptr data hNot =>
    rw [if_neg hNot]
    simp [Piece.append, Piece.linked, Piece.fresh]

end Copy

section Modes

theorem dandelionWrite_use (hGrants : P.Grants) (h : WritableAt s fd o f)
    (hl : Filed s.memory f.link l) (hn : n < 2 ^ 63) (hLen : bytes.length < 2 ^ 31)
    (hne : bytes ≠ []) :
    ∃ a x t l' z link s', StartsAt P s bytes.length l n a x t ∧ Appends a x t bytes l' z ∧
      dandelionWrite P fd bytes n useOffset s = .ok ((bytes.length : Int), s') ∧
      s'.openFiles = s.openFiles ∧
      s'.memory.files = Function.update s.memory.files o.file (some { f with link := link }) ∧
      Filed s'.memory link l' ∧ Changes s.memory s'.memory l l' ∧
      Spares s.memory s'.memory (touched l n) := by
  obtain ⟨a, x, t, r, s₁, hStart, hStarts, -, hSpares, hOrigin, hOpen₁, ⟨link, hFiles₁, hFiled₁⟩,
      hChanges₁⟩ :=
    writeStart_use (fun _ => hGrants.pair _) h.opened h.node
      (show hasBit useOffset useOffset = true by decide) hl hn (by omega)
      fun _ => Nat.add_pos_right _ (List.length_pos_iff.mpr hne)
  obtain ⟨l', z, s', hAppends, hLoop, hOpen, hFiles, hOnly, hFiled, hChanges⟩ :=
    writeLoop_short (fun _ => hGrants.pair _) hFiled₁ hne hLen
  rw [hFiles₁] at hFiles
  refine ⟨a, x, t, l', z, link, s', hStarts, hAppends, ?_, hOpen.trans hOpen₁, hFiles, hFiled,
    hChanges₁.trans hChanges, hSpares.only hOnly hOrigin⟩
  rw [dandelionWrite_from h hStart, writeFrom_stays hLoop]

theorem dandelionWrite_first (offset : Int) (hGrants : P.Grants) (h : WritableAt s fd o f)
    (hLink : f.link = 0) (hLen : bytes.length < 2 ^ 31) (hne : bytes ≠ []) :
    ∃ ptr data l' z link s',
      Appends [] (.fresh ptr data (chunkSize bytes.length) []) [] bytes l' z ∧
      dandelionWrite P fd bytes offset moveOffset s = .ok ((bytes.length : Int), s') ∧
      s'.openFiles =
        Function.update s.openFiles fd.toNat { o with currentChunk := z.ptr, offset := 0 } ∧
      s'.memory.files = Function.update s.memory.files o.file (some { f with link := link }) ∧
      Filed s'.memory link l' ∧ Changes s.memory s'.memory [] l' := by
  have hSize := chunkSize_pos (List.length_pos_iff.mpr hne) (Nat.lt_trans hLen (by decide))
  obtain ⟨ptr, data, s₁, hStart, -, -, hOpen₁, ⟨link, hFiles₁, hFiled₁⟩, hChanges₁⟩ :=
    writeStart_empty (s := s) moveOffset offset (hGrants.pair _) h.opened h.node hLink
      (by rw [if_neg (by decide)]) hSize
  obtain ⟨l', z, s', hAppends, hLoop, hOpen, hFiles, -, hFiled, hChanges⟩ :=
    writeLoop_short (fun _ => hGrants.pair _) hFiled₁ hne hLen
  rw [hFiles₁] at hFiles
  have hWrite := (dandelionWrite_from h hStart).trans (writeFrom_moves (i := 0) h.range hLoop)
  refine ⟨ptr, data, l', z, link, _, hAppends, hWrite, ?_, hFiles, hFiled,
    hChanges₁.trans hChanges⟩
  simp only [hOpen, hOpen₁, h.entry]

theorem dandelionWrite_move (offset : Int) (hGrants : P.Grants) (h : WritableAt s fd o f)
    (hl : Filed s.memory f.link (a ++ x :: t))
    (hx : x.ptr = if o.currentChunk = 0 then f.link else o.currentChunk)
    (hLen : bytes.length < 2 ^ 31) (hne : bytes ≠ []) :
    ∃ l' z s', Appends a x t bytes l' z ∧
      dandelionWrite P fd bytes offset moveOffset s = .ok ((bytes.length : Int), s') ∧
      s'.openFiles =
        Function.update s.openFiles fd.toNat { o with currentChunk := z.ptr, offset := 0 } ∧
      s'.memory.files = s.memory.files ∧ Filed s'.memory f.link l' ∧
      Changes s.memory s'.memory (a ++ x :: t) l' := by
  have hLink : f.link ≠ 0 := by
    intro hZero
    rw [hZero] at hl
    have hNil := congrArg List.length (hl.unique Filed.nil)
    simp at hNil
  have hStart := writeStart_move (P := P) (s := s) (o := o) bytes.length offset hLink
    (show hasBit moveOffset useOffset = false by decide)
  rw [← hx] at hStart
  obtain ⟨l', z, s', hAppends, hLoop, hOpen, hFiles, -, hFiled, hChanges⟩ :=
    writeLoop_short (fun _ => hGrants.pair _) hl hne hLen
  have hWrite := (dandelionWrite_from h hStart).trans (writeFrom_moves (i := 0) h.range hLoop)
  refine ⟨l', z, _, hAppends, hWrite, ?_, hFiles, hFiled, hChanges⟩
  simp only [hOpen, h.entry]

end Modes

end Dandelion.FileSystem
