import Dandelion.FileSystem.ReadMoves

/-! # The read law

When `dandelion_read` returns the bytes from a position on, as many as there are
and fit, and stores nothing else. It does so exactly when all that remains fits
into the buffer, or the chunk at the position has more bytes left than that.
-/

namespace Dandelion.FileSystem

open Foundation.Triples Foundation.Runs

variable {P : Platform} {s : State} {fd : Int} {o : OpenFile} {f : DFile} {m : Memory} {len : Nat}

section Positioned

variable {l a b : List Piece} {z : Piece} {offset : Int} {n : Nat}

def Kept (s : State) (fd : Int) (f : DFile) (l : List Piece) (s' : State) : Prop :=
  content s'.memory f.link = some (flat l) ∧ s'.openFiles fd.toNat = s.openFiles fd.toNat

theorem readFrom_stays_iff {i : Nat} (hRange : 0 ≤ fd ∧ fd < fsMaxFiles) (hWords : s.memory.Words)
    (h : Stored s.memory f.link l) (hSplit : l = a ++ z :: b) (hi : i ≤ z.chunk.used)
    (hn : n = (flat a).length + i) (hLen : len < 2 ^ 31) :
    Reads (readFrom fd o len useOffset z.ptr i) s (flat l) n len (Kept s fd f l) ↔ Within l n len :=
  readFrom_iff hRange hWords h hSplit hi hn hLen fun _ _ _ _ _ _ => ⟨h.content_eq, rfl⟩

theorem dandelionRead_seeks_iff (h : ReadableAt s fd o f) (hWords : s.memory.Words)
    (hLen : len < 2 ^ 31) (hl : Stored s.memory f.link l) (hOffset : 0 ≤ offset) :
    Reads (dandelionRead P fd len offset useOffset) s (flat l) offset.toNat len (Kept s fd f l) ↔
      (l ≠ [] ∨ 0 < offset.toNat ∨ len = 0) ∧ Within l offset.toNat len := by
  rcases Nat.eq_zero_or_pos len with rfl | hPos
  · refine iff_of_true ⟨s, ?_, hl.content_eq, rfl⟩ ⟨Or.inr (Or.inr rfl), within_zero l _⟩
    rw [dandelionRead_zero h, Nat.zero_min, List.take_zero, Stores.put_nil]
    rfl
  have hFuel : l.length < s.memory.limit + 1 := Nat.lt_succ_of_le hl.length_le
  rw [Reads, dandelionRead_use h hPos hOffset (by decide), bind_ok steps_ok]
  rcases Nat.eq_zero_or_pos offset.toNat with hZero | hSome
  · -- no walk: the copy starts at the first chunk, if there is one
    have hSeek : readSeek (s.memory.limit + 1) offset.toNat f.link s =
        .ok (some (f.link, 0), s) := by
      rw [hZero]
      rfl
    rw [bind_ok hSeek, readPlace]
    cases l with
    | nil =>
      have hLink : f.link = 0 := hl
      have hFault : readFrom fd o len useOffset f.link 0 s = .error .null := by
        refine readFrom_fault ?_
        rw [readLoop, hLink]
        exact bind_error rfl
      rw [hFault]
      refine iff_of_false (by simp) ?_
      rintro ⟨hNonempty | hPositive | hEmpty, _⟩
      · exact hNonempty rfl
      · omega
      · omega
    | cons z b =>
      have hLink : f.link = z.ptr := hl.1
      rw [hLink]
      refine (readFrom_stays_iff h.range hWords hl (List.nil_append _).symm
        (Nat.zero_le _) hZero hLen).trans ?_
      exact (and_iff_right (Or.inl (List.cons_ne_nil z b))).symm
  · by_cases hInside : offset.toNat ≤ (flat l).length
    · obtain ⟨a, z, b, j, hSplit, hj, hUsed, hSeek⟩ := readSeek_found hl hSome hInside hFuel
      rw [bind_ok hSeek]
      refine (readFrom_stays_iff h.range hWords hl hSplit hUsed hj.symm hLen).trans ?_
      exact (and_iff_right (Or.inr (Or.inl hSome))).symm
    · have hBeyond : (flat l).length < offset.toNat := Nat.lt_of_not_le hInside
      have hNone : (flat l).length - offset.toNat = 0 :=
        Nat.sub_eq_zero_of_le (Nat.le_of_lt hBeyond)
      rw [bind_ok (readSeek_beyond hl hBeyond hFuel), readPlace]
      refine iff_of_true ⟨s, ?_, hl.content_eq, rfl⟩ ⟨Or.inr (Or.inl hSome), Or.inl (by omega)⟩
      rw [hNone, List.drop_eq_nil_of_le (Nat.le_of_lt hBeyond), List.take_nil, Stores.put_nil,
        Nat.min_zero]
      rfl

theorem dandelionRead_stays_iff (h : ReadableAt s fd o f) (hWords : s.memory.Words)
    (hLen : len < 2 ^ 31) (hOffset : 0 ≤ offset) : ReadsAt P s fd f len offset ↔
    CanReadAt s.memory f len offset.toNat := by
  constructor
  · rintro ⟨c, hc, hRead⟩
    obtain ⟨l, hl, rfl⟩ := content_eq_some hc
    exact ⟨l, pieces_eq_some.mpr hl, (dandelionRead_seeks_iff h hWords hLen hl hOffset).mp hRead⟩
  · rintro ⟨l, hl, hCan⟩
    have hStored := pieces_eq_some.mp hl
    exact ⟨flat l, hStored.content_eq,
      (dandelionRead_seeks_iff h hWords hLen hStored hOffset).mpr hCan⟩

end Positioned

section Law

/-- When a read keeps to the law, in both modes. -/
theorem read_law (h : ReadableAt s fd o f) (hWords : s.memory.Words) (hLen : len < 2 ^ 31)
    (offset : Int) :
    (ReadsAndMoves P s fd o f len offset ↔ CanReadAndMove s.memory f o len) ∧
      (0 ≤ offset → (ReadsAt P s fd f len offset ↔ CanReadAt s.memory f len offset.toNat)) :=
  ⟨dandelionRead_moves_iff h hWords hLen offset, dandelionRead_stays_iff h hWords hLen⟩

def Memory.wordsBelow (m : Memory) : Bool :=
  (List.range m.limit).all fun p =>
    (m.chunks p).all (fun c => decide (c.used < 2 ^ 64)) && (m.blocks p).all fun b =>
      decide (b.size < 2 ^ 64)

theorem words_of_below (h : m.wordsBelow = true) : m.Words := by
  have hAt : ∀ p, p < m.limit → (m.chunks p).all (fun c => decide (c.used < 2 ^ 64)) = true ∧
      (m.blocks p).all (fun b => decide (b.size < 2 ^ 64)) = true := by
    intro p hp
    have hTest := List.all_eq_true.mp h p (List.mem_range.mpr hp)
    rwa [Bool.and_eq_true] at hTest
  constructor
  · intro p c hc
    by_cases hp : p < m.limit
    · simpa [hc] using (hAt p hp).1
    · rw [(m.bounded p (Nat.le_of_not_lt hp)).2.1] at hc
      cases hc
  · intro p b hb
    by_cases hp : p < m.limit
    · simpa [hb] using (hAt p hp).2
    · rw [(m.bounded p (Nat.le_of_not_lt hp)).2.2] at hb
      cases hb

def readable (s : State) (fd : Nat) : Bool :=
  decide (fd < fsMaxFiles) && decide ((s.openFiles fd).file ≠ 0) &&
    !hasBit (s.openFiles fd).openFlags oWRONLY &&
    (s.memory.files (s.openFiles fd).file).any (fun f => decide (f.type = .file)) &&
    decide ((s.openFiles fd).offset < 2 ^ 64)

theorem readableAt_of_readable {i : Nat} (h : readable s i = true) :
    ∃ f, ReadableAt s i (s.openFiles i) f := by
  simp only [readable, Bool.and_eq_true, decide_eq_true_eq, Bool.not_eq_true',
    Option.any_eq_true] at h
  obtain ⟨⟨⟨⟨hRange, hOpen⟩, hAccess⟩, f, hf, hType⟩, hWord⟩ := h
  exact ⟨f, ⟨Int.natCast_nonneg i, by exact_mod_cast hRange⟩, rfl, hOpen, hAccess, hf, hType, hWord⟩

def twoChunks : List Call :=
  [.openFile [97] (oRDWR ||| oCREAT) sIRWXU, .write 3 [1, 2] 0 moveOffset, .lseek 3 3 seekEnd,
    .lseek 3 0 seekSet]

theorem read_law_two_chunks : ∃ x o f, Reachable (Started (.bump 0)) (Completes (.bump 0)) x ∧
    ReadableAt x.state 3 o f ∧
      (ReadsAndMoves (.bump 0) x.state 3 o f 9 0 ↔ CanReadAndMove x.state.memory f o 9) := by
  obtain ⟨x, hx, hTest⟩ := exists_of_bareRun (P := .bump 0) twoChunks
    (fun x => readable x.state 3 && x.state.memory.wordsBelow) (by decide +kernel)
  rw [Bool.and_eq_true] at hTest
  obtain ⟨f, hf⟩ := readableAt_of_readable hTest.1
  exact ⟨x, _, f, hx, hf, (read_law hf (words_of_below hTest.2) (by decide) 0).1⟩

/-- Five bytes in two chunks are copied into a buffer of three. -/
theorem read_law_fails : ∃ x o f, Reachable (Started (.bump 0)) (Completes (.bump 0)) x ∧
    ReadableAt x.state 3 o f ∧ ¬ ReadsAndMoves (.bump 0) x.state 3 o f 3 0 := by
  obtain ⟨x, hx, hTest⟩ := exists_of_bareRun (P := .bump 0) twoChunks
    (fun x => readable x.state 3 &&
      passes (dandelionRead (.bump 0) 3 3 0 moveOffset x.state) fun r => (r.1.2 3).isSome)
        (by decide +kernel)
  rw [Bool.and_eq_true] at hTest
  obtain ⟨f, hf⟩ := readableAt_of_readable hTest.1
  refine ⟨x, _, f, hx, hf, ?_⟩
  rintro ⟨c, p, _, _, s', hRead, _⟩
  obtain ⟨r, hRun, hStored⟩ := exists_of_passes hTest.2
  obtain rfl := Except.ok.inj (hRead.symm.trans hRun)
  have hNone : Stores.empty.put 0 ((c.drop p).take 3) 3 = none := put_beyond 3 _
  simp [hNone] at hStored

end Law

end Dandelion.FileSystem
