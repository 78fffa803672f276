import Dandelion.FileSystem.Content

/-! # Chunk lists in good order

Every chunk of a file has a block of its own, and different files share neither
chunks nor blocks. An operation on one file is described by the pieces before
and after it; everything that shares nothing with them keeps its content.
-/

namespace Dandelion.FileSystem

structure Holds (m : Memory) (p : Ptr) (c : FileChunk) (b : Block) : Prop where
  ne_zero : p ≠ 0
  chunk : m.chunks p = some c
  data_ne : c.data ≠ 0
  block : m.blocks c.data = some b
  used : c.used ≤ c.capacity
  size : c.capacity ≤ b.size
  bounded : b.size < 2 ^ 64

structure Filed (m : Memory) (p : Ptr) (l : List Piece) : Prop where
  stored : Stored m p l
  holds : ∀ x ∈ l, ∃ b, Holds m x.ptr x.chunk b
  apart : (l.map fun x => x.chunk.data).Nodup

def Clear (k l : List Piece) : Prop := ∀ y ∈ k, ∀ x ∈ l, y.ptr ≠ x.ptr ∧ y.chunk.data ≠ x.chunk.data

/-- All regular files are in good order and share nothing. -/
structure Orderly (m : Memory) : Prop where
  filed : ∀ p f, m.files p = some f → f.type = .file → ∃ l, Filed m f.link l
  clear : ∀ p q f g k l, p ≠ q → m.files p = some f → m.files q = some g → f.type = .file →
    g.type = .file →
    Filed m f.link k → Filed m g.link l → Clear k l

/-- A change of memory that turns the pieces `l` into the pieces `l'` and otherwise
only uses addresses that were vacant. -/
structure Changes (m m' : Memory) (l l' : List Piece) : Prop where
  chunks : ∀ p c, m.chunks p = some c → (∀ x ∈ l, p ≠ x.ptr) → m'.chunks p = some c
  blocks : ∀ p b, m.blocks p = some b → (∀ x ∈ l, p ≠ x.chunk.data) → m'.blocks p = some b
  ptrs : ∀ y ∈ l', (∃ x ∈ l, y.ptr = x.ptr) ∨ m.chunks y.ptr = none
  datas : ∀ y ∈ l', (∃ x ∈ l, y.chunk.data = x.chunk.data) ∨ m.blocks y.chunk.data = none

variable {m m' m'' : Memory} {p q : Ptr} {a k l l' l'' t : List Piece} {x y : Piece} {c : FileChunk}
  {b : Block}

theorem Holds.word (h : Holds m p c b) : c.capacity < 2 ^ 64 := Nat.lt_of_le_of_lt h.size h.bounded

section Load

theorem load_congr {o n : Nat} (h : m'.blocks q = m.blocks q) : m'.load q o n = m.load q o n := by
  simp only [Memory.load, h]

theorem load_block {o n : Nat} (hq : q ≠ 0) (hb : m.blocks q = some b) (hFit : o + n ≤ b.size) :
    m.load q o n = some ((List.range n).map fun i => b.bytes (o + i)) := by
  by_cases hn : n = 0
  · subst hn
    rfl
  · rw [Memory.load, if_neg hn, if_neg hq, hb, Option.bind_some, if_pos hFit]

theorem write_bytes (b : Block) (n : Nat) (part : List UInt8) :
    (List.range (n + part.length)).map (fun i => (b.write n part).bytes (0 + i)) =
      (List.range n).map (fun i => b.bytes (0 + i)) ++ part := by
  apply List.ext_getElem
  · simp
  · intro i hi hi'
    simp only [List.length_map, List.length_range] at hi
    simp only [List.getElem_map, List.getElem_range, Nat.zero_add, Block.write]
    by_cases hLt : i < n
    · rw [if_neg (by omega), List.getElem_append_left (by simpa using hLt)]
      simp
    · rw [if_pos (by omega), List.getElem_append_right (by simpa using hLt)]
      simp only [List.length_map, List.length_range]
      rw [List.getD_eq_getElem]

theorem load_write {n : Nat} {bytes part : List UInt8} (hq : q ≠ 0) (hb : m.blocks q = some b)
    (h : m.load q 0 n = some bytes) (hFit : n + part.length ≤ b.size)
    (hb' : m'.blocks q = some (b.write n part)) :
    m'.load q 0 (n + part.length) = some (bytes ++ part) := by
  rw [load_block hq hb (by omega), Option.some.injEq] at h
  rw [load_block hq hb' (by rw [Nat.zero_add]; exact hFit), write_bytes, h]

theorem load_fill {bytes : List UInt8} (hq : q ≠ 0) (hFit : bytes.length ≤ b.size)
    (hb : m.blocks q = some (b.write 0 bytes)) : m.load q 0 bytes.length = some bytes := by
  have hBytes := write_bytes b 0 bytes
  rw [Nat.zero_add] at hBytes
  rw [load_block hq hb (by rw [Nat.zero_add]; exact hFit), hBytes]
  rfl

end Load

section Stored

theorem Stored.congr (h : Stored m p l) (hChunks : ∀ x ∈ l, m'.chunks x.ptr = some x.chunk)
    (hLoad : ∀ x ∈ l, m'.load x.chunk.data 0 x.chunk.used = m.load x.chunk.data 0 x.chunk.used) :
    Stored m' p l := by
  induction l generalizing p with
  | nil => exact h
  | cons x l ih =>
    obtain ⟨rfl, hne, _, hBytes, hRest⟩ := h
    refine ⟨rfl, hne, hChunks x List.mem_cons_self, by rw [hLoad x List.mem_cons_self, hBytes], ?_⟩
    exact ih hRest (fun y hy => hChunks y (List.mem_cons_of_mem _ hy))
      (fun y hy => hLoad y (List.mem_cons_of_mem _ hy))

theorem Stored.splice (h : Stored m p (a ++ x :: t))
    (hChunks : ∀ z ∈ a, m'.chunks z.ptr = some z.chunk)
    (hLoad : ∀ z ∈ a, m'.load z.chunk.data 0 z.chunk.used = m.load z.chunk.data 0 z.chunk.used)
    (hRest : Stored m' x.ptr (y :: k)) : Stored m' p (a ++ y :: k) := by
  have hPtr : x.ptr = y.ptr := hRest.1
  obtain ⟨hSegment, hAll, _⟩ := stored_append.mp h
  refine stored_append.mpr ⟨?_, fun z hz => ⟨hChunks z hz, by rw [hLoad z hz]; exact (hAll z hz).2⟩,
    hPtr ▸ hRest⟩
  rw [← hPtr]
  refine hSegment.congr fun q hq => ?_
  obtain ⟨z, hz, rfl⟩ := List.mem_map.mp hq
  rw [nextChunk, nextChunk, hChunks z hz, (hAll z hz).1]

end Stored

section Filed

theorem Filed.nil : Filed m 0 [] := ⟨rfl, by simp, by simp⟩

theorem Filed.unique (h : Filed m p l) (h' : Filed m p k) : l = k := h.stored.unique h'.stored

theorem Filed.data_ne (h : Filed m p (a ++ x :: t)) :
    ∀ y ∈ a ++ t, y.chunk.data ≠ x.chunk.data := by
  have hApart := h.apart
  rw [List.map_append, List.map_cons, List.nodup_middle,
    List.nodup_cons, ← List.map_append] at hApart
  intro y hy hEq
  exact hApart.1 (List.mem_map.mpr ⟨y, hy, hEq⟩)

theorem Filed.ptr_ne (h : Filed m p (a ++ x :: t)) : ∀ y ∈ a ++ t, y.ptr ≠ x.ptr := by
  have hNodup := h.stored.chain.nodup
  rw [List.map_append, List.map_cons, List.nodup_middle,
    List.nodup_cons, ← List.map_append] at hNodup
  intro y hy hEq
  exact hNodup.1 (List.mem_map.mpr ⟨y, hy, hEq⟩)

theorem Filed.suffix (h : Filed m p (a ++ x :: t)) : Filed m x.ptr (x :: t) := by
  refine ⟨h.stored.suffix, fun z hz => h.holds z (List.mem_append_right _ hz), ?_⟩
  have hApart := h.apart
  rw [List.map_append] at hApart
  exact (List.nodup_append.mp hApart).2.1

theorem Filed.tail (h : Filed m p (x :: t)) : Filed m x.chunk.next t := by
  have hApart := h.apart
  rw [List.map_cons, List.nodup_cons] at hApart
  exact ⟨h.stored.2.2.2.2, fun y hy => h.holds y (List.mem_cons_of_mem _ hy), hApart.2⟩

theorem Clear.symm (h : Clear k l) : Clear l k :=
  fun x hx y hy => ⟨(h y hy x hx).1.symm, (h y hy x hx).2.symm⟩

structure Only (m m' : Memory) (x : Piece) : Prop where
  chunks : ∀ p c, m.chunks p = some c → p ≠ x.ptr → m'.chunks p = some c
  blocks : ∀ p b, m.blocks p = some b → p ≠ x.chunk.data → m'.blocks p = some b

theorem Only.frame (h : Only m m' x) (hk : Filed m q k) (hPtr : ∀ y ∈ k, y.ptr ≠ x.ptr)
    (hData : ∀ y ∈ k, y.chunk.data ≠ x.chunk.data) : Filed m' q k := by
  have hChunks : ∀ y ∈ k, m'.chunks y.ptr = some y.chunk := fun y hy =>
    h.chunks _ _ (hk.stored.chunk_eq hy) (hPtr y hy)
  have hHolds : ∀ y ∈ k, ∃ b, Holds m y.ptr y.chunk b ∧ m'.blocks y.chunk.data = some b := by
    intro y hy
    obtain ⟨b, hb⟩ := hk.holds y hy
    exact ⟨b, hb, h.blocks _ _ hb.block (hData y hy)⟩
  refine ⟨hk.stored.congr hChunks fun y hy => ?_, fun y hy => ?_, hk.apart⟩
  · obtain ⟨b, hb, hBlock⟩ := hHolds y hy
    exact load_congr (by rw [hBlock, hb.block])
  · obtain ⟨b, hb, hBlock⟩ := hHolds y hy
    exact ⟨b, hb.ne_zero, hChunks y hy, hb.data_ne, hBlock, hb.used, hb.size, hb.bounded⟩

theorem Only.tail (h : Only m m' x) (hl : Filed m p (a ++ x :: t)) : Filed m' x.chunk.next t :=
  h.frame hl.suffix.tail (fun y hy => hl.ptr_ne y (List.mem_append_right _ hy))
    fun y hy => hl.data_ne y (List.mem_append_right _ hy)

theorem Only.relist (h : Only m m' x) (hl : Filed m p (a ++ x :: t))
    (hRest : Filed m' x.ptr (y :: k))
    (hOrigin : ∀ w ∈ y :: k, (∃ z ∈ x :: t, w.ptr = z.ptr ∧ w.chunk.data = z.chunk.data) ∨
      m.chunks w.ptr = none ∧ m.blocks w.chunk.data = none) :
    Filed m' p (a ++ y :: k) ∧ Changes m m' (a ++ x :: t) (a ++ y :: k) := by
  have hBefore : ∀ z ∈ a, ∃ b, Holds m z.ptr z.chunk b ∧ m'.chunks z.ptr = some z.chunk ∧
      m'.blocks z.chunk.data = some b := by
    intro z hz
    obtain ⟨b, hb⟩ := hl.holds z (List.mem_append_left _ hz)
    exact ⟨b, hb, h.chunks _ _ hb.chunk (hl.ptr_ne z (List.mem_append_left _ hz)),
      h.blocks _ _ hb.block (hl.data_ne z (List.mem_append_left _ hz))⟩
  have hApart := hl.apart
  rw [List.map_append, List.nodup_append] at hApart
  refine ⟨⟨hl.stored.splice (fun z hz => ?_) (fun z hz => ?_) hRest.stored, ?_, ?_⟩, ?_⟩
  · obtain ⟨_, _, hChunk, _⟩ := hBefore z hz
    exact hChunk
  · obtain ⟨b, hb, _, hBlock⟩ := hBefore z hz
    exact load_congr (by rw [hBlock, hb.block])
  · intro z hz
    rcases List.mem_append.mp hz with hz | hz
    · obtain ⟨b, hb, hChunk, hBlock⟩ := hBefore z hz
      exact ⟨b, hb.ne_zero, hChunk, hb.data_ne, hBlock, hb.used, hb.size, hb.bounded⟩
    · exact hRest.holds z hz
  · rw [List.map_append, List.nodup_append]
    refine ⟨hApart.1, hRest.apart, fun d hd e he => ?_⟩
    obtain ⟨z, hz, rfl⟩ := List.mem_map.mp hd
    obtain ⟨w, hw, rfl⟩ := List.mem_map.mp he
    rcases hOrigin w hw with ⟨v, hv, _, hEq⟩ | ⟨_, hNone⟩
    · rw [hEq]
      exact hApart.2.2 _ (List.mem_map.mpr ⟨z, hz, rfl⟩) _ (List.mem_map.mpr ⟨v, hv, rfl⟩)
    · intro hEq
      obtain ⟨b, hb, _⟩ := hBefore z hz
      rw [← hEq, hb.block] at hNone
      cases hNone
  · have hx : x ∈ a ++ x :: t := by simp
    refine ⟨fun q c hq hNe => h.chunks q c hq (hNe x hx),
      fun q b hq hNe => h.blocks q b hq (hNe x hx), ?_, ?_⟩
    · intro w hw
      rcases List.mem_append.mp hw with hw | hw
      · exact Or.inl ⟨w, List.mem_append_left _ hw, rfl⟩
      · rcases hOrigin w hw with ⟨v, hv, hEq, _⟩ | ⟨hNone, _⟩
        · exact Or.inl ⟨v, List.mem_append_right _ hv, hEq⟩
        · exact Or.inr hNone
    · intro w hw
      rcases List.mem_append.mp hw with hw | hw
      · exact Or.inl ⟨w, List.mem_append_left _ hw, rfl⟩
      · rcases hOrigin w hw with ⟨v, hv, _, hEq⟩ | ⟨_, hNone⟩
        · exact Or.inl ⟨v, List.mem_append_right _ hv, hEq⟩
        · exact Or.inr hNone

theorem Changes.frame (h : Changes m m' l l') (hk : Filed m q k) (hClear : Clear k l) :
    Filed m' q k ∧ Clear k l' := by
  have hChunks : ∀ y ∈ k, m'.chunks y.ptr = some y.chunk := fun y hy =>
    h.chunks _ _ (hk.stored.chunk_eq hy) fun x hx => (hClear y hy x hx).1
  have hBlocks : ∀ y ∈ k, ∀ b, m.blocks y.chunk.data = some b → m'.blocks y.chunk.data = some b :=
    fun y hy b hb => h.blocks _ _ hb fun x hx => (hClear y hy x hx).2
  refine ⟨⟨hk.stored.congr hChunks fun y hy => ?_, fun y hy => ?_, hk.apart⟩,
    fun y hy x hx => ⟨?_, ?_⟩⟩
  · obtain ⟨b, hb⟩ := hk.holds y hy
    exact load_congr (by rw [hBlocks y hy b hb.block, hb.block])
  · obtain ⟨b, hb⟩ := hk.holds y hy
    exact ⟨b, hb.ne_zero, hChunks y hy, hb.data_ne, hBlocks y hy b hb.block, hb.used, hb.size,
      hb.bounded⟩
  · intro hEq
    rcases h.ptrs x hx with ⟨z, hz, hPtr⟩ | hNone
    · exact (hClear y hy z hz).1 (hEq.trans hPtr)
    · rw [← hEq, hk.stored.chunk_eq hy] at hNone
      cases hNone
  · intro hEq
    obtain ⟨b, hb⟩ := hk.holds y hy
    rcases h.datas x hx with ⟨z, hz, hData⟩ | hNone
    · exact (hClear y hy z hz).2 (hEq.trans hData)
    · rw [← hEq, hb.block] at hNone
      cases hNone

theorem Changes.refl (m : Memory) (l : List Piece) : Changes m m l l where
  chunks _ _ h _ := h
  blocks _ _ h _ := h
  ptrs y hy := Or.inl ⟨y, hy, rfl⟩
  datas y hy := Or.inl ⟨y, hy, rfl⟩

theorem Changes.trans (h : Changes m m' l l') (h' : Changes m' m'' l' l'') :
    Changes m m'' l l'' where
  chunks p c hp hNe := by
    refine h'.chunks p c (h.chunks p c hp hNe) fun y hy hEq => ?_
    rcases h.ptrs y hy with ⟨x, hx, hPtr⟩ | hNone
    · exact hNe x hx (hEq.trans hPtr)
    · rw [← hEq, hp] at hNone
      cases hNone
  blocks p b hp hNe := by
    refine h'.blocks p b (h.blocks p b hp hNe) fun y hy hEq => ?_
    rcases h.datas y hy with ⟨x, hx, hData⟩ | hNone
    · exact hNe x hx (hEq.trans hData)
    · rw [← hEq, hp] at hNone
      cases hNone
  ptrs z hz := by
    rcases h'.ptrs z hz with ⟨y, hy, hPtr⟩ | hNone
    · rw [hPtr]
      exact h.ptrs y hy
    · by_cases hOld : ∃ x ∈ l, z.ptr = x.ptr
      · exact Or.inl hOld
      · refine Or.inr ?_
        cases hChunk : m.chunks z.ptr with
        | none => rfl
        | some c =>
          rw [h.chunks _ _ hChunk fun x hx hEq => hOld ⟨x, hx, hEq⟩] at hNone
          cases hNone
  datas z hz := by
    rcases h'.datas z hz with ⟨y, hy, hData⟩ | hNone
    · rw [hData]
      exact h.datas y hy
    · by_cases hOld : ∃ x ∈ l, z.chunk.data = x.chunk.data
      · exact Or.inl hOld
      · refine Or.inr ?_
        cases hBlock : m.blocks z.chunk.data with
        | none => rfl
        | some b =>
          rw [h.blocks _ _ hBlock fun x hx hEq => hOld ⟨x, hx, hEq⟩] at hNone
          cases hNone

end Filed

theorem Orderly.of_changes (h : Orderly m) {o : Ptr} {f f' : DFile} (hf : m.files o = some f)
    (hType : f.type = .file) (hl : Filed m f.link l) (hChanges : Changes m m' l l')
    (hf' : m'.files o = some f') (hl' : Filed m' f'.link l')
    (hOthers : ∀ q, q ≠ o → ∀ g, m'.files q = some g → g.type = .file →
      ∃ g', m.files q = some g' ∧ g'.type = .file ∧ g'.link = g.link) : Orderly m' := by
  have hOther : ∀ q, q ≠ o → ∀ g, m'.files q = some g → g.type = .file →
      ∀ k, Filed m' g.link k → Clear k l' := by
    intro q hq g hg hgType k hk
    obtain ⟨g', hg', hgType', hLink⟩ := hOthers q hq g hg hgType
    obtain ⟨k', hk'⟩ := h.filed q g' hg' hgType'
    obtain ⟨hFrame, hClear⟩ :=
      hChanges.frame hk' (h.clear q o g' f k' l hq hg' hf hgType' hType hk' hl)
    rw [hLink] at hFrame
    rwa [hk.unique hFrame]
  constructor
  · intro q g hg hgType
    by_cases hq : q = o
    · subst hq
      rw [hf', Option.some.injEq] at hg
      exact ⟨l', hg ▸ hl'⟩
    · obtain ⟨g', hg', hgType', hLink⟩ := hOthers q hq g hg hgType
      obtain ⟨k, hk⟩ := h.filed q g' hg' hgType'
      exact ⟨k, hLink ▸ (hChanges.frame hk (h.clear q o g' f k l hq hg' hf hgType' hType hk hl)).1⟩
  · intro q r g e k j hne hg he hgType heType hk hj
    by_cases hq : q = o
    · subst hq
      rw [hf', Option.some.injEq] at hg
      subst hg
      rw [hk.unique hl']
      exact (hOther r hne.symm e he heType j hj).symm
    · by_cases hr : r = o
      · subst hr
        rw [hf', Option.some.injEq] at he
        subst he
        rw [hj.unique hl']
        exact hOther q hq g hg hgType k hk
      · obtain ⟨g', hg', hgType', hgLink⟩ := hOthers q hq g hg hgType
        obtain ⟨e', he', heType', heLink⟩ := hOthers r hr e he heType
        obtain ⟨k', hk'⟩ := h.filed q g' hg' hgType'
        obtain ⟨j', hj'⟩ := h.filed r e' he' heType'
        have hkFrame :=
          (hChanges.frame hk' (h.clear q o g' f k' l hq hg' hf hgType' hType hk' hl)).1
        have hjFrame :=
          (hChanges.frame hj' (h.clear r o e' f j' l hr he' hf heType' hType hj' hl)).1
        rw [hgLink] at hkFrame
        rw [heLink] at hjFrame
        rw [hk.unique hkFrame, hj.unique hjFrame]
        exact h.clear q r g' e' k' j' hne hg' he' hgType' heType' hk' hj'

end Dandelion.FileSystem
