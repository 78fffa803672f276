import Dandelion.FileSystem.Dense
import Dandelion.FileSystem.ReadMoves

/-! # Reading on

A descriptor stands at a place in the chunk list of its file, and what is before
that place has been read. A read that takes the rest, or less than what is left of
the chunk, moves the descriptor behind what it returns.
-/

namespace Dandelion.FileSystem

open Foundation.Triples

/-- A descriptor that has read these bytes of its file. -/
def StandsAt (o : OpenFile) (l : List Piece) (got : List UInt8) : Prop :=
  o.currentChunk = 0 ∧ o.offset = 0 ∧ got = [] ∨
    ∃ a z b, l = a ++ z :: b ∧ o.currentChunk = z.ptr ∧ o.offset ≤ z.bytes.length ∧
      got = flat a ++ z.bytes.take o.offset

/-- The bytes that a read stored into the buffer, as many as it returned. -/
def storedBytes (n : Int) (stores : Stores) : List UInt8 :=
  (List.range n.toNat).filterMap fun i : Nat => stores (i : Int)

variable {P : Platform} {s : State} {got bytes : List UInt8} {fd len : Nat} {o : OpenFile}
  {f : DFile} {p : Ptr} {l l' a b : List Piece} {z : Piece}

section Places

theorem StandsAt.isPrefix (h : StandsAt o l got) : got <+: flat l := by
  rcases h with ⟨-, -, rfl⟩ | ⟨a, z, b, rfl, -, -, rfl⟩
  · exact List.nil_prefix
  · rw [flat_append, flat_cons, List.prefix_append_right_inj]
    exact (List.take_prefix _ _).trans (List.prefix_append _ _)

theorem StandsAt.extended (h : StandsAt o l got) (hExtended : Extended l l') :
    StandsAt o l' got := by
  rcases h with hStart | ⟨a, z, b, hl, hChunk, hOffset, rfl⟩
  · exact Or.inl hStart
  · obtain ⟨a', z', b', hl', hPtr, hFlat, hBytes⟩ := hExtended a z b hl
    obtain ⟨more, hMore⟩ := hBytes
    refine Or.inr ⟨a', z', b', hl', hChunk.trans hPtr.symm, ?_, ?_⟩
    · rw [← hMore, List.length_append]
      omega
    · rw [hFlat, ← hMore, List.take_append_of_le_length hOffset]

theorem StandsAt.start (flags : Nat) (hl : Filed s.memory f.link l) :
    StandsAt ⟨p, f.link, 0, flags⟩ l [] := by
  cases l with
  | nil => exact Or.inl ⟨hl.stored, rfl, rfl⟩
  | cons z b => exact Or.inr ⟨[], z, b, rfl, hl.stored.1, Nat.zero_le _, by simp⟩

theorem storedBytes_put (bytes : List UInt8) :
    storedBytes bytes.length (Stores.empty.put 0 bytes) = bytes := by
  have hAll : ∀ i ∈ List.range bytes.length, Stores.empty.put 0 bytes (i : Int) =
      some (bytes.getD i 0) := by
    intro i hi
    have hLt := List.mem_range.mp hi
    rw [Stores.put, if_pos (by omega), Int.sub_zero, Int.toNat_natCast]
  rw [storedBytes, Int.toNat_natCast, List.filterMap_congr hAll]
  apply List.ext_getElem
  · simp
  · intro i hi hi'
    simp [hi']

end Places

section Reading

theorem StandsAt.take {j n : Nat} (hSplit : l = a ++ z :: b) (hChunk : o.currentChunk = z.ptr)
    (hOffset : o.offset = j) (hj : j ≤ z.bytes.length)
    (hPlace : (flat a).length + j = min n (flat l).length) : StandsAt o l ((flat l).take n) := by
  subst hSplit hOffset
  refine Or.inr ⟨a, z, b, rfl, hChunk, hj, ?_⟩
  rw [List.take_eq_take_min, ← hPlace, flat_append, List.take_length_add_append, flat_cons,
    List.take_append_of_le_length hj]

theorem dandelionRead_good (offset : Int) (h : ReadableAt s fd o f) (hl : Filed s.memory f.link l)
    (hStands : StandsAt o l got) (hLen : len < 2 ^ 31) (hGood : Within l got.length len) :
    ∃ o', dandelionRead P fd len offset moveOffset s =
        .ok (((min len ((flat l).length - got.length) : Nat),
          Stores.empty.put 0 (((flat l).drop got.length).take len)),
          { s with openFiles := Function.update s.openFiles fd o' }) ∧
      o'.file = o.file ∧ o'.openFlags = o.openFlags ∧
        StandsAt o' l ((flat l).take (got.length + len)) := by
  have hUsed : ∀ x ∈ l, x.chunk.used < 2 ^ 64 := fun x hx => by
    obtain ⟨block, hx⟩ := hl.holds x hx
    exact Nat.lt_of_le_of_lt hx.used hx.word
  have hInside := hStands.isPrefix.length_le
  have hFrom : ∀ (s₁ : State) (o₁ : OpenFile) {a z b i}, s₁.memory = s.memory → l = a ++ z :: b →
      i ≤ z.bytes.length →
      got.length = (flat a).length + i → ∃ p j, readFrom fd o₁ len moveOffset z.ptr i s₁ =
          .ok (((min len ((flat l).length - got.length) : Nat),
            Stores.empty.put 0 (((flat l).drop got.length).take len)),
            s₁.readTo fd o₁ moveOffset p j) ∧
        StandsAt { o₁ with currentChunk := p, offset := j } l
          ((flat l).take (got.length + len)) := by
    intro s₁ o₁ a z b i hMemory hSplit hi hPlace
    rw [hl.stored.bytes_length (x := z) (by rw [hSplit]; simp)] at hi
    obtain ⟨a', z', b', j, hSplit', hj, hPlace', hRun⟩ :=
      readFrom_good h.range hUsed (hMemory ▸ hl.stored) hSplit hi hPlace hLen hGood
    refine ⟨z'.ptr, j, hRun, .take (j := j) hSplit' rfl rfl ?_ (by omega)⟩
    rwa [hl.stored.bytes_length (x := z') (by rw [hSplit']; simp)]
  rcases Nat.eq_zero_or_pos len with rfl | hPos
  · refine ⟨o, ?_, rfl, rfl, ?_⟩
    · rw [dandelionRead_zero h, Nat.zero_min, List.take_zero, Stores.put_nil, ← h.entry]
      exact congrArg (fun t => Except.ok (_, { s with openFiles := t }))
        (Function.update_eq_self _ _).symm
    · rwa [Nat.add_zero, ← List.prefix_iff_eq_take.mp hStands.isPrefix]
  rw [dandelionRead_rest h hPos (by decide)]
  rcases hStands with ⟨hChunk, -, rfl⟩ | ⟨a, z, b, hSplit, hChunk, hOffset, rfl⟩
  · rw [if_pos hChunk]
    cases l with
    | nil =>
      have hLink : f.link = 0 := hl.stored
      rw [if_neg (not_not.mpr hLink), bind_ok (setOpenFile_ok h.range _)]
      exact ⟨{ o with offset := 0 }, by simp [Stores.put_nil]; rfl, rfl, rfl,
        Or.inl ⟨hChunk, rfl, by simp⟩⟩
    | cons z b =>
      have hLink : f.link = z.ptr := hl.stored.1
      rw [if_pos hl.stored.2.1, bind_ok (setOpenFile_ok h.range _), hLink]
      obtain ⟨p, j, hRun, hStands⟩ := hFrom
        { s with openFiles :=
          Function.update s.openFiles fd { o with currentChunk := z.ptr, offset := 0 } }
        { o with currentChunk := z.ptr, offset := 0 } rfl (List.nil_append _).symm
          (Nat.zero_le _) rfl
      refine ⟨{ o with currentChunk := p, offset := j }, hRun.trans ?_, rfl, rfl, hStands⟩
      rw [State.readTo, if_pos (by decide), Int.toNat_natCast, Function.update_idem]
  · have hne : o.currentChunk ≠ 0 := by
      obtain ⟨block, hz⟩ := hl.holds z (by rw [hSplit]; simp)
      rw [hChunk]
      exact hz.ne_zero
    rw [if_neg hne, hChunk]
    obtain ⟨p, j, hRun, hStands⟩ := hFrom s o rfl hSplit hOffset
      (by rw [List.length_append, List.length_take_of_le hOffset])
    exact ⟨{ o with currentChunk := p, offset := j }, hRun, rfl, rfl, hStands⟩

end Reading

end Dandelion.FileSystem
