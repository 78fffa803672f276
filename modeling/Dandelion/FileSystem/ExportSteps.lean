import Dandelion.FileSystem.Boot
import Dandelion.FileSystem.Planted

/-! # The parts of an export

The buffer for a name behind a path, and the content of a file in contiguous memory.
Both only add blocks at addresses where nothing was.
-/

namespace Dandelion.FileSystem

open Foundation.Words Foundation.Triples

variable {P : Platform} {s : State} {m : Memory} {p path buffer : Ptr} {l : List Piece}
  {done bytes : List UInt8} {n : Nat}

structure Buffer (m : Memory) (p : Ptr) (size : Nat) (bytes : List UInt8) : Prop where
  ne_zero : p ≠ 0
  block : ∃ b, m.blocks p = some b ∧ size ≤ b.size ∧ b.foreign = false
  bytes : m.load p 0 bytes.length = some bytes

section Buffers

theorem allocBlock_answered {size alignment : Nat} {g : Grant}
    (hg : P.answer s.memory s.requests size alignment = some g) :
    ∃ p s', allocBlock P size alignment s = .ok (p, s') ∧ s.memory.Vacant p ∧
      Retains s.memory s'.memory ∧
      Buffer s'.memory p size [] := by
  have hVacant := P.vacant _ _ _ _ g hg
  refine ⟨g.ptr, _, dandelionAlloc_ok hg, hVacant, (Retains.refl s.memory).setBlock hVacant.2.2.2 _,
    hVacant.ne_zero, ⟨_, Function.update_self .., ?_, rfl⟩, rfl⟩
  show size ≤ (size + 7) / 8 * 8
  omega

theorem allocBlock_null {size alignment : Nat}
    (h : P.answer s.memory s.requests size alignment = none) :
    allocBlock P size alignment s = .ok (0, { s with requests := s.requests + 1 }) := by
  simp only [allocBlock, dandelionAlloc, h]

theorem Buffer.store {size : Nat} (h : Buffer s.memory p size bytes) (more : List UInt8)
    (hFit : bytes.length + more.length ≤ size) (hp : m.blocks p = none)
    (hRetains : Retains m s.memory) :
    ∃ s', storeBytes p bytes.length more s = .ok ((), s') ∧ Retains m s'.memory ∧
      Buffer s'.memory p size (bytes ++ more) := by
  by_cases hMore : more = []
  · subst hMore
    refine ⟨s, by rw [storeBytes, if_pos rfl]; rfl, hRetains, ?_⟩
    rwa [List.append_nil]
  · obtain ⟨b, hb, hSize, hForeign⟩ := h.block
    have hRoom : bytes.length + more.length ≤ b.size := hFit.trans hSize
    refine ⟨_, storeBytes_ok h.ne_zero hb hMore hRoom, hRetains.setBlock hp _, h.ne_zero,
      ⟨_, Function.update_self .., hSize, hForeign⟩, ?_⟩
    rw [List.length_append]
    exact load_write h.ne_zero hb h.bytes hRoom (Function.update_self ..)

theorem prefixedName_answered {size : Nat} {g : Grant}
    (hg : P.answer s.memory s.requests size 1 = some g)
    (hPath : s.memory.load path 0 n = some bytes) (name : List UInt8)
    (hFit : n + name.length ≤ size) :
    ∃ p s', prefixedName P path n name size s = .ok (p, s') ∧ s.memory.Vacant p ∧
      Retains s.memory s'.memory ∧
      Buffer s'.memory p size (bytes ++ name) := by
  have hLength := load_length hPath
  obtain ⟨p, s₁, hRun, hVacant, hRetains₁, hBuffer₁⟩ := allocBlock_answered hg
  obtain ⟨s₂, hCopy, hRetains₂, hBuffer₂⟩ :=
    hBuffer₁.store bytes (by simp; omega) hVacant.2.2.2 hRetains₁
  obtain ⟨s₃, hName, hRetains₃, hBuffer₃⟩ :=
    hBuffer₂.store name (by simp; omega) hVacant.2.2.2 hRetains₂
  refine ⟨p, s₃, ?_, hVacant, hRetains₃, hBuffer₃⟩
  rw [List.length_nil] at hCopy
  rw [List.nil_append, hLength] at hName
  rw [prefixedName, bind_ok hRun, if_neg hVacant.ne_zero,
    bind_ok (loadBytes_ok (hRetains₁.load hPath)), bind_ok hCopy, bind_ok hName]
  rfl

theorem prefixedName_refused {size : Nat} (h : P.answer s.memory s.requests size 1 = none)
    (name : List UInt8) :
    prefixedName P path n name size s = .ok (0, { s with requests := s.requests + 1 }) := by
  rw [prefixedName, bind_ok (allocBlock_null h), if_pos rfl]
  rfl

theorem prefixedName_ok (hGrants : P.Grants) (hPath : s.memory.load path 0 n = some bytes)
    (name : List UInt8) {size : Nat} (hSize : 0 < size) (hFit : n + name.length ≤ size) :
    ∃ p s', prefixedName P path n name size s = .ok (p, s') ∧ s.memory.Vacant p ∧
      Retains s.memory s'.memory ∧
      Buffer s'.memory p size (bytes ++ name) := by
  obtain ⟨g, hg⟩ := hGrants s.memory s.requests size 1 hSize
  exact prefixedName_answered hg hPath name hFit

end Buffers

section Contents

theorem totalSize_stored (h : Stored s.memory p l) {fuel total : Nat} (hFuel : l.length < fuel)
    (hTotal : total + (flat l).length < 2 ^ 64) :
    totalSize fuel p total s = .ok (total + (flat l).length, s) := by
  induction l generalizing p fuel total with
  | nil =>
    obtain ⟨fuel, rfl⟩ := Nat.exists_eq_add_one.mpr hFuel
    obtain rfl : p = 0 := h
    rw [totalSize, if_pos rfl]
    rfl
  | cons x l ih =>
    obtain ⟨fuel, rfl⟩ := Nat.exists_eq_add_one.mpr (Nat.zero_lt_of_lt hFuel)
    have hUsed := h.bytes_length List.mem_cons_self
    obtain ⟨-, hne, hChunk, -, hRest⟩ := h
    rw [flat_cons, List.length_append] at hTotal ⊢
    rw [totalSize, if_neg hne, bind_ok (getChunkAt_ok hne hChunk), add64_of_lt (by omega),
      ih hRest (Nat.lt_of_succ_lt_succ hFuel) (by omega), hUsed, Nat.add_assoc]

theorem gather_ok (hl : Stored m p l) (hRetains : Retains m s.memory)
    (hNew : m.blocks buffer = none) {size fuel : Nat}
    (hBuffer : Buffer s.memory buffer size done) (hFit : done.length + (flat l).length ≤ size)
    (hSize : size < 2 ^ 64) (hFuel : l.length < fuel) :
    ∃ s', gather buffer fuel p done.length s = .ok (done.length + (flat l).length, s') ∧
      Retains m s'.memory ∧
      Buffer s'.memory buffer size (done ++ flat l) := by
  induction l generalizing p fuel done s with
  | nil =>
    obtain ⟨fuel, rfl⟩ := Nat.exists_eq_add_one.mpr hFuel
    obtain rfl : p = 0 := hl
    refine ⟨s, by rw [gather, if_pos rfl]; rfl, hRetains, ?_⟩
    rwa [flat_nil, List.append_nil]
  | cons x l ih =>
    obtain ⟨fuel, rfl⟩ := Nat.exists_eq_add_one.mpr (Nat.zero_lt_of_lt hFuel)
    have hUsed := hl.bytes_length List.mem_cons_self
    obtain ⟨-, hne, hChunk, hLoad, hRest⟩ := hl
    rw [flat_cons, List.length_append] at hFit
    obtain ⟨s₁, hStore, hRetains₁, hBuffer₁⟩ := hBuffer.store x.bytes (by omega) hNew hRetains
    obtain ⟨s₂, hRun, hRetains₂, hBuffer₂⟩ := ih hRest hRetains₁ hBuffer₁
      (by rw [List.length_append]; omega)
      (Nat.lt_of_succ_lt_succ hFuel)
    refine ⟨s₂, ?_, hRetains₂, by rwa [flat_cons, ← List.append_assoc]⟩
    rw [gather, if_neg hne, bind_ok (getChunkAt_ok hne (by rw [hRetains.chunks, hChunk])),
      bind_ok (loadBytes_ok (hRetains.load hLoad)), bind_ok hStore, ← hUsed,
      add64_of_lt (by omega), ← List.length_append, hRun, List.length_append, flat_cons,
      List.length_append, Nat.add_assoc]

theorem contiguous_answered (hAnswer : 2 ≤ l.length →
    ∃ g, P.answer s.memory s.requests (flat l).length 16 = some g)
    (hRetains : Retains m s.memory) (hl : Stored m p l) (hGather : Gatherable l) :
    ∃ data s', contiguous P p s = .ok ((data, (flat l).length), s') ∧ Retains s.memory s'.memory ∧
      s'.memory.load data 0 (flat l).length = some (flat l) ∧
      ((flat l).length = 0 ∨ m.blocks data ≠ none ∨ s.memory.blocks data = none) := by
  have hl' := hRetains.stored hl
  cases l with
  | nil =>
    obtain rfl : p = 0 := hl
    exact ⟨0, s, by rw [contiguous, if_pos rfl]; rfl, .refl _, rfl, Or.inl rfl⟩
  | cons x l =>
    have hUsed := hl.bytes_length List.mem_cons_self
    obtain ⟨-, hne, hChunk, hLoad, hRest⟩ := id hl'
    cases l with
    | nil =>
      have hOne : flat [x] = x.bytes := by rw [flat_cons, flat_nil, List.append_nil]
      have hLast : x.chunk.next = 0 := hRest
      rw [hOne, hUsed]
      refine ⟨x.chunk.data, s, ?_, .refl _, hLoad, ?_⟩
      · rw [contiguous, if_neg hne, bind_ok (getChunkAt_ok hne hChunk), if_pos hLast]
        rfl
      · by_cases hZero : x.chunk.used = 0
        · exact Or.inl hZero
        · exact Or.inr (Or.inl (load_live hl.2.2.2.1 hZero))
    | cons y l =>
      have hTotal : (flat (x :: y :: l)).length < 2 ^ 64 := by
        rcases hGather with hShort | hBoth
        · simp at hShort
        · exact hBoth.2
      have hFuel : (x :: y :: l).length < s.memory.limit + 1 := Nat.lt_succ_of_le hl'.length_le
      obtain ⟨g, hg⟩ := hAnswer (by simp)
      obtain ⟨data, s₁, hRun, hVacant, hRetains₁, hBuffer₁⟩ := allocBlock_answered hg
      have hTotalRun : totalSize _ p 0 s = .ok (0 + _, s) :=
        totalSize_stored hl' hFuel (by rwa [Nat.zero_add])
      have hFuel₁ : (x :: y :: l).length < s₁.memory.limit + 1 :=
        Nat.lt_of_lt_of_le hFuel (Nat.succ_le_succ hRetains₁.limit)
      obtain ⟨s₂, hGathered, hRetains₂, hBuffer₂⟩ :=
        gather_ok hl' hRetains₁ hVacant.2.2.2 hBuffer₁ (by simp) hTotal hFuel₁
      rw [List.length_nil, Nat.zero_add] at hGathered
      rw [Nat.zero_add] at hTotalRun
      refine ⟨data, s₂, ?_, hRetains₂, hBuffer₂.bytes, Or.inr (Or.inr hVacant.2.2.2)⟩
      rw [contiguous, if_neg hne, bind_ok (getChunkAt_ok hne hChunk), if_neg (hRest.1 ▸ hRest.2.1),
        bind_ok steps_ok, bind_ok hTotalRun, bind_ok hRun, if_neg hVacant.ne_zero, bind_ok steps_ok,
        bind_ok hGathered]
      rfl

theorem contiguous_refused (hLong : 2 ≤ l.length)
    (h : P.answer s.memory s.requests (flat l).length 16 = none)
    (hl : Stored s.memory p l) (hTotal : (flat l).length < 2 ^ 64) :
    contiguous P p s = .error (.exit eNOMEM) := by
  have hSize : totalSize (s.memory.limit + 1) p 0 s = .ok (0 + (flat l).length, s) :=
    totalSize_stored hl (Nat.lt_succ_of_le hl.length_le) (by rwa [Nat.zero_add])
  rw [Nat.zero_add] at hSize
  obtain ⟨x, y, l, rfl⟩ : ∃ x y l', l = x :: y :: l' := by
    cases l with
    | nil => simp at hLong
    | cons x l =>
      cases l with
      | nil => simp at hLong
      | cons y l => exact ⟨x, y, l, rfl⟩
  obtain ⟨-, hne, hChunk, -, hRest⟩ := hl
  rw [contiguous, if_neg hne, bind_ok (getChunkAt_ok hne hChunk), if_neg (hRest.1 ▸ hRest.2.1),
    bind_ok steps_ok, bind_ok hSize, bind_ok (allocBlock_null h), if_pos rfl]
  rfl

theorem contiguous_cases (P : Platform) (hRetains : Retains m s.memory) (hl : Stored m p l)
    (hGather : Gatherable l) :
    (∃ data s', contiguous P p s = .ok ((data, (flat l).length), s') ∧ Retains s.memory s'.memory ∧
      s'.memory.load data 0 (flat l).length = some (flat l) ∧
      ((flat l).length = 0 ∨ m.blocks data ≠ none ∨ s.memory.blocks data = none)) ∨
    contiguous P p s = .error (.exit eNOMEM) ∧ 0 < (flat l).length ∧
      P.answer s.memory s.requests (flat l).length 16 = none := by
  cases hAnswer : P.answer s.memory s.requests (flat l).length 16 with
  | some g => exact Or.inl (contiguous_answered (fun _ => ⟨g, hAnswer⟩) hRetains hl hGather)
  | none =>
    rcases hGather with hShort | ⟨hPos, hTotal⟩
    · exact Or.inl (contiguous_answered (fun hLong => by omega) hRetains hl (Or.inl hShort))
    · by_cases hLong : 2 ≤ l.length
      · exact Or.inr ⟨contiguous_refused hLong hAnswer (hRetains.stored hl) hTotal, hPos, rfl⟩
      · exact Or.inl
          (contiguous_answered (fun h => absurd h hLong) hRetains hl (Or.inr ⟨hPos, hTotal⟩))

theorem contiguous_ok (hGrants : P.Grants) (hRetains : Retains m s.memory) (hl : Stored m p l)
    (hGather : Gatherable l) :
    ∃ data s', contiguous P p s = .ok ((data, (flat l).length), s') ∧ Retains s.memory s'.memory ∧
      s'.memory.load data 0 (flat l).length = some (flat l) ∧
      ((flat l).length = 0 ∨ m.blocks data ≠ none ∨ s.memory.blocks data = none) := by
  refine (contiguous_cases P hRetains hl hGather).resolve_right ?_
  rintro ⟨-, hPos, hNone⟩
  obtain ⟨g, hg⟩ := hGrants s.memory s.requests _ 16 hPos
  rw [hNone] at hg
  cases hg

end Contents

end Dandelion.FileSystem
